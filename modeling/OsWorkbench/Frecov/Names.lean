import OsWorkbench.Frecov.Entries

/-!
# Names

Groups of entries that spell a name in the order of VFAT, the last piece first. The scan takes
the pieces as they come on a stack and reads them off it in reverse, so that the name comes out
in order. A slot of `file` is claimed with the first piece and given back where the file is not
kept, and `top` is 0 after every group.
-/

namespace OsWorkbench.Frecov

/-! ## The stack -/

/-- Only the first 13 bytes of a row are ever written. -/
def Blank (buf : Nat → Nat → UInt8) : Prop := ∀ t j, 13 ≤ j → buf t j = 0

/-- The top rows of the stack, read from the top down, hold a text. -/
inductive Holds (buf : Nat → Nat → UInt8) : Nat → List UInt8 → Prop
  | empty : Holds buf 0 []
  | piece {t : Nat} {cs : CStr} {text : List UInt8} :
      t < bufRows → rowString (buf t) = .ok cs → Holds buf t text →
      Holds buf (t + 1) (cs.bytes ++ text)

section Stack

variable {buf : Nat → Nat → UInt8} {top : Nat} {text : List UInt8}

theorem Holds.update (h : Holds buf top text) {k : Nat} (hk : top ≤ k) (row : Nat → UInt8) :
    Holds (Function.update buf k row) top text := by
  induction h with
  | empty => exact .empty
  | piece ht hrow hrest ih =>
    refine .piece ht ?_ (ih (Nat.le_of_succ_le hk))
    rwa [Function.update_of_ne (Nat.ne_of_lt hk)]

theorem Holds.pop (h : Holds buf top text) {name : CStr}
    (hlen : name.length + text.length < nameLength) (hnul : 0 ∉ text) :
    popPieces buf top name = .ok (name.append ⟨text, hnul⟩) := by
  induction h generalizing name with
  | empty => exact congrArg Except.ok (CStr.ext (List.append_nil _).symm)
  | @piece t cs text ht hrow hrest ih =>
    rw [List.length_append] at hlen
    have hcs : cs.bytes.length = cs.length := rfl
    have hcat : strcat name cs = .ok (name.append cs) := by
      rw [strcat, inBounds_bind (by omega)]
      rfl
    have hnul' : 0 ∉ text := fun h0 => hnul (List.mem_append_right _ h0)
    rw [popPieces, inBounds_bind ht, hrow, ok_bind, hcat, ok_bind,
      ih (by rw [CStr.length_append]; omega) hnul']
    exact congrArg Except.ok (CStr.ext (List.append_assoc _ _ _))

end Stack

/-! ## Pieces of a name -/

/-- The 13 characters of the piece with the letters `cs`. -/
def pieceUnits (cs : List UInt8) : List (UInt8 × UInt8) :=
  cs.map (fun c => (c, 0)) ++ (if cs.length < 13 then [(0, 0)] else []) ++
    List.replicate (12 - cs.length) (0xff, 0xff)

/-- The entries hold the pieces of a name, the last one first. -/
inductive Spells : List Entry → List UInt8 → Prop
  | last {e : Entry} {cs : List UInt8} :
      e.IsLong → 0 < cs.length → cs.length ≤ 13 → e.units = pieceUnits cs → Spells [e] cs
  | more {e : Entry} {es : List Entry} {cs name : List UInt8} :
      e.IsLong → cs.length = 13 → e.units = pieceUnits cs → Spells es name →
      Spells (es ++ [e]) (cs ++ name)

theorem Spells.length_le {es : List Entry} {name : List UInt8} (h : Spells es name) :
    13 * es.length ≤ name.length + 12 := by
  induction h with
  | last _ hpos _ _ =>
    rw [List.length_singleton]
    omega
  | more _ hlen _ _ ih =>
    rw [List.length_append, List.length_append, List.length_singleton, hlen]
    omega

/-- The row that a piece is copied to. -/
theorem rowString_row {e : Entry} {cs : List UInt8} {old : Nat → UInt8}
    (hunits : e.units = pieceUnits cs) (hlen : cs.length ≤ 13) (hnul : 0 ∉ cs)
    (hold : ∀ j, 13 ≤ j → old j = 0) : rowString (e.row old) = .ok ⟨cs, hnul⟩ := by
  set rest : List UInt8 :=
    (if cs.length < 13 then [0] else []) ++ List.replicate (12 - cs.length) 0xff with hrest
  have hletters : e.letters = cs ++ rest := by
    have hfst : e.letters = (pieceUnits cs).map Prod.fst := by
      rw [← hunits, Entry.letters, Entry.units, List.map_map]
      rfl
    rw [hfst, pieceUnits, hrest, List.append_assoc, List.map_append, List.map_append, List.map_map,
      List.map_replicate, apply_ite (List.map Prod.fst)]
    congr 1
    exact List.map_id cs
  have hget : ∀ i, i < cs.length → e.row old i = cs.getD i 0 := by
    intro i hi
    rw [Entry.row, if_pos (by omega), hletters, List.getD_append _ _ _ _ hi]
  have hend : e.row old cs.length = 0 := by
    rw [Entry.row]
    split
    · next hlt =>
      rw [hletters, List.getD_append_right _ _ _ _ le_rfl, Nat.sub_self, hrest, if_pos hlt]
      rfl
    · next hge => exact hold _ (by omega)
  have hsmall : cs.length < nameLength := by
    unfold nameLength
    omega
  rw [rowString, inBounds_bind ⟨cs.length, hsmall, hend⟩]
  exact congrArg Except.ok (CStr.ofBuf_eq_iff hsmall |>.mpr ⟨hget, hend⟩)

/-! ## One group -/

/-- The entries of a file: the pieces of its name and a short entry. -/
structure Group where
  name : List UInt8
  ascii : ∀ c ∈ name, 0 < c ∧ c < 128
  length_le : name.length ≤ 255
  longs : List Entry
  spells : Spells longs name
  short : Entry
  notLong : ¬short.IsLong

namespace Group

theorem noNul (g : Group) : 0 ∉ g.name := fun h => absurd (g.ascii 0 h).1 (lt_irrefl 0)

def str (g : Group) : CStr := ⟨g.name, g.noNul⟩

def entries (g : Group) : List Entry := g.longs ++ [g.short]

end Group

/-- Between the groups: `n` files are kept, and the other slots have no name. -/
structure Idle (n : Nat) (s : Scan) : Prop where
  top : s.top = 0
  totFile : s.totFile = n
  blank : Blank s.buf
  unnamed : ∀ i, n ≤ i → (s.file i).filename = noName

/-- In a group: the text of the pieces is on the stack. -/
structure Reading (s t : Scan) (k : Nat) (text : List UInt8) : Prop where
  top : t.top = k
  totFile : t.totFile = s.totFile + 1
  file : t.file = s.file
  blank : Blank t.buf
  holds : Holds t.buf k text

theorem Blank.push {s : Scan} (h : Blank s.buf) (e : Entry) : Blank (s.push e).buf := by
  intro t j hj
  show Function.update s.buf s.top (e.row (s.buf s.top)) t j = 0
  by_cases ht : t = s.top
  · rw [ht, Function.update_self, Entry.row, if_neg (not_lt.mpr hj), h _ _ hj]
  · rw [Function.update_of_ne ht, h _ _ hj]

section Runs

variable (sectorSize : Int) {s : Scan} {n : Nat}

theorem Reading.push {t : Scan} {k : Nat} {text : List UInt8} (h : Reading s t k text) {e : Entry}
    {cs : List UInt8} (hk : k < bufRows) (hk0 : k ≠ 0) (he : e.IsLong) (hlen : cs.length = 13)
    (hunits : e.units = pieceUnits cs) (hnul : 0 ∉ cs) :
    ∃ u, step sectorSize t e = .ok u ∧ Reading s u (k + 1) (cs ++ text) := by
  have htop : t.top ≠ 0 := by rwa [h.top]
  have hclaim : t.claim = t := by rw [Scan.claim, if_neg htop]
  have hrow := rowString_row hunits hlen.le hnul fun j hj => h.blank t.top j hj
  refine ⟨t.push e, ?_, congrArg (· + 1) h.top, h.totFile, h.file, h.blank.push e, ?_⟩
  · rw [step, if_pos he, inBounds_bind (by rwa [h.top]), hclaim]
    rfl
  · have hpushed : rowString ((t.push e).buf k) = .ok ⟨cs, hnul⟩ := by
      show rowString (Function.update t.buf t.top (e.row (t.buf t.top)) k) = _
      rwa [← h.top, Function.update_self]
    exact .piece hk hpushed (h.holds.update h.top.ge _)

/-- The pieces of a name are read. -/
theorem Spells.run {es : List Entry} {name : List UInt8} (h : Spells es name) (hs : Idle n s)
    (hes : es.length ≤ bufRows) (hnul : 0 ∉ name) :
    ∃ t, run (step sectorSize) s es = .ok t ∧ Reading s t es.length name := by
  induction h with
  | @last e cs he hpos hlen hunits =>
    have hrow := rowString_row hunits hlen hnul fun j hj => hs.blank s.top j hj
    have hclaim : s.claim.totFile = s.totFile + 1 := if_pos hs.top
    refine ⟨s.claim.push e, ?_, congrArg (· + 1) hs.top, hclaim, rfl, Blank.push hs.blank e, ?_⟩
    · have hstep : step sectorSize s e = .ok (s.claim.push e) := by
        rw [step, if_pos he, inBounds_bind (by rw [hs.top]; decide)]
        rfl
      rw [OsWorkbench.run, hstep, ok_bind]
      rfl
    · have hpushed : rowString ((s.claim.push e).buf 0) = .ok ⟨cs, hnul⟩ := by
        show rowString (Function.update s.buf s.top _ 0) = _
        rw [hs.top, Function.update_self]
        exact hrow
      have hcs := Holds.piece (by decide) hpushed .empty
      rwa [List.append_nil] at hcs
  | @more e es cs name he hlen hunits hspells ih =>
    rw [List.length_append, List.length_singleton] at hes
    obtain ⟨t, hrun, ht⟩ := ih (Nat.le_of_succ_le hes) fun h0 => hnul (List.mem_append_right _ h0)
    have hne : es.length ≠ 0 := by
      cases hspells with
      | last => exact Nat.one_ne_zero
      | more => simp
    obtain ⟨u, hstep, hu⟩ := ht.push sectorSize hes hne he hlen hunits
      fun h0 => hnul (List.mem_append_left _ h0)
    refine ⟨u, ?_, ?_⟩
    · rw [run_snoc hrun, hstep]
    · rwa [List.length_append, List.length_singleton]

end Runs

/-! ## Many groups -/

/-- The slot of a file that was kept. -/
structure Describes (f : MyFile) (g : Group) : Prop where
  filename : f.filename = g.str
  position : f.position = toInt g.short.startCluster
  filesize : f.filesize = toInt g.short.fileSize

/-- The scan is between two groups and has kept the files `gs`. -/
structure Recovered (gs : List Group) (s : Scan) : Prop where
  idle : Idle gs.length s
  files : ∀ i g, gs[i]? = some g → Describes (s.file i) g

/-- What stands in a row of entries: a group, or a short entry of its own. -/
inductive Item
  | group (g : Group)
  | lone (e : Entry) (h : ¬e.IsLong)

namespace Item

def entries : Item → List Entry
  | group g => g.entries
  | lone e _ => [e]

/-- The group, if there is one. -/
def group? : Item → Option Group
  | group g => some g
  | lone _ _ => none

end Item

/-- The groups of a row. -/
def groups (items : List Item) : List Group := items.filterMap Item.group?

/-- The groups whose file is kept. -/
def kept (sectorSize : Int) (items : List Item) : List Group :=
  (groups items).filter fun g => decide (g.short.Kept sectorSize)

section Many

variable (sectorSize : Int) {s : Scan} {gs : List Group}

theorem recovered_start : Recovered [] Scan.start where
  idle := ⟨rfl, rfl, fun _ _ _ => rfl, fun _ _ => rfl⟩
  files i g h := by cases h

theorem Recovered.lone (h : Recovered gs s) {e : Entry} (he : ¬e.IsLong) :
    step sectorSize s e = .ok s := by
  rw [step, if_neg he, if_pos h.idle.top]

/-- The short entry of a group. -/
theorem Reading.close {t : Scan} {k : Nat} (hs : Recovered gs s) {g : Group}
    (ht : Reading s t k g.name) (hk : k ≠ 0) (hroom : gs.length < fileLength) :
    ∃ u, step sectorSize t g.short = .ok u ∧
      Recovered (if g.short.Kept sectorSize then gs ++ [g] else gs) u := by
  have hindex : index (t.totFile - 1) fileLength = .ok gs.length := by
    rw [ht.totFile, hs.idle.totFile, Int.add_sub_cancel, index_nat hroom]
  have hpop : popPieces t.buf t.top (t.file gs.length).filename = .ok g.str := by
    have hshort : noName.length + g.name.length < nameLength := by
      have := g.length_le
      show 0 + g.name.length < nameLength
      unfold nameLength
      omega
    rw [ht.top, ht.file, hs.idle.unnamed _ le_rfl, ht.holds.pop hshort g.noNul]
    rfl
  have htop : t.top ≠ 0 := by rwa [ht.top]
  refine ⟨t.close sectorSize gs.length g.str g.short, ?_, ?_⟩
  · rw [step, if_neg g.notLong, if_neg htop, hindex, ok_bind, hpop, ok_bind]
    rfl
  have hother : ∀ i, i ≠ gs.length →
      (t.close sectorSize gs.length g.str g.short).file i = s.file i := by
    intro i hi
    rw [← ht.file]
    exact Function.update_of_ne hi _ _
  have hself : (t.close sectorSize gs.length g.str g.short).file gs.length =
      t.found sectorSize gs.length g.str g.short := Function.update_self _ _ _
  have hfiles : ∀ i h, gs[i]? = some h →
      Describes ((t.close sectorSize gs.length g.str g.short).file i) h := by
    intro i h hi
    have hlt := (List.getElem?_eq_some_iff.mp hi).1
    rw [hother i (Nat.ne_of_lt hlt)]
    exact hs.files i h hi
  by_cases hkept : g.short.Kept sectorSize
  · rw [if_pos hkept]
    refine ⟨⟨rfl, ?_, ht.blank, fun i hi => ?_⟩, fun i h hi => ?_⟩
    · rw [Scan.close_totFile_of_kept hkept, ht.totFile, hs.idle.totFile, List.length_append,
        List.length_singleton]
      push_cast
      rfl
    · rw [List.length_append, List.length_singleton] at hi
      rw [hother i (Nat.ne_of_gt hi)]
      exact hs.idle.unnamed i (Nat.le_of_succ_le hi)
    · rcases Nat.lt_or_ge i gs.length with hlt | hge
      · rw [List.getElem?_append_left hlt] at hi
        exact hfiles i h hi
      · rw [List.getElem?_append_right hge, List.getElem?_singleton] at hi
        split at hi
        · next h0 =>
          cases hi
          have hi : i = gs.length := by omega
          rw [hi, hself]
          exact ⟨Scan.found_filename_of_kept hkept, Scan.found_position, Scan.found_filesize⟩
        · cases hi
  · rw [if_neg hkept]
    refine ⟨⟨rfl, ?_, ht.blank, fun i hi => ?_⟩, hfiles⟩
    · rw [Scan.close_totFile_of_not_kept hkept, ht.totFile, hs.idle.totFile, Int.add_sub_cancel]
    · rcases Nat.eq_or_lt_of_le hi with rfl | hlt
      · rw [hself, Scan.found_filename_of_not_kept hkept]
      · rw [hother i (Nat.ne_of_gt hlt)]
        exact hs.idle.unnamed i hi

theorem Spells.ne_nil {es : List Entry} {name : List UInt8} (h : Spells es name) :
    es.length ≠ 0 := by
  cases h with
  | last => exact Nat.one_ne_zero
  | more => simp

/-- A whole group. -/
theorem Recovered.group (h : Recovered gs s) (g : Group) (hroom : gs.length < fileLength) :
    ∃ u, run (step sectorSize) s g.entries = .ok u ∧
      Recovered (if g.short.Kept sectorSize then gs ++ [g] else gs) u := by
  have hes : g.longs.length ≤ bufRows := by
    have hle := g.spells.length_le
    have := g.length_le
    unfold bufRows
    omega
  obtain ⟨t, hrun, ht⟩ := g.spells.run sectorSize h.idle hes g.noNul
  obtain ⟨u, hstep, hu⟩ := ht.close sectorSize h g.spells.ne_nil hroom
  exact ⟨u, by rw [Group.entries, run_snoc hrun, hstep], hu⟩

/-- Any row of groups and lone entries. -/
theorem Recovered.items (h : Recovered gs s) (items : List Item)
    (hroom : gs.length + (groups items).length ≤ fileLength) :
    ∃ u, run (step sectorSize) s (items.flatMap Item.entries) = .ok u ∧
      Recovered (gs ++ kept sectorSize items) u := by
  induction items generalizing gs s with
  | nil =>
    exact ⟨s, rfl, by rwa [kept, groups, List.filterMap_nil, List.filter_nil, List.append_nil]⟩
  | cons item items ih =>
    cases item with
    | lone e he =>
      obtain ⟨u, hrun, hu⟩ := ih h hroom
      exact ⟨u, run_cons.mpr ⟨s, h.lone sectorSize he, hrun⟩, hu⟩
    | group g =>
      have hcount : (groups (.group g :: items)).length = (groups items).length + 1 := rfl
      obtain ⟨t, hrun, ht⟩ := h.group sectorSize g (by omega)
      by_cases hkept : g.short.Kept sectorSize
      · rw [if_pos hkept] at ht
        obtain ⟨u, hrest, hu⟩ := ih ht (by rw [List.length_append, List.length_singleton]; omega)
        refine ⟨u, run_append.mpr ⟨t, hrun, hrest⟩, ?_⟩
        have hlist : kept sectorSize (.group g :: items) = g :: kept sectorSize items :=
          List.filter_cons_of_pos (decide_eq_true hkept)
        rwa [hlist, ← List.singleton_append, ← List.append_assoc]
      · rw [if_neg hkept] at ht
        obtain ⟨u, hrest, hu⟩ := ih ht (by omega)
        refine ⟨u, run_append.mpr ⟨t, hrun, hrest⟩, ?_⟩
        have hlist : kept sectorSize (.group g :: items) = kept sectorSize items :=
          List.filter_cons_of_neg (by simpa using hkept)
        rwa [hlist]

end Many

/-- The scan recovers exactly the files of the groups that are kept, in order, each with its whole
name, its start cluster and its size, and the stack is empty behind it. -/
theorem scan_groups {sectorSize : Int} (hsize : 0 < sectorSize) (items : List Item)
    (hcount : (groups items).length < 512) :
    ∃ s, readEntries (image (items.flatMap Item.entries)) sectorSize
        (items.flatMap Item.entries).length 0 Scan.start = .ok s ∧
      s.top = 0 ∧ s.totFile = (kept sectorSize items).length ∧
      ∀ i g, (kept sectorSize items)[i]? = some g →
        (s.file i).filename.bytes = g.name ∧ (s.file i).position = toInt g.short.startCluster ∧
          (s.file i).filesize = toInt g.short.fileSize := by
  have hroom : ([] : List Group).length + (groups items).length ≤ fileLength := by
    rw [List.length_nil]
    unfold fileLength
    omega
  obtain ⟨s, hrun, hs⟩ := recovered_start.items sectorSize items hroom
  refine ⟨s, ?_, hs.idle.top, hs.idle.totFile, fun i g hi => ?_⟩
  · rw [← hrun]
    exact readEntries_eq_run hsize [] _ _
  · have hg := hs.files i g hi
    exact ⟨congrArg CStr.bytes hg.filename, hg.position, hg.filesize⟩

/-- The piece of the name `"a"`. -/
def longA : Entry where
  bytes := [0x41, 97, 0, 0, 0] ++ List.replicate 6 0xff ++ [0x0f, 0, 0] ++ List.replicate 12 0xff ++
    [0, 0] ++ List.replicate 4 0xff
  size := rfl

/-- A short entry for 600 bytes from cluster 5 on. -/
def shortA : Entry where
  bytes := List.replicate 26 0 ++ [5, 0, 0x58, 2, 0, 0]
  size := rfl

/-- The file `"a"`. -/
def groupA : Group where
  name := [97]
  ascii := by simp
  length_le := by decide
  longs := [longA]
  spells := .last (by decide +kernel) (by decide) (by decide) (by decide +kernel)
  short := shortA
  notLong := by decide +kernel

/-- A short entry at a cluster that is too far away. -/
def shortFar : Entry where
  bytes := List.replicate 20 0 ++ [1, 0, 0, 0, 0, 0, 5, 0, 0x58, 2, 0, 0]
  size := rfl

/-- A file that is not kept. -/
def groupFar : Group where
  name := [97]
  ascii := by simp
  length_le := by decide
  longs := [longA]
  spells := .last (by decide +kernel) (by decide) (by decide) (by decide +kernel)
  short := shortFar
  notLong := by decide +kernel

/-- The last piece of the name `"abcdefghijklmno"`, and the first one. -/
def longNo : Entry where
  bytes := [0x42, 110, 0, 111, 0, 0, 0] ++ List.replicate 4 0xff ++ [0x0f, 0, 0] ++
    List.replicate 12 0xff ++ [0, 0] ++ List.replicate 4 0xff
  size := rfl

def longAm : Entry where
  bytes := [0x01, 97, 0, 98, 0, 99, 0, 100, 0, 101, 0, 0x0f, 0, 0, 102, 0, 103, 0, 104, 0, 105, 0,
    106, 0, 107, 0, 0, 0, 108, 0, 109, 0]
  size := rfl

/-- The file `"abcdefghijklmno"`. -/
def groupAo : Group where
  name := [97, 98, 99, 100, 101, 102, 103, 104, 105, 106, 107, 108, 109] ++ [110, 111]
  ascii := by simp
  length_le := by decide
  longs := [longNo, longAm]
  spells :=
    have hlast : Spells [longNo] [110, 111] :=
      .last (by decide +kernel) (by decide) (by decide) (by decide +kernel)
    .more (by decide +kernel) (by decide) (by decide +kernel) hlast
  short := shortA
  notLong := by decide +kernel

/-- A lone entry, a file that is not kept, and two files. -/
theorem scan_groups_four :
    ∃ s, readEntries (image [shortA, longA, shortFar, longNo, longAm, shortA, longA, shortA]) 512 8
        0 Scan.start = .ok s ∧ s.top = 0 ∧ s.totFile = 2 ∧
      (s.file 0).filename.bytes = groupAo.name ∧ (s.file 0).position = 5 ∧
        (s.file 0).filesize = 600 ∧ (s.file 1).filename.bytes = [97] := by
  have hsize : (0 : Int) < 512 := by decide
  obtain ⟨s, hrun, htop, htot, hfiles⟩ := scan_groups hsize
    [.lone shortA groupA.notLong, .group groupFar, .group groupAo, .group groupA] (by decide)
  have hshort : groupA.short.Kept 512 := by decide +kernel
  have hshort' : groupAo.short.Kept 512 := hshort
  have hfar : ¬groupFar.short.Kept 512 := by decide +kernel
  have hkept : kept 512 [.lone shortA groupA.notLong, .group groupFar, .group groupAo,
      .group groupA] = [groupAo, groupA] := by
    show List.filter _ [groupFar, groupAo, groupA] = _
    rw [List.filter_cons_of_neg (by simpa using hfar),
      List.filter_cons_of_pos (by simpa using hshort'),
      List.filter_cons_of_pos (by simpa using hshort), List.filter_nil]
  rw [hkept] at htot hfiles
  obtain ⟨hname, hposition, hfilesize⟩ := hfiles 0 groupAo rfl
  obtain ⟨hname', -, -⟩ := hfiles 1 groupA rfl
  exact ⟨s, hrun, htop, htot, hname, hposition.trans (by decide), hfilesize.trans (by decide),
    hname'⟩

end OsWorkbench.Frecov
