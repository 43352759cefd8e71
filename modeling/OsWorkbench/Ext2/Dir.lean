import OsWorkbench.Ext2.Volume

/-!
# Directories

The entries of a directory, in the order in which `ext2_readdir` counts them, and what
filling one slot of a block does to them.
-/

namespace OsWorkbench.Ext2

/-- The entry in slot `j`, if it has an inode. -/
def slot (b : Block) (j : Nat) : Option Entry :=
  if dirInode b j = 0 then none else some ⟨dirName b j, dirInode b j, dirMode b j⟩

def blockEntries (b : Block) : List Entry := (List.range dirAmut).filterMap (slot b)

/-- The entries of the directory with the inode `x`. -/
def entries (v : Vol) (x : Inode) : List Entry :=
  (List.range x.blocks.toNat).flatMap fun k => blockEntries (v.block (x.blk k))

/-- The name of every entry ends inside of the entry. -/
def Terminated (b : Block) : Prop :=
  ∀ j, j < dirAmut → dirInode b j ≠ 0 → 12 + (dirName b j).length < dirSize

/-- The inode has blocks of the data area. -/
structure HasBlocks (x : Inode) : Prop where
  le : x.blocks.toNat ≤ ext2NBlocks
  isBlock : ∀ k, k < x.blocks.toNat → IsBlock (x.blk k)

theorem slot_eq_none {b : Block} {j : Nat} : slot b j = none ↔ dirInode b j = 0 := by
  unfold slot
  split <;> simp_all

theorem slot_of_ne {b : Block} {j : Nat} (h : dirInode b j ≠ 0) :
    slot b j = some ⟨dirName b j, dirInode b j, dirMode b j⟩ := if_neg h

/-! ## Listing -/

/-- The scan stops at the entry it was asked for, or has counted all of them. -/
theorem readdirScan_spec (b : Block) (m : Nat) (ks : List Nat) (cnt : Nat) :
    (∃ c k e, readdirScan b (cnt + 1 + m) ks cnt = (c, some k) ∧ k ∈ ks ∧ slot b k = some e ∧
      (ks.filterMap (slot b))[m]? = some e) ∨
    ((ks.filterMap (slot b)).length ≤ m ∧
      readdirScan b (cnt + 1 + m) ks cnt = (cnt + (ks.filterMap (slot b)).length, none)) := by
  induction ks generalizing cnt m with
  | nil => exact .inr ⟨Nat.zero_le _, rfl⟩
  | cons k ks ih =>
    by_cases hk : dirInode b k = 0
    · rw [readdirScan, if_pos hk, List.filterMap_cons_none (slot_eq_none.mpr hk)]
      refine (ih m cnt).imp_left ?_
      rintro ⟨c, k', e, hs, hin, he⟩
      exact ⟨c, k', e, hs, List.mem_cons_of_mem _ hin, he⟩
    · rw [readdirScan, if_neg hk, List.filterMap_cons_some (slot_of_ne hk)]
      cases m with
      | zero =>
        rw [if_pos rfl]
        exact .inl ⟨_, k, _, rfl, List.mem_cons_self, slot_of_ne hk, rfl⟩
      | succ m =>
        rw [if_neg (by omega), show cnt + 1 + (m + 1) = cnt + 1 + 1 + m by omega]
        rcases ih m (cnt + 1) with ⟨c, k', e, hs, hin, he, hget⟩ | ⟨hlen, hs⟩
        · exact .inl ⟨c, k', e, hs, List.mem_cons_of_mem _ hin, he, by simpa using hget⟩
        · refine .inr ⟨by simpa using hlen, ?_⟩
          rw [hs, List.length_cons, Nat.add_right_comm, Nat.add_assoc]

/-- The names of the blocks from `i` on can be read. -/
def Readable (v : Vol) (x : Inode) (i n : Nat) : Prop :=
  ∀ k, i ≤ k → k < i + n → k < ext2NBlocks ∧ IsBlock (x.blk k) ∧ Terminated (v.block (x.blk k))

theorem blockScan_spec (b : Block) (m cnt : Nat) :
    (∃ c k e, readdirScan b (cnt + 1 + m) (List.range dirAmut) cnt = (c, some k) ∧ k < dirAmut ∧
      slot b k = some e ∧ (blockEntries b)[m]? = some e) ∨
    ((blockEntries b).length ≤ m ∧
      readdirScan b (cnt + 1 + m) (List.range dirAmut) cnt =
        (cnt + (blockEntries b).length, none)) := by
  refine (readdirScan_spec b m (List.range dirAmut) cnt).imp_left ?_
  rintro ⟨c, k, e, hs, hin, he⟩
  exact ⟨c, k, e, hs, List.mem_range.mp hin, he⟩

theorem readdirBlocks_spec {s : Fs} (h : s.dev.Room) {n i cnt m : Nat}
    (hx : Readable s.dev.vol s.ind i n) :
    ∃ s', readdirBlocks (cnt + 1 + m) n i cnt s =
      .ok (((List.range' i n).flatMap fun k => blockEntries (s.dev.vol.block (s.ind.blk k)))[m]?,
        s') := by
  induction n generalizing i cnt m s with
  | zero => exact ⟨s, rfl⟩
  | succ n ih =>
    obtain ⟨hi, hb, hterm⟩ := hx i le_rfl (by omega)
    rw [readdirBlocks, inBounds_bind hi, rdDir_ok h hb, ok_bind]
    rw [List.range'_succ, List.flatMap_cons]
    rcases blockScan_spec (s.dev.vol.block (s.ind.blk i)) m cnt
      with ⟨c, k, e, hs, hk, he, hget⟩ | ⟨hlen, hs⟩
    · have hlive : dirInode (s.dev.vol.block (s.ind.blk i)) k ≠ 0 := by
        rw [Ne, ← slot_eq_none, he]
        simp
      have hname := hterm k hk hlive
      rw [slot_of_ne hlive] at he
      rw [List.getElem?_append_left (List.getElem?_eq_some_iff.mp hget).1, hget, ← he]
      simp only [hs]
      rw [inBounds_bind (by
        unfold dirSize dirAmut blkSize maxNameLength at *
        omega)]
      exact ⟨_, rfl⟩
    · obtain ⟨m', rfl⟩ := Nat.exists_eq_add_of_le hlen
      have hnext : Readable s.dev.vol s.ind (i + 1) n := fun k hk hk' => hx k (by omega) (by omega)
      have hkth : cnt + 1 + ((blockEntries (s.dev.vol.block (s.ind.blk i))).length + m') =
          cnt + (blockEntries (s.dev.vol.block (s.ind.blk i))).length + 1 + m' := by omega
      simp only [hs]
      rw [hkth, List.getElem?_append_right (Nat.le_add_right _ _), Nat.add_sub_cancel_left]
      exact ih (s := { s with dir := s.dev.vol.block (s.ind.blk i) }) h hnext

/-- `ext2_readdir` lists the entries. -/
def Lists (s : Fs) (i : UInt32) (es : List Entry) : Prop :=
  ∀ k, ∃ s', readdir s i (k + 1) = .ok (es[k]?, s')

theorem lists_entries {s : Fs} (h : s.dev.Room) {i : UInt32} (hi : IsInode i)
    (hx : HasBlocks (s.dev.vol.inode i))
    (ht : ∀ k, k < (s.dev.vol.inode i).blocks.toNat →
      Terminated (s.dev.vol.block ((s.dev.vol.inode i).blk k))) :
    Lists s i (entries s.dev.vol (s.dev.vol.inode i)) := by
  intro k
  have hread : Readable s.dev.vol (s.dev.vol.inode i) 0 (s.dev.vol.inode i).blocks.toNat := by
    intro j _ hj
    rw [Nat.zero_add] at hj
    exact ⟨hj.trans_le hx.le, hx.isBlock j hj, ht j hj⟩
  rw [readdir, rdInd_ok h hi, ok_bind, entries, List.range_eq_range', ← Nat.zero_add (k + 1),
    Nat.add_comm k 1, ← Nat.add_assoc]
  exact readdirBlocks_spec (s := { s with ind := s.dev.vol.inode i }) h hread

/-! ## Filling a slot -/

/-- The blocks agree outside of slot `j`. -/
def SameElse (b b' : Block) (j : Nat) : Prop :=
  ∀ p, p < dirSize * j ∨ dirSize * (j + 1) ≤ p → b'.get p = b.get p

/-- The numbers in front of `i` and those behind it. -/
theorem range_split {n i : Nat} (h : i < n) :
    List.range n = List.range i ++ i :: List.range' (i + 1) (n - (i + 1)) := by
  have happ := List.range'_append_1 (s := 0) (m := i) (n := n - (i + 1) + 1)
  rw [Nat.zero_add, show i + (n - (i + 1) + 1) = n by omega, List.range'_succ] at happ
  rw [List.range_eq_range', List.range_eq_range', happ]

/-- The list has one entry more. -/
def Inserted (l l' : List Entry) (e : Entry) : Prop :=
  ∃ pre post, l = pre ++ post ∧ l' = pre ++ e :: post

namespace Inserted

variable {l l' : List Entry} {e : Entry}

theorem append (h : Inserted l l' e) (l₁ l₂ : List Entry) :
    Inserted (l₁ ++ l ++ l₂) (l₁ ++ l' ++ l₂) e := by
  obtain ⟨pre, post, rfl, rfl⟩ := h
  exact ⟨l₁ ++ pre, post ++ l₂, by simp, by simp⟩

/-- One element of a list of lists gets an entry more. -/
theorem flatMap {f f' : Nat → List Entry} {n i : Nat} (hi : i < n) (h : Inserted (f i) (f' i) e)
    (hsame : ∀ k, k < n → k ≠ i → f' k = f k) :
    Inserted ((List.range n).flatMap f) ((List.range n).flatMap f') e := by
  have hleft : (List.range i).flatMap f' = (List.range i).flatMap f :=
    List.flatMap_congr fun k hk => hsame k ((List.mem_range.mp hk).trans hi)
      (List.mem_range.mp hk).ne
  have hright : (List.range' (i + 1) (n - (i + 1))).flatMap f' =
      (List.range' (i + 1) (n - (i + 1))).flatMap f := by
    refine List.flatMap_congr fun k hk => ?_
    rw [List.mem_range'_1] at hk
    exact hsame k (by omega) (by omega)
  rw [range_split hi, List.flatMap_append, List.flatMap_append, List.flatMap_cons,
    List.flatMap_cons, hleft, hright, ← List.append_assoc, ← List.append_assoc]
  exact h.append _ _

end Inserted

section Slots

variable {b b' : Block} {j k : Nat}

theorem SameElse.dirInode (h : SameElse b b' j) (hk : k ≠ j) : dirInode b' k = dirInode b k := by
  refine Bytes.get32_congr fun q hq => h _ ?_
  unfold dirSize
  omega

theorem SameElse.dirMode (h : SameElse b b' j) (hk : k ≠ j) : dirMode b' k = dirMode b k := by
  refine Bytes.get32_congr fun q hq => h _ ?_
  unfold dirSize
  omega

theorem SameElse.dirName (h : SameElse b b' j) (hk : k ≠ j) (hk16 : k < dirAmut)
    (ht : 12 + (dirName b k).length < dirSize) : dirName b' k = dirName b k := by
  unfold Ext2.dirName dirSize dirAmut at *
  exact Bytes.str_congr (by omega) fun q hq => h _ (by unfold dirSize; omega)

theorem SameElse.slot (h : SameElse b b' j) (ht : Terminated b) (hk : k ≠ j) (hk16 : k < dirAmut) :
    slot b' k = slot b k := by
  unfold Ext2.slot
  rw [h.dirInode hk, h.dirMode hk]
  split
  · rfl
  next hlive => rw [h.dirName hk hk16 (ht k hk16 hlive)]

/-- Filling a free slot adds an entry. -/
theorem SameElse.inserted (h : SameElse b b' j) (ht : Terminated b) (hj : j < dirAmut)
    (hfree : Ext2.dirInode b j = 0) {e : Entry} (he : Ext2.slot b' j = some e) :
    Inserted (blockEntries b) (blockEntries b') e := by
  have hflat : ∀ b : Block, blockEntries b =
      (List.range dirAmut).flatMap fun k => (Ext2.slot b k).toList := by
    intro b
    rw [blockEntries, List.filterMap_eq_flatMap_toList]
  rw [hflat, hflat]
  refine Inserted.flatMap hj ⟨[], [], ?_, ?_⟩ fun k hk hkj => by rw [h.slot ht hkj hk]
  · rw [slot_eq_none.mpr hfree]
    rfl
  · rw [he]
    rfl

theorem SameElse.terminated (h : SameElse b b' j) (ht : Terminated b)
    (hj : 12 + (Ext2.dirName b' j).length < dirSize) : Terminated b' := by
  intro k hk hlive
  by_cases hkj : k = j
  · subst hkj
    exact hj
  · rw [h.dirInode hkj] at hlive
    rw [h.dirName hkj hk (ht k hk hlive)]
    exact ht k hk hlive

/-- A name of at most 19 bytes is stored inside of its entry. -/
theorem fillEntry_ok (b : Block) (hj : j < dirAmut) (idx : UInt32) {name : CStr} (mode : UInt32)
    (hlen : name.length < 20) :
    ∃ b', fillEntry b j idx name mode = .ok b' ∧ SameElse b b' j ∧ Ext2.dirInode b' j = idx ∧
      Ext2.dirMode b' j = mode ∧ Ext2.dirName b' j = name := by
  have hbound : dirSize * j + 12 + name.length < blkSize := by
    unfold dirSize dirAmut blkSize at *
    omega
  refine ⟨_, inBounds_bind hbound, fun p hp => ?_, ?_, ?_, ?_⟩
  · unfold dirSize at hp
    rw [Bytes.get_putStr_other _ _ (by unfold dirSize; omega), setDirNameLen,
      Bytes.get_put32_other _ _ (by unfold dirSize; omega), setDirMode,
      Bytes.get_put32_other _ _ (by unfold dirSize; omega), setDirInode,
      Bytes.get_put32_other _ _ (by unfold dirSize; omega)]
  · rw [Ext2.dirInode, Bytes.get32_putStr_other _ _ (by omega), setDirNameLen,
      Bytes.get32_put32_other _ _ (by omega), setDirMode, Bytes.get32_put32_other _ _ (by omega),
      setDirInode, Bytes.get32_put32 _ _ (by unfold blkSize at hbound; omega)]
  · rw [Ext2.dirMode, Bytes.get32_putStr_other _ _ (by omega), setDirNameLen,
      Bytes.get32_put32_other _ _ (by omega), setDirMode,
      Bytes.get32_put32 _ _ (by unfold blkSize at hbound; omega)]
  · exact Bytes.str_putStr _ hbound

end Slots

/-! ## Blocks with few entries -/

section Clear

variable {b : Block} {j k : Nat}

theorem get_foldl_clear {ks : List Nat} {p : Nat} (h : ∀ k ∈ ks, p < dirSize * k) :
    (ks.foldl (fun b k => setDirInode b k 0) b).get p = b.get p := by
  induction ks generalizing b with
  | nil => rfl
  | cons k ks ih =>
    rw [List.foldl_cons, ih fun k' hk' => h k' (List.mem_cons_of_mem _ hk'), setDirInode,
      Bytes.get_put32_other _ _ (.inl (h k List.mem_cons_self))]

theorem dirInode_foldl_clear {ks : List Nat} (hj : j < dirAmut) :
    dirInode (ks.foldl (fun b k => setDirInode b k 0) b) j =
      if j ∈ ks then 0 else dirInode b j := by
  induction ks generalizing b with
  | nil => rfl
  | cons k ks ih =>
    rw [List.foldl_cons, ih]
    by_cases hks : j ∈ ks
    · rw [if_pos hks, if_pos (List.mem_cons_of_mem _ hks)]
    · rw [if_neg hks]
      by_cases hjk : j = k
      · subst hjk
        rw [if_pos List.mem_cons_self]
        exact Bytes.get32_put32 _ _ (by unfold dirSize dirAmut at *; omega)
      · rw [if_neg (by simp [hjk, hks])]
        exact Bytes.get32_put32_other _ _ (by unfold dirSize; omega)

/-- What is in front of the cleared slots stays. -/
theorem get_clearFrom {p : Nat} (h : p < dirSize * k) : (clearFrom b k).get p = b.get p := by
  refine get_foldl_clear fun k' hk' => ?_
  rw [List.mem_range'_1] at hk'
  unfold dirSize at *
  omega

theorem dirInode_clearFrom (hk : k ≤ j) (hj : j < dirAmut) : dirInode (clearFrom b k) j = 0 := by
  rw [clearFrom, dirInode_foldl_clear hj, if_pos]
  rw [List.mem_range'_1]
  omega

/-- The entries of a block whose slots from `n` on are free. -/
theorem blockEntries_of_clear {n : Nat} (hn : n ≤ dirAmut)
    (h : ∀ j, n ≤ j → j < dirAmut → dirInode b j = 0) :
    blockEntries b = (List.range n).filterMap (slot b) := by
  have happ := List.range'_append_1 (s := 0) (m := n) (n := dirAmut - n)
  rw [Nat.zero_add, Nat.add_sub_cancel' hn] at happ
  rw [blockEntries, List.range_eq_range', ← happ, List.filterMap_append, List.range_eq_range']
  have hnil : (List.range' n (dirAmut - n)).filterMap (slot b) = [] := by
    rw [List.filterMap_eq_nil_iff]
    intro k hk
    rw [List.mem_range'_1] at hk
    exact slot_eq_none.mpr (h k (by omega) (by omega))
  rw [hnil, List.append_nil]

end Clear

/-- A new block of a directory with its first entry. -/
theorem firstEntry_spec (b : Block) {idx : UInt32} (hidx : idx ≠ 0) {name : CStr} (mode : UInt32)
    (hlen : name.length < 20) :
    ∃ b', fillEntry b 0 idx name mode = .ok b' ∧
      blockEntries (clearFrom b' 1) = [⟨name, idx, mode⟩] ∧
      slot (clearFrom b' 1) 0 = some ⟨name, idx, mode⟩ ∧ Terminated (clearFrom b' 1) := by
  obtain ⟨b', hfill, -, hinode, hmode, hname⟩ := fillEntry_ok (j := 0) b (by decide) idx mode hlen
  have hsame : ∀ p, p < 32 → (clearFrom b' 1).get p = b'.get p := fun p hp => get_clearFrom hp
  have hinode' : dirInode (clearFrom b' 1) 0 = idx := by
    rw [← hinode]
    exact Bytes.get32_congr fun q hq => hsame _ (by unfold dirSize; omega)
  have hmode' : dirMode (clearFrom b' 1) 0 = mode := by
    rw [← hmode]
    exact Bytes.get32_congr fun q hq => hsame _ (by unfold dirSize; omega)
  have hname' : dirName (clearFrom b' 1) 0 = name := by
    rw [← hname]
    unfold dirName dirSize at *
    exact Bytes.str_congr (by rw [hname]; omega) fun q hq => hsame _ (by rw [hname] at hq; omega)
  have hslot : slot (clearFrom b' 1) 0 = some ⟨name, idx, mode⟩ := by
    rw [slot_of_ne (by rwa [hinode']), hinode', hmode', hname']
  refine ⟨b', hfill, ?_, hslot, fun j hj hlive => ?_⟩
  · rw [blockEntries_of_clear (n := 1) (by decide) fun j hj hj16 => dirInode_clearFrom hj hj16]
    simp [hslot]
  · have hj0 : j = 0 := by
      by_contra hne
      exact hlive (dirInode_clearFrom (by omega) hj)
    subst hj0
    rw [hname']
    unfold dirSize
    omega

/-! ## The first two entries -/

/-- The block with the names of the first two entries. -/
def withDots (d : Block) : Block := (d.putStr 12 (.lit ".")).putStr 44 (.lit "..")

/-- The words outside of the names stay. -/
theorem get32_withDots (d : Block) {o : Nat} (ho : o + 4 ≤ 12 ∨ 32 ≤ o ∧ o + 4 ≤ 44 ∨ 64 ≤ o) :
    (withDots d).get32 o = d.get32 o := by
  have hlen : (CStr.lit ".").length = 1 ∧ (CStr.lit "..").length = 2 := by decide
  rw [withDots, Bytes.get32_putStr_other _ _ (by omega), Bytes.get32_putStr_other _ _ (by omega)]

theorem dirName_withDots (d : Block) :
    dirName (withDots d) 0 = .lit "." ∧ dirName (withDots d) 1 = .lit ".." := by
  have hstr : (d.putStr 12 (.lit ".")).str 12 = .lit "." := Bytes.str_putStr _ (by decide)
  have hkept : (withDots d).str 12 = (d.putStr 12 (.lit ".")).str 12 := by
    refine Bytes.str_congr (by rw [hstr]; decide) fun q hq => ?_
    rw [hstr, show (CStr.lit ".").length = 1 by decide] at hq
    exact Bytes.get_putStr_other _ _ (by omega)
  exact ⟨hkept.trans hstr, Bytes.str_putStr _ (by decide)⟩

/-- A block with two entries gets their names. -/
theorem withDots_spec {d : Block} (h0 : dirInode d 0 ≠ 0) (h1 : dirInode d 1 ≠ 0)
    (hfree : ∀ j, 2 ≤ j → j < dirAmut → dirInode d j = 0) :
    blockEntries (withDots d) =
      [⟨.lit ".", dirInode d 0, dirMode d 0⟩, ⟨.lit "..", dirInode d 1, dirMode d 1⟩] ∧
      Terminated (withDots d) := by
  obtain ⟨hname0, hname1⟩ := dirName_withDots d
  have hinode0 : dirInode (withDots d) 0 = dirInode d 0 := get32_withDots d (by decide)
  have hinode1 : dirInode (withDots d) 1 = dirInode d 1 := get32_withDots d (by decide)
  have hmode0 : dirMode (withDots d) 0 = dirMode d 0 := get32_withDots d (by decide)
  have hmode1 : dirMode (withDots d) 1 = dirMode d 1 := get32_withDots d (by decide)
  have hclear : ∀ j, 2 ≤ j → j < dirAmut → dirInode (withDots d) j = 0 := by
    intro j hj hj16
    rw [← hfree j hj hj16]
    exact get32_withDots d (by unfold dirSize; omega)
  refine ⟨?_, fun j hj hlive => ?_⟩
  · rw [blockEntries_of_clear (n := 2) (by decide) hclear]
    have hs0 := slot_of_ne (b := withDots d) (j := 0) (by rwa [hinode0])
    have hs1 := slot_of_ne (b := withDots d) (j := 1) (by rwa [hinode1])
    rw [hname0, hinode0, hmode0] at hs0
    rw [hname1, hinode1, hmode1] at hs1
    simp [List.range_succ, hs0, hs1]
  · have hj2 : j < 2 := by
      by_contra hge
      exact hlive (hclear j (by omega) hj)
    rcases Nat.lt_succ_iff_lt_or_eq.mp hj2 with hj1 | rfl
    · obtain rfl : j = 0 := by omega
      rw [hname0]
      decide
    · rw [hname1]
      decide

/-- The block of a new directory, as `ext2_ind_prepare` makes it out of what the buffer
held. -/
def dotBlock (b : Block) (idx par : UInt32) : Block :=
  let dir := setDirInode (setDirInode b 0 idx) 1 par
  let dir := setDirMode (setDirMode dir 1 typeDir) 0 typeDir
  withDots (clearFrom dir 2)

theorem dotBlock_spec (b : Block) {idx par : UInt32} (hidx : idx ≠ 0) (hpar : par ≠ 0) :
    blockEntries (dotBlock b idx par) =
      [⟨.lit ".", idx, typeDir⟩, ⟨.lit "..", par, typeDir⟩] ∧ Terminated (dotBlock b idx par) := by
  let dir := setDirMode (setDirMode (setDirInode (setDirInode b 0 idx) 1 par) 1 typeDir) 0 typeDir
  have hlow : ∀ o, o + 4 ≤ 64 → (clearFrom dir 2).get32 o = dir.get32 o := fun o ho =>
    Bytes.get32_congr fun q hq => get_clearFrom (by unfold dirSize; omega)
  have hinode0 : dirInode (clearFrom dir 2) 0 = idx := by
    refine (hlow _ (by decide)).trans ?_
    show (setDirMode _ _ _).get32 _ = _
    rw [setDirMode, Bytes.get32_put32_other _ _ (by decide), setDirMode,
      Bytes.get32_put32_other _ _ (by decide), setDirInode, Bytes.get32_put32_other _ _ (by decide),
      setDirInode, Bytes.get32_put32 _ _ (by decide)]
  have hinode1 : dirInode (clearFrom dir 2) 1 = par := by
    refine (hlow _ (by decide)).trans ?_
    show (setDirMode _ _ _).get32 _ = _
    rw [setDirMode, Bytes.get32_put32_other _ _ (by decide), setDirMode,
      Bytes.get32_put32_other _ _ (by decide), setDirInode, Bytes.get32_put32 _ _ (by decide)]
  have hmode0 : dirMode (clearFrom dir 2) 0 = typeDir :=
    (hlow _ (by decide)).trans (Bytes.get32_put32 _ _ (by decide))
  have hmode1 : dirMode (clearFrom dir 2) 1 = typeDir := by
    refine (hlow _ (by decide)).trans ?_
    show (setDirMode _ _ _).get32 _ = _
    rw [setDirMode, Bytes.get32_put32_other _ _ (by decide), setDirMode,
      Bytes.get32_put32 _ _ (by decide)]
  have h := withDots_spec (d := clearFrom dir 2) (hinode0 ▸ hidx) (hinode1 ▸ hpar)
    fun j hj hj16 => dirInode_clearFrom hj hj16
  rw [hinode0, hinode1, hmode0, hmode1] at h
  exact h

end OsWorkbench.Ext2
