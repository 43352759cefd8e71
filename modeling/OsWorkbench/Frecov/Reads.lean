import OsWorkbench.Frecov.Names

/-!
# One entry at a time

A step of the scan reads the bytes of an entry that it needs and no others. It succeeds exactly
where these are in the image and the entry fits: a piece finds room on the stack, and a slot if it
is the first one, and the pieces of a name together are shorter than a file name. All variables
stay in their bounds then.
-/

namespace OsWorkbench.Frecov

/-- The byte at `p` is in the image. -/
def InImage (img : List UInt8) (p : Int) : Prop := 0 ≤ p ∧ p < img.length

/-- The entry at `p`. -/
def entryAt (img : List UInt8) (p : Int) : Entry where
  bytes := (List.range 32).map fun i => img.getD (p + (i : Nat)).toNat 0
  size := by rw [List.length_map, List.length_range]

/-! ## What is read -/

section Reads

variable {img : List UInt8} {p : Int}

theorem byte_eq_ok {b : UInt8} :
    byte img p = .ok b ↔ InImage img p ∧ img.getD p.toNat 0 = b := by
  rw [byte, index]
  by_cases h : 0 ≤ p ∧ p < img.length
  · rw [if_pos h, ok_bind, pure_eq_ok, Except.ok.injEq]
    exact ⟨fun hb => ⟨h, hb⟩, And.right⟩
  · rw [if_neg h, error_bind]
    exact iff_of_false (by simp) fun hb => h hb.1

theorem entryAt_at' {i : Nat} (hi : i < 32) :
    (entryAt img p).at' i = img.getD (p + (i : Nat)).toNat 0 := by
  rw [Entry.at', entryAt]
  simp [hi]

theorem entryAt_storedAt {is : List Nat} (hlt : ∀ i ∈ is, i < 32)
    (h : ∀ i ∈ is, InImage img (p + (i : Nat))) : (entryAt img p).StoredAt img p is :=
  fun i hi => byte_eq_ok.mpr ⟨h i hi, (entryAt_at' (hlt i hi)).symm⟩

theorem readNumLoop_reads {len : Nat} {r v : Int} (h : readNumLoop img p len r = .ok v) :
    ∀ i < len, InImage img (p + (i : Nat)) := by
  induction len generalizing r with
  | zero => exact fun i hi => absurd hi (Nat.not_lt_zero i)
  | succ len ih =>
    obtain ⟨b, hb, hrest⟩ := bind_eq_ok.mp h
    intro i hi
    rcases Nat.lt_succ_iff_lt_or_eq.mp hi with hi | rfl
    · exact ih hrest i hi
    · exact (byte_eq_ok.mp hb).1

theorem readNum_reads {a len : Nat} {v : Int} (h : readNum img (p + a) len = .ok v) :
    ∀ i ∈ List.range' a len, InImage img (p + (i : Nat)) := by
  intro i hi
  obtain ⟨hle, hlt⟩ := List.mem_range'_1.mp hi
  have hread := readNumLoop_reads h (i - a) (by omega)
  rwa [show p + (a : Int) + (i - a : Nat) = p + i by omega] at hread

theorem readUnicode_reads {a len k : Nat} {dest d : Nat → UInt8}
    (h : readUnicode img (p + a) len k dest = .ok d) :
    ∀ i ∈ List.range' a len 2, InImage img (p + (i : Nat)) := by
  induction len generalizing a k dest with
  | zero => exact fun i hi => absurd hi List.not_mem_nil
  | succ len ih =>
    obtain ⟨b, hb, hrest⟩ := bind_eq_ok.mp h
    have hnext : p + (a : Int) + 2 = p + (a + 2 : Nat) := by push_cast; ring
    rw [hnext] at hrest
    intro i hi
    rw [List.range'_succ] at hi
    rcases List.mem_cons.mp hi with rfl | hi
    · exact (byte_eq_ok.mp hb).1
    · exact ih hrest i hi

theorem longEntry_reads {b : Bool} (h : longEntry img p = .ok b) :
    ∀ i ∈ (entryAt img p).headOffsets, InImage img (p + (i : Nat)) := by
  obtain ⟨attr, hattr, h⟩ := bind_eq_ok.mp h
  obtain ⟨h0b, hattr⟩ := byte_eq_ok.mp hattr
  have hattr : (entryAt img p).at' 0x0b = attr := (entryAt_at' (by decide)).trans hattr
  rw [Entry.headOffsets, hattr]
  by_cases hlong : attr = 0x0f
  · rw [if_pos hlong] at h ⊢
    obtain ⟨type, htype, h⟩ := bind_eq_ok.mp h
    obtain ⟨h0c, htype⟩ := byte_eq_ok.mp htype
    have htype : (entryAt img p).at' 0x0c = type := (entryAt_at' (by decide)).trans htype
    rw [htype]
    by_cases hzero : type = 0
    · rw [if_pos hzero] at h ⊢
      obtain ⟨key, hkey, -⟩ := bind_eq_ok.mp h
      rw [← add_zero p] at hkey
      have h00 := readNum_reads (a := 0) hkey 0 (by decide)
      simp only [List.mem_cons, List.not_mem_nil, or_false]
      rintro i (rfl | rfl | rfl)
      · exact h0b
      · exact h0c
      · exact h00
    · rw [if_neg hzero]
      simp only [List.mem_cons, List.not_mem_nil, or_false]
      rintro i (rfl | rfl)
      · exact h0b
      · exact h0c
  · rw [if_neg hlong]
    simp only [List.mem_cons, List.not_mem_nil, or_false]
    rintro i rfl
    exact h0b

theorem pushPiece_reads {s t : Scan} (h : pushPiece img p s = .ok t) :
    ∀ i ∈ Entry.offsets, InImage img (p + (i : Nat)) := by
  obtain ⟨-, -, h⟩ := bind_eq_ok.mp h
  obtain ⟨row, h01, h⟩ := bind_eq_ok.mp h
  obtain ⟨row', h0e, h⟩ := bind_eq_ok.mp h
  obtain ⟨row'', h1c, -⟩ := bind_eq_ok.mp h
  intro i hi
  have hoffsets : Entry.offsets = List.range' 0x01 5 2 ++ List.range' 0x0e 6 2 ++
      List.range' 0x1c 2 2 := by decide
  rw [hoffsets, List.mem_append, List.mem_append] at hi
  rcases hi with (hi | hi) | hi
  · exact readUnicode_reads h01 i hi
  · exact readUnicode_reads h0e i hi
  · exact readUnicode_reads h1c i hi

theorem closeName_reads {sectorSize f : Int} {s t : Scan}
    (h : closeName img sectorSize p f s = .ok t) :
    ∀ i ∈ Entry.closeOffsets, InImage img (p + (i : Nat)) := by
  obtain ⟨i, -, h⟩ := bind_eq_ok.mp h
  obtain ⟨name, -, h⟩ := bind_eq_ok.mp h
  obtain ⟨high, h14, h⟩ := bind_eq_ok.mp h
  obtain ⟨low, h1a, h⟩ := bind_eq_ok.mp h
  obtain ⟨filesize, h1c, -⟩ := bind_eq_ok.mp h
  intro i hi
  rw [Entry.closeOffsets, List.mem_append, List.mem_append] at hi
  rcases hi with (hi | hi) | hi
  · exact readNum_reads h14 i hi
  · exact readNum_reads h1a i hi
  · exact readNum_reads h1c i hi

theorem readNamePositionDo_reads {sectorSize f : Int} {s t : Scan}
    (h : readNamePositionDo img sectorSize p f s = .ok t) :
    ∀ i ∈ (entryAt img p).readOffsets s.top, InImage img (p + (i : Nat)) := by
  obtain ⟨long, hlong, h⟩ := bind_eq_ok.mp h
  have hhead := longEntry_reads hlong
  have hlt : ∀ i ∈ (entryAt img p).headOffsets, i < 32 := fun i hi =>
    (entryAt img p).readOffsets_lt s.top i (List.mem_append_left _ hi)
  rw [longEntry_spec (entryAt_storedAt hlt hhead)] at hlong
  cases hlong
  intro i hi
  rcases List.mem_append.mp hi with hi | hi
  · exact hhead i hi
  · by_cases hl : (entryAt img p).IsLong
    · rw [if_pos (decide_eq_true hl)] at h
      rw [if_pos hl] at hi
      exact pushPiece_reads h i hi
    · rw [if_neg (by simpa using hl)] at h
      rw [if_neg hl] at hi
      by_cases htop : s.top = 0
      · rw [if_pos htop] at hi
        exact absurd hi List.not_mem_nil
      · rw [if_neg htop] at hi
        rw [if_pos htop] at h
        exact closeName_reads h i hi

/-- An entry is read exactly where the bytes that it takes are in the image and the step works. -/
theorem readNamePosition_eq_ok {sectorSize : Int} (hsize : 0 < sectorSize) {s t : Scan} :
    readNamePosition img sectorSize p s = .ok t ↔
      (∀ i ∈ (entryAt img p).readOffsets s.top, InImage img (p + (i : Nat))) ∧
        step sectorSize s (entryAt img p) = .ok t := by
  have heq : (∀ i ∈ (entryAt img p).readOffsets s.top, InImage img (p + (i : Nat))) →
      readNamePosition img sectorSize p s = step sectorSize s (entryAt img p) := fun h =>
    readNamePosition_eq (entryAt_storedAt ((entryAt img p).readOffsets_lt s.top) h) hsize
  constructor
  · intro h
    have hreads : ∀ i ∈ (entryAt img p).readOffsets s.top, InImage img (p + (i : Nat)) := by
      rw [readNamePosition] at h
      split at h
      · have hreads := readNamePositionDo_reads h
        exact hreads
      · exact readNamePositionDo_reads h
    exact ⟨hreads, heq hreads ▸ h⟩
  · rintro ⟨hreads, hstep⟩
    rw [heq hreads, hstep]

end Reads

/-! ## What fits -/

/-- The text on the stack. -/
def stackText (buf : Nat → Nat → UInt8) : Nat → List UInt8
  | 0 => []
  | top + 1 => (CStr.ofBuf (buf top) nameLength).bytes ++ stackText buf top

/-- A piece finds room on the stack, and a slot if it is the first one; the pieces of a name
together are shorter than a file name. -/
def EntryFits (e : Entry) (s : Scan) : Prop :=
  (e.IsLong → s.top < bufRows ∧ (s.top = 0 → s.totFile < fileLength)) ∧
    (¬e.IsLong → s.top ≠ 0 → (stackText s.buf s.top).length < nameLength)

/-- The variables are in the bounds of the arrays, and each name has its terminator. -/
structure Scan.InBounds (s : Scan) : Prop where
  top : s.top ≤ bufRows
  low : 0 ≤ s.totFile
  high : s.totFile ≤ fileLength
  names : ∀ i, (s.file i).filename.length < nameLength

theorem noName_length_lt : noName.length < nameLength := Nat.zero_lt_succ 255

/-- Between two entries. -/
structure Sound (s : Scan) : Prop extends s.InBounds where
  blank : Blank s.buf
  pending : s.top ≠ 0 → 0 < s.totFile
  unnamed : ∀ i : Nat, s.totFile ≤ i → (s.file i).filename = noName
  slot : s.top ≠ 0 → ∀ i : Nat, s.totFile = i + 1 → (s.file i).filename = noName

theorem Sound.start : Sound .start where
  top := Nat.zero_le _
  low := le_rfl
  high := by decide
  names _ := noName_length_lt
  blank _ _ _ := rfl
  pending h := absurd rfl h
  unnamed _ _ := rfl
  slot h := absurd rfl h

theorem stackText_noNul (buf : Nat → Nat → UInt8) (top : Nat) : 0 ∉ stackText buf top := by
  induction top with
  | zero => exact List.not_mem_nil
  | succ top ih =>
    rw [stackText, List.mem_append, not_or]
    exact ⟨CStr.noNul _, ih⟩

/-- The rows of the stack are strings. -/
theorem Blank.holds {buf : Nat → Nat → UInt8} (h : Blank buf) {top : Nat} (htop : top ≤ bufRows) :
    Holds buf top (stackText buf top) := by
  induction top with
  | zero => exact .empty
  | succ top ih =>
    have hnul : ∃ i < nameLength, buf top i = 0 := ⟨13, by decide, h top 13 le_rfl⟩
    have hrow : rowString (buf top) = .ok (CStr.ofBuf (buf top) nameLength) := by
      rw [rowString, inBounds_bind hnul]
      rfl
    exact .piece htop hrow (ih (Nat.le_of_succ_le htop))

section Step

variable {s t : Scan} {e : Entry} {sectorSize : Int}

theorem Sound.push (h : Sound s) (htop : s.top < bufRows)
    (hroom : s.top = 0 → s.totFile < fileLength) (e : Entry) : Sound (s.claim.push e) := by
  have htot : (s.claim.push e).totFile = if s.top = 0 then s.totFile + 1 else s.totFile := rfl
  have hlow := h.low
  have hhigh := h.high
  have hbounds : (s.claim.push e).InBounds := by
    refine ⟨htop, ?_, ?_, h.names⟩
    · rw [htot]
      split <;> omega
    · rw [htot]
      split
      · next h0 =>
        have := hroom h0
        omega
      · exact hhigh
  refine ⟨hbounds, Blank.push h.blank e, fun _ => ?_, fun i hi => ?_, fun _ i hi => ?_⟩
  · rw [htot]
    split
    · omega
    · next h0 => exact h.pending h0
  · rw [htot] at hi
    refine h.unnamed i ?_
    split at hi <;> omega
  · rw [htot] at hi
    split at hi
    · exact h.unnamed i (by omega)
    · next h0 => exact h.slot h0 i hi

/-- The slot of the name on the stack. -/
theorem Sound.claimed (h : Sound s) (htop : s.top ≠ 0) :
    ∃ i, index (s.totFile - 1) fileLength = .ok i ∧ s.totFile = i + 1 ∧
      (s.file i).filename = noName := by
  have hpos := h.pending htop
  have hhigh := h.high
  obtain ⟨i, hi⟩ : ∃ i : Nat, s.totFile = i + 1 := ⟨(s.totFile - 1).toNat, by omega⟩
  refine ⟨i, ?_, hi, h.slot htop i hi⟩
  rw [hi, Int.add_sub_cancel, index_nat (by omega)]

theorem Sound.close (h : Sound s) {i : Nat} (hi : s.totFile = i + 1) {name : CStr}
    (hname : name.length < nameLength) (e : Entry) : Sound (s.close sectorSize i name e) := by
  have hlow := h.low
  have hhigh := h.high
  have hother : ∀ j, j ≠ i → (s.close sectorSize i name e).file j = s.file j :=
    fun j hj => Function.update_of_ne hj _ _
  have hself : (s.close sectorSize i name e).file i = s.found sectorSize i name e :=
    Function.update_self _ _ _
  have htop0 : (s.close sectorSize i name e).top = 0 := rfl
  have hnames : ∀ j, ((s.close sectorSize i name e).file j).filename.length < nameLength := by
    intro j
    by_cases hj : j = i
    · rw [hj, hself]
      by_cases hkept : e.Kept sectorSize
      · exact (congrArg CStr.length (Scan.found_filename_of_kept hkept)).trans_lt hname
      · exact (congrArg CStr.length (Scan.found_filename_of_not_kept hkept)).trans_lt
          noName_length_lt
    · rw [hother j hj]
      exact h.names j
  by_cases hkept : e.Kept sectorSize
  · have htot : (s.close sectorSize i name e).totFile = s.totFile :=
      Scan.close_totFile_of_kept hkept
    refine ⟨⟨Nat.zero_le _, by omega, by omega, hnames⟩, h.blank, fun h0 => absurd htop0 h0,
      fun j hj => ?_, fun h0 => absurd htop0 h0⟩
    rw [htot] at hj
    rw [hother j (by omega)]
    exact h.unnamed j hj
  · have htot : (s.close sectorSize i name e).totFile = s.totFile - 1 :=
      Scan.close_totFile_of_not_kept hkept
    refine ⟨⟨Nat.zero_le _, by omega, by omega, hnames⟩, h.blank, fun h0 => absurd htop0 h0,
      fun j hj => ?_, fun h0 => absurd htop0 h0⟩
    rw [htot] at hj
    by_cases hj' : j = i
    · rw [hj', hself, Scan.found_filename_of_not_kept hkept]
    · rw [hother j hj']
      exact h.unnamed j (by omega)

/-- A fitting entry does not fail. -/
theorem Sound.step (sectorSize : Int) (h : Sound s) (hfits : EntryFits e s) :
    ∃ t, Frecov.step sectorSize s e = .ok t ∧ Sound t := by
  rw [Frecov.step]
  by_cases hlong : e.IsLong
  · obtain ⟨htop, hroom⟩ := hfits.1 hlong
    rw [if_pos hlong, inBounds_bind htop]
    exact ⟨_, rfl, h.push htop hroom e⟩
  · rw [if_neg hlong]
    by_cases htop : s.top = 0
    · rw [if_pos htop]
      exact ⟨s, rfl, h⟩
    · obtain ⟨i, hindex, hi, hslot⟩ := h.claimed htop
      have hshort := hfits.2 hlong htop
      have hlen : noName.length + (stackText s.buf s.top).length < nameLength := by
        show 0 + _ < nameLength
        omega
      have hpop := (h.blank.holds h.top).pop hlen (stackText_noNul _ _)
      rw [if_neg htop, hindex, ok_bind, hslot, hpop, ok_bind]
      refine ⟨_, rfl, h.close hi ?_ e⟩
      rwa [CStr.length_append]

theorem Holds.length_lt {buf : Nat → Nat → UInt8} {top : Nat} {text : List UInt8}
    (h : Holds buf top text) {name r : CStr} (hname : name.length < nameLength)
    (hpop : popPieces buf top name = .ok r) : name.length + text.length < nameLength := by
  induction h generalizing name with
  | empty => exact hname
  | @piece t cs text ht hrow hrest ih =>
    rw [popPieces, inBounds_bind ht, hrow, ok_bind] at hpop
    obtain ⟨name', hcat, hpop⟩ := bind_eq_ok.mp hpop
    obtain ⟨_, hroom, hcat⟩ := bind_eq_ok.mp hcat
    cases hcat
    have hroom : name.length + cs.length < nameLength := by
      by_contra hover
      rw [inBounds_neg hover] at hroom
      cases hroom
    have hcs : cs.bytes.length = cs.length := rfl
    have hrest := ih (by rw [CStr.length_append]; exact hroom) hpop
    rw [CStr.length_append] at hrest
    rw [List.length_append]
    omega

/-- An entry with which the variables stay in their bounds is a fitting one. -/
theorem Sound.fits (h : Sound s) (hstep : Frecov.step sectorSize s e = .ok t) (ht : t.InBounds) :
    EntryFits e s := by
  rw [Frecov.step] at hstep
  by_cases hlong : e.IsLong
  · rw [if_pos hlong] at hstep
    obtain ⟨_, htop, hstep⟩ := bind_eq_ok.mp hstep
    cases hstep
    have htop : s.top < bufRows := by
      by_contra hover
      rw [inBounds_neg hover] at htop
      cases htop
    refine ⟨fun _ => ⟨htop, fun h0 => ?_⟩, fun hshort => absurd hlong hshort⟩
    have hclaim : (s.claim.push e).totFile = s.totFile + 1 := if_pos h0
    have hhigh := ht.high
    omega
  · refine ⟨fun hl => absurd hl hlong, fun _ htop => ?_⟩
    rw [if_neg hlong, if_neg htop] at hstep
    obtain ⟨i, hindex, -, hslot⟩ := h.claimed htop
    rw [hindex, ok_bind, hslot] at hstep
    obtain ⟨name, hpop, -⟩ := bind_eq_ok.mp hstep
    have hlt := (h.blank.holds h.top).length_lt noName_length_lt hpop
    rwa [show noName.length = 0 from rfl, Nat.zero_add] at hlt

theorem step_sectorVisit (hstep : step sectorSize s e = .ok t) : t.sectorVisit = s.sectorVisit := by
  rw [step] at hstep
  split at hstep
  · obtain ⟨-, -, hstep⟩ := bind_eq_ok.mp hstep
    cases hstep
    rfl
  · split at hstep
    · cases hstep
      rfl
    · obtain ⟨i, -, hstep⟩ := bind_eq_ok.mp hstep
      obtain ⟨name, -, hstep⟩ := bind_eq_ok.mp hstep
      cases hstep
      rfl

end Step

end OsWorkbench.Frecov
