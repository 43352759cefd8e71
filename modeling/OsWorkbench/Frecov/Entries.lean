import OsWorkbench.Frecov.Model

/-!
# Directory entries

What one step of the scan does, as a function of the 32 bytes of the entry: a piece of a long
name is put on the stack, a short entry takes all pieces off it, and a short entry without
pieces changes nothing.
-/

namespace OsWorkbench.Frecov

/-- A directory entry. -/
@[ext] structure Entry where
  bytes : List UInt8
  size : bytes.length = 32
  deriving DecidableEq

namespace Entry

def at' (e : Entry) (i : Nat) : UInt8 := e.bytes.getD i 0

/-- The number in `len` bytes from `i` on, the lowest one first. -/
def num (e : Entry) (i : Nat) : Nat → Nat
  | 0 => 0
  | len + 1 => (e.at' i).toNat + 2 ^ 8 * e.num (i + 1) len

/-- An entry that is a piece of a long name. -/
def IsLong (e : Entry) : Prop :=
  e.at' 0x0b = 0x0f ∧ e.at' 0x0c = 0 ∧ isValid (e.at' 0).toNat = true

instance (e : Entry) : Decidable e.IsLong := inferInstanceAs (Decidable (_ ∧ _))

/-- The offsets of the 13 characters. -/
def offsets : List Nat := [1, 3, 5, 7, 9, 14, 16, 18, 20, 22, 24, 28, 30]

/-- The first bytes of the characters. -/
def letters (e : Entry) : List UInt8 := offsets.map e.at'

/-- The characters of a piece. -/
def units (e : Entry) : List (UInt8 × UInt8) := offsets.map fun i => (e.at' i, e.at' (i + 1))

def startCluster (e : Entry) : Nat := 2 ^ 16 * e.num 0x14 2 + e.num 0x1a 2

def fileSize (e : Entry) : Nat := e.num 0x1c 4

/-- `position + filesize / sector_size + 1` -/
def nextSector (e : Entry) (sectorSize : Int) : Int :=
  toInt e.startCluster + (toInt e.fileSize).tdiv sectorSize + 1

/-- The file is kept. -/
def Kept (sectorSize : Int) (e : Entry) : Prop := unsigned (e.nextSector sectorSize) ≤ 0xffff

instance (sectorSize : Int) : DecidablePred (Kept sectorSize) :=
  fun _ => inferInstanceAs (Decidable (_ ≤ 0xffff))

theorem num_lt (e : Entry) (i len : Nat) : e.num i len < 2 ^ (8 * len) := by
  induction len generalizing i with
  | zero => exact Nat.one_pos
  | succ len ih =>
    have hbyte := (e.at' i).toNat_lt
    have ih := ih (i + 1)
    rw [num, Nat.mul_succ, Nat.pow_add]
    omega

/-- The offsets that tell whether an entry is a piece of a long name. -/
def headOffsets (e : Entry) : List Nat :=
  0x0b :: if e.at' 0x0b = 0x0f then 0x0c :: if e.at' 0x0c = 0 then [0] else [] else []

/-- The offsets of the start cluster and of the size. -/
def closeOffsets : List Nat := List.range' 0x14 2 ++ List.range' 0x1a 2 ++ List.range' 0x1c 4

/-- The offsets that the scan reads with `top` pieces on the stack. -/
def readOffsets (e : Entry) (top : Nat) : List Nat :=
  e.headOffsets ++ if e.IsLong then offsets else if top = 0 then [] else closeOffsets

/-- The bytes of the entry at the offsets `is` are in the image behind `p`. -/
def StoredAt (e : Entry) (img : List UInt8) (p : Int) (is : List Nat) : Prop :=
  ∀ i ∈ is, byte img (p + (i : Nat)) = .ok (e.at' i)

theorem StoredAt.mono {e : Entry} {img : List UInt8} {p : Int} {is js : List Nat}
    (h : e.StoredAt img p is) (hsub : js ⊆ is) : e.StoredAt img p js :=
  fun i hi => h i (hsub hi)

theorem readOffsets_lt (e : Entry) (top : Nat) : ∀ i ∈ e.readOffsets top, i < 32 := by
  have hhead : ∀ i ∈ e.headOffsets, i < 32 := by
    unfold headOffsets
    split
    · split <;> decide
    · decide
  have htail : ∀ i ∈ (if e.IsLong then offsets else if top = 0 then [] else closeOffsets),
      i < 32 := by
    split
    · decide
    · split <;> decide
  intro i hi
  exact (List.mem_append.mp hi).elim (hhead i) (htail i)

end Entry

/-! ## Numbers -/

theorem wrap_wrap_add (v w : Int) : wrap (wrap v + w) = wrap (v + w) := Int.bmod_add_bmod

theorem wrap_wrap_mul (v w : Int) : wrap (wrap v * w) = wrap (v * w) := Int.bmod_mul_bmod

theorem unsigned_wrap (v : Int) : unsigned (wrap v) = unsigned v := by
  have hmod : wrap v % 2 ^ 32 = v % 2 ^ 32 := Int.bmod_emod
  rw [unsigned, hmod, unsigned]

theorem Entry.num_succ (e : Entry) (i len : Nat) :
    e.num i (len + 1) = 2 ^ (8 * len) * (e.at' (i + len)).toNat + e.num i len := by
  induction len generalizing i with
  | zero => simp [Entry.num]
  | succ len ih =>
    rw [Entry.num, ih (i + 1), Entry.num, Nat.mul_succ 8 len, Nat.pow_add,
      Nat.add_right_comm i 1 len, Nat.add_assoc i len 1]
    ring

section Reads

variable {img : List UInt8} {e : Entry} {p : Int}

theorem readNumLoop_spec {i len : Nat} (he : e.StoredAt img p (List.range' i len)) (r : Int) :
    readNumLoop img (p + i) len (wrap r) = .ok (wrap (r * 2 ^ (8 * len) + e.num i len)) := by
  induction len generalizing r with
  | zero => simp [readNumLoop, Entry.num]
  | succ len ih =>
    have hbyte : byte img (p + i + len) = .ok (e.at' (i + len)) := by
      have := he (i + len) (List.mem_range'_1.mpr (by omega))
      rwa [Nat.cast_add, ← add_assoc] at this
    have hrest := ih (he.mono (List.range'_subset_right_1.mpr (Nat.le_succ len)))
    rw [readNumLoop, hbyte, ok_bind, wrap_wrap_mul, wrap_wrap_add, hrest, e.num_succ,
      Nat.mul_succ 8 len, pow_add]
    push_cast
    ring_nf

theorem readNum_spec {i len : Nat} (he : e.StoredAt img p (List.range' i len)) :
    readNum img (p + i) len = .ok (toInt (e.num i len)) := by
  have h0 := readNumLoop_spec he 0
  rw [zero_mul, zero_add] at h0
  exact h0

theorem readUnicode_spec {i len : Nat} (he : e.StoredAt img p (List.range' i len 2)) (k : Nat)
    (dest : Nat → UInt8) :
    readUnicode img (p + i) len k dest =
      .ok fun j => if k ≤ j ∧ j < k + len then e.at' (i + 2 * (j - k)) else dest j := by
  induction len generalizing i k dest with
  | zero =>
    rw [readUnicode]
    congr 1
    funext j
    rw [if_neg (by omega)]
  | succ len ih =>
    have hnext : p + i + 2 = p + (i + 2 : Nat) := by push_cast; ring
    rw [List.range'_succ] at he
    have hrest := ih (he.mono (List.subset_cons_self i _))
    rw [readUnicode, he i List.mem_cons_self, ok_bind, hnext, hrest]
    congr 1
    funext j
    rcases Nat.lt_trichotomy j k with hj | rfl | hj
    · rw [if_neg (by omega), if_neg (by omega), Function.update_of_ne (by omega)]
    · rw [if_neg (by omega), if_pos (by omega), Function.update_self, Nat.sub_self]
      rfl
    · by_cases hlt : j < k + (len + 1)
      · rw [if_pos (by omega), if_pos (by omega)]
        congr 1
        omega
      · rw [if_neg (by omega), if_neg (by omega), Function.update_of_ne (by omega)]

end Reads

/-! ## One step -/

/-- A row of `buf` with a piece in it. -/
def Entry.row (e : Entry) (old : Nat → UInt8) (j : Nat) : UInt8 :=
  if j < 13 then e.letters.getD j 0 else old j

namespace Scan

/-- The slot for the name that starts here. -/
def claim (s : Scan) : Scan :=
  { s with totFile := if s.top = 0 then s.totFile + 1 else s.totFile }

def push (s : Scan) (e : Entry) : Scan :=
  { s with buf := Function.update s.buf s.top (e.row (s.buf s.top)), top := s.top + 1 }

/-- The file that a short entry describes. -/
def found (s : Scan) (sectorSize : Int) (i : Nat) (name : CStr) (e : Entry) : MyFile where
  filename := if e.Kept sectorSize then name else noName
  position := toInt e.startCluster
  filesize := toInt e.fileSize
  nextSector := wrap (e.nextSector sectorSize)
  visited := (s.file i).visited

def close (s : Scan) (sectorSize : Int) (i : Nat) (name : CStr) (e : Entry) : Scan :=
  { s with
    file := Function.update s.file i (s.found sectorSize i name e)
    totFile := if e.Kept sectorSize then s.totFile else s.totFile - 1
    top := 0 }

end Scan

section Close

variable {s : Scan} {sectorSize : Int} {i : Nat} {name : CStr} {e : Entry}

theorem Scan.close_totFile_of_kept (h : e.Kept sectorSize) :
    (s.close sectorSize i name e).totFile = s.totFile := by
  rw [Scan.close, if_pos h]

theorem Scan.close_totFile_of_not_kept (h : ¬e.Kept sectorSize) :
    (s.close sectorSize i name e).totFile = s.totFile - 1 := by
  rw [Scan.close, if_neg h]

theorem Scan.found_filename_of_kept (h : e.Kept sectorSize) :
    (s.found sectorSize i name e).filename = name := by
  rw [Scan.found, if_pos h]

theorem Scan.found_filename_of_not_kept (h : ¬e.Kept sectorSize) :
    (s.found sectorSize i name e).filename = noName := by
  rw [Scan.found, if_neg h]

theorem Scan.found_position : (s.found sectorSize i name e).position = toInt e.startCluster := by
  rw [Scan.found]

theorem Scan.found_filesize : (s.found sectorSize i name e).filesize = toInt e.fileSize := by
  rw [Scan.found]

end Close

/-- What the scan does with an entry. -/
def step (sectorSize : Int) (s : Scan) (e : Entry) : Except Fault Scan :=
  if e.IsLong then do
    inBounds (s.top < bufRows)
    return s.claim.push e
  else if s.top = 0 then .ok s
  else do
    let i ← index (s.totFile - 1) fileLength
    let name ← popPieces s.buf s.top (s.file i).filename
    return s.close sectorSize i name e

section Step

variable {img : List UInt8} {e : Entry} {p sectorSize : Int} {s : Scan}

theorem longEntry_spec (he : e.StoredAt img p e.headOffsets) :
    longEntry img p = .ok (decide e.IsLong) := by
  unfold Entry.headOffsets at he
  have hattr : byte img (p + 0x0b) = .ok (e.at' 0x0b) := he 0x0b List.mem_cons_self
  rw [longEntry, hattr, ok_bind]
  by_cases h0b : e.at' 0x0b = 0x0f
  · rw [if_pos h0b] at he
    have htype : byte img (p + 0x0c) = .ok (e.at' 0x0c) :=
      he 0x0c (List.mem_cons_of_mem _ List.mem_cons_self)
    rw [if_pos h0b, htype, ok_bind]
    by_cases h0c : e.at' 0x0c = 0
    · rw [if_pos h0c] at he
      have hkey : readNum img p 1 = .ok ((e.at' 0).toNat : Int) := by
        have hlt := (e.at' 0).toNat_lt
        have hread : readNum img (p + (0 : Nat)) 1 = .ok (toInt (e.num 0 1)) :=
          readNum_spec (he.mono (by decide))
        rw [Nat.cast_zero, add_zero] at hread
        rw [hread, Entry.num, Entry.num, Nat.mul_zero, Nat.add_zero, toInt_small (by omega)]
      rw [if_pos h0c, hkey, ok_bind]
      simp [Entry.IsLong, h0b, h0c]
    · rw [if_neg h0c]
      simp [Entry.IsLong, h0c]
  · rw [if_neg h0b]
    simp [Entry.IsLong, h0b]

theorem pushPiece_spec (he : e.StoredAt img p Entry.offsets) :
    pushPiece img p s = do
      inBounds (s.top < bufRows)
      return s.push e := by
  have h5 : ∀ dest, readUnicode img (p + 0x01) 5 0 dest = _ :=
    readUnicode_spec (i := 0x01) (he.mono (by decide)) 0
  have h6 : ∀ dest, readUnicode img (p + 0x0e) 6 5 dest = _ :=
    readUnicode_spec (i := 0x0e) (he.mono (by decide)) 5
  have h2 : ∀ dest, readUnicode img (p + 0x1c) 2 11 dest = _ :=
    readUnicode_spec (i := 0x1c) (he.mono (by decide)) 11
  rw [pushPiece]
  congr 1
  funext u
  rw [h5, ok_bind, h6, ok_bind, h2, ok_bind, pure_eq_ok, pure_eq_ok, Scan.push]
  congr 3
  funext j
  unfold Entry.row
  by_cases hj : j < 13
  · interval_cases j <;> rfl
  · rw [if_neg hj, if_neg (by omega), if_neg (by omega), if_neg (by omega)]

theorem closeName_spec (he : e.StoredAt img p Entry.closeOffsets) (hsize : 0 < sectorSize)
    (f : Int) :
    closeName img sectorSize p f s = do
      let i ← index f fileLength
      let name ← popPieces s.buf s.top (s.file i).filename
      return s.close sectorSize i name e := by
  have hhigh : readNum img (p + 0x14) 2 = .ok (toInt (e.num 0x14 2)) :=
    readNum_spec (he.mono (by decide))
  have hlow : readNum img (p + 0x1a) 2 = .ok (toInt (e.num 0x1a 2)) :=
    readNum_spec (he.mono (by decide))
  have hfilesize : readNum img (p + 0x1c) 4 = .ok (toInt e.fileSize) :=
    readNum_spec (he.mono (by decide))
  have hposition : wrap (wrap (toInt (e.num 0x14 2) * 2 ^ 16) + toInt (e.num 0x1a 2)) =
      toInt e.startCluster := by
    have h14 := e.num_lt 0x14 2
    have h1a := e.num_lt 0x1a 2
    rw [toInt_small (h14.trans (by decide)), toInt_small (h1a.trans (by decide)), wrap_wrap_add,
      Entry.startCluster]
    show wrap _ = wrap _
    push_cast
    ring_nf
  have hsectors : sectors (toInt e.fileSize) sectorSize =
      .ok (wrap ((toInt e.fileSize).tdiv sectorSize)) := if_neg hsize.ne'
  have hnext : wrap (wrap (toInt e.startCluster + wrap ((toInt e.fileSize).tdiv sectorSize)) + 1) =
      wrap (e.nextSector sectorSize) := by
    rw [wrap_wrap_add, Entry.nextSector, add_comm (toInt e.startCluster), add_assoc,
      wrap_wrap_add, ← add_assoc, add_comm (Int.tdiv _ _)]
  rw [closeName]
  refine bind_congr fun i => bind_congr fun name => ?_
  rw [hhigh, ok_bind, hlow, ok_bind, hfilesize, ok_bind, hsectors, ok_bind, hposition, hnext]
  show (if 0xffff < unsigned (wrap (e.nextSector sectorSize)) then _ else _) = _
  rw [unsigned_wrap]
  by_cases hkept : e.Kept sectorSize
  · rw [if_neg (not_lt.mpr hkept), pure_eq_ok, pure_eq_ok, Scan.close, if_pos hkept, Scan.found,
      if_pos hkept]
  · rw [if_pos (not_le.mp hkept), pure_eq_ok, pure_eq_ok, Scan.close, if_neg hkept, Scan.found,
      if_neg hkept]

theorem readNamePosition_eq (he : e.StoredAt img p (e.readOffsets s.top)) (hsize : 0 < sectorSize) :
    readNamePosition img sectorSize p s = step sectorSize s e := by
  have hhead : e.StoredAt img p e.headOffsets := he.mono (List.subset_append_left _ _)
  have htail := he.mono (List.subset_append_right e.headOffsets _)
  have hdo : ∀ f (t : Scan), readNamePositionDo img sectorSize p f t =
      if e.IsLong then pushPiece img p t
      else if t.top ≠ 0 then closeName img sectorSize p f t
      else .ok { t with totFile := t.totFile - 1 } := by
    intro f t
    rw [readNamePositionDo, longEntry_spec hhead, ok_bind]
    by_cases hlong : e.IsLong
    · rw [if_pos hlong, if_pos (decide_eq_true hlong)]
    · rw [if_neg hlong, if_neg (by simpa using hlong), pure_eq_ok]
  rw [readNamePosition, step]
  by_cases htop : s.top = 0
  · rw [if_pos htop, hdo, if_pos htop]
    by_cases hlong : e.IsLong
    · rw [if_pos hlong] at htail
      rw [if_pos hlong, if_pos hlong, pushPiece_spec htail, Scan.claim, if_pos htop]
    · rw [if_neg hlong, if_neg hlong, if_neg (not_not.mpr htop), Int.add_sub_cancel]
  · rw [if_neg htop, hdo, if_neg htop]
    by_cases hlong : e.IsLong
    · rw [if_pos hlong] at htail
      rw [if_pos hlong, if_pos hlong, pushPiece_spec htail, Scan.claim, if_neg htop]
    · rw [if_neg hlong, if_neg htop] at htail
      rw [if_neg hlong, if_neg hlong, if_pos htop, closeName_spec htail hsize]

end Step

/-! ## A row of entries -/

/-- The bytes of a row of entries. -/
def image (es : List Entry) : List UInt8 := es.flatMap Entry.bytes

theorem storedAt_image (pre : List UInt8) (e : Entry) (post : List UInt8) :
    e.StoredAt (pre ++ (e.bytes ++ post)) pre.length (List.range 32) := by
  intro i hi
  rw [List.mem_range] at hi
  have hlen : i < e.bytes.length := by rwa [e.size]
  have hlt : pre.length + i < (pre ++ (e.bytes ++ post)).length := by
    rw [List.length_append, List.length_append]
    omega
  rw [byte, ← Nat.cast_add, index_bind hlt, List.getD_append_right _ _ _ _ (Nat.le_add_right _ _),
    Nat.add_sub_cancel_left, List.getD_append _ _ _ _ hlen]
  rfl

/-- The scan of a row of entries is a run of the step. -/
theorem readEntries_eq_run {sectorSize : Int} (hsize : 0 < sectorSize) (pre : List UInt8)
    (es : List Entry) (s : Scan) :
    readEntries (pre ++ image es) sectorSize es.length pre.length s =
      run (step sectorSize) s es := by
  induction es generalizing pre s with
  | nil => rfl
  | cons e es ih =>
    have hat := storedAt_image pre e (image es)
    have himage : pre ++ image (e :: es) = pre ++ e.bytes ++ image es := by
      rw [image, List.flatMap_cons, List.append_assoc]
      rfl
    have hlen : ((pre ++ e.bytes).length : Int) = pre.length + 0x20 := by
      rw [List.length_append, e.size]
      push_cast
      rfl
    have hread : e.readOffsets s.top ⊆ List.range 32 :=
      fun i hi => List.mem_range.mpr (e.readOffsets_lt s.top i hi)
    rw [List.length_cons, readEntries, himage, List.append_assoc,
      readNamePosition_eq (hat.mono hread) hsize, run]
    refine bind_congr fun t => ?_
    rw [← hlen, ← List.append_assoc, ih]

end OsWorkbench.Frecov
