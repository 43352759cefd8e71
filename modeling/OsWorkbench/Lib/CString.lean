import Mathlib

/-!
# C strings, buffers and text streams

The part of the C library that text-handling code uses. A buffer is a function
from offsets to bytes; `CStr` is the string that a buffer holds up to its
terminator. A text stream is the list of the bytes still to be read.
-/

namespace OsWorkbench

/-- The bytes of a C string before its terminator. -/
structure CStr where
  bytes : List UInt8
  noNul : 0 ∉ bytes
  deriving DecidableEq

namespace CStr

def length (s : CStr) : Nat := s.bytes.length

/-- The byte at offset `i` of the array that holds the string, with zeros after it. -/
def get (s : CStr) (i : Nat) : UInt8 := s.bytes.getD i 0

/-- The string in a buffer that holds the bytes `bs` and then a terminator. -/
def ofBytes (bs : List UInt8) : CStr where
  bytes := bs.takeWhile (· != 0)
  noNul h := by simpa using List.mem_takeWhile_imp h

/-- The string at the start of a buffer of `n` bytes. -/
def ofBuf (buf : Nat → UInt8) (n : Nat) : CStr := ofBytes ((List.range' 0 n).map buf)

def dropLast (s : CStr) : CStr where
  bytes := s.bytes.dropLast
  noNul h := s.noNul (List.mem_of_mem_dropLast h)

@[simp] theorem bytes_dropLast (s : CStr) : s.dropLast.bytes = s.bytes.dropLast := rfl

@[ext] theorem ext {s t : CStr} (h : s.bytes = t.bytes) : s = t := by
  cases s
  cases t
  cases h
  rfl

theorem get_of_lt {s : CStr} {i : Nat} (h : i < s.length) : s.get i = s.bytes[i] :=
  List.getD_eq_getElem _ _ h

theorem get_eq_zero {s : CStr} {i : Nat} : s.get i = 0 ↔ s.length ≤ i := by
  constructor
  · intro h
    by_contra hlt
    have hlt' : i < s.length := not_le.mp hlt
    rw [get_of_lt hlt'] at h
    exact s.noNul (h ▸ List.getElem_mem hlt')
  · exact List.getD_eq_default _ _

@[simp] theorem bytes_ofBytes_of_noNul {bs : List UInt8} (h : 0 ∉ bs) :
    (ofBytes bs).bytes = bs := by
  refine List.takeWhile_eq_self_iff.mpr (fun c hc => ?_)
  have : c ≠ 0 := by
    rintro rfl
    exact h hc
  simpa using this

theorem ofBytes_bytes (s : CStr) : ofBytes s.bytes = s := ext (bytes_ofBytes_of_noNul s.noNul)

theorem takeWhile_map_range'_eq_iff (buf : Nat → UInt8) {l : List UInt8} {a n : Nat}
    (hl : 0 ∉ l) (hn : l.length < n) :
    ((List.range' a n).map buf).takeWhile (· != 0) = l ↔
      (∀ i, i < l.length → buf (a + i) = l.getD i 0) ∧ buf (a + l.length) = 0 := by
  obtain ⟨n, rfl⟩ := Nat.exists_eq_succ_of_ne_zero (Nat.ne_of_gt (Nat.zero_lt_of_lt hn))
  rw [List.range'_succ, List.map_cons, List.takeWhile_cons]
  induction l generalizing a n with
  | nil =>
    by_cases h0 : buf a = 0
    · simp [h0]
    · simp [h0]
  | cons c l ih =>
    have hc : c ≠ 0 := fun h => hl (by simp [h])
    by_cases h0 : buf a = 0
    · simp only [h0, bne_self_eq_false, Bool.false_eq_true, if_false]
      refine ⟨fun h => absurd h (List.cons_ne_nil c l).symm, fun h => ?_⟩
      have := h.1 0 (by simp)
      rw [Nat.add_zero, h0] at this
      exact absurd this.symm hc
    · have hn' : l.length < n := Nat.lt_of_succ_lt_succ hn
      obtain ⟨m, rfl⟩ := Nat.exists_eq_succ_of_ne_zero (Nat.ne_of_gt (Nat.zero_lt_of_lt hn'))
      have hih := ih (a := a + 1) (fun h => hl (by simp [h])) m hn'
      rw [if_pos (by simpa using h0), List.cons_eq_cons, List.range'_succ, List.map_cons,
        List.takeWhile_cons, hih]
      constructor
      · rintro ⟨h1, h2, h3⟩
        refine ⟨fun i hi => ?_, ?_⟩
        · cases i with
          | zero => simpa using h1
          | succ i =>
            rw [List.getD_cons_succ, ← h2 i (Nat.lt_of_succ_lt_succ hi)]
            congr 1
            omega
        · rw [← h3, List.length_cons]
          congr 1
          omega
      · rintro ⟨h1, h2⟩
        refine ⟨by simpa using h1 0 (by simp), fun i hi => ?_, ?_⟩
        · have := h1 (i + 1) (Nat.succ_lt_succ hi)
          rw [List.getD_cons_succ] at this
          rw [← this]
          congr 1
          omega
        · rw [← h2, List.length_cons]
          congr 1
          omega

/-- A buffer holds the string `s` iff it starts with the bytes of `s` and a
terminator. -/
theorem ofBuf_eq_iff {buf : Nat → UInt8} {n : Nat} {s : CStr} (h : s.length < n) :
    ofBuf buf n = s ↔ (∀ i, i < s.length → buf i = s.get i) ∧ buf s.length = 0 := by
  have key := takeWhile_map_range'_eq_iff buf (a := 0) s.noNul h
  simp only [Nat.zero_add] at key
  rw [CStr.ext_iff]
  exact key

def append (s t : CStr) : CStr where
  bytes := s.bytes ++ t.bytes
  noNul h := (List.mem_append.mp h).elim s.noNul t.noNul

/-- The first `n` bytes. -/
def take (s : CStr) (n : Nat) : CStr where
  bytes := s.bytes.take n
  noNul h := s.noNul (List.mem_of_mem_take h)

@[simp] theorem bytes_take (s : CStr) (n : Nat) : (s.take n).bytes = s.bytes.take n := rfl

def drop (s : CStr) (n : Nat) : CStr where
  bytes := s.bytes.drop n
  noNul h := s.noNul (List.mem_of_mem_drop h)

@[simp] theorem bytes_drop (s : CStr) (n : Nat) : (s.drop n).bytes = s.bytes.drop n := rfl

theorem length_drop (s : CStr) (n : Nat) : (s.drop n).length = s.length - n := List.length_drop ..

theorem get_drop (s : CStr) (n i : Nat) : (s.drop n).get i = s.get (n + i) := by
  simp [get, List.getD_eq_getElem?_getD]

theorem length_append (s t : CStr) : (s.append t).length = s.length + t.length :=
  List.length_append

theorem get_append (s t : CStr) (i : Nat) :
    (s.append t).get i = if i < s.length then s.get i else t.get (i - s.length) := by
  unfold get append length
  split
  · next h => exact List.getD_append _ _ _ _ h
  · next h => exact List.getD_append_right _ _ _ _ (not_lt.mp h)

theorem length_take {s : CStr} {n : Nat} (h : n ≤ s.length) : (s.take n).length = n := by
  unfold take length at *
  rw [List.length_take, min_eq_left h]

theorem get_take {s : CStr} {n i : Nat} (hi : i < n) : (s.take n).get i = s.get i := by
  unfold take get
  rw [List.getD_eq_getElem?_getD, List.getElem?_take_of_lt hi, List.getD_eq_getElem?_getD]

/-- The bytes of an ASCII literal. -/
def lit (s : String) : CStr := ofBytes (s.toList.map fun c => c.toNat.toUInt8)

end CStr

/-! ## Copying -/

/-- `strcpy(dst, s)`. -/
def strcpy (dst : Nat → UInt8) (s : CStr) : Nat → UInt8 :=
  fun p => if p ≤ s.length then s.get p else dst p

/-- `strncpy(dst + off, src, n)`: the bytes after the terminator of `src` are
zeros. -/
def strncpy (dst : Nat → UInt8) (off : Nat) (src : Nat → UInt8) (n : Nat) : Nat → UInt8 :=
  fun p =>
    if off ≤ p ∧ p < off + n then
      if ∀ j, j ≤ p - off → src j ≠ 0 then src (p - off) else 0
    else dst p

theorem strncpy_get (dst : Nat → UInt8) (off : Nat) (s : CStr) (b n : Nat) :
    strncpy dst off (fun j => s.get (b + j)) n =
      fun p => if off ≤ p ∧ p < off + n then s.get (b + (p - off)) else dst p := by
  funext p
  unfold strncpy
  split
  · split
    · rfl
    · next h =>
      push Not at h
      obtain ⟨j, hj, h0⟩ := h
      refine (CStr.get_eq_zero.mpr ?_).symm
      exact (CStr.get_eq_zero.mp h0).trans (by omega)
  · rfl

/-- Copying from a buffer that starts with a string does not read what the buffer
holds after its terminator. -/
theorem strncpy_strcpy (dst w : Nat → UInt8) (off : Nat) (s : CStr) {b : Nat} (n : Nat)
    (hb : b ≤ s.length) :
    strncpy dst off (fun j => strcpy w s (b + j)) n =
      strncpy dst off (fun j => s.get (b + j)) n := by
  have hle : ∀ j, (∀ i, i < j → s.get (b + i) ≠ 0) → strcpy w s (b + j) = s.get (b + j) := by
    intro j hj
    refine if_pos ?_
    by_contra hlt
    cases j with
    | zero => exact hlt hb
    | succ j => exact hj j (Nat.lt_succ_self j) (CStr.get_eq_zero.mpr (by omega))
  have hiff : ∀ k, (∀ j, j ≤ k → strcpy w s (b + j) ≠ 0) ↔ ∀ j, j ≤ k → s.get (b + j) ≠ 0 := by
    intro k
    constructor
    · intro h j
      induction j using Nat.strongRecOn with
      | _ j ih =>
        intro hj
        rw [← hle j (fun i hi => ih i hi (by omega))]
        exact h j hj
    · intro h j hj
      rw [hle j (fun i hi => h i (by omega))]
      exact h j hj
  funext p
  unfold strncpy
  simp only [hiff]
  split
  · split
    · next h => exact hle _ (fun i hi => h i hi.le)
    · rfl
  · rfl

/-! ## Streams -/

/-- `isspace` in the C locale. -/
def isSpace (c : UInt8) : Bool := c == 32 || (9 ≤ c && c ≤ 13)

/-- A blank in a `scanf` format. -/
def skipSpace (bs : List UInt8) : List UInt8 := bs.dropWhile isSpace

/-- The bytes that `%s` takes at a position without leading blanks. -/
def scanWord (bs : List UInt8) : List UInt8 := bs.takeWhile fun c => !isSpace c

/-- `fgets(s, n, fp)`: the bytes read and the rest of the stream, or nothing at
the end of the file. -/
def fgets (n : Nat) (bs : List UInt8) : Option (List UInt8 × List UInt8) :=
  if bs = [] then none
  else
    let line := (bs.take (n - 1)).takeWhile (· != 10)
    let k := if line.length < (bs.take (n - 1)).length then line.length + 1 else line.length
    some (bs.take k, bs.drop k)

section Streams

variable {w bs : List UInt8} {n : Nat}

/-- The stream is at its end or at a byte that is not blank. -/
def AtWord (bs : List UInt8) : Prop := ∀ c ∈ bs.head?, isSpace c = false

/-- The stream is at its end or at a blank. -/
def AtBlank (bs : List UInt8) : Prop := ∀ c ∈ bs.head?, isSpace c = true

theorem atWord_nil : AtWord [] := fun _ hc => nomatch hc

theorem atBlank_nil : AtBlank [] := fun _ hc => nomatch hc

theorem skipSpace_of_atWord (h : AtWord bs) : skipSpace bs = bs := by
  cases bs with
  | nil => rfl
  | cons c bs => exact List.dropWhile_cons_of_neg (by rw [h c rfl]; simp)

theorem skipSpace_cons {c : UInt8} (h : isSpace c = true) : skipSpace (c :: bs) = skipSpace bs :=
  List.dropWhile_cons_of_pos h

theorem scanWord_append (hw : ∀ c ∈ w, isSpace c = false) (h : AtBlank bs) :
    scanWord (w ++ bs) = w := by
  have hbs : bs.takeWhile (fun c => !isSpace c) = [] := by
    cases bs with
    | nil => rfl
    | cons c bs => exact List.takeWhile_cons_of_neg (by rw [h c rfl]; simp)
  unfold scanWord
  rw [List.takeWhile_append_of_pos fun c hc => by rw [hw c hc]; rfl, hbs, List.append_nil]

theorem atWord_append (hw : w ≠ []) (h : ∀ c ∈ w, isSpace c = false) : AtWord (w ++ bs) := by
  cases w with
  | nil => exact absurd rfl hw
  | cons c w =>
    intro c' hc'
    cases hc'
    exact h c (by simp)

theorem takeWhile_ne_newline (hw : 10 ∉ w) (bs : List UInt8) :
    (w ++ bs).takeWhile (· != 10) = w ++ bs.takeWhile (· != 10) := by
  refine List.takeWhile_append_of_pos fun c hc => ?_
  have : c ≠ 10 := by
    rintro rfl
    exact hw hc
  simpa using this

/-- A line that fits is read with its newline. -/
theorem fgets_line (hw : 10 ∉ w) (hn : w.length + 1 < n) (bs : List UInt8) :
    fgets n (w ++ 10 :: bs) = some (w ++ [10], bs) := by
  have htake : (w ++ 10 :: bs).take (n - 1) = w ++ 10 :: bs.take (n - 1 - (w.length + 1)) := by
    rw [List.take_append, List.take_of_length_le (by omega)]
    obtain ⟨m, hm⟩ : ∃ m, n - 1 - w.length = m + 1 := ⟨n - 1 - w.length - 1, by omega⟩
    rw [hm, List.take_succ_cons]
    congr 3
    omega
  have hline : ((w ++ 10 :: bs).take (n - 1)).takeWhile (· != 10) = w := by
    rw [htake, takeWhile_ne_newline hw]
    simp
  unfold fgets
  rw [if_neg (by simp)]
  simp only [hline]
  rw [if_pos (by rw [htake]; simp)]
  have hsplit : w ++ 10 :: bs = (w ++ [10]) ++ bs := by simp
  rw [hsplit, List.take_left' (by simp), List.drop_left' (by simp)]

/-- A last line without a newline is read up to the end of the file. -/
theorem fgets_eof (hw : 10 ∉ w) (hne : w ≠ []) (hn : w.length < n) :
    fgets n w = some (w, []) := by
  have htake : w.take (n - 1) = w := List.take_of_length_le (by omega)
  have hline : w.takeWhile (· != 10) = w := by
    have := takeWhile_ne_newline hw []
    simpa using this
  unfold fgets
  rw [if_neg hne]
  simp only [htake, hline, lt_irrefl, if_false]
  simp

theorem fgets_nil : fgets n [] = none := rfl

end Streams

end OsWorkbench
