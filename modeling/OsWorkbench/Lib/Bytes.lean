import OsWorkbench.Lib.CString

/-!
# Byte buffers and memory images

A C object of `n` bytes is a `Bytes n`; it carries its length in its type. The
fields of a `struct` are little-endian words at fixed offsets, and a device is an
image from which buffers are loaded and to which they are stored.
-/

namespace OsWorkbench

/-- A buffer of `n` bytes. -/
abbrev Bytes (n : Nat) := Fin n → UInt8

/-- Byte `k` of a little-endian word. -/
def byteOf (w k : Nat) : UInt8 := UInt8.ofNat (w / 256 ^ k)

theorem toNat_byteOf (w k : Nat) : (byteOf w k).toNat = w / 256 ^ k % 256 := by
  simp [byteOf]

namespace Bytes

variable {n : Nat}

def zero : Bytes n := fun _ => 0

/-- The byte at offset `k`, and zero past the end. -/
def get (b : Bytes n) (k : Nat) : UInt8 := if h : k < n then b ⟨k, h⟩ else 0

def set (b : Bytes n) (k : Nat) (x : UInt8) : Bytes n := fun i => if i.val = k then x else b i

/-- The 16-bit word at offset `o`. -/
def get16 (b : Bytes n) (o : Nat) : UInt16 :=
  UInt16.ofNat ((b.get o).toNat + 256 * (b.get (o + 1)).toNat)

/-- The 32-bit word at offset `o`. -/
def get32 (b : Bytes n) (o : Nat) : UInt32 :=
  UInt32.ofNat ((b.get o).toNat + 256 * (b.get (o + 1)).toNat
    + 65536 * (b.get (o + 2)).toNat + 16777216 * (b.get (o + 3)).toNat)

def put32 (b : Bytes n) (o : Nat) (w : UInt32) : Bytes n := fun i =>
  if o ≤ i.val ∧ i.val < o + 4 then byteOf w.toNat (i.val - o) else b i

/-- The bytes from offset `o` to the end of the buffer. -/
def text (b : Bytes n) (o : Nat) : List UInt8 := (List.range' 0 (n - o)).map fun k => b.get (o + k)

/-- The string at offset `o`. -/
def str (b : Bytes n) (o : Nat) : CStr := .ofBuf (fun k => b.get (o + k)) (n - o)

/-- `strcpy` to offset `o`. -/
def putStr (b : Bytes n) (o : Nat) (s : CStr) : Bytes n := fun i =>
  if o ≤ i.val ∧ i.val ≤ o + s.length then s.get (i.val - o) else b i

/-! ## Bytes -/

theorem get_of_lt (b : Bytes n) {k : Nat} (h : k < n) : b.get k = b ⟨k, h⟩ := dif_pos h

theorem get_of_le (b : Bytes n) {k : Nat} (h : n ≤ k) : b.get k = 0 := dif_neg (not_lt.mpr h)

theorem ext_get {a b : Bytes n} (h : ∀ k, k < n → a.get k = b.get k) : a = b := by
  funext i
  have := h i.val i.isLt
  rwa [get_of_lt _ i.isLt, get_of_lt _ i.isLt] at this

theorem get_set_self (b : Bytes n) {k : Nat} (x : UInt8) (h : k < n) : (b.set k x).get k = x := by
  rw [get_of_lt _ h]
  exact if_pos rfl

theorem get_set_ne (b : Bytes n) {k k' : Nat} (x : UInt8) (h : k' ≠ k) :
    (b.set k x).get k' = b.get k' := by
  unfold get
  split
  · exact if_neg h
  · rfl

/-! ## Words -/

theorem get_put32_other (b : Bytes n) {o k : Nat} (w : UInt32) (h : k < o ∨ o + 4 ≤ k) :
    (b.put32 o w).get k = b.get k := by
  unfold get
  split
  · exact if_neg (by simp only; omega)
  · rfl

theorem get_put32 (b : Bytes n) {o j : Nat} (w : UInt32) (hj : j < 4) (h : o + 4 ≤ n) :
    (b.put32 o w).get (o + j) = byteOf w.toNat j := by
  have hlt : o + j < n := by omega
  rw [get_of_lt _ hlt]
  show (if o ≤ o + j ∧ o + j < o + 4 then byteOf w.toNat (o + j - o) else _) = _
  rw [if_pos (by omega), Nat.add_sub_cancel_left]

theorem get32_congr {m : Nat} {a : Bytes n} {b : Bytes m} {o p : Nat}
    (h : ∀ j, j < 4 → a.get (o + j) = b.get (p + j)) : a.get32 o = b.get32 p := by
  have h0 := h 0 (by decide)
  rw [Nat.add_zero, Nat.add_zero] at h0
  unfold get32
  rw [h0, h 1 (by decide), h 2 (by decide), h 3 (by decide)]

/-- A word whose bytes are those of `w` is `w`. -/
theorem get32_eq {b : Bytes n} {o : Nat} {w : UInt32}
    (h : ∀ j, j < 4 → b.get (o + j) = byteOf w.toNat j) : b.get32 o = w := by
  have h0 := h 0 (by decide)
  rw [Nat.add_zero] at h0
  have hw := w.toNat_lt
  apply UInt32.toNat_inj.mp
  unfold get32
  rw [h0, h 1 (by decide), h 2 (by decide), h 3 (by decide), UInt32.toNat_ofNat']
  simp only [toNat_byteOf]
  omega

theorem get32_put32 (b : Bytes n) {o : Nat} (w : UInt32) (h : o + 4 ≤ n) :
    (b.put32 o w).get32 o = w :=
  get32_eq fun _ hj => get_put32 b w hj h

theorem get32_put32_other (b : Bytes n) {o p : Nat} (w : UInt32) (h : p + 4 ≤ o ∨ o + 4 ≤ p) :
    (b.put32 o w).get32 p = b.get32 p :=
  get32_congr fun _ _ => get_put32_other b w (by omega)

theorem get16_eq {b : Bytes n} {o : Nat} {w : UInt16}
    (h : ∀ j, j < 2 → b.get (o + j) = byteOf w.toNat j) : b.get16 o = w := by
  have h0 := h 0 (by decide)
  rw [Nat.add_zero] at h0
  have hw := w.toNat_lt
  apply UInt16.toNat_inj.mp
  unfold get16
  rw [h0, h 1 (by decide), UInt16.toNat_ofNat']
  simp only [toNat_byteOf]
  omega

/-! ## Strings -/

theorem get_putStr_other (b : Bytes n) {o k : Nat} (s : CStr) (h : k < o ∨ o + s.length < k) :
    (b.putStr o s).get k = b.get k := by
  unfold get
  split
  · exact if_neg (by simp only; omega)
  · rfl

theorem get_putStr (b : Bytes n) {o j : Nat} (s : CStr) (hj : j ≤ s.length) (h : o + j < n) :
    (b.putStr o s).get (o + j) = s.get j := by
  rw [get_of_lt _ h]
  show (if o ≤ o + j ∧ o + j ≤ o + s.length then s.get (o + j - o) else _) = _
  rw [if_pos (by omega), Nat.add_sub_cancel_left]

theorem get32_putStr_other (b : Bytes n) {o p : Nat} (s : CStr)
    (h : p + 4 ≤ o ∨ o + s.length < p) : (b.putStr o s).get32 p = b.get32 p :=
  get32_congr fun _ _ => get_putStr_other b s (by omega)

theorem str_eq_iff (b : Bytes n) {o : Nat} {s : CStr} (h : o + s.length < n) :
    b.str o = s ↔ ∀ j, j ≤ s.length → b.get (o + j) = s.get j := by
  unfold str
  rw [CStr.ofBuf_eq_iff (by omega)]
  constructor
  · rintro ⟨hlt, hz⟩ j hj
    rcases Nat.lt_or_eq_of_le hj with hj | rfl
    · exact hlt j hj
    · exact hz.trans (CStr.get_eq_zero.mpr le_rfl).symm
  · intro hall
    exact ⟨fun i hi => hall i hi.le, (hall _ le_rfl).trans (CStr.get_eq_zero.mpr le_rfl)⟩

theorem str_putStr (b : Bytes n) {o : Nat} {s : CStr} (h : o + s.length < n) :
    (b.putStr o s).str o = s :=
  (str_eq_iff _ h).mpr fun _ hj => get_putStr b s hj (by omega)

/-- Two buffers that agree on a string and its terminator hold the same string. -/
theorem str_congr {a b : Bytes n} {o : Nat} (hn : o + (b.str o).length < n)
    (h : ∀ j, j ≤ (b.str o).length → a.get (o + j) = b.get (o + j)) : a.str o = b.str o :=
  (str_eq_iff a hn).mpr fun j hj => (h j hj).trans ((str_eq_iff b hn).mp rfl j hj)

end Bytes

/-! ## Images -/

/-- The `n` bytes of an image from address `a` on. -/
def load {n : Nat} (d : Nat → UInt8) (a : Nat) : Bytes n := fun i => d (a + i.val)

/-- The image with the buffer `b` at address `a`. -/
def store {n : Nat} (d : Nat → UInt8) (a : Nat) (b : Bytes n) : Nat → UInt8 := fun x =>
  if h : a ≤ x ∧ x < a + n then b ⟨x - a, by omega⟩ else d x

theorem load_store {n : Nat} (d : Nat → UInt8) (a : Nat) (b : Bytes n) :
    load (store d a b) a = b := by
  funext i
  have hi := i.isLt
  unfold load store
  rw [dif_pos (by omega)]
  exact congrArg b (Fin.ext (Nat.add_sub_cancel_left a i.val))

/-- A load from a region that the store does not touch. -/
theorem load_store_disjoint {m n : Nat} (d : Nat → UInt8) {a x : Nat} (b : Bytes n)
    (h : x + m ≤ a ∨ a + n ≤ x) : (load (store d a b) x : Bytes m) = load d x := by
  funext i
  have hi := i.isLt
  unfold load store
  rw [dif_neg (by omega)]

end OsWorkbench
