import OsWorkbench.Dev.Screen

/-!
# `memmove`

The model of `memmove` of `abstract-machine/libs/klib/src/string.c` over a memory of
bytes, where an access outside of the memory is a fault. The code for the terminals
moves whole cells of an array instead of bytes; both are the same copy.
-/

namespace OsWorkbench.Klib

/-- A memory of `size` bytes. -/
structure Memory where
  size : Nat
  bytes : Nat → UInt8

namespace Memory

def load (m : Memory) (p : Int) : Except Fault UInt8 := do
  let a ← index p m.size
  return m.bytes a

def store (m : Memory) (p : Int) (b : UInt8) : Except Fault Memory := do
  let a ← index p m.size
  return { m with bytes := Function.update m.bytes a b }

end Memory

/-- `while (n--) *_dest++ = *_src++`. -/
def copyUp (m : Memory) (dest src : Int) : Nat → Except Fault Memory
  | 0 => .ok m
  | n + 1 => do
    let b ← m.load src
    let m ← m.store dest b
    copyUp m (dest + 1) (src + 1) n

/-- `while (n--) *_dest-- = *_src--`. -/
def copyDown (m : Memory) (dest src : Int) : Nat → Except Fault Memory
  | 0 => .ok m
  | n + 1 => do
    let b ← m.load src
    let m ← m.store dest b
    copyDown m (dest - 1) (src - 1) n

def memmove (m : Memory) (dest src : Int) (n : Nat) : Except Fault (Int × Memory) := do
  let m ← if src > dest then copyUp m dest src n
    else if src < dest then copyDown m (dest + n - 1) (src + n - 1) n
    else .ok m
  return (dest, m)

/-! ## The copies -/

section Copies

variable {m : Memory} {dest src n : Nat}

theorem copy_step (hd : dest < m.size) (hs : src < m.size) {β : Type}
    {k : Memory → Except Fault β} :
    (do let b ← m.load src; let m ← m.store dest b; k m) =
      k { m with bytes := Function.update m.bytes dest (m.bytes src) } := by
  rw [Memory.load, bind_assoc, index_bind hs, pure_eq_ok, ok_bind, Memory.store, bind_assoc,
    index_bind hd, pure_eq_ok, ok_bind]

/-- Upwards, no byte is read after it was written over. -/
theorem copyUp_eq (hd : dest + n ≤ m.size) (hs : src + n ≤ m.size) :
    copyUp m dest src n = .ok { m with bytes := Dev.copyForward m.bytes dest src n } := by
  induction n generalizing m dest src with
  | zero => rfl
  | succ n ih =>
    rw [copyUp, copy_step (by omega) (by omega)]
    have hd' : dest + 1 + n ≤ m.size := by omega
    have hs' : src + 1 + n ≤ m.size := by omega
    exact ih (m := { m with bytes := Function.update m.bytes dest (m.bytes src) }) hd' hs'

/-- Downwards, from the last bytes on. -/
theorem copyDown_eq (hd : dest + n ≤ m.size) (hs : src + n ≤ m.size) :
    copyDown m (dest + n - 1 : Int) (src + n - 1 : Int) n =
      .ok { m with bytes := Dev.copyBackward m.bytes dest src n } := by
  induction n generalizing m with
  | zero => rfl
  | succ n ih =>
    rw [show (dest + (n + 1 : Nat) - 1 : Int) = (dest + n : Nat) by omega,
      show (src + (n + 1 : Nat) - 1 : Int) = (src + n : Nat) by omega, copyDown,
      copy_step (by omega) (by omega)]
    have hrest := ih
      (m := { m with bytes := Function.update m.bytes (dest + n) (m.bytes (src + n)) })
      (by dsimp only; omega) (by dsimp only; omega)
    push_cast
    exact hrest

/-- A part is moved up, also onto itself. -/
theorem copyBackward_apply {α : Type} {f : Nat → α} (h : src < dest) (i : Nat) :
    Dev.copyBackward f dest src n i =
      if dest ≤ i ∧ i < dest + n then f (i - (dest - src)) else f i := by
  induction n generalizing f with
  | zero => rw [Dev.copyBackward, if_neg (by omega)]
  | succ n ih =>
    rw [Dev.copyBackward, ih]
    rcases Nat.lt_trichotomy i (dest + n) with hlt | heq | hgt
    · rw [Function.update_of_ne (by omega), Function.update_of_ne (by omega)]
      exact ite_congr (propext (by omega)) (fun _ => rfl) fun _ => rfl
    · rw [if_neg (by omega), if_pos (by omega), heq, Function.update_self]
      congr 1
      omega
    · rw [if_neg (by omega), if_neg (by omega), Function.update_of_ne (by omega)]

/-- What `memmove` of the elements of an array leaves. -/
theorem memmove_apply {α : Type} (f : Nat → α) (dest src n i : Nat) :
    Dev.memmove f dest src n i = if dest ≤ i ∧ i < dest + n then f (src + (i - dest)) else f i := by
  unfold Dev.memmove
  split_ifs with hup hin hdown hin hin
  · rw [Dev.copyForward_apply hup, if_pos hin]
    congr 1
    omega
  · rw [Dev.copyForward_apply hup, if_neg hin]
  · rw [copyBackward_apply hdown, if_pos hin]
    congr 1
    omega
  · rw [copyBackward_apply hdown, if_neg hin]
  · congr 1
    omega
  · rfl

/-- The copy of bytes is the copy of the elements of an array. -/
theorem memmove_eq (hd : dest + n ≤ m.size) (hs : src + n ≤ m.size) :
    memmove m dest src n =
      .ok ((dest : Int), { m with bytes := Dev.memmove m.bytes dest src n }) := by
  unfold memmove Dev.memmove
  simp only [gt_iff_lt, Nat.cast_lt]
  split_ifs with hup hdown
  · rw [copyUp_eq hd hs]
    rfl
  · rw [copyDown_eq hd hs]
    rfl
  · rfl

end Copies

/-! ## Cells -/

/-- The bytes of an element of an array of elements of `w` bytes at `base`. -/
def cell (w base : Nat) (f : Nat → UInt8) (i : Nat) : Fin w → UInt8 := fun j => f (base + w * i + j)

theorem mul_le_cell {w i j k : Nat} (hj : j < w) : w * k ≤ w * i + j ↔ k ≤ i := by
  have hi : (w * i + j) / w = i := by
    rw [Nat.mul_add_div (by omega), Nat.div_eq_of_lt hj, Nat.add_zero]
  rw [Nat.mul_comm w k, ← Nat.le_div_iff_mul_le (by omega), hi]

/-- The scrolling of a terminal moves whole cells, and this is what `memmove` of their bytes
does. -/
theorem memmove_cells (w base : Nat) (f : Nat → UInt8) (dest src n i : Nat) :
    cell w base (Dev.memmove f (base + w * dest) (base + w * src) (w * n)) i =
      Dev.memmove (cell w base f) dest src n i := by
  funext j
  have hle := mul_le_cell (i := i) (k := dest) j.isLt
  have hlt := mul_le_cell (i := i) (k := dest + n) j.isLt
  rw [Nat.mul_add] at hlt
  rw [cell, memmove_apply, memmove_apply]
  split_ifs with h1 h2 h2
  · have hsub : w * (i - dest) = w * i - w * dest := Nat.mul_sub ..
    have hle' : w * dest ≤ w * i := Nat.mul_le_mul_left w h2.1
    rw [cell, Nat.mul_add, hsub]
    congr 1
    omega
  · omega
  · omega
  · rfl

/-- Whatever the overlap, `memmove` leaves the old bytes of the source in the destination,
changes no other byte and accesses nothing outside of the memory. -/
theorem memmove_correct (m : Memory) {dest src n : Nat} (hd : dest + n ≤ m.size)
    (hs : src + n ≤ m.size) :
    ∃ m', memmove m dest src n = .ok ((dest : Int), m') ∧ m'.size = m.size ∧
      (∀ i < n, m'.bytes (dest + i) = m.bytes (src + i)) ∧
      ∀ a, a < dest ∨ dest + n ≤ a → m'.bytes a = m.bytes a := by
  refine ⟨_, memmove_eq hd hs, rfl, fun i hi => ?_, fun a ha => ?_⟩
  · refine (memmove_apply m.bytes dest src n (dest + i)).trans ?_
    rw [if_pos (by omega)]
    congr 1
    omega
  · refine (memmove_apply m.bytes dest src n a).trans ?_
    rw [if_neg (by omega)]

/-- Five bytes are moved up by two, onto themselves. -/
theorem memmove_correct_overlap : ∃ m', memmove ⟨8, fun i => .ofNat i⟩ 3 1 5 = .ok (3, m') ∧
    m'.bytes 7 = 5 ∧ m'.bytes 2 = 2 := by
  obtain ⟨m', h, -, hin, hout⟩ :=
    memmove_correct ⟨8, fun i => .ofNat i⟩ (show 3 + 5 ≤ 8 by decide) (show 1 + 5 ≤ 8 by decide)
  exact ⟨m', h, hin 4 (by decide), hout 2 (by decide)⟩

end OsWorkbench.Klib
