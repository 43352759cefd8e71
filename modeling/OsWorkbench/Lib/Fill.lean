import Mathlib.Data.List.Range
import Mathlib.Tactic.Common
import Mathlib.Tactic.Ring

/-!
# Filling parts of an array

Loops that store a value in every cell of a segment, or in every cell of a rectangle that is
kept row after row.
-/

namespace OsWorkbench.Lib

variable {α : Type}

/-- The cells `o`, ..., `o + n - 1` are stored one after the other. -/
def fillSegment (f : Nat → α) (o n : Nat) (a : Nat → α) : Nat → α :=
  (List.range n).foldl (fun a i => Function.update a (o + i) (f i)) a

theorem fillSegment_apply (f : Nat → α) (o n : Nat) (a : Nat → α) (p : Nat) :
    fillSegment f o n a p = if o ≤ p ∧ p < o + n then f (p - o) else a p := by
  induction n with
  | zero => rw [if_neg (by omega)]; rfl
  | succ n ih =>
    rw [fillSegment, List.range_succ, List.foldl_append, List.foldl_cons, List.foldl_nil]
    show Function.update (fillSegment f o n a) (o + n) (f n) p = _
    by_cases hp : p = o + n
    · rw [hp, Function.update_self, if_pos (by omega), Nat.add_sub_cancel_left]
    · rw [Function.update_of_ne hp, ih]
      by_cases hin : o ≤ p ∧ p < o + n
      · rw [if_pos hin, if_pos (by omega)]
      · rw [if_neg hin, if_neg (by omega)]

/-- The rows of a rectangle of `h` rows of `w` cells are stored one after the other. -/
def fillRows (f : Nat → Nat → α) (w h : Nat) (a : Nat → α) : Nat → α :=
  (List.range h).foldl (fun a y => fillSegment (f y) (y * w) w a) a

theorem fillRows_apply {f : Nat → Nat → α} {w h : Nat} (a : Nat → α) {x y : Nat} (hx : x < w)
    (hy : y < h) : fillRows f w h a (y * w + x) = f y x := by
  induction h with
  | zero => exact absurd hy (Nat.not_lt_zero y)
  | succ h ih =>
    rw [fillRows, List.range_succ, List.foldl_append, List.foldl_cons, List.foldl_nil]
    show fillSegment (f h) (h * w) w (fillRows f w h a) (y * w + x) = _
    rw [fillSegment_apply]
    rcases Nat.lt_succ_iff_lt_or_eq.mp hy with hlt | rfl
    · have hrow : (y + 1) * w ≤ h * w := Nat.mul_le_mul_right w hlt
      rw [Nat.succ_mul] at hrow
      rw [if_neg (by omega), ih hlt]
    · rw [if_pos (by omega), Nat.add_sub_cancel_left]

end OsWorkbench.Lib
