import Mathlib

/-!
# Ring buffers

The contents of a circular array: `n` cells from index `head` on, in an array of
`cap` cells. A full ring and an empty one have the same indices, so the number of
cells is a parameter and not computed from them.
-/

namespace OsWorkbench

variable {α : Type}

/-- The `n` cells from `head` on. -/
def ring (cap : Nat) (que : Nat → α) (head n : Nat) : List α :=
  (List.range n).map fun i => que ((head + i) % cap)

namespace Ring

variable {cap head n : Nat} {que : Nat → α} {x : α}

@[simp] theorem length_ring : (ring cap que head n).length = n := by simp [ring]

@[simp] theorem ring_zero : ring cap que head 0 = [] := rfl

/-- The first cell and the ring that starts after it. -/
theorem ring_succ (hhead : head < cap) :
    ring cap que head (n + 1) = que head :: ring cap que ((head + 1) % cap) n := by
  unfold ring
  rw [List.range_succ_eq_map, List.map_cons, Nat.add_zero, Nat.mod_eq_of_lt hhead, List.map_map]
  congr 1
  refine List.map_congr_left fun i _ => ?_
  show que ((head + (i + 1)) % cap) = que (((head + 1) % cap + i) % cap)
  rw [Nat.mod_add_mod, Nat.add_right_comm, Nat.add_assoc]

theorem add_mod_ne (head : Nat) {i : Nat} (hi : i < n) (hn : n < cap) :
    (head + i) % cap ≠ (head + n) % cap := by
  intro h
  have hmod : (i : Nat) ≡ n [MOD cap] := Nat.ModEq.add_left_cancel' head h
  have : i = n := by
    have hi' : i % cap = i := Nat.mod_eq_of_lt (by omega)
    have hn' : n % cap = n := Nat.mod_eq_of_lt hn
    rw [← hi', ← hn']
    exact hmod
  omega

/-- A cell written after the last one, in a ring that is not full. -/
theorem ring_push (hn : n < cap) :
    ring cap (Function.update que ((head + n) % cap) x) head (n + 1) =
      ring cap que head n ++ [x] := by
  unfold ring
  rw [List.range_succ, List.map_append, List.map_singleton, Function.update_self]
  congr 1
  refine List.map_congr_left fun i hi => ?_
  exact Function.update_of_ne (add_mod_ne _ (List.mem_range.mp hi) hn) _ _

/-- The last cell. -/
theorem ring_snoc :
    ring cap que head (n + 1) = ring cap que head n ++ [que ((head + n) % cap)] := by
  unfold ring
  rw [List.range_succ, List.map_append, List.map_singleton]

/-- A cell behind the ring is written. -/
theorem ring_update {m : Nat} (hm : m < cap) (hn : n ≤ m) :
    ring cap (Function.update que ((head + m) % cap) x) head n = ring cap que head n := by
  unfold ring
  refine List.map_congr_left fun i hi => ?_
  exact Function.update_of_ne (add_mod_ne _ ((List.mem_range.mp hi).trans_le hn) hm) _ _

/-- The first `m` cells and the ring that starts after them. -/
theorem ring_add {m : Nat} :
    ring cap que head (m + n) = ring cap que head m ++ ring cap que ((head + m) % cap) n := by
  unfold ring
  rw [List.range_add, List.map_append, List.map_map]
  congr 1
  refine List.map_congr_left fun i _ => ?_
  show que ((head + (m + i)) % cap) = que (((head + m) % cap + i) % cap)
  rw [Nat.mod_add_mod, Nat.add_assoc]

/-- The index after `i`. -/
theorem succ_mod {i : Nat} (hi : i < cap) : (if i + 1 = cap then 0 else i + 1) = (i + 1) % cap := by
  split_ifs with h
  · rw [h, Nat.mod_self]
  · rw [Nat.mod_eq_of_lt (by omega)]

end Ring

end OsWorkbench
