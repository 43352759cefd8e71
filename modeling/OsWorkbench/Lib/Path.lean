import Mathlib

/-!
# Singly linked paths

A path follows `next` from one cell through a list of cells to another one. The cells at
its two ends are no members of the list, so a list between two sentinels is a path.
-/

namespace OsWorkbench.Lib

variable {P : Type} {next next' : P → P} {a b x y : P} {l l₁ l₂ : List P}

/-- `next` leads from `a` through the list to `b`. -/
def Path (next : P → P) : P → List P → P → Prop
  | a, [], b => next a = b
  | a, x :: l, b => next a = x ∧ Path next x l b

namespace Path

theorem congr (h : Path next a l b) (hs : ∀ q ∈ a :: l, next' q = next q) : Path next' a l b := by
  induction l generalizing a with
  | nil => exact (hs a (by simp)).trans h
  | cons x l ih => exact ⟨(hs a (by simp)).trans h.1, ih h.2 fun q hq => hs q (by simp [hq])⟩

/-- The first cell behind `a`. -/
theorem next_eq (h : Path next a l b) : next a = l.headD b := by
  cases l with
  | nil => exact h
  | cons x l => exact h.1

/-- A cell is put behind the last cell of the first part. -/
theorem insert (h : Path next a (l₁ ++ l₂) b) (hnd : (a :: (l₁ ++ l₂)).Nodup)
    (hy : y ∉ a :: (l₁ ++ l₂)) (hprev : next' ((a :: l₁).getLast (by simp)) = y)
    (hnext : next' y = l₂.headD b)
    (hs : ∀ q, q ≠ (a :: l₁).getLast (by simp) → q ≠ y → next' q = next q) :
    Path next' a (l₁ ++ y :: l₂) b := by
  induction l₁ generalizing a with
  | nil =>
    refine ⟨hprev, ?_⟩
    cases l₂ with
    | nil => exact hnext
    | cons x l =>
      refine ⟨hnext, h.2.congr fun q hq => hs q ?_ ?_⟩
      · rintro rfl
        exact (List.nodup_cons.mp hnd).1 hq
      · rintro rfl
        exact hy (List.mem_cons_of_mem _ hq)
  | cons x l₁ ih =>
    have hlast : (a :: x :: l₁).getLast (by simp) = (x :: l₁).getLast (by simp) := by simp
    have hne : a ≠ (a :: x :: l₁).getLast (by simp) := by
      rw [hlast]
      intro he
      refine (List.nodup_cons.mp hnd).1 (List.mem_append_left l₂ ?_)
      rw [he]
      exact List.getLast_mem _
    have hya : a ≠ y := fun he => hy (he ▸ List.mem_cons_self)
    refine ⟨(hs a hne hya).trans h.1, ih h.2 (List.nodup_cons.mp hnd).2
      (fun hm => hy (List.mem_cons_of_mem _ hm)) (hlast ▸ hprev) fun q hq => hs q (hlast ▸ hq)⟩

end Path

end OsWorkbench.Lib
