import Mathlib

/-!
# Counting tasks

Finitely many tasks, each at a point, and a number for each point: the sum over all
tasks, how it changes when one task goes on, and what is a lower bound of it. For a list
without repetitions, how many of its members a function takes to a value, and how that
changes when the function changes at one of them.
-/

namespace OsWorkbench.Lib

variable {T P : Type} [Fintype T]

/-- The sum over all tasks of a number for each point. -/
def total (w : T → P → Int) (point : T → P) : Int := ∑ t, w t (point t)

theorem total_nonneg {w : T → P → Int} (point : T → P) (hw : ∀ t p, 0 ≤ w t p) :
    0 ≤ total w point :=
  Finset.sum_nonneg fun t _ => hw t _

theorem le_total {w : T → P → Int} (point : T → P) (hw : ∀ t p, 0 ≤ w t p) (t : T) :
    w t (point t) ≤ total w point :=
  Finset.single_le_sum (fun u _ => hw u (point u)) (Finset.mem_univ t)

variable [DecidableEq T]

theorem total_update (w : T → P → Int) (point : T → P) (t : T) (p : P) :
    total w (Function.update point t p) = total w point - w t (point t) + w t p := by
  unfold total
  rw [← Finset.add_sum_erase _ _ (Finset.mem_univ t),
    ← Finset.add_sum_erase _ _ (Finset.mem_univ t),
    Function.update_self]
  have hrest : ∑ u ∈ Finset.univ.erase t, w u (Function.update point t p u) =
      ∑ u ∈ Finset.univ.erase t, w u (point u) :=
    Finset.sum_congr rfl fun u hu => by rw [Function.update_of_ne (Finset.ne_of_mem_erase hu)]
  rw [hrest]
  ring

/-- Tasks that count for one each. -/
theorem length_le_total {w : T → P → Int} (point : T → P) (hw : ∀ t p, 0 ≤ w t p)
    {l : List T} (hnd : l.Nodup) (hl : ∀ t ∈ l, w t (point t) = 1) :
    (l.length : Int) ≤ total w point := by
  unfold total
  calc (l.length : Int) = ∑ t ∈ l.toFinset, w t (point t) := by
        rw [Finset.sum_congr rfl fun t ht => hl t (List.mem_toFinset.mp ht), Finset.sum_const,
          List.toFinset_card_of_nodup hnd]
        simp
    _ ≤ ∑ t, w t (point t) :=
        Finset.sum_le_sum_of_subset_of_nonneg (Finset.subset_univ _) fun t _ _ => hw t _

/-! ## Members with a value -/

section Members

variable {α β : Type}

/-- The indices of a list without repetitions are one for each of its members. -/
theorem bijOn_getElem? {l : List α} (hnd : l.Nodup) :
    Set.BijOn (fun n => l[n]?) (Set.Iio l.length) (some '' {a | a ∈ l}) := by
  refine ⟨fun n hn => ?_, fun n hn n' _ heq => ?_, ?_⟩
  · exact ⟨l.get ⟨n, hn⟩, List.getElem_mem hn, (List.getElem?_eq_getElem hn).symm⟩
  · exact (List.getElem?_inj hn hnd).mp heq
  · rintro _ ⟨a, ha, rfl⟩
    obtain ⟨n, hn, hget⟩ := List.mem_iff_getElem.mp ha
    exact ⟨n, hn, by rw [← hget]; exact List.getElem?_eq_getElem hn⟩

variable [DecidableEq α] [DecidableEq β]

theorem countP_update_of_notMem {f : α → β} {l : List α} {a : α} (ha : a ∉ l) (b v : β) :
    l.countP (fun x => Function.update f a b x = v) = l.countP (fun x => f x = v) := by
  refine List.countP_congr fun x hx => ?_
  rw [Function.update_of_ne]
  rintro rfl
  exact ha hx

/-- The function changes at one member: the count loses it with its old value and gains it
with the new one. -/
theorem countP_update {f : α → β} {l : List α} {a : α} (hnd : l.Nodup) (ha : a ∈ l) (b v : β) :
    l.countP (fun x => Function.update f a b x = v) + (if f a = v then 1 else 0) =
      l.countP (fun x => f x = v) + if b = v then 1 else 0 := by
  induction l with
  | nil => cases ha
  | cons x l ih =>
    obtain ⟨hx, hnd⟩ := List.nodup_cons.mp hnd
    simp only [List.countP_cons, decide_eq_true_eq]
    rcases List.mem_cons.mp ha with rfl | ha
    · rw [countP_update_of_notMem hx, Function.update_self]
      omega
    · have hxa : x ≠ a := by
        rintro rfl
        exact hx ha
      have hrest := ih hnd ha
      rw [Function.update_of_ne hxa]
      omega

end Members

end OsWorkbench.Lib
