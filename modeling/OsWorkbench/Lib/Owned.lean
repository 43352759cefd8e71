import Mathlib.Data.List.Perm.Basic
import Mathlib.Data.List.Nodup
import Mathlib.Data.List.Lemmas

/-!
# Owners and what they own

Every member of a list owns a list of things. How the whole changes when one member gets
more, and when one member goes.
-/

namespace OsWorkbench.Lib

variable {α β : Type} {l : List α} {a : α}

theorem flatMap_perm_append {f g : α → List β} {bs : List β} (hnd : l.Nodup) (ha : a ∈ l)
    (hself : (g a).Perm (bs ++ f a)) (hrest : ∀ x ∈ l, x ≠ a → g x = f x) :
    (l.flatMap g).Perm (bs ++ l.flatMap f) := by
  induction l with
  | nil => cases ha
  | cons x l ih =>
    obtain ⟨hx, hl⟩ := List.nodup_cons.mp hnd
    rw [List.flatMap_cons, List.flatMap_cons]
    rcases List.mem_cons.mp ha with rfl | hmem
    · have hsame : l.flatMap g = l.flatMap f :=
        List.flatMap_congr fun y hy => hrest y (.tail _ hy) fun h => hx (h ▸ hy)
      rw [hsame, ← List.append_assoc]
      exact hself.append_right _
    · have hne : x ≠ a := fun h => hx (h ▸ hmem)
      rw [hrest x List.mem_cons_self hne]
      have htail := ih hl hmem fun y hy => hrest y (.tail _ hy)
      exact (htail.append_left _).trans (List.perm_append_comm_assoc ..)

theorem filterMap_update_perm [DecidableEq α] {f : α → Option β} (hnd : l.Nodup) (ha : a ∈ l)
    (hnone : f a = none) (b : β) :
    (l.filterMap (Function.update f a (some b))).Perm (b :: l.filterMap f) := by
  rw [List.filterMap_eq_flatMap_toList, List.filterMap_eq_flatMap_toList]
  refine flatMap_perm_append (g := fun x => (Function.update f a (some b) x).toList) hnd ha
    (?_ : List.Perm _ ([b] ++ _)) fun x _ hx => ?_
  · rw [Function.update_self, hnone]
    exact List.Perm.refl _
  · rw [Function.update_of_ne hx]

theorem flatMap_perm_erase [DecidableEq α] (ha : a ∈ l) (f : α → List β) :
    (l.flatMap f).Perm (f a ++ (l.erase a).flatMap f) :=
  (List.perm_cons_erase ha).flatMap_right f

theorem mem_filterMap_of_eq {f : α → Option β} {b : β} (ha : a ∈ l) (h : f a = some b) :
    b ∈ l.filterMap f :=
  List.mem_filterMap.mpr ⟨a, ha, h⟩

/-- Two members own nothing in common. -/
theorem not_mem_of_flatMap_nodup [DecidableEq α] {f : α → List β} {x : α} {b : β}
    (hnd : (l.flatMap f).Nodup) (ha : a ∈ l) (hx : x ∈ l) (hne : x ≠ a) (hb : b ∈ f a) :
    b ∉ f x := by
  have hsplit := (flatMap_perm_erase ha f).nodup_iff.mp hnd
  intro hbx
  exact (List.nodup_append.mp hsplit).2.2 b hb b
    (List.mem_flatMap.mpr ⟨x, (List.mem_erase_of_ne hne).mpr hx, hbx⟩) rfl

end OsWorkbench.Lib
