import Mathlib

/-!
# Doubly linked chains

A chain is a list of pointers; two maps `next` and `prev` link its neighbours.
Sentinels are ordinary members at both ends of the list, so inserting and
removing a node never looks at the ends.
-/

namespace OsWorkbench.Chain

variable {P : Type} {next prev next' prev' : P → P} {L₁ L₂ : List P} {p y n : P}

/-- Every pointer of the list is followed by its successor under `next`, and
`prev` leads back. -/
def Linked (next prev : P → P) (L : List P) : Prop :=
  L.IsChain fun a b => next a = b ∧ prev b = a

theorem linked_cons_cons {a b : P} {L : List P} :
    Linked next prev (a :: b :: L) ↔ (next a = b ∧ prev b = a) ∧ Linked next prev (b :: L) :=
  List.isChain_cons_cons

/-- Cutting a chain at two neighbours. -/
theorem linked_append {a b : P} :
    Linked next prev (L₁ ++ a :: b :: L₂) ↔
      Linked next prev (L₁ ++ [a]) ∧ (next a = b ∧ prev b = a) ∧ Linked next prev (b :: L₂) :=
  List.isChain_append_cons_cons

/-- A chain survives a change of the links that touches neither the `next` of a
member other than the last nor the `prev` of a member other than the first. -/
theorem Linked.congr {L : List P} (h : Linked next prev L)
    (hn : ∀ q ∈ L.dropLast, next' q = next q) (hp : ∀ q ∈ L.tail, prev' q = prev q) :
    Linked next' prev' L := by
  induction L with
  | nil => exact List.IsChain.nil
  | cons a L ih =>
    cases L with
    | nil => exact List.IsChain.singleton a
    | cons b L =>
      obtain ⟨⟨h1, h2⟩, h3⟩ := linked_cons_cons.mp h
      refine linked_cons_cons.mpr ⟨⟨?_, ?_⟩, ih h3 ?_ ?_⟩
      · rw [hn a (by simp), h1]
      · rw [hp b (by simp), h2]
      · intro q hq
        exact hn q (by simp [List.dropLast_cons_of_ne_nil, hq])
      · intro q hq
        exact hp q (by simpa using Or.inr hq)

/-- Linking a fresh node `y` between two neighbours `p` and `n`. -/
theorem Linked.insert (h : Linked next prev (L₁ ++ p :: n :: L₂))
    (nd : (L₁ ++ p :: n :: L₂).Nodup) (hy : y ∉ L₁ ++ p :: n :: L₂)
    (hpn : next' p = y) (hyn : next' y = n) (hyp : prev' y = p) (hnp : prev' n = y)
    (hn : ∀ q, q ≠ p → q ≠ y → next' q = next q) (hp : ∀ q, q ≠ n → q ≠ y → prev' q = prev q) :
    Linked next' prev' (L₁ ++ p :: y :: n :: L₂) := by
  obtain ⟨hl, _, hr⟩ := linked_append.mp h
  simp only [List.mem_append, List.mem_cons, not_or] at hy
  simp only [List.nodup_append, List.nodup_cons, List.mem_cons, not_or] at nd
  refine linked_append.mpr ⟨hl.congr ?_ ?_, ⟨hpn, hyp⟩,
    linked_cons_cons.mpr ⟨⟨hyn, hnp⟩, hr.congr ?_ ?_⟩⟩
  · intro q hq
    rw [List.dropLast_concat] at hq
    exact hn q (nd.2.2 q hq p (by simp)) (fun e => hy.1 (e ▸ hq))
  · intro q hq
    have hq' : q ∈ L₁ ++ [p] := List.mem_of_mem_tail hq
    rw [List.mem_append, List.mem_singleton] at hq'
    rcases hq' with hq' | rfl
    · exact hp q (nd.2.2 q hq' n (by simp)) (fun e => hy.1 (e ▸ hq'))
    · exact hp q nd.2.1.1.1 (Ne.symm hy.2.1)
  · intro q hq
    have hq' : q ∈ n :: L₂ := List.mem_of_mem_dropLast hq
    rw [List.mem_cons] at hq'
    rcases hq' with rfl | hq'
    · exact hn q (Ne.symm nd.2.1.1.1) (Ne.symm hy.2.2.1)
    · exact hn q (fun e => nd.2.1.1.2 (e ▸ hq')) (fun e => hy.2.2.2 (e ▸ hq'))
  · intro q hq
    exact hp q (fun e => nd.2.1.2.1 (e ▸ hq)) (fun e => hy.2.2.2 (e ▸ hq))

/-- Unlinking a node `y` from between its neighbours `p` and `n`. -/
theorem Linked.remove (h : Linked next prev (L₁ ++ p :: y :: n :: L₂))
    (nd : (L₁ ++ p :: y :: n :: L₂).Nodup) (hpn : next' p = n) (hnp : prev' n = p)
    (hn : ∀ q, q ≠ p → q ≠ y → next' q = next q) (hp : ∀ q, q ≠ n → q ≠ y → prev' q = prev q) :
    Linked next' prev' (L₁ ++ p :: n :: L₂) := by
  obtain ⟨hl, _, hr⟩ := linked_append.mp h
  obtain ⟨_, hr⟩ := linked_cons_cons.mp hr
  simp only [List.nodup_append, List.nodup_cons, List.mem_cons, not_or] at nd
  refine linked_append.mpr ⟨hl.congr ?_ ?_, ⟨hpn, hnp⟩, hr.congr ?_ ?_⟩
  · intro q hq
    rw [List.dropLast_concat] at hq
    exact hn q (nd.2.2 q hq p (by simp)) (nd.2.2 q hq y (by simp))
  · intro q hq
    have hq' : q ∈ L₁ ++ [p] := List.mem_of_mem_tail hq
    rw [List.mem_append, List.mem_singleton] at hq'
    rcases hq' with hq' | rfl
    · exact hp q (nd.2.2 q hq' n (by simp)) (nd.2.2 q hq' y (by simp))
    · exact hp q nd.2.1.1.2.1 nd.2.1.1.1
  · intro q hq
    have hq' : q ∈ n :: L₂ := List.mem_of_mem_dropLast hq
    rw [List.mem_cons] at hq'
    rcases hq' with rfl | hq'
    · exact hn q (Ne.symm nd.2.1.1.2.1) (Ne.symm nd.2.1.2.1.1)
    · exact hn q (fun e => nd.2.1.1.2.2 (e ▸ hq')) (fun e => nd.2.1.2.1.2 (e ▸ hq'))
  · intro q hq
    exact hp q (fun e => nd.2.1.2.2.1 (e ▸ hq)) (fun e => nd.2.1.2.1.2 (e ▸ hq))

end OsWorkbench.Chain
