import OsWorkbench.Vfs.Paths
import OsWorkbench.Vfs.Remove

/-!
# What the vinodes say about the tree

The tree and the rings in terms of the vinodes alone: which of them `child` and `next`
reach from the root, which are below another one, and what a ring has to be like for the
loop along it to end. Under the invariant these are the lists of children and the rings
it speaks of.
-/

namespace OsWorkbench.Vfs

open Lib

/-- `child` and `next` lead from the root to the vinode. -/
inductive Reached (V : Vinodes) : Nat → Prop
  | root : Reached V 0
  | child {i j : Nat} : Reached V i → (V i).child = j → Reached V j
  | next {i j : Nat} : Reached V i → (V i).next = j → Reached V j

/-- The vinode is `x` or below it. -/
inductive Under (V : Vinodes) (x : Nat) : Nat → Prop
  | self : Under V x x
  | child {i j : Nat} : Under V x i → (V i).link = false → (V i).child = j → Under V x j
  | next {i j : Nat} : Under V x i → i ≠ x → (V i).next = j → Under V x j

/-- The vinode stays in the tree when `x` is removed. -/
def Stays (V : Vinodes) (x i : Nat) : Prop := Reached V i ∧ ¬Under V x i

/-- The ring of a vinode comes back to it, leads through used vinodes, can be followed in
both directions and has exactly one vinode that is no link. -/
structure RingAt (V : Vinodes) (i : Nat) : Prop where
  returns : ∃ m, 0 < m ∧ (nextOf V)^[m] i = i
  used : ∀ j, Orbit (nextOf V) i j → j < maxVinode ∧ (V j).mode ≠ 0
  next : ∀ j, Orbit (nextOf V) i j → (V j).nextLink = nextOf V j
  prev : ∀ j, Orbit (nextOf V) i j → (V (nextOf V j)).prevLink = j
  one : ∃! r, RealOf V i r

variable {V W : Vinodes} {kids : Nat → List Nat} {R : Set Nat} {x : Nat}

/-! ## The tree -/

theorem headOf_eq_natCast {l : List Nat} {j : Nat} (h : headOf l = j) : j ∈ l := by
  cases l with
  | nil => simp at h
  | cons a l =>
    obtain rfl : a = j := Int.ofNat_inj.mp h
    exact List.mem_cons_self

theorem Live.cases_kid {i : Nat} (h : Live kids i) : i = 0 ∨ ∃ p, Live kids p ∧ i ∈ kids p := by
  cases h with
  | root => exact .inl rfl
  | kid hp hi => exact .inr ⟨_, hp, hi⟩

theorem Tree.next_mem (ht : Tree V kids) {p i j : Nat} (hp : Live kids p) (hi : i ∈ kids p)
    (hj : (V i).next = j) : j ∈ kids p := by
  rcases (ht.chain hp).next_mem hi with he | ⟨b, hb, he⟩
  · exact absurd (hj.symm.trans he) (by simp)
  · obtain rfl : j = b := Int.ofNat_inj.mp (hj.symm.trans he)
    exact hb

theorem Tree.live_of_reached (ht : Tree V kids) {i : Nat} (h : Reached V i) : Live kids i := by
  induction h with
  | root => exact .root
  | @child i j _ hj ih =>
    cases hl : (V i).link with
    | false =>
      rw [ht.child ih hl] at hj
      exact .kid ih (headOf_eq_natCast hj)
    | true =>
      rcases ih.cases_kid with rfl | ⟨p, hp, hi⟩
      · exact absurd (ht.root.1.symm.trans hl) (by simp)
      · -- the child of a link is above it
        obtain ⟨c, hc, hanc⟩ := ht.up hp hi hl (by simp [hj])
        obtain rfl : j = c := Int.ofNat_inj.mp (hj.symm.trans hc)
        exact hanc.live_top
  | @next i j _ hj ih =>
    rcases ih.cases_kid with rfl | ⟨p, hp, hi⟩
    · exact absurd (hj.symm.trans ht.root.2) (by simp)
    · exact .kid hp (ht.next_mem hp hi hj)

/-- What holds of the first element of a chain and is passed on along it holds of all. -/
theorem Chained.forall {next : Nat → Int} {l : List Nat} {P : Nat → Prop} (h : Chained next l)
    (hhead : ∀ j : Nat, headOf l = j → P j)
    (hnext : ∀ i ∈ l, ∀ j : Nat, P i → next i = j → P j) : ∀ i ∈ l, P i := by
  induction l with
  | nil => simp
  | cons a l ih =>
    have ha : P a := hhead a rfl
    intro i hi
    rcases List.mem_cons.mp hi with rfl | hi
    · exact ha
    · refine ih h.2 (fun j hj => ?_) (fun b hb => hnext b (List.mem_cons_of_mem a hb)) i hi
      exact hnext a List.mem_cons_self j ha (h.1.trans hj)

theorem Tree.link_of_kid (ht : Tree V kids) {i j : Nat} (hi : Live kids i) (hj : j ∈ kids i) :
    (V i).link = false := by
  cases hl : (V i).link with
  | false => rfl
  | true =>
    rw [ht.leaf hi hl] at hj
    simp at hj

theorem Tree.reached (ht : Tree V kids) {i : Nat} (h : Live kids i) : Reached V i := by
  induction h with
  | root => exact .root
  | @kid i j hi hj ih =>
    refine (ht.chain hi).forall (fun b hb => ?_) (fun a ha b hra hb => ?_) j hj
    · exact .child ih ((ht.child hi (ht.link_of_kid hi hj)).trans hb)
    · exact .next hra hb

theorem Tree.reached_iff (ht : Tree V kids) {i : Nat} : Reached V i ↔ Live kids i :=
  ⟨ht.live_of_reached, ht.reached⟩

/-- No vinode is below one of its children. -/
theorem Tree.acyclic (ht : Tree V kids) {p : Nat} (hp : Live kids p) (hx : x ∈ kids p) :
    ¬Anc kids x p := by
  intro hanc
  have hdead : ∀ {i}, Live kids i → ¬Anc kids x i := by
    intro i hi
    induction hi with
    | root =>
      intro h0
      cases h0 with
      | refl => exact ht.notRoot hp hx
      | kid h h0 => exact ht.notRoot h.live h0
    | @kid i j hi hj ih =>
      intro hxj
      cases hxj with
      | refl => exact ih (ht.parent hi hp hj hx ▸ hanc)
      | kid h hj' => exact ih (ht.parent hi h.live hj hj' ▸ h)
  exact hdead hp hanc

theorem Tree.under_iff (ht : Tree V kids) (hx : Live kids x) {i : Nat} :
    Under V x i ↔ Anc kids x i := by
  constructor
  · intro h
    induction h with
    | self => exact .refl hx
    | @child i j _ hl hj ih =>
      rw [ht.child ih.live hl] at hj
      exact .kid ih (headOf_eq_natCast hj)
    | @next i j _ hne hj ih =>
      cases ih with
      | refl => exact absurd rfl hne
      | kid h hi => exact .kid h (ht.next_mem h.live hi hj)
  · intro h
    induction h with
    | refl => exact .self
    | @kid i j hi hj ih =>
      refine (ht.chain hi.live).forall (fun b hb => ?_) (fun a ha b hua hb => ?_) j hj
      · exact .child ih (ht.link_of_kid hi.live hj)
          ((ht.child hi.live (ht.link_of_kid hi.live hj)).trans hb)
      · exact .next hua (fun he => ht.acyclic hi.live (he ▸ ha) hi) hb

/-- What stays is what is left of the tree. -/
theorem Tree.stays_iff {p : Nat} (ht : Tree V kids) (hp : Live kids p) (hx : x ∈ kids p) {i : Nat} :
    Stays V x i ↔ Live (pruneKids kids p x) i := by
  rw [Stays, ht.reached_iff, ht.under_iff (.kid hp hx), ht.live_prune hp hx]

/-! ## The rings -/

theorem Inv.ringAt (h : Inv V kids R) {i : Nat} (hi : Live kids i) : RingAt V i where
  returns := h.rings.cycles.periodic h.rings.finite (h.live_mem hi)
  used j hj := by
    have hjR := h.rings.orbit_mem hi hj
    exact ⟨h.lt hjR, (h.used hjR).ne_zero⟩
  next j hj := h.nextLink_eq j
  prev j hj := by
    rw [h.prevLink_eq, h.rings.cycles.prev_next (h.rings.orbit_mem hi hj)]
  one := by
    obtain ⟨r, hr⟩ := h.wide.exists_realOf hi
    exact ⟨r, hr, fun r' hr' => h.wide.realOf_unique hi hr' hr⟩

end OsWorkbench.Vfs
