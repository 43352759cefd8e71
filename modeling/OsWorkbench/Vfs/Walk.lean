import OsWorkbench.Vfs.Rings

/-!
# Walking the tree

The loops of `lookup_cur` in a tree with the invariant: the search among the children
finds the first one of a matching name, the loop along the links ends at the vinode
that the ring stands for, and so the walk ends for every path.
-/

namespace OsWorkbench.Vfs

open Ext2 (has typeFile typeDir)
open Lib

variable {V : Vinodes} {kids : Nat → List Nat} {R : Set Nat} {live : Nat → Prop}

/-- The tree and the rings, where vinodes outside of the tree may be live on the rings as
well. They have no children. -/
structure Wide (V : Vinodes) (kids : Nat → List Nat) (R : Set Nat) (live : Nat → Prop) : Prop
    extends OnRings V R live where
  tree : Tree V kids
  of_tree : ∀ {i}, Live kids i → live i
  outside : ∀ {i}, live i → ¬Live kids i → (V i).child = -1 ∧ kids i = []

theorem Inv.wide (h : Inv V kids R) : Wide V kids R (Live kids) :=
  ⟨h.toOnRings, h.tree, id, fun hi hn => absurd hi hn⟩

/-- The index that a loop over children leaves. -/
def orNone : Option Nat → Int
  | some i => i
  | none => -1

@[simp] theorem orNone_some (i : Nat) : orNone (some i) = i := rfl

@[simp] theorem orNone_none : orNone none = -1 := rfl

/-! ## The children -/

theorem findChild_eq {test : CStr → Bool} {l : List Nat} {fuel : Nat}
    (hc : Chained (fun i => (V i).next) l) (hlt : ∀ i ∈ l, i < maxVinode) (hf : l.length < fuel) :
    findChild V test fuel (headOf l) = .ok (orNone (l.find? fun i => test (V i).name)) := by
  induction l generalizing fuel with
  | nil =>
    obtain ⟨fuel, rfl⟩ := Nat.exists_eq_succ_of_ne_zero hf.ne'
    rfl
  | cons a l ih =>
    obtain ⟨fuel, rfl⟩ := Nat.exists_eq_succ_of_ne_zero (Nat.ne_zero_of_lt hf)
    have hnext : (V a).next = headOf l := hc.1
    rw [headOf_cons, findChild, if_neg (by simp), get_nat (hlt a (by simp)), ok_bind,
      List.find?_cons]
    cases ht : test (V a).name with
    | true => rfl
    | false =>
      rw [if_neg (by simp), hnext]
      exact ih hc.2 (fun i hi => hlt i (by simp [hi])) (Nat.lt_of_succ_lt_succ hf)

/-- A vinode has at most as many children as there are vinodes. -/
theorem Tree.length_kids (h : Tree V kids) {i : Nat} (hi : Live kids i) :
    (kids i).length ≤ maxVinode := by
  have hsub : (kids i).toFinset ⊆ Finset.range maxVinode := by
    intro j hj
    exact Finset.mem_range.mpr (h.lt (.kid hi (List.mem_toFinset.mp hj)))
  have hcard := Finset.card_le_card hsub
  rwa [List.toFinset_card_of_nodup (h.nodup hi), Finset.card_range] at hcard

theorem Tree.findChild (h : Tree V kids) {i : Nat} (hi : Live kids i) (hl : (V i).link = false)
    (test : CStr → Bool) : findChild V test (maxVinode + 1) (V i).child =
      .ok (orNone ((kids i).find? fun j => test (V j).name)) := by
  rw [h.child hi hl]
  exact findChild_eq (h.chain hi) (fun j hj => h.lt (.kid hi hj))
    (Nat.lt_succ_of_le (h.length_kids hi))

theorem Wide.lt_live (h : Wide V kids R live) {i : Nat} (hi : live i) : i < maxVinode :=
  h.lt (h.rings.mem hi)

theorem Wide.findChild (h : Wide V kids R live) {i : Nat} (hi : live i) (hl : (V i).link = false)
    (test : CStr → Bool) : Vfs.findChild V test (maxVinode + 1) (V i).child =
      .ok (orNone ((kids i).find? fun j => test (V j).name)) := by
  by_cases hin : Live kids i
  · exact h.tree.findChild hin hl test
  · obtain ⟨hchild, hk⟩ := h.outside hi hin
    rw [hchild, hk]
    rfl

/-- A child is a vinode of the tree. -/
theorem Wide.kid (h : Wide V kids R live) {i j : Nat} (hi : live i) (hj : j ∈ kids i) :
    Live kids i ∧ Live kids j := by
  have hin : Live kids i := by
    by_contra hin
    rw [(h.outside hi hin).2] at hj
    cases hj
  exact ⟨hin, .kid hin hj⟩

/-! ## The links -/

theorem OnRings.nextLink_eq (h : OnRings V R live) (i : Nat) : (V i).nextLink = nextOf V i :=
  (Int.toNat_of_nonneg (h.links i).1).symm

theorem OnRings.prevLink_eq (h : OnRings V R live) (i : Nat) : (V i).prevLink = prevOf V i :=
  (Int.toNat_of_nonneg (h.links i).2).symm

/-- The loop ends where the ring has the one vinode that is no link. -/
theorem followLink_eq (hl : ∀ i, (V i).nextLink = nextOf V i) {r : Nat} (hr : (V r).link = false)
    {m k fuel : Nat} (hm : (nextOf V)^[m] k = r) (hf : m < fuel)
    (hring : ∀ j, Orbit (nextOf V) k j → j < maxVinode ∧ ((V j).link = false → j = r)) :
    followLink V fuel k = .ok r := by
  induction m generalizing k fuel with
  | zero =>
    obtain ⟨fuel, rfl⟩ := Nat.exists_eq_succ_of_ne_zero hf.ne'
    obtain rfl : k = r := hm
    rw [followLink, get_nat (hring k (Orbit.refl k)).1, ok_bind,
      if_neg (by simpa [Vinode.link] using hr)]
    rfl
  | succ m ih =>
    obtain ⟨fuel, rfl⟩ := Nat.exists_eq_succ_of_ne_zero (Nat.ne_zero_of_lt hf)
    have hk := hring k (Orbit.refl k)
    rw [followLink, get_nat hk.1, ok_bind]
    cases hkl : (V k).link with
    | false =>
      rw [if_neg (by simpa [Vinode.link] using hkl), ← hk.2 hkl]
      rfl
    | true =>
      rw [if_pos (by simpa [Vinode.link] using hkl), hl k]
      refine ih (by rwa [Function.iterate_succ_apply] at hm) (Nat.lt_of_succ_lt_succ hf)
        fun j hj => ?_
      exact hring j ((Orbit.refl k).next.trans hj)

/-- At most `MAX_VINODE` vinodes are on rings. -/
theorem OnRings.card_le (h : OnRings V R live) (s : Finset Nat) (hs : (s : Set Nat) ⊆ R) :
    s.card ≤ maxVinode := by
  have hsub : s ⊆ Finset.range maxVinode := fun i hi => Finset.mem_range.mpr (h.lt (hs hi))
  have hcard := Finset.card_le_card hsub
  rwa [Finset.card_range] at hcard

theorem OnRings.followLink (h : OnRings V R live) {k : Nat} (hk : live k) :
    ∃ r : Nat, followLink V maxVinode k = .ok (r : Int) ∧ live r ∧ (V r).link = false ∧
      Orbit (nextOf V) k r := by
  obtain ⟨r, hr, hhr, hkr, huniq⟩ := h.rings.one hk
  obtain ⟨m, hm, hmr⟩ := h.rings.cycles.orbit_lt h.card_le (h.rings.mem hk) hkr
  refine ⟨r, followLink_eq h.nextLink_eq hhr hmr hm fun j hj => ⟨?_, huniq j hj⟩, hr, hhr, hkr⟩
  exact h.lt (h.rings.cycles.mem (h.rings.mem hk) hj)

/-! ## Paths -/

/-- A round takes at least one character off the path. -/
theorem length_drop_skip {path : List UInt8} (hp : path ≠ []) :
    (path.drop
      (firstItemLen path + if path[firstItemLen path]? = some slash then 1 else 0)).length <
      path.length := by
  obtain ⟨c, cs, rfl⟩ := List.exists_cons_of_ne_nil hp
  rw [List.length_drop]
  by_cases hc : c = slash
  · simp [firstItemLen, hc]
  · have : firstItemLen (c :: cs) ≠ 0 := by simp [firstItemLen, hc]
    simp only [List.length_cons]
    omega

end OsWorkbench.Vfs
