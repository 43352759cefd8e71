import OsWorkbench.Vfs.Plan
import OsWorkbench.Vfs.Reach
import OsWorkbench.Vfs.LinkRuns

/-!
# Calls that keep the rings whole

Nothing keeps `remove_dir` from freeing a vinode that others are linked to, and when
`vfs_unlink` hands a directory over to the vinode before it on the ring, that one may be the
`"."` that goes with the directory. Here is what a call must not do, and that calls which do
not do it keep the rings and the tree.
-/

namespace OsWorkbench.Vfs

open Ext2 (has wrAble rdAble typeFile typeDir)
open Lib

variable {V W : Vinodes} {kids : Nat → List Nat} {R : Set Nat}

/-! ## What a call must not do -/

/-- The children of a vinode, along `next`. -/
inductive ChildOf (V : Vinodes) (x : Nat) : Nat → Prop
  | first {j : Nat} : (V x).child = j → ChildOf V x j
  | next {i j : Nat} : ChildOf V x i → (V i).next = j → ChildOf V x j

/-- What stays without `x` stands for vinodes that stay. -/
def Detached (V : Vinodes) (x : Nat) : Prop :=
  ∀ i r, Stays V x i → RealOf V i r → Stays V x r

/-- What stays without `x` stands for `x` or for vinodes that stay. If it stands for `x`, the
vinode before `x` on the ring is a name that stays, and the one behind `x` is no child of it. -/
structure HandedOver (V : Vinodes) (x : Nat) : Prop where
  others : ∀ i r, Stays V x i → RealOf V i r → r = x ∨ Stays V x r
  heir : ∀ i, Stays V x i → RealOf V i x →
    Stays V x (prevOf V x) ∧ (V (prevOf V x)).child = -1 ∧ ¬ChildOf V x (nextOf V x)

/-- The volume gives the entry up. -/
def Erases (s : State) (idx : Int) (name : CStr) : Prop :=
  ∃ d k disk, s.vinodes.get idx = .ok d ∧ d.fsType = .ext2fs ∧ d.fs = some (.ramdisk k) ∧
    Ext2.remove (s.disks k) d.ridx name (if 46 ∈ name.bytes then typeFile else typeDir) =
      .ok (0, disk)

/-- The change leaves the rings whole, and the names it makes pass `fits`. -/
def Plan.Safe (fits : Vinodes → Nat → CStr → Prop) (s : State) : Plan → Prop
  | .finish _ => True
  | .mount _ par name => fits s.vinodes par.toNat name
  | .unmount idx _ => Detached s.vinodes idx.toNat
  | .create idx name => fits s.vinodes idx.toNat name
  | .remove _ nidx idx name => Erases s idx name → Detached s.vinodes nidx.toNat
  | .link _ par name => fits s.vinodes par.toNat name
  | .unlink k _ => (s.vinodes k.toNat).link = false → HandedOver s.vinodes k.toNat

/-! ## Removals -/

section Removals

variable {p x : Nat}

theorem Tree.childOf_iff (ht : Tree V kids) (hx : Live kids x) (hl : (V x).link = false) {j : Nat} :
    ChildOf V x j ↔ j ∈ kids x := by
  constructor
  · intro h
    induction h with
    | first hj =>
      rw [ht.child hx hl] at hj
      exact headOf_eq_natCast hj
    | next _ hj ih => exact ht.next_mem hx ih hj
  · refine (ht.chain hx).forall (fun b hb => ?_) (fun a _ b hab hb => .next hab hb) j
    exact .first ((ht.child hx hl).trans hb)

theorem removeDir_mem (ht : Tree V kids) (hp : Live kids p) (hpl : (V p).link = false)
    {V' : Vinodes} (hnext : ∀ i, (V' i).next = (V i).next)
    (hchild : ∀ i, (V' i).child = (V i).child)
    (h : removeDir V' x p = .ok W) : x ∈ kids p := by
  obtain ⟨l, q, r, -, hk, -⟩ := removeDir_split ht hp hpl hnext hchild h
  simp [hk]

theorem Detached.live (h : Tree V kids) (hp : Live kids p) (hx : x ∈ kids p) (hd : Detached V x)
    {i r : Nat} (hi : Live (pruneKids kids p x) i) (hr : RealOf V i r) :
    Live (pruneKids kids p x) r :=
  (h.stays_iff hp hx).mp (hd i r ((h.stays_iff hp hx).mpr hi) hr)

/-- A vinode is removed that nothing outside of it stands for. -/
theorem Inv.removeDir (h : Inv V kids R) (hfull : kids 0 ≠ []) (hp : Live kids p)
    (hpl : (V p).link = false) (hxl : (V x).link = false)
    (hdet : ∀ {i r}, Live (pruneKids kids p x) i → RealOf V i r → Live (pruneKids kids p x) r)
    (hrem : Vfs.removeDir V x p = .ok W) : ∃ R', Pruned V W kids R R' p x := by
  have hx := removeDir_mem h.tree hp hpl (fun _ => rfl) (fun _ => rfl) hrem
  have hlx : Live kids x := .kid hp hx
  have hsub : ∀ {i}, Live (pruneKids kids p x) i → Live kids i := fun hi => hi.of_prune
  refine removeDir_spec h.tree hfull hp hpl (.inl hxl) (fun _ => rfl) (fun _ => rfl)
    (fun i _ => .refl _) ⟨h.rings.shrink hsub fun {i r} hi hr hir => ?_, h.lt, h.used, h.links⟩
    (.empty V R) (fun j hj => .inl (h.live_mem (.kid hlx hj))) (.inl (h.live_mem hlx)) hrem
  exact hdet hi ⟨hir, hr⟩

/-- A vinode with neighbours is taken from its ring; its own links stay as they were. -/
theorem stale_of_removeLink (V' : Vinodes) {V₁ : Vinodes} {k : Nat}
    (hc : Cycles (nextOf V') (prevOf V') R) (hk : k ∈ R) (hne : prevOf V' k ≠ k)
    (hre : Relinked V' V₁ (removeNext (nextOf V') (prevOf V') k)
      (removePrev (nextOf V') (prevOf V') k)) :
    Stale V₁ (R \ {k}) k ∧ prevOf V₁ k = prevOf V' k ∧ nextOf V₁ k = nextOf V' k := by
  have hnext : nextOf V' k ≠ k := fun he => hne (hc.eq_prev hk he).symm
  have hp : prevOf V₁ k = prevOf V' k := by
    rw [hre.prev]
    exact removePrev_other hnext.symm
  have hn : nextOf V₁ k = nextOf V' k := by
    rw [hre.next]
    exact removeNext_other hne.symm
  refine ⟨⟨fun h => h.2 rfl, ?_, ?_, ?_⟩, hp, hn⟩
  · rw [hp]
    exact ⟨hc.prev_mem hk, hne⟩
  · rw [hn]
    exact ⟨hc.next_mem hk, hnext⟩
  · rw [hp, hn, hre.next]
    exact removeNext_prev

section Unlink

variable {V₁ : Vinodes} {k : Nat}

theorem Inv.stays_iff (h : Inv V kids R) (hp : Live kids p) (hk : k ∈ kids p) {i : Nat} :
    Stays V k i ↔ Live (pruneKids kids p k) i := h.tree.stays_iff hp hk

/-- The vinode of a live ring that is no link is live. -/
theorem Inv.live_real (h : Inv V kids R) {i r : Nat} (hi : Live kids i) (hr : RealOf V i r) :
    Live kids r := by
  obtain ⟨r', hr', -, -, huniq⟩ := h.rings.one hi
  exact huniq r hr.1 hr.2 ▸ hr'

/-- A link is taken from its ring and removed. -/
theorem Inv.unlinkLink (h : Inv V kids R) (hfull : kids 0 ≠ []) (hp : Live kids p)
    (hpl : (V p).link = false) (hk : k ∈ kids p) (hkl : (V k).link = true)
    (hkc : (V k).child = -1) (hrem : removeLink V k = .ok V₁)
    (hdir : Vfs.removeDir V₁ k p = .ok W) : ∃ R', Pruned V₁ W kids (R \ {k}) R' p k := by
  have hlk : Live kids k := .kid hp hk
  have hkR := h.live_mem hlk
  have hre := removeLink_effect hrem
  have hc := h.rings.cycles
  have hsame : ∀ {β : Type} (f : Vinode → β), (∀ v, f v.core = f v) → ∀ i, f (V₁ i) = f (V i) :=
    fun f hf i => Vinode.of_core f hf (hre.core i)
  -- the ring has a vinode that is no link
  have hne : prevOf V k ≠ k := by
    intro he
    obtain ⟨r, hr⟩ := h.wide.exists_realOf hlk
    obtain rfl := orbit_of_fixed (hc.eq_next hkR he).symm hr.1
    exact absurd (hkl.symm.trans hr.2) (by simp)
  have hdead : ¬Live (pruneKids kids p k) k := h.tree.not_live_prune hp hk
  have hkids : kids k = [] := h.tree.leaf hlk hkl
  have hrings : Headed (nextOf V) (prevOf V) R (Live (pruneKids kids p k)) fun i =>
      (V i).link = false := by
    refine h.rings.shrink (fun hi => hi.of_prune) fun {i r} hi hr hir => ?_
    have hlr := h.live_real hi.of_prune ⟨hir, hr⟩
    refine (h.tree.live_prune hp hk).mpr ⟨hlr, fun hanc => ?_⟩
    obtain rfl := hanc.eq_of_leaf hkids
    exact absurd (hkl.symm.trans hr) (by simp)
  have hon : OnRings V₁ (R \ {k}) (Live (pruneKids kids p k)) := by
    refine ⟨?_, fun hi => h.lt hi.1, fun hi => ?_, hre.links h.links⟩
    · have hhead : (fun i => (V₁ i).link = false) = fun i => (V i).link = false := by
        funext i
        rw [hsame Vinode.link (fun _ => rfl)]
      rw [hre.next, hre.prev, hhead]
      exact hrings.remove hkR hdead
    · rw [hsame Vinode.mode (fun _ => rfl)]
      exact h.used hi.1
  obtain ⟨hstale, -⟩ := stale_of_removeLink _ hc hkR hne hre
  refine removeDir_spec h.tree hfull hp hpl (.inr hkc) (hsame Vinode.next fun _ => rfl)
    (hsame Vinode.child fun _ => rfl) (fun i _ => SameNode.of_core (hre.core i)) hon
    (.empty V₁ (R \ {k})) (fun j hj => ?_) (.inr (.inr ⟨by simp, hstale, ?_, ?_⟩)) hdir
  · rw [hkids] at hj
    cases hj
  · rw [hkids]
    exact List.not_mem_nil
  · rw [hkids]
    exact List.not_mem_nil

/-- A vinode that is no link is handed over to the name before it on its ring. -/
theorem Inv.unlinkHeir (h : Inv V kids R) (hfull : kids 0 ≠ []) (hp : Live kids p)
    (hpl : (V p).link = false) (hk : k ∈ kids p) (hkl : (V k).link = false)
    (hothers : ∀ i r, Stays V k i → RealOf V i r → r = k ∨ Stays V k r)
    (hheir : Stays V k (prevOf V k)) (hchild : (V (prevOf V k)).child = -1)
    (hnext : ¬ChildOf V k (nextOf V k)) (hrem : removeLink (promoted V k (prevOf V k)) k = .ok V₁)
    (hdir : Vfs.removeDir V₁ k p = .ok W) : ∃ R', Pruned V₁ W kids (R \ {k}) R' p k := by
  have hlk : Live kids k := .kid hp hk
  have hkR := h.live_mem hlk
  have hre := removeLink_effect hrem
  rw [nextOf_promoted, prevOf_promoted] at hre
  have hc := h.rings.cycles
  have hlive : ∀ {i}, Stays V k i ↔ Live (pruneKids kids p k) i := h.stays_iff hp hk
  have hdead : ¬Live (pruneKids kids p k) k := h.tree.not_live_prune hp hk
  have hl := hlive.mp hheir
  have hne : prevOf V k ≠ k := by
    intro he
    rw [he] at hl
    exact hdead hl
  have hsame : ∀ {β : Type} (f : Vinode → β), (∀ v, f v.core = f v) →
      ∀ i, f (V₁ i) = f (promoted V k (prevOf V k) i) := fun f hf i =>
    Vinode.of_core f hf (hre.core i)
  have hon : OnRings V₁ (R \ {k}) (Live (pruneKids kids p k)) := by
    refine ⟨?_, fun hi => h.lt hi.1, fun {i} hi => ?_, hre.links fun i => ?_⟩
    · have hhead : (fun i => (V₁ i).link = false) =
          fun i => (promoted V k (prevOf V k) i).link = false := by
        funext i
        rw [hsame Vinode.link (fun _ => rfl)]
      rw [hre.next, hre.prev, hhead]
      refine h.rings.promote hlk hkl ?_ hl hdead (fun hi => hi.of_prune) (fun {i r} hi hr hir => ?_)
        ?_ fun i hik hil => ?_
      · have hback := (Orbit.refl (f := nextOf V) (prevOf V k)).next
        rw [hc.next_prev hkR] at hback
        exact hc.orbit_symm h.rings.finite (hc.prev_mem hkR) hback
      · exact (hothers i r (hlive.mpr hi) ⟨hir, hr⟩).imp_right hlive.mp
      · rcases promoted_cases V k (prevOf V k) (prevOf V k) with ⟨-, he⟩ | ⟨hn, -⟩
        · rw [he]
          exact hkl
        · exact absurd rfl hn
      · rcases promoted_cases V k (prevOf V k) i with ⟨he, -⟩ | ⟨-, he⟩
        · exact absurd he hil
        · rw [he]
    · rw [hsame Vinode.mode (fun _ => rfl)]
      rcases promoted_cases V k (prevOf V k) i with ⟨-, he⟩ | ⟨-, he⟩
      · rw [he]
        exact h.used hkR
      · rw [he]
        exact h.used hi.1
    · rw [promoted_of Vinode.nextLink (fun _ _ _ _ _ => rfl),
        promoted_of Vinode.prevLink (fun _ _ _ _ _ => rfl)]
      exact h.links i
  obtain ⟨hstale, hprev₁, hnext₁⟩ := stale_of_removeLink (promoted V k (prevOf V k))
    (by rw [nextOf_promoted, prevOf_promoted]; exact hc) hkR (by rw [prevOf_promoted]; exact hne)
    (by rw [nextOf_promoted, prevOf_promoted]; exact hre)
  rw [prevOf_promoted] at hprev₁
  rw [nextOf_promoted] at hnext₁
  refine removeDir_spec h.tree hfull hp hpl (.inl hkl)
    (fun i => (hsame Vinode.next (fun _ => rfl) i).trans (promoted_of _ (fun _ _ _ _ _ => rfl) ..))
    (fun i => (hsame Vinode.child (fun _ => rfl) i).trans (promoted_of _ (fun _ _ _ _ _ => rfl) ..))
    (fun i _ => ?_) hon (.empty V₁ (R \ {k}))
    (fun j hj => .inl ⟨h.live_mem (.kid hlk hj), fun he => h.tree.not_mem_self hlk (he ▸ hj)⟩)
    (.inr (.inr ⟨by simp, hstale, ?_, ?_⟩)) hdir
  · refine SameNode.trans ?_ (SameNode.of_core (hre.core i))
    rcases promoted_cases V k (prevOf V k) i with ⟨rfl, he⟩ | ⟨-, he⟩
    · rw [he]
      exact ⟨rfl, rfl, rfl, rfl, rfl, .inr ⟨hchild, hkl⟩, fun _ => h.used hkR⟩
    · rw [he]
      exact .refl _
  · rw [hprev₁]
    exact fun hj => ((h.tree.live_prune hp hk).mp hl).2 (.kid (.refl hlk) hj)
  · rw [hnext₁, ← h.tree.childOf_iff hlk hkl]
    exact hnext

/-- A vinode is removed with its whole ring: nothing that stays stands for it. -/
theorem Inv.unlinkLast (h : Inv V kids R) (hfull : kids 0 ≠ []) (hp : Live kids p)
    (hpl : (V p).link = false) (hk : k ∈ kids p) (hkl : (V k).link = false)
    (hothers : ∀ i r, Stays V k i → RealOf V i r → r = k ∨ Stays V k r)
    (hnone : ∀ i, Stays V k i → ¬RealOf V i k)
    (hrem : removeLink (promoted V k (prevOf V k)) k = .ok V₁)
    (hdir : Vfs.removeDir V₁ k p = .ok W) :
    ∃ R', Pruned V₁ W kids (R \ {i | Orbit (nextOf V) k i}) R' p k := by
  have hlk : Live kids k := .kid hp hk
  have hkR := h.live_mem hlk
  have hre := removeLink_effect hrem
  rw [nextOf_promoted, prevOf_promoted] at hre
  have hc := h.rings.cycles
  have hlive : ∀ {i}, Stays V k i ↔ Live (pruneKids kids p k) i := h.stays_iff hp hk
  have hsymm : ∀ {i j}, i ∈ R → Orbit (nextOf V) i j → Orbit (nextOf V) j i := fun hi hij =>
    hc.orbit_symm h.rings.finite hi hij
  have hmem : ∀ {i}, Orbit (nextOf V) k i → i ∈ R := fun hi => hc.mem hkR hi
  have hprev : ∀ {i}, Orbit (nextOf V) k i → Orbit (nextOf V) k (prevOf V i) := by
    intro i hi
    have hback := (Orbit.refl (f := nextOf V) (prevOf V i)).next
    rw [hc.next_prev (hmem hi)] at hback
    exact hi.trans (hsymm (hc.prev_mem (hmem hi)) hback)
  have hstay : ∀ {i}, Live (pruneKids kids p k) i → ¬Orbit (nextOf V) k i := fun hi hki =>
    hnone _ (hlive.mpr hi) ⟨hsymm hkR hki, hkl⟩
  have hsame : ∀ {β : Type} (f : Vinode → β), (∀ v, f v.core = f v) →
      ∀ i, f (V₁ i) = f (promoted V k (prevOf V k) i) := fun f hf i =>
    Vinode.of_core f hf (hre.core i)
  have hout : ∀ {i}, ¬Orbit (nextOf V) k i → promoted V k (prevOf V k) i = V i := by
    intro i hi
    rcases promoted_cases V k (prevOf V k) i with ⟨rfl, -⟩ | ⟨-, he⟩
    · exact absurd (hprev (.refl k)) hi
    · exact he
  have hrings : Headed (nextOf V) (prevOf V) (R \ {i | Orbit (nextOf V) k i})
      (Live (pruneKids kids p k)) fun i => (V i).link = false := by
    refine (h.rings.shrink (fun hi => hi.of_prune) fun {i r} hi hr hir => ?_).forget
      (fun i hi hik => ⟨fun hf => hik ?_, fun hg => hik ?_⟩) hstay
    · rcases hothers i r (hlive.mpr hi) ⟨hir, hr⟩ with rfl | hr'
      · exact absurd ⟨hir, hr⟩ (hnone i (hlive.mpr hi))
      · exact hlive.mp hr'
    · exact Orbit.trans hf (hsymm hi (Orbit.refl i).next)
    · exact hc.next_prev hi ▸ Orbit.next hg
  have hon : OnRings V₁ (R \ {i | Orbit (nextOf V) k i}) (Live (pruneKids kids p k)) := by
    refine ⟨hrings.congr (fun i hi => ?_) (fun i hi => ?_) (fun {i j} hi hij => ?_),
      fun hi => h.lt hi.1, fun {i} hi => ?_, hre.links fun i => ?_⟩
    · rw [hre.next]
      exact removeNext_other fun he => hi.2 (he ▸ hprev (.refl k))
    · rw [hre.prev]
      exact removePrev_other fun he => hi.2 (he ▸ (Orbit.refl k).next)
    · rw [hsame Vinode.link (fun _ => rfl), hout fun hkj => hstay hi (hkj.trans (hsymm
        (h.live_mem hi.of_prune) hij))]
    · rw [hsame Vinode.mode (fun _ => rfl), hout hi.2]
      exact h.used hi.1
    · rw [promoted_of Vinode.nextLink (fun _ _ _ _ _ => rfl),
        promoted_of Vinode.prevLink (fun _ _ _ _ _ => rfl)]
      exact h.links i
  have hapart : Apart V₁ (R \ {i | Orbit (nextOf V) k i}) {i | Orbit (nextOf V) k i} := by
    refine ⟨fun {i} hi => ?_, fun {i} hi => ?_, fun hi hiR => hiR.2 hi⟩
    · rw [hre.next]
      by_cases he : i = prevOf V k
      · rw [he, removeNext_prev]
        exact (Orbit.refl k).next
      · rw [removeNext_other he]
        exact Orbit.next hi
    · rw [hre.prev]
      by_cases he : i = nextOf V k
      · rw [he, removePrev_next]
        exact hprev (.refl k)
      · rw [removePrev_other he]
        exact hprev hi
  refine removeDir_spec h.tree hfull hp hpl (.inl hkl)
    (fun i => (hsame Vinode.next (fun _ => rfl) i).trans (promoted_of _ (fun _ _ _ _ _ => rfl) ..))
    (fun i => (hsame Vinode.child (fun _ => rfl) i).trans (promoted_of _ (fun _ _ _ _ _ => rfl) ..))
    (fun i hi => ?_) hon hapart (fun j hj => ?_) (.inr (.inl (.refl k))) hdir
  · rw [← hout (hstay hi)]
    exact .of_core (hre.core i)
  · exact or_iff_not_imp_right.mpr fun hj' => ⟨h.live_mem (.kid hlk hj), hj'⟩

end Unlink

end Removals

end OsWorkbench.Vfs
