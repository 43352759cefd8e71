import OsWorkbench.Vfs.Build

/-!
# Removing vinodes

`remove_dir` takes a vinode from its siblings and frees it and its children, but not
what is below the children. A freed vinode is taken from its ring. `vfs_unlink` does
so twice, and may move the role of the removed vinode to the one before it on the ring.
-/

namespace OsWorkbench.Vfs

open Ext2 (has typeFile typeDir)
open Lib

variable {V W : Vinodes} {kids : Nat → List Nat} {R O : Set Nat} {live : Nat → Prop}

/-! ## Freeing single vinodes -/

/-- The vinodes `O` are not on the rings `R`, and their links do not lead there. -/
structure Apart (V : Vinodes) (R O : Set Nat) : Prop where
  next : ∀ {i}, i ∈ O → nextOf V i ∈ O
  prev : ∀ {i}, i ∈ O → prevOf V i ∈ O
  notMem : ∀ {i}, i ∈ O → i ∉ R

theorem Apart.empty (V : Vinodes) (R : Set Nat) : Apart V R ∅ :=
  ⟨fun hi => hi.elim, fun hi => hi.elim, fun hi => hi.elim⟩

section Delete

variable {k : Nat}

theorem deleteVinode_core (hdel : deleteVinode V k = .ok W) {i : Nat} (hi : i ≠ k) :
    (W i).core = (V i).core := by
  rw [(deleteVinode_effect hdel).core, Function.update_of_ne hi]

theorem deleteVinode_place (hdel : deleteVinode V k = .ok W) : (W k).next = (V k).next := by
  have := Vinode.of_core Vinode.next (fun _ => rfl) ((deleteVinode_effect hdel).core k)
  rwa [Function.update_self] at this

theorem deleteVinode_links (hdel : deleteVinode V k = .ok W)
    (hl : ∀ i, 0 ≤ (V i).nextLink ∧ 0 ≤ (V i).prevLink) :
    ∀ i, 0 ≤ (W i).nextLink ∧ 0 ≤ (W i).prevLink := by
  refine (deleteVinode_effect hdel).links fun i => ?_
  rw [Function.update_apply]
  split_ifs with hi
  · exact hi ▸ hl i
  · exact hl i

/-- A vinode is freed that is on no ring, and whose links say nothing new. -/
theorem Kept.delete_idle (hl : ∀ i, 0 ≤ (V i).nextLink ∧ 0 ≤ (V i).prevLink) (hk : k ∉ R)
    (hnext : prevOf V k ∈ R → nextOf V (prevOf V k) = nextOf V k)
    (hprev : nextOf V k ∈ R → prevOf V (nextOf V k) = prevOf V k)
    (hdel : deleteVinode V k = .ok W) : Kept V W R := by
  have heff := deleteVinode_effect hdel
  have hcore : ∀ {i}, i ∈ R → (W i).core = (V i).core := fun hi =>
    deleteVinode_core hdel (ne_of_mem_of_not_mem hi hk)
  refine ⟨fun hi => ?_, fun hi hu => ?_, fun {i} hi => ?_, fun {i} hi => ?_,
    fun _ => deleteVinode_links hdel hl⟩
  · exact Vinode.of_core Vinode.link (fun _ => rfl) (hcore hi)
  · rwa [Vinode.of_core Vinode.mode (fun _ => rfl) (hcore hi)]
  · rw [heff.next]
    by_cases hig : i = prevOf V k
    · rw [hig, removeNext_prev, hnext (hig ▸ hi)]
    · exact removeNext_other hig
  · rw [heff.prev]
    by_cases hif : i = nextOf V k
    · rw [hif, removePrev_next, hprev (hif ▸ hi)]
    · exact removePrev_other hif

theorem Kept.delete_apart (h : OnRings V R live) (ho : Apart V R O) (hk : k ∈ O)
    (hdel : deleteVinode V k = .ok W) : Kept V W R :=
  .delete_idle h.links (ho.notMem hk) (fun hR => absurd hR (ho.notMem (ho.prev hk)))
    (fun hR => absurd hR (ho.notMem (ho.next hk))) hdel

/-- What shares a ring afterwards did so before. -/
theorem OnRings.orbit_of_kept (h : OnRings V R live) (hk : Kept V W R) {i j : Nat} (hi : i ∈ R)
    (ho : Orbit (nextOf W) i j) : Orbit (nextOf V) i j :=
  (h.rings.cycles.orbit_congr (fun _ hi => hk.next hi) hi).mp ho

theorem OnRings.orbit_of_delete (h : OnRings V R live) (hk : k ∈ R)
    (hdel : deleteVinode V k = .ok W) {i j : Nat} (hi : i ∈ R \ {k})
    (ho : Orbit (nextOf W) i j) : Orbit (nextOf V) i j := by
  rw [(deleteVinode_effect hdel).next] at ho
  have hj : j ∈ R \ {k} := (h.rings.cycles.remove hk).mem hi ho
  exact (h.rings.cycles.orbit_remove hk hi.1 hi.2 hj.2).mp ho

/-- A vinode is freed that is not live, or apart from the rings. -/
theorem OnRings.delete_or (h : OnRings V R live) (ho : Apart V R O)
    (hk : (k ∈ R ∧ ¬live k) ∨ k ∈ O) (hdel : deleteVinode V k = .ok W) :
    OnRings W (R \ {k}) live ∧ Apart W (R \ {k}) O := by
  have heff := deleteVinode_effect hdel
  rcases hk with ⟨hk, hd⟩ | hk
  · refine ⟨h.delete hk hd hdel, fun {i} hi => ?_, fun {i} hi => ?_, fun hi hR => ho.notMem hi hR.1⟩
    · have hne : i ≠ prevOf V k := fun he => ho.notMem hi (he ▸ h.rings.cycles.prev_mem hk)
      rw [heff.next, removeNext_other hne]
      exact ho.next hi
    · have hne : i ≠ nextOf V k := fun he => ho.notMem hi (he ▸ h.rings.cycles.next_mem hk)
      rw [heff.prev, removePrev_other hne]
      exact ho.prev hi
  · have hkR := ho.notMem hk
    rw [Set.sdiff_singleton_eq_self hkR]
    refine ⟨h.congr (.delete_apart h ho hk hdel), fun {i} hi => ?_, fun {i} hi => ?_, ho.notMem⟩
    · rw [heff.next, removeNext, Function.update_apply]
      split_ifs
      · exact ho.next hk
      · exact ho.next hi
    · rw [heff.prev, removePrev, Function.update_apply]
      split_ifs
      · exact ho.prev hk
      · exact ho.prev hi

theorem OnRings.orbit_of_delete_or (h : OnRings V R live) (ho : Apart V R O) (hk : k ∈ R ∨ k ∈ O)
    (hdel : deleteVinode V k = .ok W) {i j : Nat} (hi : i ∈ R \ {k})
    (hij : Orbit (nextOf W) i j) : Orbit (nextOf V) i j := by
  rcases hk with hk | hk
  · exact h.orbit_of_delete hk hdel hi hij
  · exact h.orbit_of_kept (.delete_apart h ho hk hdel) hi.1 hij

theorem deleteVinode_mode (hdel : deleteVinode V k = .ok W) : (W k).mode = 0 := by
  have := Vinode.of_core Vinode.mode (fun _ => rfl) ((deleteVinode_effect hdel).core k)
  rwa [Function.update_self] at this

end Delete

/-! ## Freeing the children -/

/-- What the loop of `remove_dir` leaves when it has freed the vinodes `l`. -/
structure Cleared (V W : Vinodes) (R O : Set Nat) (live : Nat → Prop) (l : List Nat) : Prop where
  rings : OnRings W (R \ {i | i ∈ l}) live
  apart : Apart W (R \ {i | i ∈ l}) O
  core : ∀ {i}, i ∉ l → (W i).core = (V i).core
  freed : ∀ {i}, i ∈ l → (W i).mode = 0
  orbit : ∀ {i j}, i ∈ R → i ∉ l → Orbit (nextOf W) i j → Orbit (nextOf V) i j
  outside : ∀ {i}, i ∉ R → i ∉ O → nextOf W i = nextOf V i ∧ prevOf W i = prevOf V i
  joined : ∀ {a b}, a ∈ R → b ∈ R → a ∉ l → b ∉ l → nextOf V a = b →
    nextOf W a = b ∧ prevOf W b = a

theorem deleteChildren_spec {l : List Nat} {fuel : Nat} (h : OnRings V R live) (ho : Apart V R O)
    (hc : Chained (fun i => (V i).next) l) (hnd : l.Nodup)
    (hl : ∀ j ∈ l, (j ∈ R ∧ ¬live j) ∨ j ∈ O)
    (hdel : deleteChildren fuel (headOf l) V = .ok W) : Cleared V W R O live l := by
  induction l generalizing V R fuel with
  | nil =>
    cases fuel with
    | zero => cases hdel
    | succ fuel =>
      cases hdel
      have hR : R \ {i | i ∈ ([] : List Nat)} = R := by simp
      refine ⟨?_, ?_, fun _ => rfl, fun hi => by simp at hi, fun _ _ hij => hij,
        fun _ _ => ⟨rfl, rfl⟩, fun ha _ _ _ hab => ⟨hab, ?_⟩⟩
      · rw [hR]
        exact h
      · rw [hR]
        exact ho
      · rw [← hab, h.rings.cycles.prev_next ha]
  | cons k l ih =>
    cases fuel with
    | zero => cases hdel
    | succ fuel =>
      rw [headOf_cons, deleteChildren, if_neg (by simp)] at hdel
      simp only [bind_eq_ok] at hdel
      obtain ⟨V₁, h₁, v, hv, hdel⟩ := hdel
      obtain rfl := get_nat_eq hv
      obtain ⟨hkl, hnd⟩ := List.nodup_cons.mp hnd
      have hne : ∀ {j}, j ∈ l → j ≠ k := fun hj => ne_of_mem_of_not_mem hj hkl
      obtain ⟨hrings, hapart⟩ := h.delete_or ho (hl k (by simp)) h₁
      have hnext : (V₁ k).next = headOf l := (deleteVinode_place h₁).trans hc.1
      rw [hnext] at hdel
      have hchain : Chained (fun i => (V₁ i).next) l := hc.2.congr fun i hi =>
        Vinode.of_core Vinode.next (fun _ => rfl) (deleteVinode_core h₁ (hne hi))
      have hl' : ∀ j ∈ l, (j ∈ R \ {k} ∧ ¬live j) ∨ j ∈ O := fun j hj =>
        (hl j (by simp [hj])).imp_left fun hjR => ⟨⟨hjR.1, hne hj⟩, hjR.2⟩
      have hrest := ih hrings hapart hchain hnd hl' hdel
      have hR : R \ {i | i ∈ k :: l} = (R \ {k}) \ {i | i ∈ l} := by
        rw [sdiff_sdiff]
        exact congrArg (R \ ·) (Set.ext fun i => List.mem_cons)
      have heff := deleteVinode_effect h₁
      have hlinks : ∀ {i}, i ∉ R → i ∉ O → nextOf V₁ i = nextOf V i ∧ prevOf V₁ i = prevOf V i := by
        intro i hi hiO
        have hside : nextOf V k ≠ i ∧ prevOf V k ≠ i := by
          rcases hl k (by simp) with hk | hk
          · exact ⟨ne_of_mem_of_not_mem (h.rings.cycles.next_mem hk.1) hi,
              ne_of_mem_of_not_mem (h.rings.cycles.prev_mem hk.1) hi⟩
          · exact ⟨ne_of_mem_of_not_mem (ho.next hk) hiO, ne_of_mem_of_not_mem (ho.prev hk) hiO⟩
        rw [heff.next, heff.prev, removeNext_other hside.2.symm, removePrev_other hside.1.symm]
        exact ⟨rfl, rfl⟩
      have hjoined : ∀ {a b}, a ∈ R → a ≠ k → b ≠ k → nextOf V a = b → nextOf V₁ a = b := by
        intro a b ha hak hbk hab
        -- only the predecessor of `k` gets another successor
        have hprev : a ≠ prevOf V k := by
          rintro rfl
          rcases hl k (by simp) with hk | hk
          · exact hbk (hab ▸ h.rings.cycles.next_prev hk.1)
          · exact ho.notMem (ho.prev hk) ha
        rw [heff.next, removeNext_other hprev]
        exact hab
      refine ⟨hR ▸ hrest.rings, hR ▸ hrest.apart, fun {i} hi => ?_, fun {i} hi => ?_,
        fun {i j} hi hil hij => ?_, fun {i} hi hiO => ?_, fun {a b} ha hb hal hbl hab => ?_⟩
      · rw [List.mem_cons, not_or] at hi
        exact (hrest.core hi.2).trans (deleteVinode_core h₁ hi.1)
      · rcases List.mem_cons.mp hi with rfl | hi
        · rw [Vinode.of_core Vinode.mode (fun _ => rfl) (hrest.core hkl)]
          exact deleteVinode_mode h₁
        · exact hrest.freed hi
      · rw [List.mem_cons, not_or] at hil
        exact h.orbit_of_delete_or ho ((hl k (by simp)).imp_left And.left) h₁ ⟨hi, hil.1⟩
          (hrest.orbit ⟨hi, hil.1⟩ hil.2 hij)
      · obtain ⟨h1, h2⟩ := hrest.outside (fun hR => hi hR.1) hiO
        obtain ⟨h3, h4⟩ := hlinks hi hiO
        exact ⟨h1.trans h3, h2.trans h4⟩
      · rw [List.mem_cons, not_or] at hal hbl
        exact hrest.joined ⟨ha, hal.1⟩ ⟨hb, hbl.1⟩ hal.2 hbl.2 (hjoined ha hal.1 hbl.1 hab)

/-! ## `remove_dir` -/

section RemoveDir

variable {p x : Nat}

/-- The loop stops in front of a child, and it is not the first one. -/
theorem findPrev_spec {l : List Nat} {fuel : Nat} {idx pre : Int} (hidx : idx ≠ -1)
    (hc : Chained (fun i => (V i).next) l) (h : findPrev V idx fuel (headOf l) = .ok pre) :
    ∃ (l₁ : List Nat) (q x : Nat) (r : List Nat), l = l₁ ++ q :: x :: r ∧ pre = q ∧ idx = x := by
  induction l generalizing fuel with
  | nil =>
    cases fuel with
    | zero => cases h
    | succ fuel =>
      obtain ⟨v, hv, -⟩ := bind_eq_ok.mp h
      obtain ⟨n, hn, -⟩ := get_eq_ok.mp hv
      simp at hn
  | cons a l ih =>
    cases fuel with
    | zero => cases h
    | succ fuel =>
      obtain ⟨v, hv, h⟩ := bind_eq_ok.mp h
      obtain rfl := get_nat_eq hv
      have hnext : (V a).next = headOf l := hc.1
      split at h
      next he =>
        cases h
        cases l with
        | nil => exact absurd (he.symm.trans hnext) hidx
        | cons x r => exact ⟨[], a, x, r, rfl, rfl, he.symm.trans hnext⟩
      · rw [hnext] at h
        obtain ⟨l₁, q, x, r, rfl, hq, hx⟩ := ih hc.2 h
        exact ⟨a :: l₁, q, x, r, rfl, hq, hx⟩

/-- The place of the vinode among its siblings, and the steps of its removal. -/
theorem removeDir_split {V' : Vinodes} (ht : Tree V kids) (hp : Live kids p)
    (hpl : (V p).link = false) (hnext : ∀ i, (V' i).next = (V i).next)
    (hchild : ∀ i, (V' i).child = (V i).child) (h : removeDir V' x p = .ok W) :
    ∃ (l : List Nat) (q : Nat) (r : List Nat) (V₁ : Vinodes), kids p = l ++ q :: x :: r ∧
      deleteChildren (maxVinode + 1) (V x).child
        (Function.update V' q { V' q with next := (V x).next }) = .ok V₁ ∧
      deleteVinode V₁ x = .ok W := by
  simp only [removeDir, bind_eq_ok] at h
  obtain ⟨pv, hpv, pre, hpre, d, hd, V₀, h₀, d', hd', V₁, h₁, h⟩ := h
  obtain rfl := get_nat_eq hpv
  obtain rfl := get_nat_eq hd
  obtain rfl := get_nat_eq hd'
  rw [hchild, ht.child hp hpl] at hpre
  have hc : Chained (fun i => (V' i).next) (kids p) := (ht.chain hp).congr fun i _ => hnext i
  obtain ⟨l, q, x', r, hk, rfl, hx⟩ := findPrev_spec (by simp) hc hpre
  obtain rfl := Int.ofNat_inj.mp hx
  obtain ⟨-, rfl⟩ := modify_nat h₀
  have hcx : (Function.update V' q { V' q with next := (V' x).next } x).child = (V x).child := by
    rw [← hchild, Function.update_apply]
    split_ifs with hxq
    · rw [hxq]
    · rfl
  rw [hcx, hnext] at h₁
  exact ⟨l, q, r, V₁, hk, h₁, h⟩

theorem SameNode.trans {u v w : Vinode} (h : SameNode u v) (h' : SameNode v w) : SameNode u w where
  name := h'.name.trans h.name
  dot := h'.dot.trans h.dot
  ddot := h'.ddot.trans h.ddot
  next := h'.next.trans h.next
  child := h'.child.trans h.child
  link := by
    rcases h'.link with h1 | ⟨h1, h2⟩
    · rcases h.link with h3 | ⟨h3, h4⟩
      · exact .inl (h1.trans h3)
      · exact .inr ⟨h3, h1.trans h4⟩
    · exact .inr ⟨h.child ▸ h1, h2⟩
  used hu := h'.used (h.used hu)

theorem SameNode.setNext {v v' : Vinode} (h : SameNode v v') (n : Int) :
    SameNode { v with next := n } { v' with next := n } :=
  ⟨h.name, h.dot, h.ddot, rfl, h.child, h.link, h.used⟩

theorem Apart.setNext (h : Apart V R O) (d : Nat) (n : Int) :
    Apart (Function.update V d { V d with next := n }) R O where
  next hi := by
    rw [nextOf_setNext]
    exact h.next hi
  prev hi := by
    rw [prevOf_setNext]
    exact h.prev hi
  notMem := h.notMem

/-- The links of a vinode that was taken from its ring still name its former
neighbours, which are joined now. -/
structure Stale (V : Vinodes) (R : Set Nat) (x : Nat) : Prop where
  notMem : x ∉ R
  prev : prevOf V x ∈ R
  next : nextOf V x ∈ R
  joined : nextOf V (prevOf V x) = nextOf V x

/-- The vinode `x` was taken from the children of `p` and freed, together with its own
children. The rings had been made ready for it in `V'`. -/
structure Pruned (V' W : Vinodes) (kids : Nat → List Nat) (R R' : Set Nat) (p x : Nat) : Prop where
  mem : x ∈ kids p
  full : pruneKids kids p x 0 ≠ []
  inv : Inv W (pruneKids kids p x) R'
  sub : R' ⊆ R
  flat : ∀ {i}, i ≠ x → i ∉ kids x → (W i).flat = (V' i).flat
  child : ∀ {i}, i ≠ x → i ∉ kids x → (W i).child = (V' i).child
  freed : ∀ {i}, i = x ∨ i ∈ kids x → (W i).mode = 0
  orbit : ∀ {i j}, i ∈ R' → Orbit (nextOf W) i j → Orbit (nextOf V') i j

/-- The rings after the removal of `x`, when its children are freed already. -/
theorem Cleared.removed {V₁ : Vinodes} {l : List Nat} (h : Cleared V V₁ R O live l)
    (hxl : x ∉ l) (hx : ¬live x)
    (hxR : x ∈ R ∨ x ∈ O ∨ (x ∉ O ∧ Stale V R x ∧ prevOf V x ∉ l ∧ nextOf V x ∉ l))
    (hdel : deleteVinode V₁ x = .ok W) :
    ∃ R' ⊆ R, OnRings W R' live ∧ ∀ {i j}, i ∈ R' →
      Orbit (nextOf W) i j → Orbit (nextOf V) i j := by
  rcases hxR with hxR | hxO | ⟨hxO, hst, hpl, hnl⟩
  · refine ⟨_, fun i hi => hi.1.1, h.rings.delete ⟨hxR, hxl⟩ hx hdel, fun hi hij => ?_⟩
    exact h.orbit hi.1.1 hi.1.2 (h.rings.orbit_of_delete ⟨hxR, hxl⟩ hdel hi hij)
  · refine ⟨_, fun i hi => hi.1.1, (h.rings.delete_or h.apart (.inr hxO) hdel).1, fun hi hij => ?_⟩
    exact h.orbit hi.1.1 hi.1.2 (h.rings.orbit_of_delete_or h.apart (.inr hxO) hdel hi hij)
  · obtain ⟨h1, h2⟩ := h.outside hst.notMem hxO
    have h3 := h.joined hst.prev hst.next hpl hnl hst.joined
    have hkept : Kept V₁ W (R \ {i | i ∈ l}) := by
      refine .delete_idle h.rings.links (fun hR => hst.notMem hR.1) (fun _ => ?_) (fun _ => ?_) hdel
      · rw [h1, h2]
        exact h3.1
      · rw [h1, h2]
        exact h3.2
    exact ⟨_, fun i hi => hi.1, h.rings.congr hkept, fun hi hij =>
      h.orbit hi.1 hi.2 (h.rings.orbit_of_kept hkept hi hij)⟩

theorem Stale.setNext (h : Stale V R x) (d : Nat) (n : Int) :
    Stale (Function.update V d { V d with next := n }) R x where
  notMem := h.notMem
  prev := by
    rw [prevOf_setNext]
    exact h.prev
  next := by
    rw [nextOf_setNext]
    exact h.next
  joined := by
    rw [nextOf_setNext, prevOf_setNext]
    exact h.joined

theorem Tree.prune_full {l r : List Nat} {q : Nat} (ht : Tree V kids) (hp : Live kids p)
    (hk : kids p = l ++ q :: x :: r) (hfull : kids 0 ≠ []) : pruneKids kids p x 0 ≠ [] := by
  by_cases h0 : 0 = p
  · rw [h0, pruneKids_parent, hk, erase_middle (hk ▸ ht.nodup hp)]
    simp
  · rw [pruneKids_other h0]
    exact hfull

/-- The vinode `x` of the tree `V` is removed. In `V'` the rings are ready for it: on the
rings `R` are the vinodes that stay, and what is freed is on these rings, or apart from
them, or was taken from its ring before. -/
theorem removeDir_spec {V' : Vinodes} (ht : Tree V kids) (hfull : kids 0 ≠ []) (hp : Live kids p)
    (hpl : (V p).link = false) (hx : (V x).link = false ∨ (V x).child = -1)
    (hnext : ∀ i, (V' i).next = (V i).next) (hchild : ∀ i, (V' i).child = (V i).child)
    (hsame : ∀ i, Live (pruneKids kids p x) i → SameNode (V i) (V' i))
    (h : OnRings V' R (Live (pruneKids kids p x))) (ho : Apart V' R O)
    (hkids : ∀ j ∈ kids x, j ∈ R ∨ j ∈ O)
    (hxR : x ∈ R ∨ x ∈ O ∨
      (x ∉ O ∧ Stale V' R x ∧ prevOf V' x ∉ kids x ∧ nextOf V' x ∉ kids x))
    (hrem : removeDir V' x p = .ok W) : ∃ R', Pruned V' W kids R R' p x := by
  obtain ⟨l, q, r, V₁, hk, hdel, hdelx⟩ := removeDir_split ht hp hpl hnext hchild hrem
  have hxp : x ∈ kids p := by simp [hk]
  have hlx : Live kids x := .kid hp hxp
  have hqp : q ∈ kids p := by simp [hk]
  have hxl : x ∉ kids x := ht.not_mem_self hlx
  have hdead : ∀ {j}, Anc kids x j → ¬Live (pruneKids kids p x) j := fun hj hl =>
    ((ht.live_prune hp hxp).mp hl).2 hj
  have hkid : ∀ {j}, j ∈ kids x → Anc kids x j := fun hj => .kid (.refl hlx) hj
  have hc : (V x).child = headOf (kids x) := by
    rcases hx with hx | hx
    · exact ht.child hlx hx
    · cases hl : (V x).link with
      | false => exact ht.child hlx hl
      | true => rw [ht.leaf hlx hl, hx, headOf_nil]
  rw [hc] at hdel
  have hqx : q ∉ kids x := fun hq => hxl (ht.parent hp hlx hqp hq ▸ hxp)
  have hchain : Chained (fun i => (Function.update V' q { V' q with next := (V x).next } i).next)
      (kids x) := (ht.chain hlx).congr fun i hi => by
    rw [Function.update_of_ne (ne_of_mem_of_not_mem hi hqx)]
    exact hnext i
  have h₀ := h.congr (Kept.edit V' R (a := q) (v := { V' q with next := (V x).next }) rfl rfl rfl)
  have hclear := deleteChildren_spec h₀ (ho.setNext q _) hchain (ht.nodup hlx) (fun j hj =>
    (hkids j hj).imp_left fun hjR => ⟨hjR, hdead (hkid hj)⟩) hdel
  obtain ⟨R', hsub, hR', horbit⟩ := hclear.removed hxl (hdead (.refl hlx))
    (hxR.imp_right (Or.imp_right fun hst => by
      rw [nextOf_setNext, prevOf_setNext]
      exact ⟨hst.1, hst.2.1.setNext q _, hst.2.2⟩)) hdelx
  have hcore : ∀ {i}, i ≠ x → i ∉ kids x → (W i).core =
      (Function.update V' q { V' q with next := (V x).next } i).core := fun hix hil =>
    (deleteVinode_core hdelx hix).trans (hclear.core hil)
  refine ⟨R', hxp, ht.prune_full hp hk hfull, ⟨hR', (ht.prune hp hk hx).congr fun i hi => ?_⟩, hsub,
    fun {i} hix hil => ?_, fun {i} hix hil => ?_, fun {i} hi => ?_, fun hi hij => ?_⟩
  · have hix : i ≠ x := fun he => hdead (.refl hlx) (he ▸ hi)
    have hil : i ∉ kids x := fun hj => hdead (hkid hj) hi
    refine SameNode.trans ?_ (SameNode.of_core (hcore hix hil))
    rw [Function.update_apply, Function.update_apply]
    split_ifs with hiq
    · exact (hsame q (hiq ▸ hi)).setNext _
    · exact hsame i hi
  · rw [Vinode.flat_of_core (hcore hix hil), Function.update_apply]
    split_ifs with hiq
    · rw [hiq]
      rfl
    · rfl
  · rw [Vinode.of_core Vinode.child (fun _ => rfl) (hcore hix hil), Function.update_apply]
    split_ifs with hiq
    · rw [hiq]
    · rfl
  · rcases eq_or_ne i x with rfl | hix
    · exact deleteVinode_mode hdelx
    · rw [Vinode.of_core Vinode.mode (fun _ => rfl) (deleteVinode_core hdelx hix)]
      exact hclear.freed (hi.resolve_left hix)
  · have := horbit hi hij
    rwa [nextOf_setNext] at this

end RemoveDir

end OsWorkbench.Vfs
