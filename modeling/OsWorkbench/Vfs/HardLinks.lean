import OsWorkbench.Vfs.Names
import OsWorkbench.Vfs.Remove

/-!
# Hard links

The names of a file without children are made by `vfs_link` and taken away by
`vfs_unlink`, which splices the vinode out of its ring and lets `remove_dir` do so once
more. When the vinode that is no link goes, the one before it on the ring takes over
what makes up the file.
-/

namespace OsWorkbench.Vfs

open Ext2 (has typeFile typeDir)
open Lib

variable {V W : Vinodes} {kids : Nat → List Nat} {R : Set Nat} {x : Nat}

/-- The ring of the file `x` may have vinodes outside of the tree, but no vinode on it has
a child. -/
structure HardLinked (V : Vinodes) (kids : Nat → List Nat) (R : Set Nat) (x : Nat) : Prop where
  tree : Tree V kids
  rings : OnRings V R fun i => Live kids i ∨ Orbit (nextOf V) x i
  names : ∀ {i}, Live kids i → ((kids i).map fun j => (V j).name).Nodup
  real : (V x).link = false
  leaf : ∀ {i}, Orbit (nextOf V) x i → (V i).child = -1 ∧ kids i = []

namespace HardLinked

theorem wide (h : HardLinked V kids R x) :
    Wide V kids R fun i => Live kids i ∨ Orbit (nextOf V) x i where
  toOnRings := h.rings
  tree := h.tree
  of_tree := .inl
  outside hi hn := h.leaf (hi.resolve_left hn)

theorem mem (h : HardLinked V kids R x) : x ∈ R := h.rings.rings.mem (.inr (.refl x))

theorem live_mem (h : HardLinked V kids R x) {i : Nat} (hi : Live kids i) : i ∈ R :=
  h.rings.rings.mem (.inl hi)

theorem not_mem_of_free (h : HardLinked V kids R x) {i : Nat} (hi : (V i).mode = 0) : i ∉ R :=
  fun hR => (h.rings.used hR).ne_zero hi

theorem orbit_symm (h : HardLinked V kids R x) {i j : Nat} (hi : i ∈ R)
    (ho : Orbit (nextOf V) i j) : Orbit (nextOf V) j i :=
  h.rings.rings.cycles.orbit_symm h.rings.rings.finite hi ho

end HardLinked

/-! ## A link -/

/-- The vinode `n` became a link to `x` with the name `name` in `d`. -/
structure LinkedAs (V W : Vinodes) (kids : Nat → List Nat) (R : Set Nat) (x d n : Nat)
    (name : CStr) : Prop where
  state : HardLinked W (growKids kids d n) (insert n R) x
  free : (V n).mode = 0
  name : (W n).name = name
  flat : ∀ {i}, i ≠ n → (W i).flat = (V i).flat
  child : ∀ {i}, i ≠ n → (W i).child = (V i).child
  orbit : ∀ {i j}, i ∈ R →
    (Orbit (nextOf W) i j ↔ if j = n then Orbit (nextOf V) i x else Orbit (nextOf V) i j)
  links : ∀ {i}, i ≠ n → ¬Orbit (nextOf V) x i →
    (W i).nextLink = (V i).nextLink ∧ (W i).prevLink = (V i).prevLink

theorem linkPath_eq_ok {o : Int} {n : Nat} (h : linkPath V o n = .ok W) :
    ∃ path, W = Function.update V n { V n with path := path } := by
  obtain ⟨v, -, h⟩ := bind_eq_ok.mp h
  split at h
  · exact ⟨_, (modify_nat h).2⟩
  · cases h
    exact ⟨(V n).path, (Function.update_eq_self n V).symm⟩

/-- Of the links of the other vinodes, only those of `o` and of the one behind it change. -/
theorem addLink_links {o n : Nat} (h : addLink V o n = .ok W) {i : Nat} (hn : i ≠ n) (ho : i ≠ o)
    (hi : (i : Int) ≠ (V o).nextLink) :
    (W i).nextLink = (V i).nextLink ∧ (W i).prevLink = (V i).prevLink := by
  simp only [addLink, bind_eq_ok] at h
  obtain ⟨ov, hov, V₁, h₁, V₂, h₂, h₃⟩ := h
  obtain rfl := get_nat_eq hov
  obtain ⟨-, rfl⟩ := modify_nat h₁
  obtain ⟨-, rfl⟩ := modify_nat h₂
  obtain ⟨m, hm, -, rfl⟩ := modify_eq_ok.mp h₃
  have him : i ≠ m := fun he => hi (by rw [hm, he])
  rw [Function.update_of_ne him, Function.update_of_ne ho, Function.update_of_ne hn]
  exact ⟨rfl, rfl⟩

theorem HardLinked.link {d : Nat} {name : CStr} {m : Int} {V₁ V₂ : Vinodes}
    (h : HardLinked V kids R x) (hd : Live kids d) (hdl : (V d).link = false)
    (hnew : childNamed V kids d name = none)
    (happ : appendDir V d name typeLink .vfs none = .ok (m, V₁))
    (hpath : linkPath V₁ x m = .ok V₂) (hadd : addLink V₂ x m = .ok W) :
    ∃ n, LinkedAs V W kids R x d n name := by
  obtain ⟨n, a, b, q, l, l', rfl, hlt, hfree, hab, hq, rfl⟩ := appendNode_effect h.tree hd hdl happ
  obtain ⟨path, rfl⟩ := linkPath_eq_ok hpath
  rw [Function.update_idem, Function.update_self] at hadd
  have hn := h.not_mem_of_free hfree
  have hnl : ¬Live kids n := h.tree.not_live_of_free hfree
  have hname : ∀ j ∈ kids d, (V j).name ≠ name := fun j hj => by
    have := List.find?_eq_none.mp hnew j hj
    simpa using this
  obtain ⟨-, hdot, -⟩ := h.tree.dot hd hab
  have hne : name ≠ .lit "." := fun he => hname a (by simp [hab]) (hdot.trans he.symm)
  let w : Vinode := { appendedNode (.lit "/") V n a b name typeLink .vfs none with path := path }
  have hw : w.mode = typeLink := rfl
  have ha :
      Appended V (Function.update (Function.update V q { V q with next := n }) n w) kids R d n w :=
    h.tree.appended h.live_mem hd hdl hq hn hlt
      (.other hab (by simp) (h.tree.ddot hd hab) (used_of_mode hw) rfl hne rfl rfl rfl)
      ⟨Int.natCast_nonneg n, Int.natCast_nonneg n⟩ (.inl rfl)
  have hre := addLink_nat hadd
  have hins := ha.kept.inserted h.mem hre
  have horb : ∀ {i j}, i ∈ R → (Orbit (nextOf W) i j ↔
      if j = n then Orbit (nextOf V) i x else Orbit (nextOf V) i j) := by
    intro i j hi
    rw [← h.rings.rings.cycles.orbit_insert h.mem hn hi]
    exact (h.rings.rings.cycles.insert h.mem hn).orbit_congr (fun k hk => (hins k hk).1) (.inr hi)
  have hcore : ∀ {β : Type} (f : Vinode → β), (∀ v, f v.core = f v) → ∀ i, f (W i) =
      f (Function.update (Function.update V q { V q with next := n }) n w i) := fun f hf i =>
    Vinode.of_core f hf (hre.core i)
  have hflat : ∀ {i}, i ≠ n → (W i).flat = (V i).flat := fun {i} hi =>
    (Vinode.flat_of_core (hre.core i)).trans (ha.flat hi)
  have hchild : ∀ {i}, i ≠ n → (W i).child = (V i).child := fun {i} hi =>
    (hcore Vinode.child (fun _ => rfl) i).trans (ha.child hi (.inr (by simp [hab])))
  have hlive : (fun i => Live (growKids kids d n) i ∨ Orbit (nextOf W) x i) =
      fun i => (Live kids i ∨ Orbit (nextOf V) x i) ∨ i = n := by
    funext i
    rw [live_grow hd hnl, horb h.mem]
    by_cases hin : i = n
    · simp [hin]
    · simp [hin]
  have hWn : (W n).name = name ∧ (W n).child = -1 := by
    rw [hcore Vinode.name (fun _ => rfl), hcore Vinode.child (fun _ => rfl), Function.update_self]
    exact ⟨rfl, rfl⟩
  have hnames : ∀ {i}, i ≠ n → (W i).name = (V i).name := fun hi =>
    Vinode.of_flat Vinode.name (fun _ => rfl) (hflat hi)
  refine ⟨n, ⟨ha.tree.congr fun i _ => SameNode.of_core (hre.core i), ?_, ?_, ?_, ?_⟩, hfree, hWn.1,
    hflat,     hchild, horb, fun {i} hi hx => ?_⟩
  · rw [hlive]
    exact h.rings.link hn hlt (.inr (.refl x)) ha.kept
      (by rw [ha.self]; exact link_of_mode hw) (by rw [ha.self]; exact used_of_mode hw) hre
  · intro i hi
    rcases growKids_cases hd hnl hi with ⟨-, hk⟩ | ⟨rfl, hk⟩ | ⟨hi, -, hk⟩
    · rw [hk]
      exact List.nodup_nil
    · have hold : ((kids i).map fun j => (W j).name) = (kids i).map fun j => (V j).name :=
        List.map_congr_left fun j hj => hnames (ne_of_live (.kid hd hj) hnl)
      rw [hk, List.map_append, hold, List.map_singleton, hWn.1, List.nodup_append_comm]
      refine List.nodup_cons.mpr ⟨fun hmem => ?_, h.names hd⟩
      obtain ⟨j, hj, he⟩ := List.mem_map.mp hmem
      exact hname j hj he
    · rw [hk]
      refine (List.map_congr_left fun j hj => ?_) ▸ h.names hi
      exact (hnames (ne_of_live (.kid hi hj) hnl)).symm
  · rw [Vinode.link_of_flat (hflat (ne_of_mem_of_not_mem h.mem hn))]
    exact h.real
  · intro i hi
    rw [horb h.mem] at hi
    by_cases hin : i = n
    · rw [hin]
      exact ⟨hWn.2, growKids_self (ne_of_live hd hnl)⟩
    · rw [if_neg hin] at hi
      obtain ⟨hc, hk⟩ := h.leaf hi
      refine ⟨(hchild hin).trans hc, ?_⟩
      rw [growKids_other ?_ hin, hk]
      rintro rfl
      rw [hab] at hk
      cases hk
  · have hxn : x ≠ n := ne_of_mem_of_not_mem h.mem hn
    have hix : i ≠ x := fun he => hx (by rw [he]; exact .refl x)
    have hnext : (i : Int) ≠
        (Function.update (Function.update V q { V q with next := n }) n w x).nextLink := by
      rw [(ha.links hxn).1, h.rings.nextLink_eq]
      exact fun he => hx (Int.ofNat_inj.mp he ▸ (Orbit.refl x).next)
    obtain ⟨h1, h2⟩ := addLink_links hadd hi hix hnext
    exact ⟨h1.trans (ha.links hi).1, h2.trans (ha.links hi).2⟩

/-! ## A link removed -/

section Unlink

variable {V' V₁ : Vinodes} {d k x' : Nat}

/-- The name of `k` in `d` is gone, and `x'` is the file now. -/
structure UnlinkedAs (V W : Vinodes) (kids : Nat → List Nat) (R : Set Nat) (x x' d k : Nat) :
    Prop where
  state : HardLinked W (pruneKids kids d k) (R \ {k}) x'
  ring : Orbit (nextOf V) x x'
  mode : (W x').mode = (V x).mode
  ridx : (W x').ridx = (V x).ridx
  fs : (W x').fs = (V x).fs
  fsType : (W x').fsType = (V x).fsType
  name : ∀ {i}, i ≠ k → (W i).name = (V i).name
  child : ∀ {i}, i ≠ k → (W i).child = (V i).child
  used : ∀ {i}, i ≠ k → ¬Orbit (nextOf V) x i → (W i).mode = (V i).mode
  orbit : ∀ {i j}, i ∈ R → i ≠ k → (Orbit (nextOf W) i j ↔ Orbit (nextOf V) i j ∧ j ≠ k)
  links : ∀ {i}, i ≠ k → ¬Orbit (nextOf V) x i →
    (W i).nextLink = (V i).nextLink ∧ (W i).prevLink = (V i).prevLink

/-- What was spliced out is spliced out again. -/
theorem remove_twice {f g : Nat → Nat} (hf : f k ≠ k) (hg : g k ≠ k) :
    removeNext (removeNext f g k) (removePrev f g k) k = removeNext f g k ∧
      removePrev (removeNext f g k) (removePrev f g k) k = removePrev f g k := by
  have h1 : removeNext f g k k = f k := removeNext_other hg.symm
  have h2 : removePrev f g k k = g k := removePrev_other hf.symm
  constructor
  · rw [removeNext, h1, h2, removeNext, Function.update_idem]
  · rw [removePrev, h1, h2, removePrev, Function.update_idem]

theorem removeLink_links {i : Nat} (h : removeLink V k = .ok W) (hp : (i : Int) ≠ (V k).prevLink)
    (hn : (i : Int) ≠ (V k).nextLink) :
    (W i).nextLink = (V i).nextLink ∧ (W i).prevLink = (V i).prevLink := by
  simp only [removeLink, bind_eq_ok] at h
  obtain ⟨kv, hkv, V₁, h₁, h₂⟩ := h
  obtain rfl := get_nat_eq hkv
  obtain ⟨p, hp', -, rfl⟩ := modify_eq_ok.mp h₁
  obtain ⟨n, hn', -, rfl⟩ := modify_eq_ok.mp h₂
  have hip : i ≠ p := fun he => hp (by rw [hp', he])
  have hin : i ≠ n := fun he => hn (by rw [hn', he])
  rw [Function.update_of_ne hin, Function.update_of_ne hip]
  exact ⟨rfl, rfl⟩

/-- The vinodes after a child was spliced out, taken from its siblings and freed. -/
theorem unlink_effect (ht : Tree V kids) (hd : Live kids d) (hdl : (V d).link = false)
    (hleaf : (V k).child = -1) (hnext : ∀ i, (V' i).next = (V i).next)
    (hchild : ∀ i, (V' i).child = (V i).child) (hf : nextOf V' k ≠ k) (hg : prevOf V' k ≠ k)
    (hrem : removeLink V' k = .ok V₁) (hdir : removeDir V₁ k d = .ok W) :
    ∃ (l : List Nat) (q : Nat) (r : List Nat), kids d = l ++ q :: k :: r ∧
      (∀ i, i ≠ k → (W i).core =
        (Function.update V' q { V' q with next := (V k).next } i).core) ∧
      nextOf W = removeNext (nextOf V') (prevOf V') k ∧
      prevOf W = removePrev (nextOf V') (prevOf V') k ∧
      ((∀ i, 0 ≤ (V' i).nextLink ∧ 0 ≤ (V' i).prevLink) →
        ∀ i, 0 ≤ (W i).nextLink ∧ 0 ≤ (W i).prevLink) ∧
      ∀ i : Nat, i ≠ k → (i : Int) ≠ (V' k).prevLink → (i : Int) ≠ (V' k).nextLink →
        (W i).nextLink = (V' i).nextLink ∧ (W i).prevLink = (V' i).prevLink := by
  have hre := removeLink_effect hrem
  have hsame : ∀ {β : Type} (f : Vinode → β), (∀ v, f v.core = f v) → ∀ i, f (V₁ i) = f (V' i) :=
    fun f hf i => Vinode.of_core f hf (hre.core i)
  obtain ⟨l, q, r, V₂, hk, hdel, hdelk⟩ := removeDir_split ht hd hdl
    (fun i => (hsame Vinode.next (fun _ => rfl) i).trans (hnext i))
    (fun i => (hsame Vinode.child (fun _ => rfl) i).trans (hchild i)) hdir
  rw [hleaf] at hdel
  obtain rfl : Function.update V₁ q { V₁ q with next := (V k).next } = V₂ := by
    cases hdel
    rfl
  have hre₂ := deleteVinode_effect hdelk
  rw [nextOf_setNext, prevOf_setNext, hre.next, hre.prev, (remove_twice hf hg).1,
    (remove_twice hf hg).2] at hre₂
  refine ⟨l, q, r, hk, fun i hi => ?_, hre₂.next, hre₂.prev, fun hl => ?_, fun i hi hp hn => ?_⟩
  · rw [deleteVinode_core hdelk hi, Function.update_apply, Function.update_apply]
    split_ifs with hiq
    · have := congrArg (fun v : Vinode => { v with next := (V k).next }) (hre.core q)
      exact this
    · exact hre.core i
  · refine deleteVinode_links hdelk fun i => ?_
    rw [Function.update_apply]
    split_ifs with hiq
    · exact hre.links hl q
    · exact hre.links hl i
  · -- the links of `k` are those from before it was spliced out
    obtain ⟨V₃, h₃, hrem₂⟩ := bind_eq_ok.mp hdelk
    obtain ⟨-, rfl⟩ := modify_nat h₃
    have hlk : (V₁ k).nextLink = (V' k).nextLink ∧ (V₁ k).prevLink = (V' k).prevLink := by
      refine removeLink_links hrem ?_ ?_
      · intro he
        rw [prevOf, ← he] at hg
        exact hg rfl
      · intro he
        rw [nextOf, ← he] at hf
        exact hf rfl
    have hV : ∀ j, (Function.update V₁ q { V₁ q with next := (V k).next } j).nextLink =
      (V₁ j).nextLink ∧
        (Function.update V₁ q { V₁ q with next := (V k).next } j).prevLink = (V₁ j).prevLink := by
      intro j
      rw [Function.update_apply]
      split_ifs with hj
      · rw [hj]
        exact ⟨rfl, rfl⟩
      · exact ⟨rfl, rfl⟩
    have h1 := removeLink_links (i := i) hrem₂
      (by rw [Function.update_self]; dsimp only; rwa [(hV k).2, hlk.2])
      (by rw [Function.update_self]; dsimp only; rwa [(hV k).1, hlk.1])
    have h2 := removeLink_links (i := i) hrem hp hn
    rw [Function.update_of_ne hi, (hV i).1, (hV i).2] at h1
    exact ⟨h1.1.trans h2.1, h1.2.trans h2.2⟩

/-- What makes up the file is moved from `x` to `x'`. -/
def promoted (V : Vinodes) (x x' : Nat) : Vinodes :=
  Function.update V x' { V x' with
    mode := (V x).mode, ridx := (V x).ridx, fs := (V x).fs, fsType := (V x).fsType }

theorem promoted_self (V : Vinodes) (x : Nat) : promoted V x x = V := Function.update_eq_self x V

theorem promoted_cases (V : Vinodes) (x x' i : Nat) : (i = x' ∧ promoted V x x' i = { V x' with
    mode := (V x).mode, ridx := (V x).ridx, fs := (V x).fs, fsType := (V x).fsType }) ∨
    (i ≠ x' ∧ promoted V x x' i = V i) := by
  by_cases hi : i = x'
  · exact .inl ⟨hi, hi ▸ Function.update_self ..⟩
  · exact .inr ⟨hi, Function.update_of_ne hi ..⟩

theorem promoted_of {β : Type} (f : Vinode → β) (hf : ∀ (v : Vinode) m r s t,
    f { v with mode := m, ridx := r, fs := s, fsType := t } = f v) (V : Vinodes) (x x' i : Nat) :
    f (promoted V x x' i) = f (V i) := by
  rcases promoted_cases V x x' i with ⟨rfl, he⟩ | ⟨-, he⟩
  · rw [he, hf]
  · rw [he]

theorem nextOf_promoted (V : Vinodes) (x x' : Nat) : nextOf (promoted V x x') = nextOf V :=
  funext fun i => congrArg Int.toNat (promoted_of Vinode.nextLink (fun _ _ _ _ _ => rfl) V x x' i)

theorem prevOf_promoted (V : Vinodes) (x x' : Nat) : prevOf (promoted V x x') = prevOf V :=
  funext fun i => congrArg Int.toNat (promoted_of Vinode.prevLink (fun _ _ _ _ _ => rfl) V x x' i)

theorem orbit_of_fixed {f : Nat → Nat} {j : Nat} (hk : f k = k) (h : Orbit f k j) : j = k := by
  induction h with
  | refl => rfl
  | tail _ hstep ih => rw [← hstep, ih, hk]

theorem Anc.eq_of_leaf {c i : Nat} (hc : kids c = []) (h : Anc kids c i) : i = c := by
  induction h with
  | refl => rfl
  | kid _ hj ih =>
    rw [ih, hc] at hj
    cases hj

namespace HardLinked

/-- There is one vinode on the ring that is no link. -/
theorem eq_of_real (h : HardLinked V kids R x) {i : Nat} (hi : Orbit (nextOf V) x i)
    (hl : (V i).link = false) : i = x := by
  obtain ⟨r, -, -, -, huniq⟩ := h.rings.rings.one (.inr (.refl x))
  exact (huniq i hi hl).trans (huniq x (.refl x) h.real).symm

theorem live_prune (h : HardLinked V kids R x) (hd : Live kids d) (hk : k ∈ kids d)
    (hxk : Orbit (nextOf V) x k) {i : Nat} :
    Live (pruneKids kids d k) i ↔ Live kids i ∧ i ≠ k := by
  rw [h.tree.live_prune hd hk]
  refine and_congr_right fun _ =>
    ⟨fun hn he => hn (by rw [he]; exact .refl (.kid hd hk)), fun hn hanc => ?_⟩
  exact hn (hanc.eq_of_leaf (h.leaf hxk).2)

/-- The rings without `k`, when `x'` has taken over if `k` was the file. -/
theorem headed (h : HardLinked V kids R x) (hxk : Orbit (nextOf V) x k)
    (hxx : Orbit (nextOf V) x x') (hne : x' ≠ k) (hcase : x' = x ∨ k = x) :
    Headed (removeNext (nextOf V) (prevOf V) k) (removePrev (nextOf V) (prevOf V) k) (R \ {k})
      (fun i => (Live kids i ∨ Orbit (nextOf V) x i) ∧ i ≠ k)
      fun i => (promoted V x x' i).link = false := by
  have hkR := h.rings.rings.cycles.mem h.mem hxk
  have hhead : ∀ {i r}, (Live kids i ∨ Orbit (nextOf V) x i) → (V r).link = false →
      Orbit (nextOf V) i r → Live kids r ∨ Orbit (nextOf V) x r := by
    intro i r hi hr hir
    obtain ⟨r', hr', -, -, huniq⟩ := h.rings.rings.one hi
    exact huniq r hir hr ▸ hr'
  rcases hcase with rfl | rfl
  · rw [promoted_self]
    have hlink : (V k).link ≠ false := fun hf => hne (h.eq_of_real hxk hf).symm
    refine (h.rings.rings.shrink (fun hi => hi.1) fun {i r} hi hr hir =>
      ⟨hhead hi.1 hr hir, ?_⟩).remove
      hkR fun hi => hi.2 rfl
    exact fun he => hlink (he ▸ hr)
  · refine h.rings.rings.promote (.inr (.refl k)) h.real hxx ⟨.inr hxx, hne⟩ (fun hi => hi.2 rfl)
      (fun hi => hi.1) (fun {i r} hi hr hir => ?_) ?_ fun i hik hix => ?_
    · exact or_iff_not_imp_left.mpr fun hrk => ⟨hhead hi.1 hr hir, hrk⟩
    · rcases promoted_cases V k x' x' with ⟨-, he⟩ | ⟨hn, -⟩
      · rw [he]
        exact h.real
      · exact absurd rfl hn
    · rcases promoted_cases V k x' i with ⟨he, -⟩ | ⟨-, he⟩
      · exact absurd he hix
      · rw [he]

theorem unlink (h : HardLinked V kids R x) (hd : Live kids d) (hdl : (V d).link = false)
    (hk : k ∈ kids d) (hxk : Orbit (nextOf V) x k) (hxx : Orbit (nextOf V) x x') (hne : x' ≠ k)
    (hcase : x' = x ∨ k = x) (hrem : removeLink (promoted V x x') k = .ok V₁)
    (hdir : removeDir V₁ k d = .ok W) : UnlinkedAs V W kids R x x' d k := by
  have hcyc := h.rings.rings.cycles
  have hkR := hcyc.mem h.mem hxk
  have hkx := h.orbit_symm h.mem hxk
  have hf : nextOf V k ≠ k := fun he => hne (orbit_of_fixed he (hkx.trans hxx))
  have hg : prevOf V k ≠ k := fun he => hf (by
    have := hcyc.next_prev hkR
    rwa [he] at this)
  obtain ⟨l, q, r, hkd, hcore, hn, hp, hlinks, hother⟩ := unlink_effect h.tree hd hdl (h.leaf hxk).1
    (promoted_of Vinode.next (fun _ _ _ _ _ => rfl) V x x')
    (promoted_of Vinode.child (fun _ _ _ _ _ => rfl) V x x')
    (by rwa [nextOf_promoted]) (by rwa [prevOf_promoted]) hrem hdir
  rw [nextOf_promoted, prevOf_promoted] at hn hp
  -- but for the links and for `next`, all is as after the promotion
  have hsame : ∀ {β : Type} (f : Vinode → β), (∀ v, f v.core = f v) →
      (∀ (v : Vinode) y, f { v with next := y } = f v) → ∀ {i}, i ≠ k →
      f (W i) = f (promoted V x x' i) := by
    intro β f hf hf' i hi
    rw [Vinode.of_core f hf (hcore i hi), Function.update_apply]
    split_ifs with hiq
    · rw [hf', hiq]
    · rfl
  have hlink : ∀ {i}, i ≠ k → (W i).link = (promoted V x x' i).link := fun hi =>
    hsame Vinode.link (fun _ => rfl) (fun _ _ => rfl) hi
  have hmode : ∀ {i}, i ≠ k → (W i).mode = (promoted V x x' i).mode := fun hi =>
    hsame Vinode.mode (fun _ => rfl) (fun _ _ => rfl) hi
  have hname : ∀ {i}, i ≠ k → (W i).name = (V i).name := fun {i} hi =>
    (hsame Vinode.name (fun _ => rfl) (fun _ _ => rfl) hi).trans
      (promoted_of Vinode.name (fun _ _ _ _ _ => rfl) V x x' i)
  have hchild : ∀ {i}, i ≠ k → (W i).child = (V i).child := fun {i} hi =>
    (hsame Vinode.child (fun _ => rfl) (fun _ _ => rfl) hi).trans
      (promoted_of Vinode.child (fun _ _ _ _ _ => rfl) V x x' i)
  have horb : ∀ {i j}, i ∈ R → i ≠ k → (Orbit (nextOf W) i j ↔ Orbit (nextOf V) i j ∧ j ≠ k) := by
    intro i j hi hik
    rw [hn]
    constructor
    · intro hj
      have hjk := ((hcyc.remove hkR).mem ⟨hi, hik⟩ hj).2
      exact ⟨(hcyc.orbit_remove hkR hi hik hjk).mp hj, hjk⟩
    · rintro ⟨hj, hjk⟩
      exact (hcyc.orbit_remove hkR hi hik hjk).mpr hj
  have hxR' := hcyc.mem h.mem hxx
  have hx'x := h.orbit_symm h.mem hxx
  have hself : (promoted V x x' x').mode = (V x).mode ∧ (promoted V x x' x').ridx = (V x).ridx ∧
      (promoted V x x' x').fs = (V x).fs ∧ (promoted V x x' x').fsType = (V x).fsType := by
    rw [promoted, Function.update_self]
    exact ⟨rfl, rfl, rfl, rfl⟩
  have hlive : (fun i => Live (pruneKids kids d k) i ∨ Orbit (nextOf W) x' i) =
      fun i => (Live kids i ∨ Orbit (nextOf V) x i) ∧ i ≠ k := by
    funext i
    rw [h.live_prune hd hk hxk, horb hxR' hne, ← or_and_right]
    exact propext (and_congr_left fun _ => or_congr_right ⟨hxx.trans, hx'x.trans⟩)
  have hkept : ∀ {i}, ¬Orbit (nextOf V) x i → promoted V x x' i = V i := by
    intro i hi
    rcases promoted_cases V x x' i with ⟨rfl, -⟩ | ⟨-, he⟩
    · exact absurd hxx hi
    · exact he
  have hpl : ∀ i, (promoted V x x' i).nextLink = (V i).nextLink ∧
      (promoted V x x' i).prevLink = (V i).prevLink := fun i =>
    ⟨promoted_of Vinode.nextLink (fun _ _ _ _ _ => rfl) V x x' i,
      promoted_of Vinode.prevLink (fun _ _ _ _ _ => rfl) V x x' i⟩
  constructor
  case ring => exact hxx
  case mode => exact (hmode hne).trans hself.1
  case ridx => exact (hsame Vinode.ridx (fun _ => rfl) (fun _ _ => rfl) hne).trans hself.2.1
  case fs => exact (hsame Vinode.fs (fun _ => rfl) (fun _ _ => rfl) hne).trans hself.2.2.1
  case fsType => exact (hsame Vinode.fsType (fun _ => rfl) (fun _ _ => rfl) hne).trans hself.2.2.2
  case name => exact hname
  case child => exact hchild
  case used =>
    intro i hi hx
    rw [hmode hi, hkept hx]
  case orbit => exact horb
  case links =>
    intro i hi hx
    obtain ⟨h1, h2⟩ := hother i hi
      (by
        rw [(hpl k).2, h.rings.prevLink_eq]
        intro he
        have hik :=
          h.orbit_symm (hcyc.prev_mem hkR) ((Orbit.refl (f := nextOf V) (prevOf V k)).next)
        rw [hcyc.next_prev hkR, ← Int.ofNat_inj.mp he] at hik
        exact hx (hxk.trans hik))
      (by
        rw [(hpl k).1, h.rings.nextLink_eq]
        intro he
        exact hx (Int.ofNat_inj.mp he ▸ hxk.next))
    rw [h1, h2]
    exact hpl i
  case state =>
    have hnode : ∀ {i}, SameNode (V i) (promoted V x x' i) := by
      intro i
      rcases promoted_cases V x x' i with ⟨rfl, he⟩ | ⟨-, he⟩
      · rw [he]
        refine ⟨rfl, rfl, rfl, rfl, rfl, .inr ⟨(h.leaf hxx).1, h.real⟩, fun _ => ?_⟩
        exact h.rings.used h.mem
      · rw [he]
        exact SameNode.refl _
    refine ⟨(h.tree.prune hd hkd (.inr (h.leaf hxk).1)).congr fun i hi => ?_, ?_, fun {i} hi => ?_,
      ?_, fun {i} hi => ?_⟩
    · have hik := ((h.live_prune hd hk hxk).mp hi).2
      refine SameNode.trans ?_ (SameNode.of_core (hcore i hik))
      rw [Function.update_apply, Function.update_apply]
      split_ifs with hiq
      · exact hnode.setNext _
      · exact hnode
    · rw [hlive]
      refine ⟨?_, fun hi => h.rings.lt hi.1, fun {i} hi => ?_, hlinks fun i => ?_⟩
      · have hh := h.headed hxk hxx hne hcase
        rw [hn, hp]
        refine hh.congr (fun _ _ => rfl) (fun _ _ => rfl) fun {i j} hi hj => ?_
        rw [hlink (hh.orbit_mem hi hj).2]
      · rw [hmode hi.2]
        exact hnode.used (h.rings.used hi.1)
      · rw [(hpl i).1, (hpl i).2]
        exact h.rings.links i
    · have hli := (h.live_prune hd hk hxk).mp hi
      have hsub : (pruneKids kids d k i).Sublist (kids i) := by
        by_cases hid : i = d
        · rw [hid, pruneKids_parent]
          exact List.erase_sublist
        · rw [pruneKids_other hid]
      rw [List.map_congr_left fun j hj => hname fun he => ?_]
      · exact (hsub.map _).nodup (h.names hli.1)
      · exact ((h.live_prune hd hk hxk).mp (.kid hi hj)).2 he
    · rw [hlink hne, Vinode.link, hself.1]
      exact h.real
    · obtain ⟨hi, hik⟩ := (horb hxR' hne).mp hi
      obtain ⟨hc, hki⟩ := h.leaf (hxx.trans hi)
      refine ⟨(hchild hik).trans hc, ?_⟩
      have hid : i ≠ d := by
        rintro rfl
        rw [hki] at hk
        cases hk
      rw [pruneKids_other hid, hki]

end HardLinked

end Unlink

end OsWorkbench.Vfs
