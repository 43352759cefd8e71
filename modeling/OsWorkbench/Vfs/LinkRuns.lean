import OsWorkbench.Vfs.HardLinks

/-!
# Runs of links and unlinks

Any of the names of a file may be removed while another one is left, and new ones may be
made from any of them. All names the file has lead to one vinode, the names it had lead
nowhere, and nothing else changes.
-/

namespace OsWorkbench.Vfs

open Ext2 (has typeFile typeDir)
open Lib

variable {V W : Vinodes} {kids : Nat → List Nat} {R : Set Nat} {x : Nat}

/-! ## The calls -/

section Total

variable {d k : Nat}

theorem removeLink_total (hk : k < maxVinode) (hp : 0 ≤ (V k).prevLink ∧ prevOf V k < maxVinode)
    (hn : 0 ≤ (V k).nextLink ∧ nextOf V k < maxVinode) : ∃ W, removeLink V k = .ok W := by
  have hp' : (V k).prevLink = prevOf V k := (Int.toNat_of_nonneg hp.1).symm
  have hn' : (V k).nextLink = nextOf V k := (Int.toNat_of_nonneg hn.1).symm
  rw [removeLink, get_nat hk, ok_bind, modify_eq_ok.mpr ⟨_, hp', hp.2, rfl⟩, ok_bind]
  exact ⟨_, modify_eq_ok.mpr ⟨_, hn', hn.2, rfl⟩⟩

/-- The loop finds the child in front of `k`. -/
theorem findPrev_eq {l r : List Nat} {q fuel : Nat} (hnd : (l ++ q :: k :: r).Nodup)
    (hc : Chained (fun i => (V i).next) (l ++ q :: k :: r))
    (hlt : ∀ i ∈ l ++ q :: k :: r, i < maxVinode) (hf : l.length < fuel) :
    findPrev V k fuel (headOf (l ++ q :: k :: r)) = .ok q := by
  induction l generalizing fuel with
  | nil =>
    obtain ⟨fuel, rfl⟩ := Nat.exists_eq_succ_of_ne_zero (Nat.ne_zero_of_lt hf)
    have hnext : (V q).next = k := hc.1
    rw [List.nil_append, headOf_cons, findPrev, get_nat (hlt q (by simp)), ok_bind, if_pos hnext]
    rfl
  | cons c l ih =>
    obtain ⟨fuel, rfl⟩ := Nat.exists_eq_succ_of_ne_zero (Nat.ne_zero_of_lt hf)
    have hnext : (V c).next = headOf (l ++ q :: k :: r) := hc.1
    rw [List.cons_append, List.nodup_cons] at hnd
    have hne : headOf (l ++ q :: k :: r) ≠ k := by
      cases l with
      | nil =>
        have := hnd.2
        simp only [List.nil_append, List.nodup_cons, List.mem_cons, not_or] at this
        simpa using this.1.1
      | cons c' l =>
        have := hnd.2
        simp only [List.cons_append, List.nodup_cons, List.mem_append, List.mem_cons, not_or]
          at this
        simpa using this.1.2.2.1
    rw [List.cons_append, headOf_cons, findPrev, get_nat (hlt c (by simp)), ok_bind, hnext,
      if_neg hne]
    exact ih hnd.2 hc.2 (fun i hi => hlt i (by simp at hi ⊢; tauto)) (Nat.lt_of_succ_lt_succ hf)

theorem HardLinked.unlink_total {x' : Nat} (h : HardLinked V kids R x) (hd : Live kids d)
    (hdl : (V d).link = false) (hk : k ∈ kids d) (hxk : Orbit (nextOf V) x k)
    (hxx : Orbit (nextOf V) x x') (hne : x' ≠ k) :
    ∃ V₁ W, removeLink (promoted V x x') k = .ok V₁ ∧ removeDir V₁ k d = .ok W := by
  have hcyc := h.rings.rings.cycles
  have hkR := hcyc.mem h.mem hxk
  have hf : nextOf V k ≠ k := fun he =>
    hne (orbit_of_fixed he ((h.orbit_symm h.mem hxk).trans hxx))
  have hplt := h.rings.lt (hcyc.prev_mem hkR)
  have hnlt := h.rings.lt (hcyc.next_mem hkR)
  have hklt := h.rings.lt hkR
  have hlinks : ∀ i, 0 ≤ (promoted V x x' i).nextLink ∧ 0 ≤ (promoted V x x' i).prevLink := by
    intro i
    rw [promoted_of Vinode.nextLink (fun _ _ _ _ _ => rfl),
      promoted_of Vinode.prevLink (fun _ _ _ _ _ => rfl)]
    exact h.rings.links i
  obtain ⟨V₁, hrem⟩ := removeLink_total (V := promoted V x x') hklt
    ⟨(hlinks k).2, by rwa [prevOf_promoted]⟩ ⟨(hlinks k).1, by rwa [nextOf_promoted]⟩
  have hre := removeLink_effect hrem
  rw [nextOf_promoted, prevOf_promoted] at hre
  have hsame : ∀ {β : Type} (f : Vinode → β), (∀ v, f v.core = f v) → (∀ (v : Vinode) m r s t,
      f { v with mode := m, ridx := r, fs := s, fsType := t } = f v) → ∀ i, f (V₁ i) = f (V i) :=
    fun f hf hf' i => (Vinode.of_core f hf (hre.core i)).trans (promoted_of f hf' V x x' i)
  have hnext := hsame Vinode.next (fun _ => rfl) fun _ _ _ _ _ => rfl
  have hchild := hsame Vinode.child (fun _ => rfl) fun _ _ _ _ _ => rfl
  -- the child in front of `k`
  obtain ⟨l, q, r, hkd⟩ : ∃ l q r, kids d = l ++ q :: k :: r := by
    obtain ⟨l, r, hlr⟩ := List.append_of_mem hk
    rcases List.eq_nil_or_concat l with rfl | ⟨l, q, rfl⟩
    · obtain ⟨-, -, hc, -⟩ := h.tree.dot hd hlr
      rw [(h.leaf hxk).1] at hc
      simp at hc
    · exact ⟨l, q, r, by rw [hlr, List.concat_eq_append, List.append_assoc]; rfl⟩
  have hlen := h.tree.length_kids hd
  rw [hkd] at hlen
  have hprev : findPrev V₁ k maxVinode (V₁ d).child = .ok q := by
    rw [hchild, h.tree.child hd hdl, hkd]
    refine findPrev_eq (hkd ▸ h.tree.nodup hd) ((hkd ▸ h.tree.chain hd).congr fun i _ => hnext i)
      (fun i hi => h.tree.lt (.kid hd (hkd ▸ hi))) ?_
    simp only [List.length_append, List.length_cons] at hlen
    omega
  have hqlt : q < maxVinode := h.tree.lt (.kid hd (by simp [hkd]))
  suffices hdir : ∃ W, removeDir V₁ k d = .ok W by
    obtain ⟨W, hW⟩ := hdir
    exact ⟨V₁, W, hrem, hW⟩
  rw [removeDir, get_nat (h.tree.lt hd), ok_bind, hprev, ok_bind, get_nat hklt, ok_bind,
    modify_eq_ok.mpr ⟨q, rfl, hqlt, rfl⟩, ok_bind, get_nat hklt, ok_bind]
  have hck : (Function.update V₁ q { V₁ q with next := (V₁ k).next } k).child = -1 := by
    rw [Function.update_apply]
    split_ifs with hkq
    · rw [← hkq]
      exact (hchild k).trans (h.leaf hxk).1
    · exact (hchild k).trans (h.leaf hxk).1
  rw [hck, deleteChildren, if_pos rfl, ok_bind, deleteVinode, vinodesFree,
    modify_eq_ok.mpr ⟨k, rfl, hklt, rfl⟩, ok_bind]
  have hl₁ := hre.links hlinks k
  have hlk : ∀ {β : Type} (f : Vinode → β), (∀ (v : Vinode) y, f { v with next := y } = f v) →
      (∀ (v : Vinode) m, f { v with mode := m } = f v) →
      f (Function.update (Function.update V₁ q { V₁ q with next := (V₁ k).next }) k
        { Function.update V₁ q { V₁ q with next := (V₁ k).next } k with mode := 0 } k) =
          f (V₁ k) := by
    intro β f hf hf'
    rw [Function.update_self, hf', Function.update_apply]
    split_ifs with hkq
    · rw [hf, hkq]
    · rfl
  refine removeLink_total hklt ?_ ?_
  · rw [prevOf, hlk Vinode.prevLink (fun _ _ => rfl) fun _ _ => rfl]
    refine ⟨hl₁.2, ?_⟩
    show prevOf V₁ k < maxVinode
    rw [hre.prev, removePrev_other hf.symm]
    exact hplt
  · rw [nextOf, hlk Vinode.nextLink (fun _ _ => rfl) fun _ _ => rfl]
    refine ⟨hl₁.1, ?_⟩
    show nextOf V₁ k < maxVinode
    have hg : k ≠ prevOf V k := fun he => hf (by
      have := hcyc.next_prev hkR
      rwa [← he] at this)
    rw [hre.next, removeNext_other hg]
    exact hnlt

end Total

section Calls

variable {s : State} {a b : Name} {k : Nat}

theorem eq_of_mem_map_nodup {l : List Nat} {i j : Nat} (hnd : (l.map fun j => (V j).name).Nodup)
    (hi : i ∈ l) (hj : j ∈ l) (he : (V i).name = (V j).name) : i = j :=
  List.inj_on_of_nodup_map hnd hi hj he

/-- The names of the file are neither `"."` nor `".."`. -/
theorem HardLinked.name_ne {d : Nat} (h : HardLinked V kids R x) (hd : Live kids d)
    (hk : k ∈ kids d)
    (hxk : Orbit (nextOf V) x k) : (V k).name ≠ .lit "." ∧ (V k).name ≠ .lit ".." := by
  have hchild := (h.leaf hxk).1
  obtain ⟨c, l, hcl⟩ := List.exists_cons_of_ne_nil (List.ne_nil_of_mem hk)
  obtain ⟨-, -, hc, hrest⟩ := h.tree.dot hd hcl
  have hkl : k ∈ l := by
    rw [hcl, List.mem_cons] at hk
    refine hk.resolve_left ?_
    rintro rfl
    rw [hchild] at hc
    simp at hc
  refine ⟨hrest k hkl, fun he => ?_⟩
  cases l with
  | nil => cases hkl
  | cons c' l =>
    -- the second child is `".."`, and `k` is another one
    obtain ⟨hl', hc'⟩ := h.tree.ddot hd hcl
    have hmem : c' ∈ kids d := by simp [hcl]
    have hname := (h.tree.named hd hmem hl' hc').resolve_left (hrest c' (by simp))
    have hkc := eq_of_mem_map_nodup (h.names hd) hk hmem (he.trans hname.symm)
    rw [hkc] at hchild
    exact hc' hchild

/-- The directory of a name, and the child with the name. -/
theorem Wide.isPath_live {live : Nat → Prop} {p : CStr} (h : Wide V kids R live)
    (hp : IsPath V p a) (hfull : (V a.1).child ≠ -1) : Live kids a.1 ∧ (V a.1).link = false := by
  obtain ⟨pre, -, hpre⟩ := hp
  obtain ⟨hlive, hlink⟩ := (h.leadsTo_iff.mp hpre).live_end h h.live_root h.tree.root.1
  refine ⟨?_, hlink⟩
  by_contra hn
  exact hfull (h.outside hlive hn).1

/-- `vfs_link` behind its lookups. -/
theorem HardLinked.vfsLink_eq {old new : CStr} (h : HardLinked s.vinodes kids R x)
    (hold : IsPath s.vinodes old a) (hk : childNamed s.vinodes kids a.1 a.2 = some k)
    (hr : RealOf s.vinodes k x) (hnew : IsPath s.vinodes new b)
    (hnone : childNamed s.vinodes kids b.1 b.2 = none) (hfull : (s.vinodes b.1).child ≠ -1)
    (holdlen : old.length < tmppathLength) (hnewlen : new.length < tmppathLength) :
    ∃ t : State, t.vinodes = s.vinodes ∧ vfsLink s old new = (do
      let (n, V) ← appendDir s.vinodes b.1 b.2 typeLink .vfs none
      let V ← linkPath V x n
      let V ← addLink V x n
      return (0, { t with vinodes := V })) := by
  obtain ⟨t₁, hres, hv₁⟩ := h.wide.resolve_found holdlen hold hk hr
  obtain ⟨s₁, hs₁, hl₁⟩ := bind_eq_ok.mp hres
  rw [← hv₁] at h hnew hnone hfull
  obtain ⟨pre, hsp, hpre⟩ := hnew
  have hw : Wide (State.vinodes { t₁ with tmppath := strcpy t₁.tmppath new }) kids R
      fun i => Live kids i ∨ Orbit (nextOf t₁.vinodes) x i := h.wide
  have hstr := strcpy_str t₁ hnewlen
  have hsticks : Sticks t₁.vinodes kids 0 (rel (trim new).bytes) b.1 b.2.bytes := by
    rw [trim_of_ne hsp.last]
    exact h.wide.sticks_path hsp hpre hnone
  have hl₂ := hw.lookupAuto_sticks hstr hnewlen hsticks (.inr hfull)
  have hv₂ := (stripSlash_frame { t₁ with tmppath := strcpy t₁.tmppath new }).1
  have hstr₂ : (stripSlash { t₁ with tmppath := strcpy t₁.tmppath new }).str 0 = new := by
    rw [(stripSlash_str hstr hnewlen).1, trim_of_ne hsp.last]
  have hw₂ : Wide (stripSlash { t₁ with tmppath := strcpy t₁.tmppath new }).vinodes kids R
      fun i => Live kids i ∨ Orbit (nextOf t₁.vinodes) x i := hv₂.symm ▸ hw
  obtain ⟨t, hl₃, hv₃, hname⟩ := hw₂.lookup_parent (d := b.1) hstr₂ hnewlen hsp (hv₂.symm ▸ hpre)
  have hvt : t.vinodes = s.vinodes := hv₃.trans (hv₂.trans hv₁)
  refine ⟨t, hvt, ?_⟩
  rw [vfsLink, hs₁, ok_bind, hl₁, ok_bind]
  dsimp only
  rw [if_neg (by simp), strcpyTmp_eq_ok.mpr ⟨hnewlen, rfl⟩, ok_bind, hl₂, ok_bind]
  dsimp only
  rw [if_neg (by simp), hsp.lastItemLen_eq, ok_bind, hsp.offset_eq, hl₃, ok_bind]
  dsimp only
  rw [hname, hvt]

/-- `vfs_unlink` behind its lookups, when the ring has another vinode. -/
theorem HardLinked.vfsUnlink_eq {p : CStr} {j : Nat} (h : HardLinked s.vinodes kids R x)
    (hp : IsPath s.vinodes p a) (hd : Live kids a.1) (hdl : (s.vinodes a.1).link = false)
    (hk : childNamed s.vinodes kids a.1 a.2 = some k) (hxk : Orbit (nextOf s.vinodes) x k)
    (hxj : Orbit (nextOf s.vinodes) x j) (hjk : j ≠ k) (hlen : p.length < tmppathLength) :
    ∃ (t : State) (x' : Nat), t.vinodes = s.vinodes ∧ Orbit (nextOf s.vinodes) x x' ∧ x' ≠ k ∧
    (x' = x ∨ k = x) ∧
      vfsUnlink s p = (do
        let V ← removeLink (promoted s.vinodes x x') k
        let V ← removeDir V k a.1
        return (0, { t with vinodes := V })) := by
  obtain ⟨pre, hsp, hpre⟩ := hp
  have hkd : k ∈ kids a.1 := List.mem_of_find?_eq_some hk
  have hcyc := h.rings.rings.cycles
  have hkR := hcyc.mem h.mem hxk
  have hw : Wide (State.vinodes { s with tmppath := strcpy s.tmppath p }) kids R
      fun i => Live kids i ∨ Orbit (nextOf s.vinodes) x i := h.wide
  obtain ⟨t, hl, hv, hname⟩ := hw.lookup_parent (d := a.1) (strcpy_str s hlen) hlen hsp hpre
  have hvt : t.vinodes = s.vinodes := hv
  obtain ⟨hn1, hn2⟩ := h.name_ne hd hkd hxk
  have hcall : vfsUnlink s p = (do
      if has (s.vinodes k).mode typeLink then
        let V ← removeLink s.vinodes k
        let V ← removeDir V k a.1
        return (0, { t with vinodes := V })
      else if (s.vinodes k).prevLink ≠ k then
        let V ← s.vinodes.modify (s.vinodes k).prevLink fun l => { l with
          mode := (s.vinodes k).mode, ridx := (s.vinodes k).ridx, fs := (s.vinodes k).fs
          fsType := (s.vinodes k).fsType }
        let V ← removeLink V k
        let V ← removeDir V k a.1
        return (0, { t with vinodes := V })
      else
        let r ← vfsRemove t p
        return (0, r.2)) := by
    rw [vfsUnlink, strcpyTmp_eq_ok.mpr ⟨hlen, rfl⟩, ok_bind, hsp.lastItemLen_eq, ok_bind]
    dsimp only
    rw [hsp.offset_eq, hl, ok_bind]
    dsimp only
    rw [hname, hvt, get_nat (h.tree.lt hd), ok_bind]
    rw [h.tree.findChild hd hdl, ok_bind]
    rw [show (kids a.1).find? (fun j => (s.vinodes j).name == a.2) = some k from hk, orNone_some,
      if_neg (by simp), get_nat (h.rings.lt hkR), ok_bind]
    rw [check_bind hn1, check_bind hn2]
  rw [hcall]
  cases hkl : (s.vinodes k).link with
  | true =>
    refine ⟨t, x, hvt, .refl x, ?_, .inl rfl, ?_⟩
    · rintro rfl
      rw [h.real] at hkl
      cases hkl
    · rw [if_pos (show has (s.vinodes k).mode typeLink = true from hkl), promoted_self]
  | false =>
    obtain rfl := h.eq_of_real hxk hkl
    have hprev : prevOf s.vinodes k ≠ k := fun he => hjk (orbit_of_fixed (by
      have := hcyc.next_prev hkR
      rwa [he] at this) hxj)
    have hring : Orbit (nextOf s.vinodes) k (prevOf s.vinodes k) := by
      have h1 := (Orbit.refl (f := nextOf s.vinodes) (prevOf s.vinodes k)).next
      rw [hcyc.next_prev hkR] at h1
      exact h.orbit_symm (hcyc.prev_mem hkR) h1
    refine ⟨t, prevOf s.vinodes k, hvt, hring, hprev, .inr rfl, ?_⟩
    rw [if_neg (by simpa [Vinode.link] using hkl), h.rings.prevLink_eq k,
      if_pos (by exact_mod_cast hprev)]
    rw [modify_eq_ok.mpr ⟨prevOf s.vinodes k, rfl, h.rings.lt (hcyc.prev_mem hkR), rfl⟩, ok_bind]
    rfl

end Calls

/-! ## Walks before and after -/

section Frame

variable {d n k x' : Nat} {name : CStr}

theorem LinkedAs.names_eq (hl : LinkedAs V W kids R x d n name) {i : Nat} (hi : i ≠ n) :
    (W i).name = (V i).name := Vinode.of_flat Vinode.name (fun _ => rfl) (hl.flat hi)

/-- The new link is the only child that is found anew. -/
theorem LinkedAs.find_eq (hl : LinkedAs V W kids R x d n name) (h : HardLinked V kids R x) {i : Nat}
    (hi : Live kids i) (test : CStr → Bool) :
    ((growKids kids d n i).find? fun j => test (W j).name) =
      ((kids i).find? fun j => test (V j).name).or
        (if i = d ∧ test name = true then some n else none) := by
  have hnl : ¬Live kids n := h.tree.not_live_of_free hl.free
  rw [← hl.name]
  exact find_growKids hnl hi fun hj => hl.names_eq (ne_of_live hj hnl)

/-- The walks to directories with children are as before. -/
theorem LinkedAs.walks_iff (hl : LinkedAs V W kids R x d n name) (h : HardLinked V kids R x)
    (hd : Live kids d) (hdk : kids d ≠ []) {path : List UInt8} {e : Nat} :
    (kids e ≠ [] ∧ Walks V kids 0 path e) ↔
      (growKids kids d n e ≠ [] ∧ Walks W (growKids kids d n) 0 path e) := by
  have hnl : ¬Live kids n := h.tree.not_live_of_free hl.free
  have hn := h.not_mem_of_free hl.free
  have hdn : d ≠ n := ne_of_live hd hnl
  have hlink : ∀ {i}, i ≠ n → (W i).link = (V i).link := fun hi => Vinode.link_of_flat (hl.flat hi)
  have hne : ∀ {i}, i ≠ n → (growKids kids d n i ≠ [] ↔ kids i ≠ []) := by
    intro i hi
    by_cases hid : i = d
    · rw [hid, growKids_parent]
      simp [hdk]
    · rw [growKids_other hid hi]
  constructor
  · rintro ⟨he, hw⟩
    have hen : e ≠ n := by
      rintro rfl
      rcases (hw.live_end h.wide (.inl .root) h.tree.root.1).1 with hlive | ho
      · exact hnl hlive
      · exact he (h.leaf ho).2
    refine ⟨(hne hen).mpr he,
      hw.transfer h.wide (fun {cur k r path} hcur hk hr hkr => ?_) (.inl .root) he⟩
    have hkR := h.live_mem (.kid hcur (childFor_mem hk))
    have hrn : r ≠ n := ne_of_mem_of_not_mem (h.rings.rings.cycles.mem hkR hr.1) hn
    refine ⟨?_, ?_, (hlink hrn).trans hr.2⟩
    · refine (hl.find_eq h hcur fun name => itemMatch name path (firstItemLen path)).trans ?_
      rw [show (kids cur).find? _ = some k from hk, Option.some_or]
    · rw [hl.orbit hkR, if_neg hrn]
      exact hr.1
  · rintro ⟨he, hw⟩
    have hnnil : growKids kids d n n = [] := growKids_self hdn
    have hen : e ≠ n := fun hen => he (hen ▸ hnnil)
    refine ⟨(hne hen).mp he, hw.transfer hl.state.wide (fun {cur k r path} hcur hk hr hkr => ?_)
      (.inl .root) he⟩
    have hcur' : Live kids cur := by
      refine ((live_grow hd hnl).mp hcur).resolve_right ?_
      rintro rfl
      have := childFor_mem hk
      rw [hnnil] at this
      cases this
    have hrn : r ≠ n := fun hrn => hkr (hrn ▸ hnnil)
    have hk' :=
      (hl.find_eq h hcur' fun name => itemMatch name path (firstItemLen path)).symm.trans hk
    rcases hold : childFor V kids cur path with _ | k'
    · -- the walk would have to go on behind the file
      rw [show (kids cur).find? _ = none from hold, Option.none_or] at hk'
      obtain rfl : n = k := by
        split at hk'
        · exact Option.some.inj hk'
        · cases hk'
      have hring : Orbit (nextOf W) x n := by
        rw [hl.orbit h.mem, if_pos rfl]
        exact .refl x
      obtain rfl := hl.state.eq_of_real (hring.trans hr.1) hr.2
      exact absurd (hl.state.leaf (.refl r)).2 hkr
    · rw [show (kids cur).find? _ = some k' from hold, Option.some_or] at hk'
      obtain rfl := Option.some.inj hk'
      have hkR := h.live_mem (.kid hcur' (childFor_mem hold))
      have ho := hr.1
      rw [hl.orbit hkR, if_neg hrn] at ho
      exact ⟨rfl, ho, (hlink hrn).symm.trans hr.2⟩

/-- The removed link is the only child that is found no more. -/
theorem UnlinkedAs.find_eq (hu : UnlinkedAs V W kids R x x' d k) (h : HardLinked V kids R x)
    (hd : Live kids d) (hk : k ∈ kids d) {i : Nat} (hi : Live kids i) {test : CStr → Bool}
    (ht : OneName test) :
    ((pruneKids kids d k i).find? fun j => test (W j).name) =
      if ((kids i).find? fun j => test (V j).name) = some k then none
      else (kids i).find? fun j => test (V j).name := by
  refine find_pruneKids h.tree hd hk hi ht (h.names hi) fun {j} hj => hu.name ?_
  rintro rfl
  by_cases hid : i = d
  · rw [hid, pruneKids_parent] at hj
    exact (h.tree.nodup hd).not_mem_erase hj
  · rw [pruneKids_other hid] at hj
    exact hid (h.tree.parent hi hd hj hk)

/-- The first child of a directory is not removed. -/
theorem HardLinked.prune_ne (h : HardLinked V kids R x) (hd : Live kids d) (hk : k ∈ kids d)
    (hxk : Orbit (nextOf V) x k) {e : Nat} (he : kids e ≠ []) : pruneKids kids d k e ≠ [] := by
  by_cases hed : e = d
  · rw [hed, pruneKids_parent]
    obtain ⟨c, l, hcl⟩ := List.exists_cons_of_ne_nil (List.ne_nil_of_mem hk)
    have hck : c ≠ k := by
      rintro rfl
      obtain ⟨-, -, hc, -⟩ := h.tree.dot hd hcl
      rw [(h.leaf hxk).1] at hc
      simp at hc
    rw [hcl, List.erase_cons_tail (by simpa using hck)]
    simp
  · rwa [pruneKids_other hed]

theorem UnlinkedAs.walks_iff (hu : UnlinkedAs V W kids R x x' d k) (h : HardLinked V kids R x)
    (hd : Live kids d) (hk : k ∈ kids d) (hxk : Orbit (nextOf V) x k) {path : List UInt8}
    {e : Nat} :
    (kids e ≠ [] ∧ Walks V kids 0 path e) ↔
      (pruneKids kids d k e ≠ [] ∧ Walks W (pruneKids kids d k) 0 path e) := by
  have hkk := (h.leaf hxk).2
  have hdk : k ≠ d := by
    rintro rfl
    rw [hkk] at hk
    cases hk
  have hlink : ∀ {r}, kids r ≠ [] → (W r).link = (V r).link := by
    intro r hr
    have hrk : r ≠ k := fun he => hr (he ▸ hkk)
    rw [Vinode.link, hu.used hrk fun ho => hr (h.leaf ho).2, Vinode.link]
  have hsub : ∀ {r}, pruneKids kids d k r ≠ [] → kids r ≠ [] := fun hr hnil =>
    hr (List.eq_nil_of_subset_nil (hnil ▸ pruneKids_subset _))
  constructor
  · rintro ⟨he, hw⟩
    refine ⟨?_, hw.transfer h.wide (fun {cur j r path} hcur hj hr hkr => ?_) (.inl .root) he⟩
    · exact h.prune_ne hd hk hxk he
    · have hjk : j ≠ k := by
        rintro rfl
        obtain rfl := h.eq_of_real (hxk.trans hr.1) hr.2
        exact hkr (h.leaf (.refl r)).2
      have hrk : r ≠ k := fun he => hkr (he ▸ hkk)
      refine ⟨?_, (hu.orbit (h.live_mem (.kid hcur (childFor_mem hj))) hjk).mpr ⟨hr.1, hrk⟩,
        (hlink hkr).trans hr.2⟩
      refine (hu.find_eq h hd hk hcur (oneName_itemMatch path (firstItemLen path))).trans ?_
      rw [show (kids cur).find? _ = some j from hj, if_neg (by simpa using hjk)]
  · rintro ⟨he, hw⟩
    refine ⟨hsub he,
      hw.transfer hu.state.wide (fun {cur j r path} hcur hj hr hkr => ?_) (.inl .root) he⟩
    have hcur' := ((h.live_prune hd hk hxk).mp hcur).1
    have hjk := ((h.live_prune hd hk hxk).mp (.kid hcur (childFor_mem hj))).2
    have hj' :=
      (hu.find_eq h hd hk hcur' (oneName_itemMatch path (firstItemLen path))).symm.trans hj
    split at hj'
    · cases hj'
    · have hjR := h.live_mem (.kid hcur' (List.mem_of_find?_eq_some hj'))
      refine ⟨hj', ((hu.orbit hjR hjk).mp hr.1).1, ?_⟩
      rw [← hlink (hsub hkr)]
      exact hr.2

end Frame

/-! ## Whole runs -/

/-- The names that lead to the file. -/
def fileNames (V : Vinodes) (x : Nat) : Set Name :=
  {a | ∃ (p : CStr) (k : Nat), IsPath V p a ∧ entry V a = .ok k ∧ Orbit (nextOf V) x k}

/-- No child of the populated directory has the name. -/
def Unused (V : Vinodes) (a : Name) : Prop := (V a.1).child ≠ -1 ∧ entry V a = .ok (-1)

/-- A run of links to the file and of unlinks from `s₀` on: the state, the names that the
file has and those that it lost. -/
inductive LinkRun (s₀ : State) (x : Nat) : State → Set Name → Set Name → Prop
  | start : LinkRun s₀ x s₀ (fileNames s₀.vinodes x) ∅
  | link {s s' : State} {N U : Set Name} {a b : Name} {old new : CStr} : LinkRun s₀ x s N U →
      a ∈ N → IsPath s.vinodes old a → IsPath s.vinodes new b → Unused s.vinodes b →
      vfsLink s old new = .ok (0, s') → LinkRun s₀ x s' (insert b N) (U \ {b})
  | unlink {s s' : State} {N U : Set Name} {a b : Name} {p : CStr} {r : Nat} : LinkRun s₀ x s N U →
      a ∈ N → b ∈ N → b ≠ a → IsPath s.vinodes p a → vfsUnlink s p = .ok (r, s') →
      LinkRun s₀ x s' (N \ {a}) (insert a U)

section Runs

variable {s₀ s s' : State} {N U : Set Name} {kids₀ : Nat → List Nat} {a b : Name} {x' : Nat}

/-- What the run keeps: the file is `x'` now, and all else is as in `s₀`. -/
structure Running (s₀ : State) (kids₀ : Nat → List Nat) (x : Nat) (s : State) (N U : Set Name)
    (kids : Nat → List Nat) (R : Set Nat) (x' : Nat) : Prop where
  state : HardLinked s.vinodes kids R x'
  mode : (s.vinodes x').mode = (s₀.vinodes x).mode
  ridx : (s.vinodes x').ridx = (s₀.vinodes x).ridx
  fs : (s.vinodes x').fs = (s₀.vinodes x).fs
  fsType : (s.vinodes x').fsType = (s₀.vinodes x).fsType
  named : ∀ {a}, a ∈ N → Live kids a.1 ∧ (s.vinodes a.1).link = false ∧
    ∃ k, childNamed s.vinodes kids a.1 a.2 = some k ∧ Orbit (nextOf s.vinodes) x' k
  unnamed : ∀ {a}, a ∈ U → Live kids a.1 ∧ (s.vinodes a.1).link = false ∧ kids a.1 ≠ [] ∧
    childNamed s.vinodes kids a.1 a.2 = none
  walks : ∀ {path e}, (kids₀ e ≠ [] ∧ Walks s₀.vinodes kids₀ 0 path e) ↔
    (kids e ≠ [] ∧ Walks s.vinodes kids 0 path e)
  others : ∀ {j}, (s₀.vinodes j).mode ≠ 0 → ¬Orbit (nextOf s₀.vinodes) x j →
    ¬Orbit (nextOf s.vinodes) x' j ∧ (s.vinodes j).mode = (s₀.vinodes j).mode ∧
      (s.vinodes j).nextLink = (s₀.vinodes j).nextLink ∧
      (s.vinodes j).prevLink = (s₀.vinodes j).prevLink

/-- A directory with a child has one at `child`. -/
theorem Tree.child_ne {d : Nat} (h : Tree V kids) (hd : Live kids d) (hl : (V d).link = false)
    (hk : kids d ≠ []) : (V d).child ≠ -1 := by
  obtain ⟨c, l, hcl⟩ := List.exists_cons_of_ne_nil hk
  rw [h.child hd hl, hcl]
  simp

theorem Tree.kids_ne {d : Nat} (h : Tree V kids) (hd : Live kids d) (hl : (V d).link = false)
    (hc : (V d).child ≠ -1) : kids d ≠ [] := by
  intro hnil
  rw [h.child hd hl, hnil] at hc
  exact hc rfl

theorem LinkRun.start_running (h : HardLinked s₀.vinodes kids₀ R x) :
    Running s₀ kids₀ x s₀ (fileNames s₀.vinodes x) ∅ kids₀ R x where
  state := h
  mode := rfl
  ridx := rfl
  fs := rfl
  fsType := rfl
  named {a} ha := by
    obtain ⟨p, k, ⟨pre, -, hpre⟩, hk, hxk⟩ := ha
    obtain ⟨hlive, hlink⟩ :=
      (h.wide.leadsTo_iff.mp hpre).live_end h.wide h.wide.live_root h.tree.root.1
    rw [h.wide.entry_eq hlive hlink] at hk
    rcases hc : childNamed s₀.vinodes kids₀ a.1 a.2 with _ | k'
    · rw [hc] at hk
      simp at hk
    · rw [hc] at hk
      obtain rfl : k' = k := by simpa using hk
      exact ⟨(h.wide.kid hlive (List.mem_of_find?_eq_some hc)).1, hlink, k', rfl, hxk⟩
  unnamed ha := ha.elim
  walks := Iff.rfl
  others _ hj := ⟨hj, rfl, rfl, rfl⟩

/-- The children of two names differ. -/
theorem HardLinked.name_eq (h : HardLinked V kids R x) (ha : Live kids a.1) (hb : Live kids b.1)
    {k : Nat} (hka : childNamed V kids a.1 a.2 = some k)
    (hkb : childNamed V kids b.1 b.2 = some k) :
    a = b := by
  have hname : ∀ {c : Name}, childNamed V kids c.1 c.2 = some k → (V k).name = c.2 := fun hc => by
    simpa using List.find?_some hc
  refine Prod.ext ?_ ((hname hka).symm.trans (hname hkb))
  exact h.tree.parent ha hb (List.mem_of_find?_eq_some hka) (List.mem_of_find?_eq_some hkb)

theorem Running.link {old new : CStr} (h : Running s₀ kids₀ x s N U kids R x') (ha : a ∈ N)
    (hold : IsPath s.vinodes old a) (hnew : IsPath s.vinodes new b) (hb : Unused s.vinodes b)
    (hcall : vfsLink s old new = .ok (0, s')) :
    ∃ kids' R', Running s₀ kids₀ x s' (insert b N) (U \ {b}) kids' R' x' := by
  have hw := h.state.wide
  obtain ⟨hbd, hbl⟩ := hw.isPath_live hnew hb.1
  have hnone : childNamed s.vinodes kids b.1 b.2 = none := by
    have := hb.2
    rw [hw.entry_eq (.inl hbd) hbl] at this
    rcases hc : childNamed s.vinodes kids b.1 b.2 with _ | k
    · rfl
    · rw [hc] at this
      simp at this
  obtain ⟨had, hal, k, hk, hxk⟩ := h.named ha
  have hreal : RealOf s.vinodes k x' := ⟨h.state.orbit_symm h.state.mem hxk, h.state.real⟩
  obtain ⟨holdlen, hnewlen⟩ : old.length < tmppathLength ∧ new.length < tmppathLength := by
    simp only [vfsLink] at hcall
    obtain ⟨s₁, h₁, hcall⟩ := bind_eq_ok.mp hcall
    obtain ⟨⟨i, s₂⟩, -, hcall⟩ := bind_eq_ok.mp hcall
    split at hcall
    · cases hcall
    · obtain ⟨s₃, h₃, -⟩ := bind_eq_ok.mp hcall
      exact ⟨(strcpyTmp_eq_ok.mp h₁).1, (strcpyTmp_eq_ok.mp h₃).1⟩
  obtain ⟨t, hvt, heq⟩ := h.state.vfsLink_eq hold hk hreal hnew hnone hb.1 holdlen hnewlen
  rw [heq] at hcall
  obtain ⟨⟨m, V₁⟩, h₁, hcall⟩ := bind_eq_ok.mp hcall
  obtain ⟨V₂, h₂, hcall⟩ := bind_eq_ok.mp hcall
  obtain ⟨V₃, h₃, hcall⟩ := bind_eq_ok.mp hcall
  cases hcall
  obtain ⟨n, hl⟩ := h.state.link hbd hbl hnone h₁ h₂ h₃
  have hnl : ¬Live kids n := h.state.tree.not_live_of_free hl.free
  have hn := h.state.not_mem_of_free hl.free
  have hbk : kids b.1 ≠ [] := h.state.tree.kids_ne hbd hbl hb.1
  have hxn : x' ≠ n := ne_of_mem_of_not_mem h.state.mem hn
  have hlink : ∀ {i}, i ≠ n → (V₃ i).link = (s.vinodes i).link :=
    fun hi => Vinode.link_of_flat (hl.flat hi)
  have hfind : ∀ {c : Name}, Live kids c.1 → childNamed V₃ (growKids kids b.1 n) c.1 c.2 =
      (childNamed s.vinodes kids c.1 c.2).or
        (if c.1 = b.1 ∧ (b.2 == c.2) = true then some n else none) :=
    fun {c} hc => hl.find_eq h.state hc fun t => t == c.2
  refine ⟨growKids kids b.1 n, insert n R, hl.state, ?_, ?_, ?_, ?_, ?_, ?_, ?_, ?_⟩
  · exact (Vinode.of_flat Vinode.mode (fun _ => rfl) (hl.flat hxn)).trans h.mode
  · exact (Vinode.of_flat Vinode.ridx (fun _ => rfl) (hl.flat hxn)).trans h.ridx
  · exact (Vinode.of_flat Vinode.fs (fun _ => rfl) (hl.flat hxn)).trans h.fs
  · exact (Vinode.of_flat Vinode.fsType (fun _ => rfl) (hl.flat hxn)).trans h.fsType
  · rintro c (rfl | hc)
    · refine ⟨hbd.grow hnl, (hlink (ne_of_live hbd hnl)).trans hbl, n, ?_, ?_⟩
      · rw [hfind hbd, hnone, Option.none_or, if_pos ⟨rfl, beq_self_eq_true _⟩]
      · rw [hl.orbit h.state.mem, if_pos rfl]
        exact .refl x'
    · obtain ⟨hcd, hcl, kc, hkc, hxc⟩ := h.named hc
      have hkn : kc ≠ n := ne_of_live (.kid hcd (List.mem_of_find?_eq_some hkc)) hnl
      refine ⟨hcd.grow hnl, (hlink (ne_of_live hcd hnl)).trans hcl, kc, ?_, ?_⟩
      · rw [hfind hcd, hkc, Option.some_or]
      · rw [hl.orbit h.state.mem, if_neg hkn]
        exact hxc
  · rintro c ⟨hc, hcb⟩
    obtain ⟨hcd, hcl, hck, hnone'⟩ := h.unnamed hc
    refine ⟨hcd.grow hnl, (hlink (ne_of_live hcd hnl)).trans hcl, ?_, ?_⟩
    · exact fun hnil => hck (List.eq_nil_of_subset_nil (hnil ▸ subset_growKids hnl hcd))
    · rw [hfind hcd, hnone', Option.none_or, if_neg]
      rintro ⟨h1, h2⟩
      exact hcb (Prod.ext h1 (beq_iff_eq.mp h2).symm)
  · exact h.walks.trans (hl.walks_iff h.state hbd hbk)
  · intro j hj hxj
    obtain ⟨h1, h2, h3, h4⟩ := h.others hj hxj
    have hjn : j ≠ n := by
      rintro rfl
      rw [hl.free] at h2
      exact hj h2.symm
    refine ⟨?_, (Vinode.of_flat Vinode.mode (fun _ => rfl) (hl.flat hjn)).trans h2,
      (hl.links hjn h1).1.trans h3, (hl.links hjn h1).2.trans h4⟩
    rw [hl.orbit h.state.mem, if_neg hjn]
    exact h1

theorem Running.unlink {p : CStr} {r : Nat} (h : Running s₀ kids₀ x s N U kids R x') (ha : a ∈ N)
    (hb : b ∈ N) (hba : b ≠ a) (hp : IsPath s.vinodes p a) (hcall : vfsUnlink s p = .ok (r, s')) :
    ∃ kids' R' x'', Running s₀ kids₀ x s' (N \ {a}) (insert a U) kids' R' x'' := by
  obtain ⟨had, hal, k, hk, hxk⟩ := h.named ha
  obtain ⟨hbd, -, kb, hkb, hxb⟩ := h.named hb
  have hkbk : kb ≠ k := by
    rintro rfl
    exact hba (h.state.name_eq hbd had hkb hk)
  have hlen : p.length < tmppathLength := by
    obtain ⟨s₁, h₁, -⟩ := bind_eq_ok.mp hcall
    exact (strcpyTmp_eq_ok.mp h₁).1
  obtain ⟨t, x'', hvt, hring, hne, hcase, heq⟩ :=
    h.state.vfsUnlink_eq hp had hal hk hxk hxb hkbk hlen
  rw [heq] at hcall
  obtain ⟨V₁, h₁, hcall⟩ := bind_eq_ok.mp hcall
  obtain ⟨V₂, h₂, hcall⟩ := bind_eq_ok.mp hcall
  cases hcall
  have hkd : k ∈ kids a.1 := List.mem_of_find?_eq_some hk
  have hu := h.state.unlink had hal hkd hxk hring hne hcase h₁ h₂
  have hxR := h.state.rings.rings.cycles.mem h.state.mem hring
  have hkk := (h.state.leaf hxk).2
  have hlink : ∀ {i}, kids i ≠ [] → (V₂ i).link = (s.vinodes i).link := by
    intro i hi
    have hik : i ≠ k := fun he => hi (he ▸ hkk)
    rw [Vinode.link, hu.used hik fun ho => hi (h.state.leaf ho).2, Vinode.link]
  have hlive : ∀ {i}, Live kids i → kids i ≠ [] → Live (pruneKids kids a.1 k) i := fun hi hik =>
    (h.state.live_prune had hkd hxk).mpr ⟨hi, fun he => hik (he ▸ hkk)⟩
  have hfind : ∀ {c : Name}, Live kids c.1 → childNamed V₂ (pruneKids kids a.1 k) c.1 c.2 =
      if childNamed s.vinodes kids c.1 c.2 = some k then none
      else childNamed s.vinodes kids c.1 c.2 :=
    fun hc => hu.find_eq h.state had hkd hc (oneName_beq _)
  refine ⟨pruneKids kids a.1 k, R \ {k}, x'', hu.state, ?_, ?_, ?_, ?_, ?_, ?_, ?_, ?_⟩
  · exact hu.mode.trans h.mode
  · exact hu.ridx.trans h.ridx
  · exact hu.fs.trans h.fs
  · exact hu.fsType.trans h.fsType
  · rintro c ⟨hc, hca⟩
    obtain ⟨hcd, hcl, kc, hkc, hxc⟩ := h.named hc
    have hck : kids c.1 ≠ [] := List.ne_nil_of_mem (List.mem_of_find?_eq_some hkc)
    have hkck : kc ≠ k := by
      rintro rfl
      exact hca (h.state.name_eq hcd had hkc hk)
    refine ⟨hlive hcd hck, (hlink hck).trans hcl, kc, ?_, ?_⟩
    · rw [hfind hcd, hkc, if_neg (by simpa using hkck)]
    · exact (hu.orbit hxR hne).mpr ⟨(h.state.orbit_symm h.state.mem hring).trans hxc, hkck⟩
  · rintro c (rfl | hc)
    · have hck : kids c.1 ≠ [] := List.ne_nil_of_mem hkd
      refine ⟨hlive had hck, (hlink hck).trans hal, h.state.prune_ne had hkd hxk hck, ?_⟩
      rw [hfind had, if_pos hk]
    · obtain ⟨hcd, hcl, hck, hnone⟩ := h.unnamed hc
      refine ⟨hlive hcd hck, (hlink hck).trans hcl, h.state.prune_ne had hkd hxk hck, ?_⟩
      rw [hfind hcd, hnone, if_neg (by simp)]
  · exact h.walks.trans (hu.walks_iff h.state had hkd hxk)
  · intro j hj hxj
    obtain ⟨h1, h2, h3, h4⟩ := h.others hj hxj
    have hjk : j ≠ k := fun he => h1 (he ▸ hxk)
    refine ⟨fun ho => h1 (hring.trans ((hu.orbit hxR hne).mp ho).1), (hu.used hjk h1).trans h2,
      (hu.links hjk h1).1.trans h3, (hu.links hjk h1).2.trans h4⟩

theorem LinkRun.running (h₀ : HardLinked s₀.vinodes kids₀ R x) (h : LinkRun s₀ x s N U) :
    ∃ kids R x', Running s₀ kids₀ x s N U kids R x' := by
  induction h with
  | start => exact ⟨kids₀, R, x, LinkRun.start_running h₀⟩
  | link _ ha hold hnew hb hcall ih =>
    obtain ⟨kids, R, x', hr⟩ := ih
    obtain ⟨kids', R', hr'⟩ := hr.link ha hold hnew hb hcall
    exact ⟨kids', R', x', hr'⟩
  | unlink _ ha hb hba hp hcall ih =>
    obtain ⟨kids, R, x', hr⟩ := ih
    exact hr.unlink ha hb hba hp hcall

end Runs

/-- After any links and unlinks, all names that the file has lead to one vinode, which
carries what makes up the file; the names that it lost lead nowhere; the rings of all
other vinodes are unchanged. The paths of the names stay as they are, and while another
name is left every one of them can be removed. -/
theorem link_run_names (s₀ s : State) (kids : Nat → List Nat) (R : Set Nat) (x : Nat)
    (N U : Set Name) (h : HardLinked s₀.vinodes kids R x) (hrun : LinkRun s₀ x s N U) :
    (∃ x' : Nat,
      ((s.vinodes x').mode = (s₀.vinodes x).mode ∧ (s.vinodes x').ridx = (s₀.vinodes x).ridx ∧
        (s.vinodes x').fs = (s₀.vinodes x).fs ∧ (s.vinodes x').fsType = (s₀.vinodes x).fsType) ∧
      ∀ a ∈ N, ∀ p, IsPath s.vinodes p a → p.length < tmppathLength →
        ∃ t, resolve s p = .ok (x', t)) ∧
    (∀ a ∈ U, ∀ p, IsPath s.vinodes p a → p.length < tmppathLength →
      ∃ t, resolve s p = .ok (-1, t)) ∧
    (∀ j, (s₀.vinodes j).mode ≠ 0 → ¬Orbit (nextOf s₀.vinodes) x j →
      (s.vinodes j).nextLink = (s₀.vinodes j).nextLink ∧
        (s.vinodes j).prevLink = (s₀.vinodes j).prevLink) ∧
    (∀ a p, (s₀.vinodes a.1).child ≠ -1 → IsPath s₀.vinodes p a → IsPath s.vinodes p a) ∧
    ∀ a ∈ N, ∀ b ∈ N, b ≠ a → ∀ p, IsPath s.vinodes p a → p.length < tmppathLength →
      ∃ s', vfsUnlink s p = .ok (0, s') := by
  obtain ⟨kids', R', x', hr⟩ := hrun.running h
  have hw := hr.state.wide
  refine ⟨⟨x', ⟨hr.mode, hr.ridx, hr.fs, hr.fsType⟩, fun a ha p hp hlen => ?_⟩,
    fun a ha p hp hlen => ?_,
    fun j hj hxj => (hr.others hj hxj).2.2, fun a p hfull hp => ?_,
    fun a ha b hb hba p hp hlen => ?_⟩
  · obtain ⟨-, -, k, hk, hxk⟩ := hr.named ha
    obtain ⟨t, ht, -⟩ := hw.resolve_found hlen hp hk
      ⟨hr.state.orbit_symm hr.state.mem hxk, hr.state.real⟩
    exact ⟨t, ht⟩
  · obtain ⟨had, hal, hak, hnone⟩ := hr.unnamed ha
    obtain ⟨t, ht, -⟩ := hw.resolve_missing hlen hp hnone (hr.state.tree.child_ne had hal hak)
    exact ⟨t, ht⟩
  · obtain ⟨had, hal⟩ := h.wide.isPath_live hp hfull
    obtain ⟨pre, hs, hpre⟩ := hp
    have hak := h.tree.kids_ne had hal hfull
    exact ⟨pre, hs, hw.leadsTo_iff.mpr (hr.walks.mp ⟨hak, h.wide.leadsTo_iff.mp hpre⟩).2⟩
  · obtain ⟨had, hal, k, hk, hxk⟩ := hr.named ha
    obtain ⟨hbd, -, kb, hkb, hxb⟩ := hr.named hb
    have hkbk : kb ≠ k := by
      rintro rfl
      exact hba (hr.state.name_eq hbd had hkb hk)
    obtain ⟨t, x'', -, hring, hne, -, heq⟩ := hr.state.vfsUnlink_eq hp had hal hk hxk hxb hkbk hlen
    obtain ⟨V₁, W, h₁, h₂⟩ :=
      hr.state.unlink_total had hal (List.mem_of_find?_eq_some hk) hxk hring hne
    rw [heq, h₁, ok_bind, h₂, ok_bind]
    exact ⟨_, rfl⟩

/-! ## A root directory with one file -/

/-- The vinodes of `"/"`, `"/."`, `"/.."` and the file `"/f"`. -/
def oneFile : Vinodes
  | 0 => { Vinode.zero with
      path := .lit "/", name := .lit "/", dot := 1, ddot := 2, next := -1, child := 1
      mode := typeDir, prevLink := 2, nextLink := 1 }
  | 1 => { Vinode.zero with
      path := .lit "/", name := .lit ".", dot := -1, ddot := 2, next := 2, child := 0
      mode := typeLink, prevLink := 0, nextLink := 2 }
  | 2 => { Vinode.zero with
      path := .lit "/", name := .lit "..", dot := 1, ddot := -1, next := 3, child := 0
      mode := typeLink, prevLink := 1, nextLink := 0 }
  | 3 => { Vinode.zero with
      path := .lit "/f", name := .lit "f", dot := 1, ddot := 2, next := -1, child := -1
      mode := typeFile, prevLink := 3, nextLink := 3 }
  | _ => Vinode.zero

def oneFileKids (i : Nat) : List Nat := if i = 0 then [1, 2, 3] else []

theorem oneFile_live {i : Nat} : Live oneFileKids i ↔ i ≤ 3 := by
  constructor
  · intro h
    induction h with
    | root => omega
    | @kid i j hi hj ih =>
      unfold oneFileKids at hj
      split_ifs at hj
      · fin_cases hj <;> omega
      · cases hj
  · intro h
    have hroot : ∀ j ∈ [1, 2, 3], Live oneFileKids j := fun j hj => .kid .root hj
    rcases Nat.eq_zero_or_pos i with rfl | hpos
    · exact .root
    · exact hroot i (by simp; omega)

theorem oneFile_tree : Tree oneFile oneFileKids where
  lt h := by
    have := oneFile_live.mp h
    unfold maxVinode
    omega
  used {i} h := by
    have := oneFile_live.mp h
    interval_cases i <;> decide
  root := by decide
  leaf {i} h hl := by
    have := oneFile_live.mp h
    interval_cases i <;> first | rfl | exact absurd hl (by decide)
  child {i} h hl := by
    have := oneFile_live.mp h
    interval_cases i <;> first | rfl | exact absurd hl (by decide)
  chain {i} h := by
    have := oneFile_live.mp h
    interval_cases i <;> simp [oneFileKids, Chained, headOf, oneFile]
  parent h h' hj hj' := by
    unfold oneFileKids at hj hj'
    split_ifs at hj hj' <;> simp_all
  nodup h := by
    unfold oneFileKids
    split_ifs <;> simp
  notRoot h := by
    unfold oneFileKids
    split_ifs <;> simp
  dot h hk := by
    unfold oneFileKids at hk
    split_ifs at hk with h0
    cases hk
    subst h0
    decide
  ddot h hk := by
    unfold oneFileKids at hk
    split_ifs at hk with h0
    cases hk
    decide
  up h hj hl hc := by
    unfold oneFileKids at hj
    split_ifs at hj with h0
    · subst h0
      exact ⟨0, by fin_cases hj <;> first | rfl | exact absurd hl (by decide), .refl .root⟩
    · cases hj
  named h hj hl hc := by
    unfold oneFileKids at hj
    split_ifs at hj with h0
    · fin_cases hj <;> first | decide | exact absurd hl (by decide)
    · cases hj
  sib h hk hj hc := by
    unfold oneFileKids at hk
    split_ifs at hk with h0
    cases hk
    fin_cases hj
    · exact absurd hc (by decide)
    · exact ⟨by decide, 2, by decide⟩

theorem oneFile_next {i : Nat} (h : i ≤ 3) :
    nextOf oneFile i = (if i < 2 then i + 1 else if i = 2 then 0 else 3) ∧
      prevOf oneFile i = if i = 0 then 2 else if i = 3 then 3 else i - 1 := by
  interval_cases i <;> decide

theorem oneFile_orbit {i j : Nat} (hi : i ≤ 2) (h : Orbit (nextOf oneFile) i j) : j ≤ 2 := by
  induction h with
  | refl => exact hi
  | tail _ hstep ih =>
    have := (oneFile_next (show _ ≤ 3 by omega)).1.symm.trans hstep
    split_ifs at this <;> omega

theorem oneFile_orbit_file {j : Nat} (h : Orbit (nextOf oneFile) 3 j) : j = 3 := by
  induction h with
  | refl => rfl
  | tail _ hstep ih =>
    subst ih
    exact hstep.symm

theorem oneFile_hardLinked : HardLinked oneFile oneFileKids {i | i ≤ 3} 3 where
  tree := oneFile_tree
  real := by decide
  leaf h := by
    rw [oneFile_orbit_file h]
    decide
  names {i} h := by
    have := oneFile_live.mp h
    interval_cases i <;> decide
  rings := {
    lt := fun {i} h => by
      have : i ≤ 3 := h
      unfold maxVinode
      omega
    used := fun {i} h => oneFile_tree.used (oneFile_live.mpr h)
    links := fun i => by
      rcases i with _ | _ | _ | _ | i <;> simp [oneFile, Vinode.zero]
    rings := {
      finite := Set.finite_le_nat 3
      mem := fun {i} h => by
        rcases h with h | h
        · exact oneFile_live.mp h
        · exact (oneFile_orbit_file h).le
      cycles := {
        next_mem := fun {i} h => by
          show nextOf oneFile i ≤ 3
          rw [(oneFile_next h).1]
          split_ifs <;> omega
        prev_mem := fun {i} h => by
          have : i ≤ 3 := h
          show prevOf oneFile i ≤ 3
          rw [(oneFile_next h).2]
          split_ifs <;> omega
        prev_next := fun {i} h => by
          have : i ≤ 3 := h
          interval_cases i <;> decide
        next_prev := fun {i} h => by
          have : i ≤ 3 := h
          interval_cases i <;> decide }
      one := fun {i} h => by
        have hi : i ≤ 3 := h.elim oneFile_live.mp fun h => (oneFile_orbit_file h).le
        rcases Nat.lt_or_ge i 3 with hlt | hge
        · refine ⟨0, .inl .root, by decide, ?_, fun j hj hreal => ?_⟩
          · interval_cases i
            · exact .refl 0
            · exact (Orbit.refl (f := nextOf oneFile) 1).next.next
            · exact (Orbit.refl (f := nextOf oneFile) 2).next
          · have hj := oneFile_orbit (by omega) hj
            interval_cases j
            · rfl
            · exact absurd hreal (by decide)
            · exact absurd hreal (by decide)
        · obtain rfl : i = 3 := by omega
          exact ⟨3, .inr (.refl 3), by decide, .refl 3, fun j hj _ => oneFile_orbit_file hj⟩ } }

/-- The file system with these vinodes. -/
def oneFileState : State where
  vinodes := oneFile
  disks _ := Ext2.blank ⟨0, fun _ => 0⟩
  totalProc := 4
  tmppath _ := 0
  before := 0

theorem isPath_below_root (V : Vinodes) {p name : CStr} (h : Splits p (.lit "") name) :
    IsPath V p (0, name) :=
  ⟨.lit "", h, 1, rfl⟩

theorem splits_f : Splits (.lit "/f") (.lit "") (.lit "f") where
  eq := by decide
  name_ne := by decide
  name_slash := by decide
  pre_last := by decide

theorem splits_g : Splits (.lit "/g") (.lit "") (.lit "g") where
  eq := by decide
  name_ne := by decide
  name_slash := by decide
  pre_last := by decide

/-- The file gets the name `"g"` and loses the name `"f"`. -/
theorem link_run_names_moved : ∃ s₁ s₂ t t' : State, ∃ x' : Nat,
    vfsLink oneFileState (.lit "/f") (.lit "/g") = .ok (0, s₁) ∧
    vfsUnlink s₁ (.lit "/f") = .ok (0, s₂) ∧
    (s₂.vinodes x').mode = typeFile ∧
    resolve s₂ (.lit "/g") = .ok ((x' : Int), t) ∧ resolve s₂ (.lit "/f") = .ok (-1, t') := by
  obtain ⟨_, hr, -⟩ := exists_of_test
    (x := do
      let y ← vfsLink oneFileState (.lit "/f") (.lit "/g")
      check (y.1 = 0)
      let z ← vfsUnlink y.2 (.lit "/f")
      check (z.1 = 0)
      return (y.2, z.2))
    (f := fun _ => true) (by decide +kernel)
  simp only [bind_eq_ok, check_eq_ok] at hr
  obtain ⟨⟨r, s₁⟩, h₁, _, hr, ⟨r', s₂⟩, h₂, _, hr', -⟩ := hr
  cases hr
  cases hr'
  have hf : ((0, .lit "f") : Name) ∈ fileNames oneFileState.vinodes 3 :=
    ⟨.lit "/f", 3, isPath_below_root _ splits_f, by decide +kernel, .refl 3⟩
  have hrun : LinkRun oneFileState 3 s₂ _ _ :=
    .unlink (b := (0, .lit "g"))
      (.link .start hf (isPath_below_root _ splits_f) (isPath_below_root _ splits_g)
        ⟨by decide, by decide +kernel⟩ h₁)
      (.inr hf) (.inl rfl) (by decide) (isPath_below_root _ splits_f) h₂
  obtain ⟨⟨x', ⟨hmode, -⟩, hnames⟩, hlost, -⟩ :=
    link_run_names oneFileState s₂ oneFileKids _ 3 _ _ oneFile_hardLinked hrun
  obtain ⟨t, ht⟩ :=
    hnames (0, .lit "g") ⟨.inl rfl, by decide⟩ _ (isPath_below_root _ splits_g) (by decide)
  obtain ⟨t', ht'⟩ := hlost (0, .lit "f") (.inl rfl) _ (isPath_below_root _ splits_f) (by decide)
  exact ⟨s₁, s₂, t, t', x', h₁, h₂, hmode, ht, ht'⟩

end OsWorkbench.Vfs
