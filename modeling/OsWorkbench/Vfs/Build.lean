import OsWorkbench.Vfs.Rings

/-!
# Building vinodes

What `append_dir`, `append_file` and `prepare_dir` do to the tree and the rings, and
that the initial tree has the invariant.
-/

namespace OsWorkbench.Vfs

open Ext2 (has wrAble rdAble typeFile typeDir)
open Lib

variable {V W : Vinodes} {kids : Nat → List Nat} {R : Set Nat}

/-! ## Appending -/

section Append

variable {p n : Nat} {m : Int}

theorem charArray_eq_ok {size : Nat} {t t' : CStr} :
    charArray size t = .ok t' ↔ t.length < size ∧ t' = t := by
  simp only [charArray, bind_eq_ok, inBounds_eq_ok, pure_eq_ok, Except.ok.injEq]
  constructor
  · rintro ⟨_, h, he⟩
    exact ⟨h, he.symm⟩
  · rintro ⟨h, he⟩
    exact ⟨(), h, he.symm⟩

/-- Past `"."` the loop only looks for the end. -/
theorem lastChild_tail {l : List Nat} {a : Nat} {fuel : Nat} {d dd k dot ddot : Int}
    (hc : Chained (fun i => (V i).next) (a :: l)) (hname : ∀ i ∈ a :: l, (V i).name ≠ .lit ".")
    (h : lastChild V fuel a d dd = .ok (k, dot, ddot)) :
    k = (a :: l).getLast (by simp) ∧ dot = d ∧ ddot = dd := by
  induction l generalizing a fuel with
  | nil =>
    cases fuel with
    | zero => cases h
    | succ fuel =>
      simp only [lastChild] at h
      obtain ⟨v, hv, h⟩ := bind_eq_ok.mp h
      obtain rfl := get_nat_eq hv
      have hnext : (V a).next = -1 := hc.1
      rw [if_pos hnext] at h
      cases h
      exact ⟨rfl, rfl, rfl⟩
  | cons b l ih =>
    cases fuel with
    | zero => cases h
    | succ fuel =>
      simp only [lastChild] at h
      obtain ⟨v, hv, h⟩ := bind_eq_ok.mp h
      obtain rfl := get_nat_eq hv
      have hnext : (V a).next = b := hc.1
      rw [if_neg (by rw [hnext]; simp), if_neg (hname a (by simp)), hnext] at h
      exact ih hc.2 (fun i hi => hname i (by simp [hi])) h

/-- The loop leaves the last child and, unless there is only one, the first two. -/
theorem lastChild_kids (ht : Tree V kids) (hp : Live kids p) {fuel : Nat} {k dot ddot : Int}
    (hk : kids p ≠ []) (h : lastChild V fuel (headOf (kids p)) (-1) (-1) = .ok (k, dot, ddot))
    (hdot : dot ≠ -1) :
    ∃ (a b q : Nat) (l l' : List Nat),
      kids p = a :: b :: l ∧ kids p = l' ++ [q] ∧ k = q ∧ dot = a ∧ ddot = b := by
  obtain ⟨a, l, hal⟩ := List.exists_cons_of_ne_nil hk
  obtain ⟨-, hname, -, hrest⟩ := ht.dot hp hal
  have hc := ht.chain hp
  rw [hal] at h hc
  cases fuel with
  | zero => cases h
  | succ fuel =>
    simp only [lastChild, headOf_cons] at h
    obtain ⟨v, hv, h⟩ := bind_eq_ok.mp h
    obtain rfl := get_nat_eq hv
    have hnext : (V a).next = headOf l := hc.1
    cases l with
    | nil =>
      have hnext' : (V a).next = -1 := hnext
      rw [if_pos hnext'] at h
      cases h
      exact absurd rfl hdot
    | cons b l =>
      have hnext' : (V a).next = b := hnext
      rw [if_neg (by rw [hnext']; simp), if_pos hname, hnext'] at h
      obtain ⟨hlast, rfl, rfl⟩ := lastChild_tail hc.2 hrest h
      refine ⟨a, b, (b :: l).getLast (by simp), l, a :: (b :: l).dropLast, hal, ?_, hlast, rfl, rfl⟩
      rw [hal, List.cons_append, List.dropLast_append_getLast]

theorem link_of_mode {w : Vinode} (h : w.mode = typeLink) : w.link = true := by
  rw [Vinode.link, h]
  rfl

theorem used_of_mode {w : Vinode} (h : w.mode = typeLink) : Typed w.mode := by
  rw [h]
  decide

/-- What `"."` is like. -/
theorem Fits.dot {w : Vinode} (hp : Live kids p) (hk : kids p = []) (hmode : w.mode = typeLink)
    (hnext : w.next = -1) (hname : w.name = .lit ".") (hchild : w.child = p) : Fits V kids p w where
  used := used_of_mode hmode
  next := hnext
  real hl := by
    rw [link_of_mode hmode] at hl
    cases hl
  first _ := ⟨link_of_mode hmode, hname, hchild⟩
  name hne := absurd hk hne
  second ha := by
    rw [hk] at ha
    cases ha
  up _ _ := ⟨p, hchild, .refl hp⟩
  named _ _ := .inl hname
  sib ha := by
    rw [hk] at ha
    cases ha

/-- What `".."` is like. -/
theorem Fits.ddot {w : Vinode} {c : Nat} (hk : kids p ≠ []) (hmode : w.mode = typeLink)
    (hnext : w.next = -1) (hname : w.name = .lit "..") (hchild : w.child = c)
    (hanc : Anc kids c p) : Fits V kids p w where
  used := used_of_mode hmode
  next := hnext
  real hl := by
    rw [link_of_mode hmode] at hl
    cases hl
  first hnil := absurd hnil hk
  name _ := by
    rw [hname]
    decide
  second _ := ⟨link_of_mode hmode, by rw [hchild]; simp⟩
  up _ _ := ⟨c, hchild, hanc⟩
  named _ _ := .inr hname
  sib _ hc := by
    rw [link_of_mode hmode, hchild] at hc
    simp at hc

/-- What all other children are like. -/
theorem Fits.other {w : Vinode} {a b : Nat} {l : List Nat} (hk : kids p = a :: l) (hbl : b ∈ l)
    (hb : (V b).link = true ∧ (V b).child ≠ -1) (hused : Typed w.mode) (hnext : w.next = -1)
    (hname : w.name ≠ .lit ".") (hchild : w.child = -1) (hdot : w.dot = a) (hddot : w.ddot = b) :
    Fits V kids p w where
  used := hused
  next := hnext
  real _ := hchild
  first hnil := by
    rw [hk] at hnil
    cases hnil
  name _ := hname
  second ha := by
    rw [hk] at ha
    cases ha
    cases hbl
  up _ hc := absurd hchild hc
  named _ hc := absurd hchild hc
  sib hal _ := by
    rw [hk] at hal
    cases hal
    exact ⟨hdot, b, hbl, hddot, hb⟩

/-- A vinode was appended to the children of `p`. -/
structure Appended (V W : Vinodes) (kids : Nat → List Nat) (R : Set Nat) (p n : Nat)
    (w : Vinode) : Prop where
  fresh : n ∉ R
  lt : n < maxVinode
  tree : Tree W (growKids kids p n)
  kept : Kept V W R
  self : W n = w
  flat : ∀ {i}, i ≠ n → (W i).flat = (V i).flat
  child : ∀ {i}, i ≠ n → i ≠ p ∨ kids p ≠ [] → (W i).child = (V i).child
  links : ∀ {i}, i ≠ n → (W i).nextLink = (V i).nextLink ∧ (W i).prevLink = (V i).prevLink

/-- The child is put behind the last one. -/
theorem Tree.appended {l : List Nat} {q : Nat} (h : Tree V kids) (hR : ∀ {i}, Live kids i → i ∈ R)
    (hp : Live kids p) (hpl : (V p).link = false) (hq : kids p = l ++ [q]) (hn : n ∉ R)
    (hlt : n < maxVinode) {w : Vinode} (hw : Fits V kids p w)
    (hl : 0 ≤ w.nextLink ∧ 0 ≤ w.prevLink) {d : Int}
    (hd : d = (V q).ddot ∨ (d = n ∧ w.link = true ∧ w.child ≠ -1)) :
    Appended V (Function.update (Function.update V q { V q with next := n, ddot := d }) n w)
      kids R p n w := by
  refine ⟨hn, hlt, h.grow_last hp hpl hq (fun hl => hn (hR hl)) hlt hw hd,
    (Kept.edit V R (a := q) (v := { V q with next := n, ddot := d }) rfl rfl rfl).trans
      (.update _ hn hl), Function.update_self .., fun {i} hi => ?_, fun {i} hi _ => ?_,
    fun {i} hi => ?_⟩
  all_goals
    rw [Function.update_of_ne hi, Function.update_apply]
    split_ifs with hiq
    · simp [hiq, Vinode.flat, Vinode.core]
    · simp

/-- The first child is attached. -/
theorem Tree.appended_first (h : Tree V kids) (hR : ∀ {i}, Live kids i → i ∈ R) (hp : Live kids p)
    (hpl : (V p).link = false) (hk : kids p = []) (hn : n ∉ R) (hlt : n < maxVinode) {w : Vinode}
    (hw : Fits V kids p w) (hl : 0 ≤ w.nextLink ∧ 0 ≤ w.prevLink) :
    Appended V (Function.update (Function.update V p { V p with child := n }) n w) kids R p
      n w := by
  refine ⟨hn, hlt, h.grow_first hp hpl hk (fun hl => hn (hR hl)) hlt hw,
    (Kept.edit V R (a := p) (v := { V p with child := n }) rfl rfl rfl).trans
      (.update _ hn hl), Function.update_self .., fun {i} hi => ?_, fun {i} hi hip => ?_,
    fun {i} hi => ?_⟩
  · rw [Function.update_of_ne hi, Function.update_apply]
    split_ifs with hip
    · rw [hip]
      rfl
    · rfl
  · rw [Function.update_of_ne hi, Function.update_of_ne (hip.resolve_right fun hne => hne hk)]
  · rw [Function.update_of_ne hi, Function.update_apply]
    split_ifs with hip
    · simp [hip]
    · simp

/-- How the rings change: the new vinode is on a ring of its own, or it is a link behind
another one. -/
inductive Joined (V W : Vinodes) (kids : Nat → List Nat) (n : Nat) : Prop
  | alone : (W n).link = false → nextOf W = Function.update (nextOf V) n n →
      prevOf W = Function.update (prevOf V) n n → Joined V W kids n
  | behind {o : Nat} : Live kids o → (W n).link = true → nextOf W = insertNext (nextOf V) o n →
      prevOf W = insertPrev (nextOf V) (prevOf V) o n → Joined V W kids n

/-- The vinode `n` became the last child of `p`. -/
structure Grow (V W : Vinodes) (kids : Nat → List Nat) (R : Set Nat) (p n : Nat) : Prop where
  parent : Live kids p
  real : (V p).link = false
  fresh : n ∉ R
  inv : Inv W (growKids kids p n) (insert n R)
  flat : ∀ {i}, i ≠ n → (W i).flat = (V i).flat
  child : ∀ {i}, i ≠ n → i ≠ p ∨ kids p ≠ [] → (W i).child = (V i).child
  joined : Joined V W kids n

theorem update_eq_of_ne {f g : Nat → Nat} (h : ∀ i, i ≠ n → g i = f i) (m : Nat) :
    Function.update g n m = Function.update f n m := by
  funext i
  rw [Function.update_apply, Function.update_apply]
  split_ifs with hi
  · rfl
  · exact h i hi

theorem Appended.nextOf_eq {w : Vinode} (ha : Appended V W kids R p n w) {i : Nat} (hi : i ≠ n) :
    nextOf W i = nextOf V i := congrArg Int.toNat (ha.links hi).1

theorem Appended.prevOf_eq {w : Vinode} (ha : Appended V W kids R p n w) {i : Nat} (hi : i ≠ n) :
    prevOf W i = prevOf V i := congrArg Int.toNat (ha.links hi).2

/-- A vinode of its own was appended. -/
theorem Appended.grow {w : Vinode} (ha : Appended V W kids R p n w) (h : Inv V kids R)
    (hp : Live kids p) (hpl : (V p).link = false) (hw : w.link = false) (hu : Typed w.mode)
    (hnext : w.nextLink = n) (hprev : w.prevLink = n) : Grow V W kids R p n := by
  have hn : nextOf W n = n := by rw [nextOf, ha.self, hnext, Int.toNat_natCast]
  have hp' : prevOf W n = n := by rw [prevOf, ha.self, hprev, Int.toNat_natCast]
  refine ⟨hp, hpl, ha.fresh, ?_, ha.flat, ha.child, .alone (by rw [ha.self, hw]) ?_ ?_⟩
  · refine h.single ha.fresh ha.lt ha.kept ha.tree (live_grow hp (h.not_live ha.fresh)) ?_ ?_ hn hp'
    · rw [ha.self, hw]
    · rw [ha.self]
      exact hu
  · rw [← update_eq_of_ne (fun i hi => ha.nextOf_eq hi), ← Function.update_eq_self n (nextOf W), hn,
      Function.update_idem]
  · rw [← update_eq_of_ne (fun i hi => ha.prevOf_eq hi), ← Function.update_eq_self n (prevOf W),
      hp', Function.update_idem]

/-- A link was appended and put on the ring of `o`. -/
theorem Appended.grow_link {V₁ : Vinodes} {w : Vinode} {o : Nat} (ha : Appended V V₁ kids R p n w)
    (h : Inv V kids R) (hp : Live kids p) (hpl : (V p).link = false) (hw : w.link = true)
    (hu : Typed w.mode) (ho : Live kids o)
    (hre : Relinked V₁ W (insertNext (nextOf V₁) o n) (insertPrev (nextOf V₁) (prevOf V₁) o n)) :
    Grow V W kids R p n := by
  have hon : o ≠ n := ne_of_mem_of_not_mem (h.live_mem ho) ha.fresh
  refine ⟨hp, hpl, ha.fresh, ?_, fun {i} hi => ?_, fun {i} hi hip => ?_, .behind ho ?_ ?_ ?_⟩
  · refine h.link ha.fresh ha.lt ho ha.kept ha.tree (live_grow hp (h.not_live ha.fresh)) ?_ ?_ hre
    · rw [ha.self, hw]
    · rw [ha.self]
      exact hu
  · exact (Vinode.flat_of_core (hre.core i)).trans (ha.flat hi)
  · exact (Vinode.of_core Vinode.child (fun _ => rfl) (hre.core i)).trans (ha.child hi hip)
  · rw [Vinode.of_core Vinode.link (fun _ => rfl) (hre.core n), ha.self, hw]
  · rw [hre.next, insertNext, insertNext, ha.nextOf_eq hon,
      update_eq_of_ne (fun i hi => ha.nextOf_eq hi)]
  · rw [hre.prev, insertPrev, insertPrev, ha.nextOf_eq hon,
      update_eq_of_ne (fun i hi => ha.prevOf_eq hi)]

/-- A change of what neither the tree nor the rings depend on. -/
theorem Inv.edit (h : Inv V kids R) {a : Nat} {v : Vinode} (hs : SameNode (V a) v)
    (hm : v.mode = (V a).mode) (hn : v.nextLink = (V a).nextLink)
    (hp : v.prevLink = (V a).prevLink) :
    Inv (Function.update V a v) kids R := by
  refine h.congr (fun {i} _ => ?_) (.edit V R hm hn hp)
  rw [Function.update_apply]
  split_ifs with hi
  · exact hi ▸ hs
  · exact SameNode.refl _

theorem nextOf_edit {a : Nat} {v : Vinode} (h : v.nextLink = (V a).nextLink) :
    nextOf (Function.update V a v) = nextOf V := by
  funext i
  rw [nextOf, nextOf, Function.update_apply]
  split_ifs with hi
  · rw [hi, h]
  · rfl

theorem prevOf_edit {a : Nat} {v : Vinode} (h : v.prevLink = (V a).prevLink) :
    prevOf (Function.update V a v) = prevOf V := by
  funext i
  rw [prevOf, prevOf, Function.update_apply]
  split_ifs with hi
  · rw [hi, h]
  · rfl

theorem Joined.congr {V' W' : Vinodes} (h : Joined V W kids n) (hlink : (W' n).link = (W n).link)
    (hn : nextOf W' = nextOf W) (hp : prevOf W' = prevOf W)
    (hs : ∀ i, i ≠ n → nextOf V' i = nextOf V i ∧ prevOf V' i = prevOf V i)
    (hfresh : ¬Live kids n) :
    Joined V' W' kids n := by
  have hnext := fun m => update_eq_of_ne (fun i hi => (hs i hi).1) m
  have hprev := fun m => update_eq_of_ne (fun i hi => (hs i hi).2) m
  cases h with
  | alone h1 h2 h3 =>
    refine .alone (hlink.trans h1) ?_ ?_
    · rw [hn, h2, hnext]
    · rw [hp, h3, hprev]
  | @behind o ho h1 h2 h3 =>
    have hon : o ≠ n := ne_of_live ho hfresh
    refine .behind ho (hlink.trans h1) ?_ ?_
    · rw [hn, h2, insertNext, insertNext, (hs o hon).1, hnext]
    · rw [hp, h3, insertPrev, insertPrev, (hs o hon).1, hprev]

/-- What the new vinode is besides its place does not matter. -/
theorem Grow.edit (h : Grow V W kids R p n) (hlive : ¬Live kids n) {v : Vinode}
    (hs : SameNode (W n) v) (hm : v.mode = (W n).mode) (hn : v.nextLink = (W n).nextLink)
    (hp : v.prevLink = (W n).prevLink) : Grow V (Function.update W n v) kids R p n where
  parent := h.parent
  real := h.real
  fresh := h.fresh
  inv := h.inv.edit hs hm hn hp
  flat hi := by rw [Function.update_of_ne hi, h.flat hi]
  child hi hip := by rw [Function.update_of_ne hi, h.child hi hip]
  joined := by
    refine h.joined.congr ?_ (nextOf_edit hn) (prevOf_edit hp) (fun _ _ => ⟨rfl, rfl⟩) hlive
    rw [Function.update_self, Vinode.link, hm, Vinode.link]

/-- What the new vinode was before does not matter. -/
theorem Grow.of_same {V' : Vinodes} (h : Grow V W kids R p n) (hlive : ¬Live kids n)
    (hs : ∀ i, i ≠ n → V' i = V i) : Grow V' W kids R p n where
  parent := h.parent
  real := by rw [hs p (ne_of_live h.parent hlive), h.real]
  fresh := h.fresh
  inv := h.inv
  flat hi := by rw [hs _ hi, h.flat hi]
  child hi hip := by rw [hs _ hi, h.child hi hip]
  joined := h.joined.congr rfl rfl rfl
    (fun i hi => by rw [nextOf, nextOf, prevOf, prevOf, hs i hi]; exact ⟨rfl, rfl⟩) hlive

/-- A vinode outside of the rings does not matter. -/
theorem Grow.update {x : Nat} {v : Vinode} (h : Grow V W kids R p n) (hV : Inv V kids R)
    (hx : x ∉ R)
    (hxn : x ≠ n) (hv : 0 ≤ v.nextLink ∧ 0 ≤ v.prevLink) :
    Grow (Function.update V x v) (Function.update W x v) kids R p n where
  parent := h.parent
  real := by
    rw [Function.update_of_ne (ne_of_mem_of_not_mem (hV.live_mem h.parent) hx)]
    exact h.real
  fresh := h.fresh
  inv := h.inv.update (by simp [hx, hxn]) hv
  flat {i} hi := by
    rw [Function.update_apply, Function.update_apply]
    split_ifs
    · rfl
    · exact h.flat hi
  child {i} hi hip := by
    rw [Function.update_apply, Function.update_apply]
    split_ifs
    · rfl
    · exact h.child hi hip
  joined := by
    have hnext : ∀ U : Vinodes, nextOf (Function.update U x v) =
        Function.update (nextOf U) x v.nextLink.toNat := fun U => by
      funext i
      rw [nextOf, Function.update_apply, Function.update_apply]
      split_ifs <;> rfl
    have hprev : ∀ U : Vinodes, prevOf (Function.update U x v) =
        Function.update (prevOf U) x v.prevLink.toNat := fun U => by
      funext i
      rw [prevOf, Function.update_apply, Function.update_apply]
      split_ifs <;> rfl
    have hlink : (Function.update W x v n).link = (W n).link := by
      rw [Function.update_of_ne hxn.symm]
    cases h.joined with
    | alone h1 h2 h3 =>
      refine .alone (hlink.trans h1) ?_ ?_
      · rw [hnext, hnext, h2, Function.update_comm hxn.symm]
      · rw [hprev, hprev, h3, Function.update_comm hxn.symm]
    | @behind o ho h1 h2 h3 =>
      have hox : o ≠ x := ne_of_mem_of_not_mem (hV.live_mem ho) hx
      have hfx : nextOf V o ≠ x :=
        ne_of_mem_of_not_mem (hV.rings.cycles.next_mem (hV.live_mem ho)) hx
      refine .behind ho (hlink.trans h1) ?_ ?_
      · rw [hnext, hnext, h2, insertNext, insertNext, Function.update_of_ne hox,
          Function.update_comm hox, Function.update_comm hxn.symm]
      · rw [hprev, hprev, hnext, h3, insertPrev, insertPrev, Function.update_of_ne hox,
          Function.update_comm hfx, Function.update_comm hxn.symm]

/-- `"."` is added. -/
theorem Inv.dot (h : Inv V kids R) (hp : Live kids p) (hpl : (V p).link = false)
    (hk : kids p = []) (hn : n ∉ R) (hlt : n < maxVinode) {w : Vinode} {f g : Nat → Nat}
    (hre : Relinked (Function.update (Function.update V p { V p with child := n }) n w) W f g)
    (hf : f =
      insertNext (nextOf (Function.update (Function.update V p { V p with child := n }) n w))
      p n)
    (hg : g =
      insertPrev (nextOf (Function.update (Function.update V p { V p with child := n }) n w))
      (prevOf (Function.update (Function.update V p { V p with child := n }) n w)) p n)
    (hmode : w.mode = typeLink) (hnext : w.next = -1) (hname : w.name = .lit ".")
    (hchild : w.child = p) (hl : 0 ≤ w.nextLink ∧ 0 ≤ w.prevLink) : Grow V W kids R p n := by
  subst hf hg
  have hfits : Fits V kids p w := .dot hp hk hmode hnext hname hchild
  exact (h.tree.appended_first h.live_mem hp hpl hk hn hlt hfits hl).grow_link h hp hpl
    (link_of_mode hmode) (used_of_mode hmode) hp hre

/-- `".."` is added, on the ring of `o`. -/
theorem Inv.ddot {l : List Nat} {q o c : Nat} (h : Inv V kids R) (hp : Live kids p)
    (hpl : (V p).link = false) (hk : kids p = l ++ [q]) (hn : n ∉ R) (hlt : n < maxVinode)
    {w : Vinode} {d : Int} {f g : Nat → Nat} (ho : Live kids o)
    (hre : Relinked
      (Function.update (Function.update V q { V q with next := n, ddot := d }) n w) W f g)
    (hf : f = insertNext
      (nextOf (Function.update (Function.update V q { V q with next := n, ddot := d }) n w)) o n)
    (hg : g = insertPrev
      (nextOf (Function.update (Function.update V q { V q with next := n, ddot := d }) n w))
      (prevOf (Function.update (Function.update V q { V q with next := n, ddot := d }) n w)) o n)
    (hd : d = (V q).ddot ∨ d = n) (hmode : w.mode = typeLink) (hnext : w.next = -1)
    (hname : w.name = .lit "..") (hchild : w.child = c) (hanc : Anc kids c p)
    (hl : 0 ≤ w.nextLink ∧ 0 ≤ w.prevLink) : Grow V W kids R p n := by
  subst hf hg
  have hne : kids p ≠ [] := by simp [hk]
  refine (h.tree.appended h.live_mem hp hpl hk hn hlt (.ddot hne hmode hnext hname hchild hanc) hl
    ?_).grow_link h hp hpl (link_of_mode hmode) (used_of_mode hmode) ho hre
  rcases hd with hd | hd
  · exact .inl hd
  · exact .inr ⟨hd, link_of_mode hmode, by rw [hchild]; simp⟩

/-- The vinode that `append_dir` and `append_file` put behind the child `q` of the
directory with the first children `a` and `b`. -/
def appendedNode (ending : CStr) (V : Vinodes) (n a b : Nat) (name : CStr) (mode : UInt32)
    (fsType : FsType) (fs : Option Filesys) : Vinode :=
  { V n with
    name := name, path := ((V a).path.append name).append ending, dot := a, ddot := b, next := -1
    child := -1, prevLink := n, nextLink := n, linkcnt := 1, mode := mode, fsType := fsType,
    fs := fs }

theorem Tree.not_live_of_free (h : Tree V kids) {i : Nat} (hi : (V i).mode = 0) : ¬Live kids i :=
  fun hl => (h.used hl).ne_zero hi

theorem appendNode_effect {ending name : CStr} {mode : UInt32} {fsType : FsType}
    {fs : Option Filesys} (h : Tree V kids) (hp : Live kids p) (hpl : (V p).link = false)
    (happ : appendNode ending V p name mode fsType fs = .ok (m, W)) :
    ∃ (n a b q : Nat) (l l' : List Nat), m = n ∧ n < maxVinode ∧ (V n).mode = 0 ∧
      kids p = a :: b :: l ∧ kids p = l' ++ [q] ∧
      W = Function.update (Function.update V q { V q with next := n }) n
        (appendedNode ending V n a b name mode fsType fs) := by
  simp only [appendNode] at happ
  rcases ha : vinodesAlloc V with ⟨m', Va⟩
  rw [ha] at happ
  obtain ⟨pv, hpv, happ⟩ := bind_eq_ok.mp happ
  obtain rfl := get_nat_eq hpv
  obtain ⟨_, hchild, happ⟩ := bind_eq_ok.mp happ
  obtain ⟨⟨k, dot, ddot⟩, hlast, happ⟩ := bind_eq_ok.mp happ
  obtain ⟨_, hdot, happ⟩ := bind_eq_ok.mp happ
  obtain ⟨V₁, h₁, happ⟩ := bind_eq_ok.mp happ
  obtain ⟨d, hd, happ⟩ := bind_eq_ok.mp happ
  obtain ⟨name', hname', happ⟩ := bind_eq_ok.mp happ
  obtain ⟨path, hpath, happ⟩ := bind_eq_ok.mp happ
  obtain ⟨V₂, h₂, happ⟩ := bind_eq_ok.mp happ
  cases happ
  obtain ⟨n, rfl, hlt, rfl⟩ := modify_eq_ok.mp h₂
  obtain ⟨n', hn', -, hfree, rfl⟩ := (vinodesAlloc_cases ha).resolve_left (by simp)
  obtain rfl := Int.ofNat_inj.mp hn'
  obtain rfl : name' = name := (charArray_eq_ok.mp hname').2
  obtain ⟨-, rfl⟩ := charArray_eq_ok.mp hpath
  have hnl := h.not_live_of_free hfree
  have hsame : ∀ {i}, Live kids i →
      Function.update V n { V n with mode := (V n).mode ||| alloced } i = V i := fun hi =>
    Function.update_of_ne (ne_of_live hi hnl) ..
  have ht : Tree (Function.update V n { V n with mode := (V n).mode ||| alloced }) kids :=
    h.congr fun i hi => (hsame hi).symm ▸ SameNode.refl _
  have hcp := ht.child hp (by rw [hsame hp]; exact hpl)
  have hk : kids p ≠ [] := by
    intro hnil
    rw [hcp, hnil] at hchild
    exact (check_eq_ok.mp hchild) rfl
  rw [hcp] at hlast
  obtain ⟨a, b, q, l, l', hab, hq, rfl, rfl, rfl⟩ :=
    lastChild_kids ht hp hk hlast (check_eq_ok.mp hdot).1
  have hqn : q ≠ n := ne_of_live (.kid hp (by simp [hq])) hnl
  have han : a ≠ n := ne_of_live (.kid hp (by simp [hab])) hnl
  obtain ⟨-, rfl⟩ := modify_nat h₁
  obtain rfl := get_nat_eq hd
  refine ⟨n, a, b, q, l, l', rfl, hlt, hfree, hab, hq, ?_⟩
  have hpa : (Function.update (Function.update V n { V n with mode := (V n).mode ||| alloced }) q
      { Function.update V n { V n with mode := (V n).mode ||| alloced } q with next := n } a).path =
      (V a).path := by
    rw [Function.update_apply, Function.update_of_ne hqn, Function.update_of_ne han]
    split_ifs with haq
    · rw [haq]
    · rfl
  dsimp only
  rw [hpa]
  funext i
  by_cases hin : i = n
  · subst hin
    simp only [Function.update_self, Function.update_of_ne hqn.symm, appendedNode]
  · rw [Function.update_of_ne hin, Function.update_of_ne hin]
    by_cases hiq : i = q
    · subst hiq
      rw [Function.update_self, Function.update_self, Function.update_of_ne hqn]
    · rw [Function.update_of_ne hiq, Function.update_of_ne hin, Function.update_of_ne hiq]

theorem appendNode_spec {ending name : CStr} {mode : UInt32} {fsType : FsType}
    {fs : Option Filesys} (h : Inv V kids R) (hp : Live kids p) (hpl : (V p).link = false)
    (hname : name ≠ .lit ".") (hmode : Typed mode)
    (happ : appendNode ending V p name mode fsType fs = .ok (m, W)) :
    ∃ (n a b : Nat), m = n ∧
      Appended V W kids R p n (appendedNode ending V n a b name mode fsType fs) := by
  obtain ⟨n, a, b, q, l, l', rfl, hlt, hfree, hab, hq, rfl⟩ := appendNode_effect h.tree hp hpl happ
  refine ⟨n, a, b, rfl, h.tree.appended h.live_mem hp hpl hq (h.not_mem_of_free hfree) hlt ?_
    ⟨Int.natCast_nonneg n, Int.natCast_nonneg n⟩ (.inl rfl)⟩
  exact .other hab (by simp) (h.tree.ddot hp hab) hmode rfl hname rfl rfl rfl

/-- A vinode of its own is appended. -/
theorem appendNode_inv {ending name : CStr} {mode : UInt32} {fsType : FsType}
    {fs : Option Filesys} (h : Inv V kids R) (hp : Live kids p) (hpl : (V p).link = false)
    (hname : name ≠ .lit ".") (hmode : Typed mode) (hreal : has mode typeLink = false)
    (happ : appendNode ending V p name mode fsType fs = .ok (m, W)) :
    ∃ n : Nat, m = n ∧ n ∉ R ∧ Inv W (growKids kids p n) (insert n R) ∧ (W n).link = false ∧
      ∀ i, i ≠ n → (W i).flat = (V i).flat := by
  obtain ⟨n, a, b, rfl, ha⟩ := appendNode_spec h hp hpl hname hmode happ
  refine ⟨n, rfl, ha.fresh, (ha.grow h hp hpl hreal hmode rfl rfl).inv, ?_, fun i hi => ha.flat hi⟩
  rw [ha.self]
  exact hreal

end Append

/-! ## The first two children -/

section Prepare

variable {p d dd : Nat} {fsType : FsType} {fs : Option Filesys}

/-- The links do not depend on `next`. -/
theorem Relinked.setNext {f g : Nat → Nat} (h : Relinked V W f g) (x : Int) :
    Relinked (Function.update V d { V d with next := x })
      (Function.update W d { W d with next := x })
      f g where
  core i := by
    rw [Function.update_apply, Function.update_apply]
    split_ifs with hi
    · have := congrArg (fun v : Vinode => { v with next := x }) (h.core d)
      exact this
    · exact h.core i
  next := by
    rw [← h.next]
    funext i
    rw [nextOf, nextOf, Function.update_apply]
    split_ifs with hi
    · rw [hi]
    · rfl
  prev := by
    rw [← h.prev]
    funext i
    rw [prevOf, prevOf, Function.update_apply]
    split_ifs with hi
    · rw [hi]
    · rfl
  links hl i := by
    have hV : ∀ i, 0 ≤ (V i).nextLink ∧ 0 ≤ (V i).prevLink := fun i => by
      have := hl i
      rw [Function.update_apply] at this
      split_ifs at this with hi
      · exact hi ▸ this
      · exact this
    have hW := h.links hV i
    rw [Function.update_apply]
    split_ifs with hi
    · exact hi ▸ hW
    · exact hW

theorem nextOf_setNext (V : Vinodes) (d : Nat) (x : Int) :
    nextOf (Function.update V d { V d with next := x }) = nextOf V := nextOf_edit rfl

theorem prevOf_setNext (V : Vinodes) (d : Nat) (x : Int) :
    prevOf (Function.update V d { V d with next := x }) = prevOf V := prevOf_edit rfl

/-- `"."` is built with a `next` that leads to nothing yet: the tree has the invariant
once this `next` is left out. -/
theorem buildDot_spec (h : Inv V kids R) (hp : Live kids p) (hpl : (V p).link = false)
    (hk : kids p = []) (hd : d ∉ R)
    (hb : buildDot (Function.update V p { V p with child := d }) p d dd fsType fs = .ok W) :
    Grow V (Function.update W d { W d with next := -1 }) kids R p d ∧ (W d).next = dd ∧
      (W d).name = .lit "." ∧ (W d).mode = typeLink ∧ (W d).path = (V p).path := by
  simp only [buildDot, bind_eq_ok] at hb
  obtain ⟨c, hc, V₁, h₁, V₂, h₂, h₃⟩ := hb
  have hcp : c.path = (V p).path := by rw [get_nat_eq hc, Function.update_self]
  obtain ⟨hlt, rfl⟩ := modify_nat h₁
  obtain ⟨-, rfl⟩ := modify_nat h₃
  have hre := addLink_nat h₂
  have hself : ∀ {β : Type} (f : Vinode → β), (∀ v, f v.core = f v) →
    f (V₂ d) = f { Function.update V p
      { V p with child := d } d with
      name := .lit ".", path := c.path, dot := -1, ddot := dd, next := dd, child := p, prevLink := d
      nextLink := d, linkcnt := 1, mode := typeLink } := by
    intro β f hf
    rw [Vinode.of_core f hf (hre.core d), Function.update_self]
  refine ⟨?_, ?_, ?_, ?_, ?_⟩
  · have hre' := hre.setNext (d := d) (-1)
    rw [← nextOf_setNext _ d (-1), ← prevOf_setNext _ d (-1)] at hre'
    rw [Function.update_self, Function.update_idem] at hre'
    have hgrow := h.dot hp hpl hk hd hlt hre' rfl rfl rfl rfl rfl rfl
      ⟨Int.natCast_nonneg d, Int.natCast_nonneg d⟩
    have hset := hgrow.edit (h.not_live hd)
      (v := { Function.update V₂ d { V₂ d with next := -1 } d with fsType := fsType, fs := fs })
      ⟨rfl, rfl, rfl, rfl, rfl, .inl rfl, id⟩ rfl rfl rfl
    rw [Function.update_idem, Function.update_self] at hset
    rw [Function.update_idem, Function.update_self]
    exact hset
  · rw [Function.update_self]
    exact hself Vinode.next fun _ => rfl
  · rw [Function.update_self]
    exact hself Vinode.name fun _ => rfl
  · rw [Function.update_self]
    exact hself Vinode.mode fun _ => rfl
  · rw [Function.update_self]
    exact (hself Vinode.path fun _ => rfl).trans hcp

theorem buildDdot_spec {par : Nat} (h : Inv (Function.update V d { V d with next := -1 }) kids R)
    (hnext : (V d).next = dd) (hp : Live kids p) (hpl : (V p).link = false) (hpd : p ≠ d)
    (hk : kids p = [d]) (hdd : dd ∉ R) (hanc : Anc kids par p)
    (hb : buildDdot V par d dd fsType fs = .ok W) :
    Grow (Function.update V d { V d with next := -1 }) W kids R p dd ∧
      (W dd).name = .lit ".." ∧ (W dd).mode = typeLink := by
  simp only [buildDdot, bind_eq_ok] at hb
  obtain ⟨c, -, V₁, h₁, V₂, h₂, h₃⟩ := hb
  obtain ⟨hlt, rfl⟩ := modify_nat h₁
  obtain ⟨-, rfl⟩ := modify_nat h₃
  have hre := addLink_nat h₂
  have hname := Vinode.of_core Vinode.name (fun _ => rfl) (hre.core dd)
  have hmode := Vinode.of_core Vinode.mode (fun _ => rfl) (hre.core dd)
  rw [Function.update_self] at hname hmode
  -- the `next` that was left out is the one that now leads to `".."`
  have hV : Function.update (Function.update V d { V d with next := -1 }) d
      { Function.update V d { V d with next := -1 } d with
        next := dd, ddot := (Function.update V d { V d with next := -1 } d).ddot } = V := by
    rw [Function.update_idem, Function.update_self, ← hnext]
    exact Function.update_eq_self d V
  rw [← hV] at hre
  have hgrow := h.ddot (l := []) (c := par) hp
    (by rw [Function.update_of_ne hpd]; exact hpl) hk hdd hlt hanc.live_top hre rfl rfl (.inl rfl)
    rfl rfl rfl rfl hanc ⟨Int.natCast_nonneg dd, Int.natCast_nonneg dd⟩
  refine ⟨hgrow.edit (h.not_live hdd) ⟨rfl, rfl, rfl, rfl, rfl, .inl rfl, id⟩ rfl rfl rfl, ?_, ?_⟩
  · rw [Function.update_self]
    exact hname
  · rw [Function.update_self]
    exact hmode

/-- `"."` and `".."` were added to `p`. In between, `U` had `"."` alone. -/
structure Prepared (V U W : Vinodes) (kids : Nat → List Nat) (R : Set Nat) (p d dd : Nat) :
    Prop where
  dot : Grow V U kids R p d
  ddot : Grow U W (growKids kids p d) (insert d R) p dd
  dotName : (U d).name = .lit "."
  dotMode : (U d).mode = typeLink
  dotPath : (U d).path = (V p).path
  ddotName : (W dd).name = .lit ".."
  ddotMode : (W dd).mode = typeLink

/-- `"."` and `".."` are built. -/
theorem Inv.prepared {par : Nat} (h : Inv V kids R) (hp : Live kids p) (hpl : (V p).link = false)
    (hk : kids p = []) (hd : d ∉ R) (hdd : dd ∉ R) (hne : d ≠ dd) (hanc : Anc kids par p)
    {V₁ : Vinodes}
    (hdot : buildDot (Function.update V p { V p with child := d }) p d dd fsType fs = .ok V₁)
    (hddot : buildDdot V₁ par d dd fsType fs = .ok W) :
    Prepared V (Function.update V₁ d { V₁ d with next := -1 }) W kids R p d dd := by
  obtain ⟨hgrow, hnext, hname, hmode, hpath⟩ := buildDot_spec h hp hpl hk hd hdot
  have hpd : p ≠ d := ne_of_mem_of_not_mem (h.live_mem hp) hd
  have hnd := h.not_live hd
  have hpl' : (V₁ p).link = false := by
    have := Vinode.link_of_flat (hgrow.flat hpd)
    rw [Function.update_of_ne hpd] at this
    exact this.trans hpl
  obtain ⟨hgrow', hname', hmode'⟩ := buildDdot_spec hgrow.inv hnext (hp.grow hnd) hpl' hpd
    (by rw [growKids_parent, hk, List.nil_append])
    (by
      rintro (rfl | hR)
      · exact hne rfl
      · exact hdd hR)
    (hanc.grow hnd) hddot
  refine ⟨hgrow, hgrow', ?_, ?_, ?_, hname', hmode'⟩
  all_goals rw [Function.update_self]
  · exact hname
  · exact hmode
  · exact hpath

theorem buildDot_ne {cur m mm : Int} (h : buildDot V cur m mm fsType fs = .ok W) : m ≠ -1 := by
  simp only [buildDot, bind_eq_ok] at h
  obtain ⟨c, -, V₁, h₁, -⟩ := h
  obtain ⟨n, rfl, -⟩ := modify_eq_ok.mp h₁
  simp

theorem buildDdot_ne {par m mm : Int} (h : buildDdot V par m mm fsType fs = .ok W) : mm ≠ -1 := by
  simp only [buildDdot, bind_eq_ok] at h
  obtain ⟨c, -, V₁, h₁, -⟩ := h
  obtain ⟨n, rfl, -⟩ := modify_eq_ok.mp h₁
  simp

theorem prepareDir_spec (par : Nat) (h : Inv V kids R) (hp : Live kids p) (hpl : (V p).link = false)
    (hk : kids p = []) (hanc : Anc kids par p) (hprep : prepareDir V p par fsType fs = .ok W) :
    ∃ U d dd, (V d).mode = 0 ∧ (V dd).mode = 0 ∧ Prepared V U W kids R p d dd := by
  simp only [prepareDir] at hprep
  rcases ha : vinodesAlloc V with ⟨m, Va⟩
  rcases hb : vinodesAlloc Va with ⟨mm, Vb⟩
  simp only [ha, hb, bind_eq_ok] at hprep
  obtain ⟨_, -, _, -, V₁, h₁, V₂, hdot, hddot⟩ := hprep
  obtain ⟨-, rfl⟩ := modify_nat h₁
  obtain ⟨d, rfl, -, hd, ha', hsame, hfree₁, hused⟩ := (h.alloc ha).resolve_left (buildDot_ne hdot)
  obtain ⟨dd, rfl, -, hdd, hb', hsame', hfree, -⟩ :=
    (ha'.alloc hb).resolve_left (buildDdot_ne hddot)
  have hne : d ≠ dd := fun he => hused (he ▸ hfree)
  have hpd : p ≠ d := ne_of_mem_of_not_mem (h.live_mem hp) hd
  have hpdd : p ≠ dd := ne_of_mem_of_not_mem (h.live_mem hp) hdd
  have hVp : Vb p = V p := (hsame' p hpdd).trans (hsame p hpd)
  have hnd := h.not_live hd
  have hndd : ¬Live (growKids kids p d) dd := by
    rw [live_grow hp hnd]
    rintro (hl | rfl)
    · exact h.not_live hdd hl
    · exact hne rfl
  have hprep := hb'.prepared hp (by rw [hVp]; exact hpl) hk hd hdd hne hanc hdot hddot
  -- the flags of the two vinodes before they were built do not matter
  have hfrom : ∀ i, i ≠ d → V i = Function.update Vb dd (V dd) i := by
    intro i hi
    rw [Function.update_apply]
    split_ifs with hidd
    · rw [hidd]
    · rw [hsame' i hidd, hsame i hi]
  have hdot' := (hprep.dot.update hb' hdd hne.symm (h.links dd)).of_same hnd hfrom
  refine ⟨_, d, dd, hfree₁, ?_, hdot',
    hprep.ddot.of_same hndd fun i hi => Function.update_of_ne hi .., ?_,
    ?_, ?_, hprep.ddotName, hprep.ddotMode⟩
  · rw [← hfree, hsame dd hne.symm]
  · rw [Function.update_of_ne hne]
    exact hprep.dotName
  · rw [Function.update_of_ne hne]
    exact hprep.dotMode
  · rw [Function.update_of_ne hne, hprep.dotPath, hVp]

/-- What was there before is still there. -/
theorem prepareDir_inv (par : Nat) (h : Inv V kids R) (hp : Live kids p) (hpl : (V p).link = false)
    (hk : kids p = []) (hanc : Anc kids par p) (hprep : prepareDir V p par fsType fs = .ok W) :
    ∃ kids' R', Inv W kids' R' ∧ (∀ i, Live kids i → Live kids' i ∧ kids i ⊆ kids' i) ∧
      (∀ i, Live kids i → i ≠ p → kids' i = kids i) ∧ ∀ i ∈ R, (W i).flat = (V i).flat := by
  obtain ⟨U, d, dd, -, -, hpr⟩ := prepareDir_spec par h hp hpl hk hanc hprep
  have hnd := h.not_live hpr.dot.fresh
  have hndd := hpr.dot.inv.not_live hpr.ddot.fresh
  refine ⟨_, _, hpr.ddot.inv, fun i hi => ⟨(hi.grow hnd).grow hndd, ?_⟩, fun i hi hip => ?_,
    fun i hi => ?_⟩
  · exact fun j hj => subset_growKids hndd (hi.grow hnd) (subset_growKids hnd hi hj)
  · rw [growKids_other hip (ne_of_live (hi.grow hnd) hndd), growKids_other hip (ne_of_live hi hnd)]
  · rw [hpr.ddot.flat (ne_of_mem_of_not_mem (Set.mem_insert_of_mem d hi) hpr.ddot.fresh),
      hpr.dot.flat (ne_of_mem_of_not_mem hi hpr.dot.fresh)]

end Prepare

/-! ## The initial tree -/

section Init

variable {m : Int}

theorem live_root_iff {i : Nat} : Live (fun _ => []) i ↔ i = 0 := by
  constructor
  · intro hi
    cases hi with
    | root => rfl
    | kid _ hj => cases hj
  · rintro rfl
    exact .root

/-- The root alone, before it has children. -/
theorem Inv.root (hlink : (V 0).link = false) (hmode : Typed (V 0).mode) (hnext : (V 0).next = -1)
    (hchild : (V 0).child = -1) (hn : (V 0).nextLink = 0) (hp : (V 0).prevLink = 0)
    (hl : ∀ i, 0 ≤ (V i).nextLink ∧ 0 ≤ (V i).prevLink) : Inv V (fun _ => []) {0} := by
  have hself : nextOf V 0 = 0 := by rw [nextOf, hn]; rfl
  have hself' : prevOf V 0 = 0 := by rw [prevOf, hp]; rfl
  refine ⟨⟨⟨?_, Set.finite_singleton 0, fun hi => live_root_iff.mp hi, fun {i} hi => ?_⟩, ?_, ?_,
    hl⟩, ?_⟩
  rotate_right
  · constructor
    case lt =>
      intro i hi
      rw [live_root_iff.mp hi]
      decide
    case used =>
      intro i hi
      rw [live_root_iff.mp hi]
      exact hmode
    case root => exact ⟨hlink, hnext⟩
    case child =>
      intro i hi _
      rw [live_root_iff.mp hi]
      exact hchild
    case leaf => exact fun _ _ => rfl
    case chain => exact fun _ => trivial
    case nodup => exact fun _ => List.nodup_nil
    all_goals simp
  · constructor
    all_goals
      rintro i rfl
      simp [hself, hself']
  · obtain rfl := live_root_iff.mp hi
    have hall : ∀ j, Orbit (nextOf V) 0 j → j = 0 := by
      intro j hj
      induction hj with
      | refl => rfl
      | tail _ hstep ih => rw [← hstep, ih, hself]
    exact ⟨0, .root, hlink, Orbit.refl 0, fun j hj _ => hall j hj⟩
  · rintro i rfl
    decide
  · rintro i rfl
    exact hmode

theorem vinodesAlloc_links (h : vinodesAlloc V = (m, W))
    (hl : ∀ i, 0 ≤ (V i).nextLink ∧ 0 ≤ (V i).prevLink) :
    ∀ i, 0 ≤ (W i).nextLink ∧ 0 ≤ (W i).prevLink := by
  unfold vinodesAlloc at h
  split at h
  · cases h
    intro i
    rw [Function.update_apply]
    split_ifs with hi
    · exact hi ▸ hl i
    · exact hl i
  · cases h
    exact hl

/-- The root without its first child. -/
def bareRoot : Vinode where
  path := .lit "/"
  name := .lit "/"
  dot := -1
  ddot := -1
  next := -1
  child := -1
  mode := typeDir
  linkcnt := 1
  ridx := 0xffffffff
  fsType := .vfs
  fs := none
  prevLink := 0
  nextLink := 0

theorem buildRoot_spec (h : buildRoot (fun _ => .zero) = .ok (m, V)) :
    m = 0 ∧ ∃ kids R, Inv V kids R ∧ kids 0 ≠ [] := by
  simp only [buildRoot] at h
  rcases ha : vinodesAlloc fun _ => .zero with ⟨m₀, V₀⟩
  rcases hb : vinodesAlloc V₀ with ⟨m₁, V₁⟩
  rcases hc : vinodesAlloc V₁ with ⟨m₂, V₂⟩
  simp only [ha, hb, hc, bind_eq_ok] at h
  obtain ⟨_, h0, V₃, h₃, V₄, h₄, V₅, h₅, h⟩ := h
  cases h
  obtain rfl := check_eq_ok.mp h0
  obtain ⟨-, rfl⟩ := modify_nat (n := 0) h₃
  obtain ⟨d, rfl, -⟩ := (vinodesAlloc_cases hb).resolve_left (buildDot_ne h₄)
  obtain ⟨dd, rfl, -⟩ := (vinodesAlloc_cases hc).resolve_left (buildDdot_ne h₅)
  have hlinks :=
    vinodesAlloc_links hc (vinodesAlloc_links hb (vinodesAlloc_links ha fun _ => by decide))
  obtain ⟨hu, h0d⟩ := (vinodesAlloc_used hb).2 0 (vinodesAlloc_used (n := 0) ha).1
  obtain ⟨-, h0dd⟩ := (vinodesAlloc_used hc).2 0 hu
  obtain ⟨-, hne⟩ := (vinodesAlloc_used hc).2 d (vinodesAlloc_used hb).1
  have hroot : Inv (Function.update V₂ 0 bareRoot) (fun _ => []) {0} := by
    have hself : Function.update V₂ 0 bareRoot 0 = bareRoot := Function.update_self ..
    refine Inv.root ?_ ?_ ?_ ?_ ?_ ?_ fun i => ?_
    case refine_7 =>
      rw [Function.update_apply]
      split_ifs
      · decide
      · exact hlinks i
    all_goals
      rw [hself]
      decide
  have hV : Function.update (Function.update V₂ 0 bareRoot) 0
      { Function.update V₂ 0 bareRoot 0 with child := d } =
      Function.update V₂ 0 { bareRoot with child := d } := by
    rw [Function.update_idem, Function.update_self]
  refine ⟨rfl, _, _,
    (hroot.prepared .root ?_ rfl h0d.symm h0dd.symm hne (.refl .root) ?_ h₅).ddot.inv, ?_⟩
  · rw [Function.update_self]
    decide
  · rw [hV]
    exact h₄
  · rw [growKids_parent]
    simp

/-- The tree has the invariant, and `dir` is one of its directories. -/
def Holds (V : Vinodes) (dir : Nat) : Prop :=
  ∃ kids R, Inv V kids R ∧ kids 0 ≠ [] ∧ Live kids dir ∧ (V dir).link = false

theorem growKids_full {p n : Nat} (hn : ¬Live kids n) (h : kids 0 ≠ []) :
    growKids kids p n 0 ≠ [] :=
  fun h0 => h (List.eq_nil_of_subset_nil (h0 ▸ subset_growKids hn .root))

theorem Holds.append {dir p : Nat} {ending name : CStr} {mode : UInt32} {fsType : FsType}
    {fs : Option Filesys} (h : Holds V dir) (hp : p = 0 ∨ p = dir) (hname : name ≠ .lit ".")
    (hmode : Typed mode) (hreal : has mode typeLink = false)
    (happ : appendNode ending V p name mode fsType fs = .ok (m, W)) : Holds W dir := by
  obtain ⟨kids, R, hinv, hfull, hdir, hlink⟩ := h
  have hp' : Live kids p ∧ (V p).link = false := by
    rcases hp with rfl | rfl
    · exact ⟨.root, hinv.tree.root.1⟩
    · exact ⟨hdir, hlink⟩
  obtain ⟨n, -, hn, hinv', -, hflat⟩ := appendNode_inv hinv hp'.1 hp'.2 hname hmode hreal happ
  have hnl := hinv.not_live hn
  refine ⟨_, _, hinv', growKids_full hnl hfull, hdir.grow hnl, ?_⟩
  rw [Vinode.link_of_flat (hflat dir (ne_of_live hdir hnl))]
  exact hlink

theorem buildTree_inv (h : buildTree = .ok V) : ∃ kids R, Inv V kids R ∧ kids 0 ≠ [] := by
  simp only [buildTree, bind_eq_ok, Prod.exists] at h
  obtain ⟨root, V₀, h₀, dev, V₁, h₁, mnt, V₂, h₂, V₃, h₃, V₄, h₄, h⟩ := h
  obtain ⟨rfl, kids, R, hinv, hfull⟩ := buildRoot_spec h₀
  obtain ⟨dev, rfl, hdev, hinv₁, hl₁, -⟩ :=
    appendNode_inv hinv .root hinv.tree.root.1 (by decide) (by decide) (by decide) h₁
  have hnd := hinv.not_live hdev
  obtain ⟨mnt, rfl, hmnt, hinv₂, hl₂, hflat₂⟩ :=
    appendNode_inv hinv₁ .root hinv₁.tree.root.1 (by decide) (by decide) (by decide) h₂
  have hnm := hinv₁.not_live hmnt
  have h0d : (0 : Nat) ≠ dev := ne_of_live .root hnd
  have h0m : (0 : Nat) ≠ mnt := ne_of_live .root hnm
  have hdm : dev ≠ mnt := fun he => hmnt (he ▸ .inl rfl)
  have hdev₂ : dev ∈ growKids (growKids kids 0 dev) 0 mnt 0 := by
    rw [growKids_parent, growKids_parent]
    simp
  have hmnt₂ : mnt ∈ growKids (growKids kids 0 dev) 0 mnt 0 := by
    rw [growKids_parent]
    simp
  have hkd : growKids (growKids kids 0 dev) 0 mnt dev = [] := by
    rw [growKids_other h0d.symm hdm, growKids_self h0d]
  have hld : (V₂ dev).link = false := by
    rw [Vinode.link_of_flat (hflat₂ dev hdm)]
    exact hl₁
  -- the children of `/dev` and of `/mnt`
  obtain ⟨kids₃, R₃, hinv₃, hgrow₃, hsame₃, hflat₃⟩ :=
    prepareDir_inv 0 hinv₂ (.kid .root hdev₂) hld hkd (.kid (.refl .root) hdev₂) h₃
  have hmnt₃ := (hgrow₃ 0 .root).2 hmnt₂
  have hkm : kids₃ mnt = [] := by
    rw [hsame₃ mnt (.kid .root hmnt₂) hdm.symm, growKids_self h0m]
  have hlm : (V₃ mnt).link = false := by
    rw [Vinode.link_of_flat (hflat₃ mnt (.inl rfl))]
    exact hl₂
  obtain ⟨kids₄, R₄, hinv₄, hgrow₄, -, hflat₄⟩ :=
    prepareDir_inv 0 hinv₃ (.kid .root hmnt₃) hlm hkm (.kid (.refl .root) hmnt₃) h₄
  have hdev₃ := (hgrow₃ 0 .root).2 hdev₂
  have hdev₄ := (hgrow₄ 0 .root).2 hdev₃
  have hholds : Holds V₄ dev := by
    refine ⟨kids₄, R₄, hinv₄, List.ne_nil_of_mem hdev₄, .kid .root hdev₄, ?_⟩
    rw [Vinode.link_of_flat (hflat₄ dev (hinv₃.live_mem (.kid .root hdev₃))),
      Vinode.link_of_flat (hflat₃ dev (.inr (.inl rfl)))]
    exact hld
  obtain ⟨_, V₅, h₅, _, V₆, h₆, _, V₇, h₇, _, V₈, h₈, _, V₉, h₉, _, V₁₀, h₁₀, _, V₁₁, h₁₁, h⟩ := h
  cases h
  have hend := (((((((hholds.append (.inl rfl) (by decide) (by decide) (by decide) h₅).append
    (.inr rfl) (by decide) (by decide) (by decide) h₆).append
    (.inr rfl) (by decide) (by decide) (by decide) h₇).append
    (.inr rfl) (by decide) (by decide) (by decide) h₈).append
    (.inr rfl) (by decide) (by decide) (by decide) h₉).append
    (.inr rfl) (by decide) (by decide) (by decide) h₁₀).append
    (.inr rfl) (by decide) (by decide) (by decide) h₁₁)
  obtain ⟨kids, R, hinv, hfull, -⟩ := hend
  exact ⟨kids, R, hinv, hfull⟩

end Init

end OsWorkbench.Vfs
