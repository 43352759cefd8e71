import OsWorkbench.Vfs.Careful

/-!
# Runs of careful calls

What the changes of the calls keep of the tree and the rings, if each call is careful and
its lookups populate nothing unsound. Properties of the names can be carried along.
-/

namespace OsWorkbench.Vfs

open Ext2 (has wrAble rdAble typeFile typeDir)
open Lib

variable {V W : Vinodes} {kids : Nat → List Nat} {R : Set Nat}

/-- The name of one of the first two children, which come with their directory. -/
def Leads (kids : Nat → List Nat) (p : Nat) (name : CStr) : Prop :=
  (kids p = [] ∧ name = .lit ".") ∨ ((∃ d, kids p = [d]) ∧ name = .lit "..")

/-- A property that lookups and changes keep, when the vinodes that are populated are `ok`
and new names pass `fits`. -/
structure Durable (ok : State → Nat → Prop) (fits : Vinodes → Nat → CStr → Prop)
    (P : TreeProp) : Prop
    extends Fillable ok P where
  noDot : ∀ {V kids R p name}, Inv V kids R → Live kids p → (V p).link = false → kids p ≠ [] →
    fits V p name → name ≠ .lit "."
  same : ∀ {V W kids R}, (∀ {i}, Live kids i → (W i).name = (V i).name) → P V kids R → P W kids R
  grow : ∀ {V W kids R p n}, Grow V W kids R p n →
    fits V p (W n).name ∨ Leads kids p (W n).name → P V kids R →
      P W (growKids kids p n) (insert n R)
  prune : ∀ {V W kids R R' p x}, Inv V kids R → Live kids p → x ∈ kids p →
    (∀ {i}, Live (pruneKids kids p x) i → (W i).name = (V i).name) → P V kids R →
    P W (pruneKids kids p x) R'

/-! ## Edits -/

section Edits

variable {ok : State → Nat → Prop} {fits : Vinodes → Nat → CStr → Prop} {P : TreeProp}
  {a : Nat} {mode : UInt32}

/-- The flags that do not say what a vinode is. -/
theorem Inv.setMode (h : Inv V kids R) (hlink : has mode typeLink = (V a).link)
    (hused : Typed (V a).mode → Typed mode) :
    Inv (Function.update V a { V a with mode := mode }) kids R := by
  have hmode : ∀ i, (Function.update V a { V a with mode := mode } i).link = (V i).link ∧
      (Typed (V i).mode → Typed (Function.update V a { V a with mode := mode } i).mode) := by
    intro i
    rw [Function.update_apply]
    split_ifs with hi
    · rw [hi]
      exact ⟨hlink, hused⟩
    · exact ⟨rfl, id⟩
  have hfield : ∀ {β : Type} (f : Vinode → β), (∀ (v : Vinode) m, f { v with mode := m } = f v) →
      ∀ i, f (Function.update V a { V a with mode := mode } i) = f (V i) := by
    intro β f hf i
    rw [Function.update_apply]
    split_ifs with hi
    · rw [hf, hi]
    · rfl
  refine h.congr (fun {i} _ => ⟨?_, ?_, ?_, ?_, ?_, .inl (hmode i).1, (hmode i).2⟩)
    ⟨fun {i} _ => (hmode i).1, fun {i} _ => (hmode i).2, fun {i} _ => ?_, fun {i} _ => ?_,
      fun hl i => ?_⟩
  · exact hfield Vinode.name (fun _ _ => rfl) i
  · exact hfield Vinode.dot (fun _ _ => rfl) i
  · exact hfield Vinode.ddot (fun _ _ => rfl) i
  · exact hfield Vinode.next (fun _ _ => rfl) i
  · exact hfield Vinode.child (fun _ _ => rfl) i
  · exact congrArg Int.toNat (hfield Vinode.nextLink (fun _ _ => rfl) i)
  · exact congrArg Int.toNat (hfield Vinode.prevLink (fun _ _ => rfl) i)
  · rw [hfield Vinode.nextLink (fun _ _ => rfl), hfield Vinode.prevLink (fun _ _ => rfl)]
    exact hl i

theorem or_and_eq (a b c : UInt32) : (a ||| b) &&& c = (a &&& c) ||| (b &&& c) :=
  UInt32.toBitVec_inj.mp BitVec.and_or_distrib_right

theorem has_mount (m : UInt32) : has (m ||| mntAble) typeLink = has m typeLink ∧
    has (m &&& ~~~mntAble) typeLink = has m typeLink := by
  have h1 : mntAble &&& typeLink = 0 := by decide
  have h2 : ~~~mntAble &&& typeLink = typeLink := by decide
  constructor
  · simp only [has, or_and_eq, h1, UInt32.or_zero]
  · simp only [has, UInt32.and_assoc, h2]

theorem typed_mount {m : UInt32} (h : Typed m) :
    Typed (m ||| mntAble) ∧ Typed (m &&& ~~~mntAble) := by
  have h1 : mntAble &&& (typeFile ||| typeDir ||| typeLink) = 0 := by decide
  have h2 : ~~~mntAble &&& (typeFile ||| typeDir ||| typeLink) =
      typeFile ||| typeDir ||| typeLink := by
    decide
  constructor
  · simpa only [Typed, has, or_and_eq, h1, UInt32.or_zero] using h
  · simpa only [Typed, has, UInt32.and_assoc, h2] using h

theorem Holding.setMode (hD : Durable ok fits P) (h : Holding P V kids R)
    (hlink : has mode typeLink = (V a).link) (hused : Typed (V a).mode → Typed mode) :
    Holding P (Function.update V a { V a with mode := mode }) kids R where
  inv := h.inv.setMode hlink hused
  full := h.full
  prop := by
    refine hD.same (fun {i} _ => ?_) h.prop
    rw [Function.update_apply]
    split_ifs with hi
    · rw [hi]
    · rfl

/-- What is neither of the tree nor of the rings. -/
theorem Holding.edit (hD : Durable ok fits P) (h : Holding P V kids R) {v : Vinode}
    (hs : SameNode (V a) v) (hm : v.mode = (V a).mode) (hn : v.nextLink = (V a).nextLink)
    (hp : v.prevLink = (V a).prevLink) : Holding P (Function.update V a v) kids R where
  inv := h.inv.edit hs hm hn hp
  full := h.full
  prop := by
    refine hD.same (fun {i} _ => ?_) h.prop
    rw [Function.update_apply]
    split_ifs with hi
    · rw [hi]
      exact hs.name
    · rfl

end Edits

/-! ## The changes -/

section Changes

variable {ok : State → Nat → Prop} {fits : Vinodes → Nat → CStr → Prop} {P : TreeProp}
  {s t : State} {r : Nat} {par idx nidx oidx file : Int} {name : CStr}

theorem appendNode_parent {ending : CStr} {mode : UInt32} {fsType : FsType} {fs : Option Filesys}
    {m : Int} (h : appendNode ending V par name mode fsType fs = .ok (m, W)) : par ≠ -1 := by
  rintro rfl
  simp only [appendNode] at h
  obtain ⟨p, hp, -⟩ := bind_eq_ok.mp h
  obtain ⟨n, hn, -⟩ := get_eq_ok.mp hp
  omega

/-- A vinode that is no link is appended under a name that fits. -/
theorem Holding.append (hD : Durable ok fits P) (h : Holding P V kids R) {p : Nat}
    (hp : Live kids p)
    (hpl : (V p).link = false) (hfit : fits V p name) {ending : CStr} {mode : UInt32}
    {fsType : FsType} {fs : Option Filesys} {m : Int} (hmode : Typed mode)
    (hreal : has mode typeLink = false)
    (happ : appendNode ending V p name mode fsType fs = .ok (m, W)) :
    ∃ n : Nat, m = n ∧ n ∉ R ∧ (W n).link = false ∧
      Holding P W (growKids kids p n) (insert n R) := by
  obtain ⟨-, a, b, -, l, -, -, -, -, hab, -, -⟩ := appendNode_effect h.inv.tree hp hpl happ
  have hne := hD.noDot h.inv hp hpl (by simp [hab]) hfit
  obtain ⟨n, a, b, rfl, ha⟩ := appendNode_spec h.inv hp hpl hne hmode happ
  have hnl := h.inv.not_live ha.fresh
  have hgrow := ha.grow h.inv hp hpl hreal hmode rfl rfl
  have hname : (W n).name = name := by
    rw [ha.self]
    rfl
  refine ⟨n, rfl, ha.fresh, ?_, hgrow.inv, growKids_full hnl h.full, hD.grow hgrow (.inl ?_) h.prop⟩
  · rw [ha.self]
    exact hreal
  · rwa [hname]

theorem Holding.mount (hD : Durable ok fits P) (h : Holding P s.vinodes kids R)
    (hpar : Found s.vinodes kids par) (hfit : fits s.vinodes par.toNat name)
    (hx : exec s (.mount file par name) = .ok (r, t)) :
    ∃ kids' R', Holding P t.vinodes kids' R' := by
  simp only [exec] at hx
  obtain ⟨f, -, hx⟩ := bind_eq_ok.mp hx
  obtain ⟨⟨nidx, V₁⟩, happ, hx⟩ := bind_eq_ok.mp hx
  obtain ⟨V₂, hmnt, hx⟩ := bind_eq_ok.mp hx
  obtain ⟨V₃, hcnt, hx⟩ := bind_eq_ok.mp hx
  obtain ⟨V₄, hridx, hx⟩ := bind_eq_ok.mp hx
  cases hx
  obtain ⟨i, rfl, hi, hil⟩ := hpar.resolve_left (appendNode_parent happ)
  obtain ⟨n, rfl, -, -, h₁⟩ := h.append hD hi hil (by rwa [Int.toNat_natCast] at hfit)
    (by decide) (by decide) happ
  obtain ⟨k, rfl, -, rfl⟩ := modify_eq_ok.mp hmnt
  obtain ⟨-, rfl⟩ := modify_nat hcnt
  have h₂ := h₁.setMode hD (a := k) (has_mount _).2 fun hu => (typed_mount hu).2
  have h₃ := h₂.edit hD (a := n)
    (v := { Function.update V₁ k { V₁ k with mode := (V₁ k).mode &&& ~~~mntAble } n
    with linkcnt := (k : Int) }) ⟨rfl, rfl, rfl, rfl, rfl, .inl rfl, id⟩ rfl rfl rfl
  simp only [mountRidx] at hridx
  obtain ⟨f', -, hridx⟩ := bind_eq_ok.mp hridx
  split at hridx
  · obtain ⟨-, rfl⟩ := modify_nat hridx
    exact ⟨_, _, h₃.edit hD ⟨rfl, rfl, rfl, rfl, rfl, .inl rfl, id⟩ rfl rfl rfl⟩
  · cases hridx
    exact ⟨_, _, h₃⟩

/-- `removeDir` on vinodes of which only a mode was changed. -/
theorem Holding.remove (hD : Durable ok fits P) (h : Holding P V kids R) {V' : Vinodes}
    (h' : Holding P V' kids R) (hnext : nextOf V' = nextOf V)
    (hlink : ∀ i, (V' i).link = (V i).link)
    {p x : Nat} (hp : Live kids p) (hpl : (V p).link = false) (hxl : (V x).link = false)
    (hdet : Detached V x) (hrem : removeDir V' x p = .ok W) :
    ∃ kids' R', Holding P W kids' R' := by
  have hpl' := (hlink p).trans hpl
  have hx := removeDir_mem h'.inv.tree hp hpl' (fun _ => rfl) (fun _ => rfl) hrem
  obtain ⟨R', hpr⟩ := h'.inv.removeDir h'.full hp hpl' ((hlink x).trans hxl) (fun {i r} hi hr => by
    rw [RealOf, hnext, hlink] at hr
    exact hdet.live h.inv.tree hp hx hi hr) hrem
  refine ⟨_, R', hpr.inv, hpr.full, hD.prune h'.inv hp hx (fun {i} hi => ?_) h'.prop⟩
  have hix := (h'.inv.tree.live_prune hp hx).mp hi
  have hlx : Live kids x := .kid hp hx
  refine Vinode.of_flat Vinode.name (fun _ => rfl)
    (hpr.flat ?_ fun hk => hix.2 (.kid (.refl hlx) hk))
  rintro rfl
  exact hix.2 (.refl hlx)

theorem Holding.unmount (hD : Durable ok fits P) (h : Holding P s.vinodes kids R)
    (hidx : Found s.vinodes kids idx) (hpar : Found s.vinodes kids par)
    (hdet : Detached s.vinodes idx.toNat) (hx : exec s (.unmount idx par) = .ok (r, t)) :
    ∃ kids' R', Holding P t.vinodes kids' R' := by
  simp only [exec] at hx
  obtain ⟨d, hd, hx⟩ := bind_eq_ok.mp hx
  obtain ⟨V₁, hmod, hx⟩ := bind_eq_ok.mp hx
  obtain ⟨V₂, hrem, hx⟩ := bind_eq_ok.mp hx
  cases hx
  obtain ⟨i, rfl, -, -⟩ := get_eq_ok.mp hd
  obtain ⟨i', he, hi, hil⟩ := hidx.resolve_left (by omega)
  obtain rfl := Int.ofNat.inj he
  obtain ⟨p, rfl, hp, hpl⟩ := hpar.resolve_left (by
    rintro rfl
    obtain ⟨q, hq, -⟩ := bind_eq_ok.mp hrem
    obtain ⟨n, hn, -⟩ := get_eq_ok.mp hq
    omega)
  obtain ⟨k, -, -, rfl⟩ := modify_eq_ok.mp hmod
  rw [Int.toNat_natCast] at hdet
  have h' := h.setMode hD (a := k) (has_mount _).1 fun hu => (typed_mount hu).1
  refine h.remove hD h' (nextOf_edit rfl) (fun j => ?_) hp hpl hil hdet hrem
  rw [Function.update_apply]
  split_ifs with hj
  · rw [hj]
    exact (has_mount _).1
  · rfl

theorem Holding.create (hD : Durable ok fits P) (h : Holding P s.vinodes kids R)
    (hidx : Found s.vinodes kids idx) (hfit : fits s.vinodes idx.toNat name)
    (hx : exec s (.create idx name) = .ok (r, t)) : ∃ kids' R', Holding P t.vinodes kids' R' := by
  simp only [exec] at hx
  obtain ⟨d, -, hx⟩ := bind_eq_ok.mp hx
  split at hx
  · obtain ⟨⟨ridx, disk⟩, -, hx⟩ := bind_eq_ok.mp hx
    obtain ⟨⟨nidx, V₁⟩, happ, hx⟩ := bind_eq_ok.mp hx
    obtain ⟨V₂, hprep, hx⟩ := bind_eq_ok.mp hx
    obtain ⟨V₃, hmod, hx⟩ := bind_eq_ok.mp hx
    cases hx
    obtain ⟨p, rfl, hp, hpl⟩ := hidx.resolve_left (appendNode_parent happ)
    obtain ⟨n, rfl, hn, hnl, h₁⟩ := h.append hD hp hpl (by rwa [Int.toNat_natCast] at hfit)
      (by decide) (by decide) happ
    have hnd := h.inv.not_live hn
    have hpn : p ≠ n := ne_of_live hp hnd
    have hnp : n ∈ growKids kids p n p := by simp [growKids_parent]
    have hnlive : Live (growKids kids p n) n := .kid (hp.grow hnd) hnp
    have hnone : growKids kids p n n = [] := growKids_self hpn
    obtain ⟨U, a, b, -, -, hpre⟩ := prepareDir_spec p h₁.inv hnlive hnl hnone
      (.kid (.refl (hp.grow hnd)) hnp) hprep
    have hand := h₁.inv.not_live hpre.dot.fresh
    have hdot : Holding P U _ _ := ⟨hpre.dot.inv, growKids_full hand h₁.full,
      hD.grow hpre.dot (.inr (.inl ⟨hnone, hpre.dotName⟩)) h₁.prop⟩
    have hone : growKids (growKids kids p n) n a n = [a] := by
      rw [growKids_parent, hnone]
      rfl
    have hddot : Holding P V₂ _ _ := ⟨hpre.ddot.inv,
      growKids_full (hdot.inv.not_live hpre.ddot.fresh) hdot.full,
      hD.grow hpre.ddot (.inr (.inr ⟨⟨a, hone⟩, hpre.ddotName⟩)) hdot.prop⟩
    obtain ⟨-, rfl⟩ := modify_nat hmod
    exact ⟨_, _, hddot.edit hD ⟨rfl, rfl, rfl, rfl, rfl, .inl rfl, id⟩ rfl rfl rfl⟩
  · cases hx
  · cases hx
    exact ⟨kids, R, h⟩

theorem Holding.removed (hD : Durable ok fits P) (h : Holding P s.vinodes kids R) {dropped : Bool}
    (hnidx : Found s.vinodes kids nidx) (hidx : Found s.vinodes kids idx)
    (hdet : Erases s idx name → Detached s.vinodes nidx.toNat)
    (hx : exec s (.remove dropped nidx idx name) = .ok (r, t)) :
    ∃ kids' R', Holding P t.vinodes kids' R' := by
  simp only [exec] at hx
  obtain ⟨d, hd, hx⟩ := bind_eq_ok.mp hx
  split at hx
  next k htype hfs =>
    obtain ⟨⟨r', disk⟩, herase, hx⟩ := bind_eq_ok.mp hx
    dsimp only at hx
    split at hx
    · cases hx
      exact ⟨kids, R, h⟩
    next hr =>
      obtain ⟨V₁, hrem, hx⟩ := bind_eq_ok.mp hx
      cases hx
      obtain rfl : r' = 0 := not_not.mp hr
      have hstays : Detached s.vinodes nidx.toNat := hdet ⟨d, k, disk, hd, htype, hfs, herase⟩
      obtain ⟨p, rfl, hp, hpl⟩ := hidx.resolve_left (by
        rintro rfl
        obtain ⟨n, hn, -⟩ := get_eq_ok.mp hd
        omega)
      obtain ⟨i, rfl, hi, hil⟩ := hnidx.resolve_left (by
        rintro rfl
        obtain ⟨q, hq, hrem⟩ := bind_eq_ok.mp hrem
        obtain ⟨pre, -, hrem⟩ := bind_eq_ok.mp hrem
        obtain ⟨v, hv, -⟩ := bind_eq_ok.mp hrem
        obtain ⟨n, hn, -⟩ := get_eq_ok.mp hv
        omega)
      rw [Int.toNat_natCast] at hstays
      exact h.remove hD h rfl (fun _ => rfl) hp hpl hil hstays hrem
  · cases hx
  · cases hx
    exact ⟨kids, R, h⟩

theorem Holding.linked (hD : Durable ok fits P) (h : Holding P s.vinodes kids R)
    (hoidx : Found s.vinodes kids oidx) (hpar : Found s.vinodes kids par)
    (hfit : fits s.vinodes par.toNat name) (hx : exec s (.link oidx par name) = .ok (r, t)) :
    ∃ kids' R', Holding P t.vinodes kids' R' := by
  simp only [exec] at hx
  obtain ⟨⟨nidx, V₁⟩, happ, hx⟩ := bind_eq_ok.mp hx
  obtain ⟨V₂, hpath, hx⟩ := bind_eq_ok.mp hx
  obtain ⟨V₃, hadd, hx⟩ := bind_eq_ok.mp hx
  cases hx
  obtain ⟨p, rfl, hp, hpl⟩ := hpar.resolve_left (appendNode_parent happ)
  rw [Int.toNat_natCast] at hfit
  obtain ⟨o, rfl, ho, -⟩ := hoidx.resolve_left (by
    rintro rfl
    obtain ⟨o', n', ho', -⟩ := addLink_effect hadd
    omega)
  obtain ⟨n, a, b, q, l, l', rfl, hlt, hfree, hab, hq, rfl⟩ :=
    appendNode_effect h.inv.tree hp hpl happ
  obtain ⟨path, rfl⟩ := linkPath_eq_ok hpath
  dsimp only at hadd
  rw [Function.update_idem, Function.update_self] at hadd
  have hn := h.inv.not_mem_of_free hfree
  have hnl := h.inv.not_live hn
  have hne := hD.noDot h.inv hp hpl (by simp [hab]) hfit
  let w : Vinode :=
    { appendedNode (.lit "/") s.vinodes n a b name typeLink .vfs none with path := path }
  have hw : w.mode = typeLink := rfl
  have ha : Appended s.vinodes
      (Function.update (Function.update s.vinodes q { s.vinodes q with next := n }) n w) kids R p n
        w :=
    h.inv.tree.appended h.inv.live_mem hp hpl hq hn hlt
      (.other hab (by simp) (h.inv.tree.ddot hp hab) (used_of_mode hw) rfl hne rfl rfl rfl)
      ⟨Int.natCast_nonneg n, Int.natCast_nonneg n⟩ (.inl rfl)
  have hre := addLink_nat hadd
  have hgrow := ha.grow_link h.inv hp hpl (link_of_mode hw) (used_of_mode hw) ho hre
  have hname : (V₃ n).name = name := by
    rw [Vinode.of_core Vinode.name (fun _ => rfl) (hre.core n), ha.self]
    rfl
  refine ⟨_, _, hgrow.inv, growKids_full hnl h.full, hD.grow hgrow (.inl ?_) h.prop⟩
  rwa [hname]

/-- Whether a vinode is handed over or its ring goes with it. -/
theorem Inv.unlinkReal (h : Inv V kids R) (hfull : kids 0 ≠ []) {p k : Nat} (hp : Live kids p)
    (hpl : (V p).link = false) (hk : k ∈ kids p) (hkl : (V k).link = false) (hover : HandedOver V k)
    {V₁ : Vinodes} (hrem : removeLink (promoted V k (prevOf V k)) k = .ok V₁)
    (hdir : Vfs.removeDir V₁ k p = .ok W) : ∃ R₁ R', Pruned V₁ W kids R₁ R' p k := by
  by_cases hsome : ∃ i, Stays V k i ∧ RealOf V i k
  · obtain ⟨i, hi, hir⟩ := hsome
    obtain ⟨hprev, hchild, hnext⟩ := hover.heir i hi hir
    exact ⟨_, h.unlinkHeir hfull hp hpl hk hkl hover.others hprev hchild hnext hrem hdir⟩
  · push Not at hsome
    exact ⟨_, h.unlinkLast hfull hp hpl hk hkl hover.others hsome hrem hdir⟩

/-- The names of what is left are as before. -/
theorem Holding.spliced (hD : Durable ok fits P) (h : Holding P V kids R) {p k : Nat}
    (hp : Live kids p) (hk : k ∈ kids p) {V₀ V₁ : Vinodes} {R₁ R' : Set Nat}
    (hname : ∀ i, (V₀ i).name = (V i).name) (hrem : removeLink V₀ k = .ok V₁)
    (hpr : Pruned V₁ W kids R₁ R' p k) : Holding P W (pruneKids kids p k) R' where
  inv := hpr.inv
  full := hpr.full
  prop := by
    have hlk : Live kids k := .kid hp hk
    refine hD.prune h.inv hp hk (fun {i} hi => ?_) h.prop
    have hik := (h.inv.tree.live_prune hp hk).mp hi
    have hne : i ≠ k := by
      rintro rfl
      exact hik.2 (.refl hlk)
    have hflat := hpr.flat hne fun hj => hik.2 (.kid (.refl hlk) hj)
    have hcore := Vinode.of_core Vinode.name (fun _ => rfl) ((removeLink_effect hrem).core i)
    exact (Vinode.of_flat Vinode.name (fun _ => rfl) hflat).trans (hcore.trans (hname i))

theorem Holding.unlinked (hD : Durable ok fits P) (h : Holding P s.vinodes kids R) {p k : Nat}
    (hp : Live kids p) (hpl : (s.vinodes p).link = false) (hk : k ∈ kids p)
    (hdot : (s.vinodes k).name ≠ .lit ".") (hddot : (s.vinodes k).name ≠ .lit "..")
    (hover : (s.vinodes k).link = false → HandedOver s.vinodes k)
    (hx : exec s (.unlink k p) = .ok (r, t)) : ∃ kids' R', Holding P t.vinodes kids' R' := by
  have hlk : Live kids k := .kid hp hk
  simp only [exec] at hx
  rw [get_nat (h.inv.tree.lt hlk), ok_bind] at hx
  cases hkl : (s.vinodes k).link with
  | true =>
    rw [if_pos (show has (s.vinodes k).mode typeLink = true from hkl), pure_eq_ok, ok_bind] at hx
    obtain ⟨V₁, hrem, hx⟩ := bind_eq_ok.mp hx
    obtain ⟨V₂, hdir, hx⟩ := bind_eq_ok.mp hx
    cases hx
    have hkc : (s.vinodes k).child = -1 := by
      by_contra hc
      exact (h.inv.tree.named hp hk hkl hc).elim hdot hddot
    obtain ⟨R', hpr⟩ := h.inv.unlinkLink h.full hp hpl hk hkl hkc hrem hdir
    exact ⟨_, R', h.spliced hD hp hk (fun _ => rfl) hrem hpr⟩
  | false =>
    rw [if_neg (by simpa [Vinode.link] using hkl)] at hx
    obtain ⟨V₀, hV₀, hx⟩ := bind_eq_ok.mp hx
    obtain ⟨V₁, hrem, hx⟩ := bind_eq_ok.mp hx
    obtain ⟨V₂, hdir, hx⟩ := bind_eq_ok.mp hx
    cases hx
    rw [h.inv.prevLink_eq k] at hV₀
    obtain ⟨-, he⟩ := modify_nat hV₀
    obtain rfl : V₀ = promoted s.vinodes k (prevOf s.vinodes k) := he
    obtain ⟨R₁, R', hpr⟩ := h.inv.unlinkReal h.full hp hpl hk hkl (hover hkl) hrem hdir
    exact ⟨_, R',
      h.spliced hD hp hk (promoted_of Vinode.name (fun _ _ _ _ _ => rfl) _ _ _) hrem hpr⟩

/-- The vinodes that a change is applied to are in the tree. -/
def Targets (V : Vinodes) (kids : Nat → List Nat) : Plan → Prop
  | .finish _ => True
  | .mount _ par _ => Found V kids par
  | .unmount idx par => Found V kids idx ∧ Found V kids par
  | .create idx _ => Found V kids idx
  | .remove _ nidx idx _ => Found V kids nidx ∧ Found V kids idx
  | .link oidx par _ => Found V kids oidx ∧ Found V kids par
  | .unlink k par => ∃ p i : Nat, par = p ∧ k = i ∧ Live kids p ∧ (V p).link = false ∧ i ∈ kids p ∧
      (V i).name ≠ .lit "." ∧ (V i).name ≠ .lit ".."

/-- What a safe change keeps. -/
theorem Holding.exec (hD : Durable ok fits P) (h : Holding P s.vinodes kids R) {pl : Plan}
    (ht : Targets s.vinodes kids pl) (hs : pl.Safe fits s) (hx : Vfs.exec s pl = .ok (r, t)) :
    ∃ kids' R', Holding P t.vinodes kids' R' := by
  cases pl with
  | finish r =>
    cases hx
    exact ⟨kids, R, h⟩
  | mount file par name => exact h.mount hD ht hs hx
  | unmount idx par => exact h.unmount hD ht.1 ht.2 hs hx
  | create idx name => exact h.create hD ht hs hx
  | remove dropped nidx idx name => exact h.removed hD ht.1 ht.2 hs hx
  | link oidx par name => exact h.linked hD ht.1 ht.2 hs hx
  | unlink k par =>
    obtain ⟨p, i, rfl, rfl, hp, hpl, hi, hdot, hddot⟩ := ht
    exact h.unlinked hD hp hpl hi hdot hddot hs hx

end Changes

/-! ## The lookups -/

section Plans

variable {ok : State → Nat → Prop} {P : TreeProp} {s t : State} {m : Int} {path : CStr} {pl : Plan}

/-- What the state of a call is when its lookups are done so far. -/
def Onward (P : TreeProp) (V : Vinodes) (kids : Nat → List Nat) (W : Vinodes)
    (kids' : Nat → List Nat) (R' : Set Nat) : Prop :=
  Holding P W kids' R' ∧ Extends V kids W kids'

theorem guarded_spec (hP : Fillable ok P) (h : Holding P s.vinodes kids R)
    (hlook : guarded ok s = .ok (m, t)) :
    ∃ kids' R', Onward P s.vinodes kids t.vinodes kids' R' ∧ Found t.vinodes kids' m := by
  obtain ⟨kids', R', h', hext, hm⟩ := guardedLoop_spec hP h hlook
  exact ⟨kids', R', ⟨h', hext⟩, hm⟩

theorem strcpyTmp_vinodes (h : strcpyTmp s path = .ok t) : t.vinodes = s.vinodes := by
  obtain ⟨-, rfl⟩ := strcpyTmp_eq_ok.mp h
  rfl

theorem Holding.strcpyTmp (h : Holding P s.vinodes kids R) (hs : strcpyTmp s path = .ok t) :
    Holding P t.vinodes kids R := strcpyTmp_vinodes hs ▸ h

theorem Holding.cutTmp (h : Holding P s.vinodes kids R) (offset : Nat) :
    Holding P (cutTmp s offset).vinodes kids R := h

theorem planAccess_spec {r : Nat} {mode : UInt32} (hP : Fillable ok P)
    (h : Holding P s.vinodes kids R) (hplan : planAccess (guarded ok) s path mode = .ok (r, t)) :
    ∃ kids' R', Holding P t.vinodes kids' R' := by
  simp only [planAccess] at hplan
  obtain ⟨s₁, h₁, hplan⟩ := bind_eq_ok.mp hplan
  obtain ⟨⟨i, s₂⟩, h₂, hplan⟩ := bind_eq_ok.mp hplan
  obtain ⟨kids', R', ⟨h', -⟩, -⟩ := guarded_spec hP (h.strcpyTmp h₁) h₂
  refine ⟨kids', R', ?_⟩
  dsimp only at hplan
  split at hplan
  · cases hplan
    exact h'
  · obtain ⟨v, -, hplan⟩ := bind_eq_ok.mp hplan
    cases hplan
    exact h'

theorem planMount_spec {filename dirname : CStr} (hP : Fillable ok P)
    (h : Holding P s.vinodes kids R)
    (hplan : planMount (guarded ok) s filename dirname = .ok (pl, t)) :
    ∃ kids' R', Holding P t.vinodes kids' R' ∧ Targets t.vinodes kids' pl := by
  simp only [planMount] at hplan
  obtain ⟨⟨r₁, s₁⟩, h₁, hplan⟩ := bind_eq_ok.mp hplan
  obtain ⟨kids₁, R₁, hold₁⟩ := planAccess_spec hP h h₁
  dsimp only at hplan
  split at hplan
  · cases hplan
    exact ⟨kids₁, R₁, hold₁, trivial⟩
  · obtain ⟨⟨r₂, s₂⟩, h₂, hplan⟩ := bind_eq_ok.mp hplan
    obtain ⟨kids₂, R₂, hold₂⟩ := planAccess_spec hP hold₁ h₂
    dsimp only at hplan
    split at hplan
    · cases hplan
      exact ⟨kids₂, R₂, hold₂, trivial⟩
    · obtain ⟨s₃, h₃, hplan⟩ := bind_eq_ok.mp hplan
      obtain ⟨⟨file, s₄⟩, h₄, hplan⟩ := bind_eq_ok.mp hplan
      obtain ⟨s₅, h₅, hplan⟩ := bind_eq_ok.mp hplan
      obtain ⟨n, -, hplan⟩ := bind_eq_ok.mp hplan
      obtain ⟨⟨par, s₆⟩, h₆, hplan⟩ := bind_eq_ok.mp hplan
      cases hplan
      obtain ⟨kids₄, R₄, ⟨hold₄, -⟩, -⟩ := guarded_spec hP (hold₂.strcpyTmp h₃) h₄
      obtain ⟨kids₆, R₆, ⟨hold₆, -⟩, hpar⟩ := guarded_spec hP ((hold₄.strcpyTmp h₅).cutTmp _) h₆
      exact ⟨kids₆, R₆, hold₆, hpar⟩

theorem planUnmount_spec (hP : Fillable ok P) (h : Holding P s.vinodes kids R)
    (hplan : planUnmount (guarded ok) s path = .ok (pl, t)) :
    ∃ kids' R', Holding P t.vinodes kids' R' ∧ Targets t.vinodes kids' pl := by
  simp only [planUnmount] at hplan
  obtain ⟨⟨r₁, s₁⟩, h₁, hplan⟩ := bind_eq_ok.mp hplan
  obtain ⟨kids₁, R₁, hold₁⟩ := planAccess_spec hP h h₁
  dsimp only at hplan
  split at hplan
  · cases hplan
    exact ⟨kids₁, R₁, hold₁, trivial⟩
  · obtain ⟨s₂, h₂, hplan⟩ := bind_eq_ok.mp hplan
    obtain ⟨⟨idx, s₃⟩, h₃, hplan⟩ := bind_eq_ok.mp hplan
    obtain ⟨n, -, hplan⟩ := bind_eq_ok.mp hplan
    obtain ⟨⟨par, s₄⟩, h₄, hplan⟩ := bind_eq_ok.mp hplan
    cases hplan
    obtain ⟨kids₃, R₃, ⟨hold₃, -⟩, hidx⟩ := guarded_spec hP (hold₁.strcpyTmp h₂) h₃
    obtain ⟨kids₄, R₄, ⟨hold₄, hext⟩, hpar⟩ := guarded_spec hP (hold₃.cutTmp _) h₄
    exact ⟨kids₄, R₄, hold₄, hidx.extends hext, hpar⟩

theorem planCreate_spec (hP : Fillable ok P) (h : Holding P s.vinodes kids R)
    (hplan : planCreate (guarded ok) s path = .ok (pl, t)) :
    ∃ kids' R', Holding P t.vinodes kids' R' ∧ Targets t.vinodes kids' pl := by
  simp only [planCreate] at hplan
  split at hplan
  · cases hplan
    exact ⟨kids, R, h, trivial⟩
  · obtain ⟨s₁, h₁, hplan⟩ := bind_eq_ok.mp hplan
    obtain ⟨⟨idx, s₂⟩, h₂, hplan⟩ := bind_eq_ok.mp hplan
    cases hplan
    obtain ⟨kids₂, R₂, ⟨hold₂, -⟩, hidx⟩ := guarded_spec hP ((h.strcpyTmp h₁).cutTmp _) h₂
    exact ⟨kids₂, R₂, hold₂, hidx⟩

theorem planRemove_spec {dropped : Bool} (hP : Fillable ok P) (h : Holding P s.vinodes kids R)
    (hplan : planRemove (guarded ok) s path dropped = .ok (pl, t)) :
    ∃ kids' R', Holding P t.vinodes kids' R' ∧ Targets t.vinodes kids' pl := by
  simp only [planRemove] at hplan
  split at hplan
  · cases hplan
    exact ⟨kids, R, h, trivial⟩
  · obtain ⟨s₁, h₁, hplan⟩ := bind_eq_ok.mp hplan
    obtain ⟨⟨nidx, s₂⟩, h₂, hplan⟩ := bind_eq_ok.mp hplan
    obtain ⟨⟨idx, s₃⟩, h₃, hplan⟩ := bind_eq_ok.mp hplan
    cases hplan
    obtain ⟨kids₂, R₂, ⟨hold₂, -⟩, hnidx⟩ := guarded_spec hP (h.strcpyTmp h₁) h₂
    obtain ⟨kids₃, R₃, ⟨hold₃, hext⟩, hidx⟩ := guarded_spec hP (hold₂.cutTmp _) h₃
    exact ⟨kids₃, R₃, hold₃, hnidx.extends hext, hidx⟩

theorem planLink_spec {oldpath newpath : CStr} (hP : Fillable ok P) (h : Holding P s.vinodes kids R)
    (hplan : planLink (guarded ok) s oldpath newpath = .ok (pl, t)) :
    ∃ kids' R', Holding P t.vinodes kids' R' ∧ Targets t.vinodes kids' pl := by
  simp only [planLink] at hplan
  obtain ⟨s₁, h₁, hplan⟩ := bind_eq_ok.mp hplan
  obtain ⟨⟨oidx, s₂⟩, h₂, hplan⟩ := bind_eq_ok.mp hplan
  obtain ⟨kids₂, R₂, ⟨hold₂, -⟩, hoidx⟩ := guarded_spec hP (h.strcpyTmp h₁) h₂
  dsimp only at hplan
  split at hplan
  · cases hplan
    exact ⟨kids₂, R₂, hold₂, trivial⟩
  · obtain ⟨s₃, h₃, hplan⟩ := bind_eq_ok.mp hplan
    obtain ⟨⟨nidx, s₄⟩, h₄, hplan⟩ := bind_eq_ok.mp hplan
    have hold₃ := hold₂.strcpyTmp h₃
    rw [← strcpyTmp_vinodes h₃] at hoidx
    obtain ⟨kids₄, R₄, ⟨hold₄, hext₄⟩, -⟩ := guarded_spec hP hold₃ h₄
    dsimp only at hplan
    split at hplan
    · cases hplan
      exact ⟨kids₄, R₄, hold₄, trivial⟩
    · obtain ⟨n, -, hplan⟩ := bind_eq_ok.mp hplan
      obtain ⟨⟨par, s₅⟩, h₅, hplan⟩ := bind_eq_ok.mp hplan
      cases hplan
      obtain ⟨kids₅, R₅, ⟨hold₅, hext₅⟩, hpar⟩ := guarded_spec hP (hold₄.cutTmp _) h₅
      exact ⟨kids₅, R₅, hold₅, (hoidx.extends hext₄).extends hext₅, hpar⟩

theorem planUnlink_spec (hP : Fillable ok P) (h : Holding P s.vinodes kids R)
    (hplan : planUnlink (guarded ok) s path = .ok (pl, t)) :
    ∃ kids' R', Holding P t.vinodes kids' R' ∧ Targets t.vinodes kids' pl := by
  simp only [planUnlink] at hplan
  obtain ⟨s₁, h₁, hplan⟩ := bind_eq_ok.mp hplan
  obtain ⟨n, -, hplan⟩ := bind_eq_ok.mp hplan
  obtain ⟨⟨par, s₂⟩, h₂, hplan⟩ := bind_eq_ok.mp hplan
  obtain ⟨kids₂, R₂, ⟨hold₂, -⟩, hpar⟩ := guarded_spec hP ((h.strcpyTmp h₁).cutTmp _) h₂
  dsimp only at hplan
  obtain ⟨p, hp, hplan⟩ := bind_eq_ok.mp hplan
  obtain ⟨k, hk, hplan⟩ := bind_eq_ok.mp hplan
  split at hplan
  · cases hplan
    exact ⟨kids₂, R₂, hold₂, trivial⟩
  next hne =>
    obtain ⟨v, hv, hplan⟩ := bind_eq_ok.mp hplan
    obtain ⟨_, hdot, hplan⟩ := bind_eq_ok.mp hplan
    obtain ⟨_, hddot, hplan⟩ := bind_eq_ok.mp hplan
    split at hplan
    · cases hplan
      obtain ⟨d, rfl, hd, hdl⟩ := hpar.resolve_left (by
        rintro rfl
        obtain ⟨n, hn, -⟩ := get_eq_ok.mp hp
        omega)
      obtain rfl := get_nat_eq hp
      rw [hold₂.inv.tree.findChild hd hdl] at hk
      have hk := Except.ok.inj hk
      cases hfind :
        (kids₂ d).find? fun j => (t.vinodes j).name == t.str (path.length - n - 1 + 1) with
      | none =>
        rw [hfind] at hk
        exact absurd hk.symm hne
      | some i =>
        rw [hfind] at hk
        obtain rfl := hk
        obtain rfl := get_nat_eq hv
        exact ⟨kids₂, R₂, hold₂, d, i, rfl, rfl, hd, hdl, List.mem_of_find?_eq_some hfind,
          of_check_eq_ok hdot, of_check_eq_ok hddot⟩
    · exact planRemove_spec hP hold₂ hplan

/-- The lookups of a call keep what populating keeps, and they find vinodes of the tree. -/
theorem plan_spec (hP : Fillable ok P) (h : Holding P s.vinodes kids R) {c : Call}
    (hplan : plan (guarded ok) s c = .ok (pl, t)) :
    ∃ kids' R', Holding P t.vinodes kids' R' ∧ Targets t.vinodes kids' pl := by
  cases c with
  | access path mode =>
    simp only [plan] at hplan
    obtain ⟨⟨r, s₁⟩, h₁, hplan⟩ := bind_eq_ok.mp hplan
    cases hplan
    obtain ⟨kids', R', h'⟩ := planAccess_spec hP h h₁
    exact ⟨kids', R', h', trivial⟩
  | mount filename dirname => exact planMount_spec hP h hplan
  | unmount path => exact planUnmount_spec hP h hplan
  | create path => exact planCreate_spec hP h hplan
  | remove path => exact planRemove_spec hP h hplan
  | link oldpath newpath => exact planLink_spec hP h hplan
  | unlink path => exact planUnlink_spec hP h hplan

end Plans

/-! ## Calls -/

section Calls

variable {ok : State → Nat → Prop} {look look' : State → Except Fault (Int × State)} {s t : State}
  {path : CStr}

theorem bind_mono {α β : Type} {x y : Except Fault α} {f g : α → Except Fault β} {b : β}
    (hx : ∀ a, x = .ok a → y = .ok a) (hf : ∀ a, f a = .ok b → g a = .ok b)
    (h : x >>= f = .ok b) : y >>= g = .ok b := by
  obtain ⟨a, ha, hb⟩ := bind_eq_ok.mp h
  rw [hx a ha, ok_bind]
  exact hf a hb

/-- A lookup that is not stopped is the lookup of the code. -/
theorem lookupAutoLoop_of_guarded {fuel : Nat} {x : Int × State}
    (h : guardedLoop ok fuel s = .ok x) :
    lookupAutoLoop fuel s = .ok x := by
  induction fuel generalizing s with
  | zero => cases h
  | succ fuel ih =>
    simp only [guardedLoop] at h
    simp only [lookupAutoLoop]
    refine bind_mono (fun _ => id) (fun a h => ?_) h
    split at h
    next hflag =>
      rw [if_pos hflag]
      exact h
    next hflag =>
      rw [if_neg hflag]
      refine bind_mono (fun _ => id) (fun d h => ?_) h
      split at h
      next hfs =>
        rw [if_pos hfs]
        exact h
      next hfs =>
        rw [if_neg hfs]
        split at h
        next hc =>
          rw [if_pos hc]
          exact h
        next hc =>
          rw [if_neg hc]
          obtain ⟨_, -, h⟩ := bind_eq_ok.mp h
          refine bind_mono (fun _ => id) (fun y h => ?_) h
          split at h
          next hn =>
            rw [if_pos hn]
            exact h
          next hn =>
            rw [if_neg hn]
            exact bind_mono (fun _ => id) (fun _ h => bind_mono (fun _ => id) (fun _ h => ih h) h) h

/-- The lookup finds all that the other one finds. -/
def Finds (look look' : State → Except Fault (Int × State)) : Prop :=
  ∀ s x, look s = .ok x → look' s = .ok x

theorem finds_guarded (ok : State → Nat → Prop) : Finds (guarded ok) lookupAuto :=
  fun _ _ h => lookupAutoLoop_of_guarded h

section Finds

variable (hl : Finds look look')

include hl

theorem planAccess_mono {mode : UInt32} {x : Nat × State}
    (h : planAccess look s path mode = .ok x) :
    planAccess look' s path mode = .ok x :=
  bind_mono (fun _ => id) (fun _ h => bind_mono (hl _) (fun _ => id) h) h

theorem planMount_mono {filename dirname : CStr} {x : Plan × State}
    (h : planMount look s filename dirname = .ok x) :
    planMount look' s filename dirname = .ok x := by
  refine bind_mono (fun _ => planAccess_mono hl) (fun a h => ?_) h
  dsimp only at h ⊢
  split at h
  next hr =>
    rw [if_pos hr]
    exact h
  next hr =>
    rw [if_neg hr]
    refine bind_mono (fun _ => planAccess_mono hl) (fun b h => ?_) h
    split at h
    next hr =>
      rw [if_pos hr]
      exact h
    next hr =>
      rw [if_neg hr]
      exact bind_mono (fun _ => id) (fun _ h => bind_mono (hl _) (fun _ h => bind_mono (fun _ => id)
        (fun _ h => bind_mono (fun _ => id) (fun _ h => bind_mono (hl _) (fun _ => id) h) h) h) h) h

theorem planUnmount_mono {x : Plan × State} (h : planUnmount look s path = .ok x) :
    planUnmount look' s path = .ok x := by
  refine bind_mono (fun _ => planAccess_mono hl) (fun a h => ?_) h
  dsimp only at h ⊢
  split at h
  next hr =>
    rw [if_pos hr]
    exact h
  next hr =>
    rw [if_neg hr]
    exact bind_mono (fun _ => id) (fun _ h => bind_mono (hl _) (fun _ h => bind_mono (fun _ => id)
      (fun _ h => bind_mono (hl _) (fun _ => id) h) h) h) h

theorem planCreate_mono {x : Plan × State} (h : planCreate look s path = .ok x) :
    planCreate look' s path = .ok x := by
  simp only [planCreate] at h ⊢
  split at h
  next hp =>
    rw [if_pos hp]
    exact h
  next hp =>
    rw [if_neg hp]
    exact bind_mono (fun _ => id) (fun _ h => bind_mono (hl _) (fun _ => id) h) h

theorem planRemove_mono {dropped : Bool} {x : Plan × State}
    (h : planRemove look s path dropped = .ok x) :
    planRemove look' s path dropped = .ok x := by
  simp only [planRemove] at h ⊢
  split at h
  next hp =>
    rw [if_pos hp]
    exact h
  next hp =>
    rw [if_neg hp]
    exact bind_mono (fun _ => id) (fun _ h => bind_mono (hl _) (fun _ h =>
      bind_mono (hl _) (fun _ => id) h) h) h

theorem planLink_mono {oldpath newpath : CStr} {x : Plan × State}
    (h : planLink look s oldpath newpath = .ok x) : planLink look' s oldpath newpath = .ok x := by
  refine bind_mono (fun _ => id) (fun a h => bind_mono (hl _) (fun b h => ?_) h) h
  dsimp only at h ⊢
  split at h
  next hr =>
    rw [if_pos hr]
    exact h
  next hr =>
    rw [if_neg hr]
    refine bind_mono (fun _ => id) (fun a h => bind_mono (hl _) (fun b h => ?_) h) h
    split at h
    next hr =>
      rw [if_pos hr]
      exact h
    next hr =>
      rw [if_neg hr]
      exact bind_mono (fun _ => id) (fun _ h => bind_mono (hl _) (fun _ => id) h) h

theorem planUnlink_mono {x : Plan × State} (h : planUnlink look s path = .ok x) :
    planUnlink look' s path = .ok x := by
  refine bind_mono (fun _ => id) (fun a h => bind_mono (fun _ => id) (fun n h =>
    bind_mono (hl _) (fun b h => bind_mono (fun _ => id) (fun p h =>
      bind_mono (fun _ => id) (fun k h => ?_) h) h) h) h) h
  split at h
  next hk =>
    rw [if_pos hk]
    exact h
  next hk =>
    rw [if_neg hk]
    refine bind_mono (fun _ => id) (fun v h => bind_mono (fun _ => id) (fun _ h =>
      bind_mono (fun _ => id) (fun _ h => ?_) h) h) h
    split at h
    next hv =>
      rw [if_pos hv]
      exact h
    next hv =>
      rw [if_neg hv]
      exact planRemove_mono hl h

theorem plan_mono {c : Call} {x : Plan × State} (h : plan look s c = .ok x) :
    plan look' s c = .ok x := by
  cases c with
  | access path mode => exact bind_mono (fun _ => planAccess_mono hl) (fun _ => id) h
  | mount filename dirname => exact planMount_mono hl h
  | unmount path => exact planUnmount_mono hl h
  | create path => exact planCreate_mono hl h
  | remove path => exact planRemove_mono hl h
  | link oldpath newpath => exact planLink_mono hl h
  | unlink path => exact planUnlink_mono hl h

end Finds

/-- The lookups of the call populate only what is `ok`, and its change is safe. -/
def Careful (ok : State → Nat → Prop) (fits : Vinodes → Nat → CStr → Prop) (s : State) (c : Call) :
    Prop :=
  ∃ pl t, plan (guarded ok) s c = .ok (pl, t) ∧ pl.Safe fits t

/-- The states that `vfs_init` and careful calls after it lead to. -/
inductive CarefullyReached (ok : State → Nat → Prop) (fits : Vinodes → Nat → CStr → Prop) :
    State → Prop
  | init {dev : Fin 2 → Ext2.Device} {totalProc : Nat} {before : UInt8} {s : State} :
      vfsInit dev totalProc before = .ok s → CarefullyReached ok fits s
  | step {s t : State} {c : Call} {r : Nat} : CarefullyReached ok fits s → Careful ok fits s c →
      call s c = .ok (r, t) → CarefullyReached ok fits t

/-- What a careful call keeps. -/
theorem Careful.holding {fits : Vinodes → Nat → CStr → Prop} {P : TreeProp} {c : Call} {r : Nat}
    (hc : Careful ok fits s c) (hD : Durable ok fits P) (h : Holding P s.vinodes kids R)
    (hcall : call s c = .ok (r, t)) : ∃ kids' R', Holding P t.vinodes kids' R' := by
  obtain ⟨pl, u, hplan, hsafe⟩ := hc
  obtain ⟨kids₁, R₁, h₁, htargets⟩ := plan_spec hD.toFillable h hplan
  rw [call_eq, plan_mono (finds_guarded ok) hplan, ok_bind] at hcall
  exact h₁.exec hD htargets hsafe hcall

end Calls

end OsWorkbench.Vfs
