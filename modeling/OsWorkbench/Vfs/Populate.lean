import OsWorkbench.Vfs.Build
import OsWorkbench.Vfs.Paths

/-!
# Populating directories

`lookup_auto` fills a directory without children with the entries that its file system
lists. Each entry becomes the last child; the loop keeps the last child, `"."` and
`".."` in its variables.
-/

namespace OsWorkbench.Vfs

open Ext2 (has typeFile typeDir)
open Lib

variable {V W : Vinodes} {kids : Nat → List Nat} {R : Set Nat}

/-! ## One entry -/

/-- Where the loop stands when it has entered the children of `i` so far. -/
inductive At (V : Vinodes) (kids : Nat → List Nat) (i : Nat) (c : Cursor) : Prop
  | empty : kids i = [] → c.oidx = -1 → c.dot = -1 → c.ddot = -1 → At V kids i c
  | some {a q : Nat} {l l' : List Nat} : kids i = a :: l → kids i = l' ++ [q] → c.oidx = q →
      c.dot = a →
      (c.ddot = -1 ∨ ∃ b ∈ l, c.ddot = (b : Int) ∧ (V b).link = true ∧ (V b).child ≠ -1) →
      At V kids i c

/-- What the vinode for the entry `e` of the directory `i` is like. -/
structure Entering (V : Vinodes) (kids : Nat → List Nat) (i : Nat) (e : Ext2.Entry) (w : Vinode) :
    Prop where
  name : w.name = e.name
  first : kids i = [] ↔ e.name = .lit "."
  link : e.name = .lit "." ∨ e.name = .lit ".." → w.mode = typeLink
  dotPath : e.name = .lit "." → w.path = (V i).path
  child : e.name ≠ .lit "." → e.name ≠ .lit ".." → w.child = -1
  mode : e.name ≠ .lit "." → e.name ≠ .lit ".." → w.mode = e.mode
  path : e.name ≠ .lit "." → e.name ≠ .lit ".." → w.path.length < maxPathLength ∧
    w.path = if has e.mode typeDir then ((V i).path.append e.name).append (.lit "/")
      else (V i).path.append e.name

section Enter

variable {i n : Nat} {c c' : Cursor} {e : Ext2.Entry}

theorem enterDot_spec (h : Inv V kids R) (hi : Live kids i) (hl : (V i).link = false) (hn : n ∉ R)
    (hlt : n < maxVinode) (hat : At V kids i c) (hname : e.name = .lit ".")
    (he : enterDot V i n c = .ok (c', W)) :
    c' = { c with dot := n } ∧ c.ddot = -1 ∧ Grow V W kids R i n ∧ Entering V kids i e (W n) := by
  simp only [enterDot, bind_eq_ok] at he
  obtain ⟨_, ho, V₁, h₁, d, hd, V₂, h₂, V₃, h₃, he⟩ := he
  cases he
  obtain ⟨-, rfl⟩ := modify_nat h₁
  obtain ⟨-, rfl⟩ := modify_nat h₂
  have hdp : d.path = (V i).path := by rw [get_nat_eq hd, Function.update_self]
  have hre := addLink_nat h₃
  have hin : i ≠ n := ne_of_mem_of_not_mem (h.live_mem hi) hn
  cases hat with
  | some _ _ hq _ _ =>
    rw [check_eq_ok, hq] at ho
    simp at ho
  | empty hk _ _ hdd =>
    have hself : ∀ {β : Type} (f : Vinode → β), (∀ v, f v.core = f v) → f (W n) = f
        { Function.update V i { V i with child := n } n with
          name := .lit ".", path := d.path, dot := -1, ddot := -1, next := -1, child := i
          prevLink := n, nextLink := n, linkcnt := 1, mode := typeLink } := by
      intro β f hf
      rw [Vinode.of_core f hf (hre.core n), Function.update_self]
    refine ⟨rfl, hdd, ?_,
      ⟨?_, iff_of_true hk hname, fun _ => ?_, fun _ => ?_, fun h1 => ?_, fun h1 => ?_,
      fun h1 => ?_⟩⟩
    · exact h.dot hi hl hk hn hlt hre rfl rfl rfl rfl rfl rfl
        ⟨Int.natCast_nonneg n, Int.natCast_nonneg n⟩
    · exact (hself Vinode.name fun _ => rfl).trans hname.symm
    · exact hself Vinode.mode fun _ => rfl
    · exact (hself Vinode.path fun _ => rfl).trans hdp
    · exact absurd hname h1
    · exact absurd hname h1
    · exact absurd hname h1

theorem enterDdot_spec {p : Nat} (h : Inv V kids R) (hp : Live kids p) (hip : i ∈ kids p)
    (hl : (V i).link = false) (hn : n ∉ R) (hlt : n < maxVinode) (hat : At V kids i c)
    (hname : e.name = .lit "..") (he : enterDdot V i n c = .ok (c', W)) :
    kids i ≠ [] ∧ c' = { c with ddot := n } ∧ Grow V W kids R i n ∧ (W n).link = true ∧
      (W n).child ≠ -1 ∧ Entering V kids i e (W n) := by
  have hi : Live kids i := .kid hp hip
  simp only [enterDdot, bind_eq_ok] at he
  obtain ⟨o, ho, _, -, V₁, h₁, d, hd, dot, hdot, par, -, ddot, hddot, V₂, h₂, V₃, h₃, he⟩ := he
  cases he
  cases hat with
  | empty _ hq _ _ =>
    rw [hq] at ho
    obtain ⟨m, hm, -⟩ := get_eq_ok.mp ho
    simp at hm
  | @some a q l l' hal hlq hq hca _ =>
    rw [hq] at h₁
    obtain ⟨-, rfl⟩ := modify_nat h₁
    obtain rfl := get_nat_eq hd
    have hqi : q ∈ kids i := by simp [hlq]
    have hiq : i ≠ q := fun he => h.tree.not_mem_self hi (he ▸ hqi)
    have hqn : q ≠ n := ne_of_mem_of_not_mem (h.live_mem (.kid hi hqi)) hn
    have hchild : ∀ j, (Function.update V q { V q with next := n, ddot := n } j).child =
        (V j).child := by
      intro j
      rw [Function.update_apply]
      split_ifs with hj
      · rw [hj]
      · rfl
    -- the siblings of `i` lead to its parent
    rw [Function.update_of_ne hiq] at hdot hddot
    obtain ⟨a', l'', hal'⟩ := List.exists_cons_of_ne_nil (List.ne_nil_of_mem hip)
    obtain ⟨hal₁, -, hac, -⟩ := h.tree.dot hp hal'
    have hil : i ∈ l'' := by
      rw [hal', List.mem_cons] at hip
      refine hip.resolve_left ?_
      rintro rfl
      rw [hl] at hal₁
      cases hal₁
    obtain ⟨hid, b, hbl, hidd, hbl', hbc⟩ := h.tree.sib hp hal' hil (.inl hl)
    rw [hid] at hdot
    rw [hidd] at hddot
    obtain rfl := get_nat_eq hdot
    obtain rfl := get_nat_eq hddot
    rw [hchild, hac] at h₃
    obtain ⟨x, hx, hanc⟩ := h.tree.up hp (by simp [hal', hbl]) hbl' hbc
    obtain ⟨-, rfl⟩ := modify_nat h₂
    have hre := addLink_nat h₃
    have hxc : (Function.update V q { V q with next := n, ddot := n } b).child = x :=
      (hchild b).trans hx
    have hne : kids i ≠ [] := by simp [hal]
    have hmode : (W n).mode = typeLink := by
      rw [Vinode.of_core Vinode.mode (fun _ => rfl) (hre.core n), Function.update_self]
    have hdot : e.name ≠ .lit "." := by
      rw [hname]
      decide
    refine ⟨hne, rfl, ?_, link_of_mode hmode, ?_, ⟨?_, iff_of_false hne hdot, fun _ => hmode,
      fun h1 => absurd h1 hdot, fun _ h2 => absurd hname h2, fun _ h2 => absurd hname h2,
      fun _ h2 => absurd hname h2⟩⟩
    · exact h.ddot hi hl hlq hn hlt hp hre rfl rfl (.inr rfl) rfl rfl rfl hxc (.kid hanc hip)
        ⟨Int.natCast_nonneg n, Int.natCast_nonneg n⟩
    · rw [Vinode.of_core Vinode.child (fun _ => rfl) (hre.core n), Function.update_self, hxc]
      simp
    · rw [Vinode.of_core Vinode.name (fun _ => rfl) (hre.core n), Function.update_self]
      exact hname.symm

theorem enterOther_spec (h : Inv V kids R) (hi : Live kids i) (hl : (V i).link = false) (hn : n ∉ R)
    (hlt : n < maxVinode) (hat : At V kids i c) (hdot : e.name ≠ .lit ".")
    (hddot : e.name ≠ .lit "..") (hmode : Typed e.mode) (hreal : has e.mode typeLink = false)
    (he : enterOther V i n c e = .ok (c', W)) :
    kids i ≠ [] ∧ c' = c ∧ Grow V W kids R i n ∧ Entering V kids i e (W n) := by
  simp only [enterOther, bind_eq_ok] at he
  obtain ⟨_, hcheck, o, ho, _, -, V₁, h₁, d, hd, path, hpath, V₂, h₂, he⟩ := he
  cases he
  rw [check_eq_ok] at hcheck
  cases hat with
  | empty _ _ hdot _ => exact absurd hdot hcheck.1
  | @some a q l l' hal hlq hq hca hcd =>
    rw [hq] at h₁
    obtain ⟨-, rfl⟩ := modify_nat h₁
    obtain ⟨-, rfl⟩ := modify_nat h₂
    obtain ⟨b, hbl, hcb, hb⟩ := hcd.resolve_left hcheck.2
    have hne : kids i ≠ [] := by simp [hal]
    have hqi : q ∈ kids i := by simp [hlq]
    have hiq : i ≠ q := fun he => h.tree.not_mem_self hi (he ▸ hqi)
    obtain rfl := get_nat_eq hd
    rw [Function.update_of_ne hiq] at hpath
    obtain ⟨hlen, rfl⟩ := charArray_eq_ok.mp hpath
    refine ⟨hne, rfl, ?_,
      ⟨?_, iff_of_false hne hdot, fun h1 => ?_, fun h1 => absurd h1 hdot, fun _ _ => ?_,
      fun _ _ => ?_, fun _ _ => ?_⟩⟩
    · refine (h.tree.appended h.live_mem hi hl hlq hn hlt
        (.other hal hbl hb hmode rfl hdot rfl hca hcb) ?_ (.inl rfl)).grow h hi hl hreal hmode rfl
          rfl
      exact ⟨Int.natCast_nonneg n, Int.natCast_nonneg n⟩
    · rw [Function.update_self]
    · rcases h1 with h1 | h1
      · exact absurd h1 hdot
      · exact absurd h1 hddot
    · rw [Function.update_self]
    · rw [Function.update_self]
    · rw [Function.update_self]
      exact ⟨hlen, rfl⟩

theorem At.congr (h : At V kids i c)
    (hs : ∀ b ∈ kids i, (W b).link = (V b).link ∧ (W b).child = (V b).child) : At W kids i c := by
  cases h with
  | empty hk ho hcd hcdd => exact .empty hk ho hcd hcdd
  | some hal hlq hq hca hcd =>
    refine .some hal hlq hq hca (hcd.imp_right ?_)
    rintro ⟨b, hbl, hcb, hb⟩
    obtain ⟨h1, h2⟩ := hs b (by simp [hal, hbl])
    exact ⟨b, hbl, hcb, h1 ▸ h2 ▸ hb⟩

/-- The loop goes on behind the new child. -/
theorem At.snoc {a b : Nat} {l : List Nat} (hal : kids i = a :: l)
    (hb : b ∈ l ++ [n]) (hbl : (W b).link = true ∧ (W b).child ≠ -1) (x : Int) :
    At W (growKids kids i n) i ⟨n, a, b, x⟩ := by
  have hk : growKids kids i n i = a :: (l ++ [n]) := by rw [growKids_parent, hal, List.cons_append]
  exact .some hk (growKids_parent) rfl rfl (.inr ⟨b, hb, rfl, hbl⟩)

theorem enterEntry_spec {p : Nat} (h : Inv V kids R) (hp : Live kids p) (hip : i ∈ kids p)
    (hl : (V i).link = false) (hn : n ∉ R) (hlt : n < maxVinode) (hat : At V kids i c)
    (hgood : e.name ≠ .lit "." → e.name ≠ .lit ".." → Typed e.mode ∧ has e.mode typeLink = false)
    (he : enterEntry V i n c e = .ok (c', W)) :
    Grow V W kids R i n ∧ Entering V kids i e (W n) ∧
      ∀ x, At W (growKids kids i n) i ⟨n, c'.dot, c'.ddot, x⟩ := by
  have hi : Live kids i := .kid hp hip
  unfold enterEntry at he
  split at he
  next hdot =>
    obtain ⟨rfl, hdd, hgrow, hent⟩ := enterDot_spec h hi hl hn hlt hat hdot he
    refine ⟨hgrow, hent, fun x => ?_⟩
    have hk' : growKids kids i n i = [n] := by
      rw [growKids_parent, hent.first.mpr hdot, List.nil_append]
    exact .some hk' (show growKids kids i n i = [] ++ [n] from hk') rfl rfl (.inl hdd)
  next hdot =>
    split at he
    next hddot =>
      obtain ⟨hk, rfl, hgrow, hlink, hchild, hent⟩ := enterDdot_spec h hp hip hl hn hlt hat hddot he
      refine ⟨hgrow, hent, fun x => ?_⟩
      cases hat with
      | empty hnil _ _ _ => exact absurd hnil hk
      | some hal _ _ hca _ =>
        have := At.snoc (W := W) (n := n) hal (b := n) (by simp) ⟨hlink, hchild⟩ x
        rwa [← hca] at this
    next hddot =>
      obtain ⟨hmode, hreal⟩ := hgood hdot hddot
      obtain ⟨hk, rfl, hgrow, hent⟩ := enterOther_spec h hi hl hn hlt hat hdot hddot hmode hreal he
      refine ⟨hgrow, hent, fun x => ?_⟩
      cases hat with
      | empty hnil _ _ _ => exact absurd hnil hk
      | @some a q l l' hal hlq hq hca hcd =>
        rcases hcd with hcd | ⟨b, hbl, hcb, hbk, hbc⟩
        · have hk' : growKids kids i n i = a :: (l ++ [n]) := by
            rw [growKids_parent, hal, List.cons_append]
          exact .some hk' growKids_parent rfl hca (.inl hcd)
        · have hbi : b ∈ kids i := by simp [hal, hbl]
          have hbn : b ≠ n := ne_of_mem_of_not_mem (h.live_mem (.kid hi hbi)) hn
          have hbi' : b ≠ i := fun he => h.tree.not_mem_self hi (he ▸ hbi)
          have := At.snoc (W := W) (n := n) hal (b := b) (by simp [hbl])
            ⟨(Vinode.link_of_flat (hgrow.flat hbn)).trans hbk, hgrow.child hbn (.inl hbi') ▸ hbc⟩ x
          rwa [← hca, ← hcb] at this

theorem Entering.congr {w w' : Vinode} (h : Entering V kids i e w)
    (hp : (W i).path = (V i).path) (hn : w'.name = w.name) (hm : w'.mode = w.mode)
    (hpath : w'.path = w.path) (hc : w'.child = w.child) : Entering W kids i e w' where
  name := hn.trans h.name
  first := h.first
  link h1 := hm.trans (h.link h1)
  dotPath h1 := by rw [hpath, hp, h.dotPath h1]
  child h1 h2 := hc.trans (h.child h1 h2)
  mode h1 h2 := hm.trans (h.mode h1 h2)
  path h1 h2 := by
    rw [hpath, hp]
    exact h.path h1 h2

theorem enter_spec {p : Nat} {path : List UInt8} (h : Inv V kids R) (hp : Live kids p)
    (hip : i ∈ kids p) (hl : (V i).link = false) (hat : At V kids i c)
    (hgood : e.name ≠ .lit "." → e.name ≠ .lit ".." → Typed e.mode ∧ has e.mode typeLink = false)
    (he : enter V i path c e = .ok (c', W)) :
    ∃ n : Nat, (V n).mode = 0 ∧ Grow V W kids R i n ∧ Entering V kids i e (W n) ∧
      At W (growKids kids i n) i c' := by
  have hi : Live kids i := .kid hp hip
  simp only [enter] at he
  rcases ha : vinodesAlloc V with ⟨m, Va⟩
  rw [ha] at he
  obtain ⟨_, hm, he⟩ := bind_eq_ok.mp he
  obtain ⟨⟨c₁, V₁⟩, h₁, he⟩ := bind_eq_ok.mp he
  obtain ⟨d, hd, he⟩ := bind_eq_ok.mp he
  obtain ⟨V₂, h₂, he⟩ := bind_eq_ok.mp he
  obtain ⟨n, rfl, hlt, hn, ha', hsame, hfree, -⟩ := (h.alloc ha).resolve_left (check_eq_ok.mp hm)
  have hin : i ≠ n := ne_of_mem_of_not_mem (h.live_mem hi) hn
  have hl' : (Va i).link = false := by rw [hsame i hin]; exact hl
  have hat' : At Va kids i c := hat.congr fun b hb => by
    rw [hsame b (ne_of_mem_of_not_mem (h.live_mem (.kid hi hb)) hn)]
    exact ⟨rfl, rfl⟩
  obtain ⟨hgrow, hent, hat₁⟩ := enterEntry_spec ha' hp hip hl' hn hlt hat' hgood h₁
  obtain ⟨-, rfl⟩ := modify_nat h₂
  have hc' : ∃ x, W = Function.update V₁ n { V₁ n with
      ridx := e.ridx, fsType := d.fsType, fs := d.fs } ∧ c' = ⟨n, c₁.dot, c₁.ddot, x⟩ := by
    split at he
    · obtain ⟨_, -, he⟩ := bind_eq_ok.mp he
      exact ⟨_, (congrArg Prod.snd (Except.ok.inj he)).symm,
        (congrArg Prod.fst (Except.ok.inj he)).symm⟩
    · exact ⟨_, (congrArg Prod.snd (Except.ok.inj he)).symm,
        (congrArg Prod.fst (Except.ok.inj he)).symm⟩
  obtain ⟨x, rfl, rfl⟩ := hc'
  have hnl := h.not_live hn
  refine ⟨n, hfree, ?_, ?_, ?_⟩
  · have hedit := hgrow.edit hnl (v := { V₁ n with ridx := e.ridx, fsType := d.fsType, fs := d.fs })
      ⟨rfl, rfl, rfl, rfl, rfl, .inl rfl, id⟩ rfl rfl rfl
    exact hedit.of_same hnl fun i hi => (hsame i hi).symm
  · rw [Function.update_self]
    exact hent.congr (by rw [hsame i hin]) rfl rfl rfl rfl
  · refine (hat₁ x).congr fun b _ => ?_
    rw [Function.update_apply]
    split_ifs with hbn
    · rw [hbn]
      exact ⟨rfl, rfl⟩
    · exact ⟨rfl, rfl⟩

end Enter

/-! ## Whole directories -/

/-- The entry with the number `k` that the file system of the vinode `i` lists for it. -/
def Lists (s : State) (i k : Nat) (e : Ext2.Entry) : Prop :=
  ∃ f u, (s.vinodes i).fs = some f ∧ readdir s f (s.vinodes i).ridx (k + 1) = .ok (some e, u)

/-- The entries of `i` are files and directories. -/
def SoundAt (s : State) (i : Nat) : Prop :=
  ∀ {k e}, Lists s i k e → e.name ≠ .lit "." → e.name ≠ .lit ".." →
    Typed e.mode ∧ has e.mode typeLink = false

/-- The tree only grows, and its vinodes are what they were. -/
def Extends (V : Vinodes) (kids : Nat → List Nat) (W : Vinodes) (kids' : Nat → List Nat) : Prop :=
  ∀ i, Live kids i → Live kids' i ∧ (W i).flat = (V i).flat

theorem Extends.refl (V : Vinodes) (kids : Nat → List Nat) : Extends V kids V kids :=
  fun _ hi => ⟨hi, rfl⟩

theorem Extends.trans {U : Vinodes} {kids₁ kids₂ : Nat → List Nat} (h : Extends V kids U kids₁)
    (h' : Extends U kids₁ W kids₂) : Extends V kids W kids₂ := fun i hi =>
  ⟨(h' i (h i hi).1).1, (h' i (h i hi).1).2.trans (h i hi).2⟩

/-- One round in the populating of `i`, which began in `s`: the entry `e` with the number
`k` becomes the child `n`. -/
structure Filling (s : State) (V W : Vinodes) (kids : Nat → List Nat) (R : Set Nat) (i n k : Nat)
    (e : Ext2.Entry) : Prop where
  inv : Inv V kids R
  full : kids 0 ≠ []
  same : (V i).flat = (s.vinodes i).flat
  free : (V n).mode = 0
  grow : Grow V W kids R i n
  entering : Entering V kids i e (W n)
  lists : Lists s i k e
  before : ∀ {j}, j ∈ kids i → ∃ k' e', k' < k ∧ Lists s i k' e' ∧ (V j).name = e'.name

/-- A property of the tree and the rings. -/
abbrev TreeProp := Vinodes → (Nat → List Nat) → Set Nat → Prop

/-- Populating a vinode that is `ok` keeps the property. -/
structure Fillable (ok : State → Nat → Prop) (P : TreeProp) : Prop where
  sound : ∀ {s i}, ok s i → SoundAt s i
  step : ∀ {s i V W kids R n k e}, ok s i → Filling s V W kids R i n k e → P V kids R →
    P W (growKids kids i n) (insert n R)

/-- The invariant and the property hold. -/
structure Holding (P : TreeProp) (V : Vinodes) (kids : Nat → List Nat) (R : Set Nat) : Prop where
  inv : Inv V kids R
  full : kids 0 ≠ []
  prop : P V kids R

section Lookups

variable {s t : State} {ok : State → Nat → Prop} {P : TreeProp}

theorem populate_spec {s₁ : State} {path : List UInt8} {p i fuel k : Nat} {c c' : Cursor}
    (hP : Fillable ok P) (hok : ok s i) (himg : SameImage s s₁) (hproc : s₁.totalProc = s.totalProc)
    (hsame : (s₁.vinodes i).flat = (s.vinodes i).flat) (h : Holding P s₁.vinodes kids R)
    (hp : Live kids p) (hip : i ∈ kids p) (hl : (s₁.vinodes i).link = false)
    (hat : At s₁.vinodes kids i c)
    (hbefore :
      ∀ {j}, j ∈ kids i → ∃ k' e', k' < k ∧ Lists s i k' e' ∧ (s₁.vinodes j).name = e'.name)
    (hpop : populate i path fuel k c s₁ = .ok (c', t)) :
    ∃ kids' R', Holding P t.vinodes kids' R' ∧ Extends s₁.vinodes kids t.vinodes kids' := by
  induction fuel generalizing k c s₁ kids R with
  | zero => cases hpop
  | succ fuel ih =>
    have hi : Live kids i := .kid hp hip
    have hfs := Vinode.of_flat Vinode.fs (fun _ => rfl) hsame
    have hridx := Vinode.of_flat Vinode.ridx (fun _ => rfl) hsame
    simp only [populate] at hpop
    obtain ⟨d, hd, hpop⟩ := bind_eq_ok.mp hpop
    obtain rfl := get_nat_eq hd
    split at hpop
    · cases hpop
    next f hf =>
      obtain ⟨⟨e, s₂⟩, h₂, hpop⟩ := bind_eq_ok.mp hpop
      obtain ⟨hv, hproc₂, -⟩ := readdir_frame h₂
      have himg₂ := readdir_image h₂
      cases e with
      | none =>
        cases hpop
        refine ⟨kids, R, ?_, ?_⟩
        · rw [hv]
          exact h
        · rw [hv]
          exact Extends.refl _ _
      | some e =>
        obtain ⟨⟨c₃, W⟩, h₃, hpop⟩ := bind_eq_ok.mp hpop
        obtain ⟨u, hu⟩ := readdir_congr himg.symm hproc.symm h₂
        have hlists : Lists s i k e := ⟨f, u, hfs ▸ hf, hridx ▸ hu⟩
        dsimp only at h₃ hpop
        rw [hv] at h₃
        obtain ⟨n, hfree, hgrow, hent, hat'⟩ :=
          enter_spec h.inv hp hip hl hat (hP.sound hok hlists) h₃
        have hfill : Filling s s₁.vinodes W kids R i n k e :=
          ⟨h.inv, h.full, hsame, hfree, hgrow, hent, hlists, hbefore⟩
        have hnl := h.inv.not_live hgrow.fresh
        have hin := ne_of_live hi hnl
        have hnext :
          Holding P (State.vinodes { s₂ with vinodes := W }) (growKids kids i n) (insert n R) :=
          ⟨hgrow.inv, growKids_full hnl h.full, hP.step hok hfill h.prop⟩
        have himg₃ : SameImage s { s₂ with vinodes := W } := himg.trans himg₂
        obtain ⟨kids', R', h', hext⟩ := ih himg₃ (hproc₂.trans hproc)
          ((hgrow.flat hin).trans hsame) hnext (hp.grow hnl) (subset_growKids hnl hp hip)
          ((Vinode.link_of_flat (hgrow.flat hin)).trans hl) hat' (fun {j} hj => by
            rw [growKids_parent] at hj
            rcases List.mem_append.mp hj with hj | hj
            · obtain ⟨k', e', hk', hl', hn'⟩ := hbefore hj
              have hjn := ne_of_live (.kid hi hj) hnl
              refine ⟨k', e', by omega, hl', ?_⟩
              exact (Vinode.of_flat Vinode.name (fun _ => rfl) (hgrow.flat hjn)).trans hn'
            · obtain rfl := List.mem_singleton.mp hj
              exact ⟨k, e, by omega, hlists, hent.name⟩) hpop
        refine ⟨kids', R', h', Extends.trans (fun j hj => ⟨hj.grow hnl, ?_⟩) hext⟩
        exact hgrow.flat (ne_of_live hj hnl)

theorem of_check_eq_ok {p : Prop} {inst : Decidable p} {u : Unit} (h : check p = .ok u) : p :=
  check_eq_ok.mp h

open Classical in
/-- `lookup_auto`, stopped where it would populate a vinode that is not `ok`. -/
noncomputable def guardedLoop (ok : State → Nat → Prop) : Nat → State → Except Fault (Int × State)
  | 0, _ => .error .diverges
  | fuel + 1, s => do
    let s := stripSlash s
    let (flag, idx, offset) ← lookup s
    if flag then return (idx, s)
    let d ← s.vinodes.get idx
    if d.fs = none then return (-1, s)
    if d.child ≠ -1 then return (-1, s)
    check (ok s idx.toNat)
    let (c, s) ← populate idx (s.str offset).bytes (maxVinode + 1) 0 {} s
    if c.next = -1 then return (-1, s)
    let (_, _, noffset) ← lookup s
    check (offset < noffset)
    guardedLoop ok fuel s

noncomputable def guarded (ok : State → Nat → Prop) (s : State) : Except Fault (Int × State) :=
  guardedLoop ok (tmppathLength + 2) s

/-- The result of a lookup: nothing, or a vinode of the tree that is no link. -/
def Found (V : Vinodes) (kids : Nat → List Nat) (m : Int) : Prop :=
  m = -1 ∨ ∃ i : Nat, m = i ∧ Live kids i ∧ (V i).link = false

theorem Found.extends {kids' : Nat → List Nat} {m : Int} (h : Found V kids m)
    (hext : Extends V kids W kids') : Found W kids' m := by
  refine h.imp_right ?_
  rintro ⟨i, rfl, hi, hl⟩
  exact ⟨i, rfl, (hext i hi).1, (Vinode.link_of_flat (hext i hi).2).trans hl⟩

theorem guardedLoop_spec {fuel : Nat} {m : Int} (hP : Fillable ok P)
    (h : Holding P s.vinodes kids R)
    (hlook : guardedLoop ok fuel s = .ok (m, t)) :
    ∃ kids' R', Holding P t.vinodes kids' R' ∧ Extends s.vinodes kids t.vinodes kids' ∧
      Found t.vinodes kids' m := by
  induction fuel generalizing s kids R with
  | zero => cases hlook
  | succ fuel ih =>
    simp only [guardedLoop] at hlook
    obtain ⟨hv, hproc⟩ := stripSlash_frame s
    have h₁ : Holding P (stripSlash s).vinodes kids R := hv.symm ▸ h
    have hsame : Extends s.vinodes kids (stripSlash s).vinodes kids := hv ▸ Extends.refl _ _
    obtain ⟨flag, i, offset, hres, hi, hl⟩ := h₁.inv.lookup
    rw [hres, ok_bind] at hlook
    dsimp only at hlook
    split at hlook
    · cases hlook
      exact ⟨kids, R, h₁, hsame, .inr ⟨i, rfl, hi, hl⟩⟩
    · rw [get_nat (h₁.inv.tree.lt hi), ok_bind] at hlook
      split at hlook
      · cases hlook
        exact ⟨kids, R, h₁, hsame, .inl rfl⟩
      · split at hlook
        · cases hlook
          exact ⟨kids, R, h₁, hsame, .inl rfl⟩
        next hchild =>
          have hk : kids i = [] := by
            by_contra hne
            obtain ⟨a, l, hal⟩ := List.exists_cons_of_ne_nil hne
            have hc := h₁.inv.tree.child hi hl
            rw [hal] at hc
            exact hchild (by rw [hc]; simp)
          obtain ⟨_, hok, hlook⟩ := bind_eq_ok.mp hlook
          have hok := of_check_eq_ok hok
          rw [Int.toNat_natCast] at hok
          obtain ⟨⟨c, s₂⟩, h₂, hlook⟩ := bind_eq_ok.mp hlook
          obtain ⟨p, hp, hip⟩ : ∃ p, Live kids p ∧ i ∈ kids p := by
            cases hi with
            | root => exact absurd hk h.full
            | kid hp hip => exact ⟨_, hp, hip⟩
          obtain ⟨kids₂, R₂, h₂', hext⟩ := populate_spec hP hok (fun _ => rfl) rfl rfl h₁ hp hip hl
            (.empty hk rfl rfl rfl) (fun {j} hj => by rw [hk] at hj; cases hj) h₂
          dsimp only at hlook
          split at hlook
          · cases hlook
            exact ⟨kids₂, R₂, h₂', hsame.trans hext, .inl rfl⟩
          · obtain ⟨_, -, hlook⟩ := bind_eq_ok.mp hlook
            obtain ⟨_, -, hlook⟩ := bind_eq_ok.mp hlook
            obtain ⟨kids₃, R₃, h₃, hext₃, hm⟩ := ih h₂' hlook
            exact ⟨kids₃, R₃, h₃, (hsame.trans hext).trans hext₃, hm⟩

end Lookups

end OsWorkbench.Vfs
