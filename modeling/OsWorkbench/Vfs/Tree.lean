import OsWorkbench.Lib.Orbit
import OsWorkbench.Vfs.Model

/-!
# The tree of vinodes

The vinodes reached from the root along `child` and `next` form a tree, in which the
children of a populated vinode begin with `"."` and `".."`. The tree is described by
the list of the children of each vinode; vinodes that a removal left behind are no
part of it, although they are still in use.
-/

namespace OsWorkbench.Vfs

open Ext2 (has wrAble rdAble typeFile typeDir)

def Vinode.link (v : Vinode) : Bool := has v.mode typeLink

/-- The mode of a file, a directory or a link. -/
def Typed (mode : UInt32) : Prop := has mode (typeFile ||| typeDir ||| typeLink) = true

instance : DecidablePred Typed := fun mode =>
  inferInstanceAs (Decidable (has mode (typeFile ||| typeDir ||| typeLink) = true))

theorem Typed.ne_zero {mode : UInt32} (h : Typed mode) : mode ≠ 0 := by
  rintro rfl
  exact absurd h (by decide)

/-- The vinodes of the tree. -/
inductive Live (kids : Nat → List Nat) : Nat → Prop
  | root : Live kids 0
  | kid {i j : Nat} : Live kids i → j ∈ kids i → Live kids j

/-- `i` is `c` or below it. -/
inductive Anc (kids : Nat → List Nat) (c : Nat) : Nat → Prop
  | refl : Live kids c → Anc kids c c
  | kid {i j : Nat} : Anc kids c i → j ∈ kids i → Anc kids c j

/-- `next` leads through the list and then to `-1`. -/
def Chained (next : Nat → Int) : List Nat → Prop
  | [] => True
  | i :: l => next i = headOf l ∧ Chained next l

/-- The links and names of the vinodes of the tree. -/
structure Tree (V : Nat → Vinode) (kids : Nat → List Nat) : Prop where
  lt : ∀ {i}, Live kids i → i < maxVinode
  used : ∀ {i}, Live kids i → Typed (V i).mode
  root : (V 0).link = false ∧ (V 0).next = -1
  leaf : ∀ {i}, Live kids i → (V i).link = true → kids i = []
  child : ∀ {i}, Live kids i → (V i).link = false → (V i).child = headOf (kids i)
  chain : ∀ {i}, Live kids i → Chained (fun j => (V j).next) (kids i)
  parent : ∀ {i i' j}, Live kids i → Live kids i' → j ∈ kids i → j ∈ kids i' → i = i'
  nodup : ∀ {i}, Live kids i → (kids i).Nodup
  notRoot : ∀ {i}, Live kids i → 0 ∉ kids i
  /-- The first child is `"."`. -/
  dot : ∀ {i a l}, Live kids i → kids i = a :: l →
    (V a).link = true ∧ (V a).name = .lit "." ∧ (V a).child = i ∧ ∀ j ∈ l, (V j).name ≠ .lit "."
  /-- The second child is `".."`. -/
  ddot : ∀ {i a b l}, Live kids i → kids i = a :: b :: l →
    (V b).link = true ∧ (V b).child ≠ -1
  /-- The `child` of a link, if any, is a vinode above it. -/
  up : ∀ {i j}, Live kids i → j ∈ kids i → (V j).link = true → (V j).child ≠ -1 →
    ∃ c : Nat, (V j).child = c ∧ Anc kids c i
  /-- The links with a `child` are `"."` and `".."`. -/
  named : ∀ {i j}, Live kids i → j ∈ kids i → (V j).link = true → (V j).child ≠ -1 →
    (V j).name = .lit "." ∨ (V j).name = .lit ".."
  /-- `dot` and `ddot` are the first two children, for all but these two. -/
  sib : ∀ {i a l j}, Live kids i → kids i = a :: l → j ∈ l →
    ((V j).link = false ∨ (V j).child = -1) →
    (V j).dot = a ∧ ∃ b ∈ l, (V j).ddot = b ∧ (V b).link = true ∧ (V b).child ≠ -1

/-! ## Chains -/

section Chains

variable {next next' : Nat → Int} {l : List Nat} {i j : Nat}

theorem Chained.congr (h : Chained next l) (hs : ∀ i ∈ l, next' i = next i) : Chained next' l := by
  induction l with
  | nil => trivial
  | cons a l ih =>
    refine ⟨?_, ih h.2 fun i hi => hs i (by simp [hi])⟩
    rw [hs a (by simp)]
    exact h.1

theorem headOf_append_singleton (l : List Nat) (q n : Nat) :
    headOf (l ++ [q]) = headOf (l ++ [q, n]) := by
  cases l <;> rfl

/-- The last element of a chain gets a successor. -/
theorem Chained.snoc {q n : Nat} (h : Chained next (l ++ [q])) (hn : next' n = -1)
    (hq : next' q = n) (hs : ∀ i ∈ l, next' i = next i) : Chained next' (l ++ [q, n]) := by
  induction l with
  | nil => exact ⟨hq, hn, trivial⟩
  | cons a l ih =>
    refine ⟨?_, ih h.2 fun i hi => hs i (by simp [hi])⟩
    rw [hs a (by simp), h.1]
    exact headOf_append_singleton l q n

/-- An element is taken out of a chain behind another. -/
theorem Chained.erase {q x : Nat} {r : List Nat} (h : Chained next (l ++ q :: x :: r))
    (hq : next' q = next x) (hs : ∀ i ∈ l ++ r, next' i = next i) :
    Chained next' (l ++ q :: r) := by
  induction l with
  | nil =>
    obtain ⟨-, hx, hr⟩ := h
    exact ⟨hq.trans hx, hr.congr fun i hi => hs i (by simpa using hi)⟩
  | cons a l ih =>
    refine ⟨?_, ih h.2 fun i hi => hs i (by simp at hi ⊢; tauto)⟩
    rw [hs a (by simp), h.1]
    cases l <;> rfl

theorem Chained.next_mem (h : Chained next l) (hi : i ∈ l) :
    next i = -1 ∨ ∃ j ∈ l, next i = j := by
  induction l with
  | nil => cases hi
  | cons a l ih =>
    rcases List.mem_cons.mp hi with rfl | hi
    · cases l with
      | nil => exact .inl h.1
      | cons b l => exact .inr ⟨b, by simp, h.1⟩
    · rcases ih h.2 hi with h1 | ⟨j, hj, h1⟩
      · exact .inl h1
      · exact .inr ⟨j, by simp [hj], h1⟩

end Chains

/-! ## Frame -/

/-- The vinodes do not differ in what the tree is made of. A link without `child` may
have become a vinode of its own. -/
structure SameNode (v v' : Vinode) : Prop where
  name : v'.name = v.name
  dot : v'.dot = v.dot
  ddot : v'.ddot = v.ddot
  next : v'.next = v.next
  child : v'.child = v.child
  link : v'.link = v.link ∨ (v.child = -1 ∧ v'.link = false)
  used : Typed v.mode → Typed v'.mode

theorem SameNode.refl (v : Vinode) : SameNode v v := ⟨rfl, rfl, rfl, rfl, rfl, .inl rfl, id⟩

theorem SameNode.link_of {v v' : Vinode} (h : SameNode v v') (hl : v'.link = true) :
    v.link = true := by
  rcases h.link with he | ⟨-, he⟩
  · exact he ▸ hl
  · rw [he] at hl
    cases hl

theorem SameNode.link_eq {v v' : Vinode} (h : SameNode v v') (hc : v.child ≠ -1) :
    v'.link = v.link := h.link.resolve_right fun he => hc he.1

variable {V V' : Nat → Vinode} {kids : Nat → List Nat}

theorem Anc.live {c i : Nat} (h : Anc kids c i) : Live kids i := by
  induction h with
  | refl hc => exact hc
  | kid _ hj ih => exact .kid ih hj

theorem Anc.live_top {c i : Nat} (h : Anc kids c i) : Live kids c := by
  induction h with
  | refl hc => exact hc
  | kid _ _ ih => exact ih

theorem Tree.congr (h : Tree V kids) (hs : ∀ i, Live kids i → SameNode (V i) (V' i)) :
    Tree V' kids where
  lt := h.lt
  used hi := (hs _ hi).used (h.used hi)
  root := by
    refine ⟨?_, (hs 0 .root).next.trans h.root.2⟩
    rcases (hs 0 .root).link with he | ⟨-, he⟩
    · exact he.trans h.root.1
    · exact he
  leaf hi hl := h.leaf hi ((hs _ hi).link_of hl)
  child {i} hi hl := by
    rw [(hs i hi).child]
    cases hv : (V i).link with
    | false => exact h.child hi hv
    | true =>
      rcases (hs i hi).link with he | ⟨hc, -⟩
      · rw [hl, hv] at he
        cases he
      · rw [hc, h.leaf hi hv]
        rfl
  chain hi := (h.chain hi).congr fun j hj => (hs j (.kid hi hj)).next
  parent := h.parent
  nodup := h.nodup
  notRoot := h.notRoot
  dot {i a l} hi hk := by
    obtain ⟨h1, h2, h3, h4⟩ := h.dot hi hk
    have ha := hs a (.kid hi (by simp [hk]))
    refine ⟨(ha.link_eq (by rw [h3]; simp)).trans h1, ha.name.trans h2, ha.child.trans h3,
      fun j hj => ?_⟩
    rw [(hs j (.kid hi (by simp [hk, hj]))).name]
    exact h4 j hj
  ddot {i a b l} hi hk := by
    have hb := hs b (.kid hi (by simp [hk]))
    obtain ⟨h1, h2⟩ := h.ddot hi hk
    exact ⟨(hb.link_eq h2).trans h1, hb.child ▸ h2⟩
  up {i j} hi hj hl hc := by
    have hj' := hs j (.kid hi hj)
    rw [hj'.child]
    exact h.up hi hj (hj'.link_of hl) (hj'.child ▸ hc)
  named {i j} hi hj hl hc := by
    have hj' := hs j (.kid hi hj)
    rw [hj'.name]
    exact h.named hi hj (hj'.link_of hl) (hj'.child ▸ hc)
  sib {i a l j} hi hk hj hc := by
    have hj' := hs j (.kid hi (by simp [hk, hj]))
    have hc' : (V j).link = false ∨ (V j).child = -1 := by
      rw [hj'.child] at hc
      rcases hc with hc | hc
      · rcases hj'.link with he | ⟨he, -⟩
        · exact .inl (he ▸ hc)
        · exact .inr he
      · exact .inr hc
    obtain ⟨h1, b, hb, h2, h3, h4⟩ := h.sib hi hk hj hc'
    have hb' := hs b (.kid hi (by simp [hk, hb]))
    exact ⟨hj'.dot.trans h1, b, hb, hj'.ddot.trans h2, (hb'.link_eq h4).trans h3, hb'.child ▸ h4⟩

/-- No vinode is its own child. -/
theorem Tree.not_mem_self (h : Tree V kids) {i : Nat} (hi : Live kids i) : i ∉ kids i := by
  induction hi with
  | root => exact h.notRoot .root
  | @kid i j hi hj ih =>
    intro hjj
    obtain rfl := h.parent hi (.kid hi hj) hj hjj
    exact ih hj

/-! ## A new child -/

section Grow

variable {p n : Nat}

/-- The children after `n` was appended to those of `p`. -/
def growKids (kids : Nat → List Nat) (p n : Nat) : Nat → List Nat :=
  Function.update (Function.update kids n []) p (kids p ++ [n])

/-- What the vinode has to be like that becomes the last child of `p`. -/
structure Fits (V : Nat → Vinode) (kids : Nat → List Nat) (p : Nat) (w : Vinode) : Prop where
  used : Typed w.mode
  next : w.next = -1
  real : w.link = false → w.child = -1
  first : kids p = [] → w.link = true ∧ w.name = .lit "." ∧ w.child = p
  name : kids p ≠ [] → w.name ≠ .lit "."
  second : ∀ {a}, kids p = [a] → w.link = true ∧ w.child ≠ -1
  up : w.link = true → w.child ≠ -1 → ∃ c : Nat, w.child = c ∧ Anc kids c p
  named : w.link = true → w.child ≠ -1 → w.name = .lit "." ∨ w.name = .lit ".."
  sib : ∀ {a l}, kids p = a :: l → (w.link = false ∨ w.child = -1) →
    w.dot = a ∧ ∃ b ∈ l, w.ddot = b ∧ (V b).link = true ∧ (V b).child ≠ -1

/-- The vinodes of the tree but for the pointer that leads to the new child. A new
`".."` may also become the `ddot` of a sibling. -/
structure Attached (V V' : Nat → Vinode) (kids : Nat → List Nat) (p n : Nat) : Prop where
  name : ∀ {i}, Live kids i → (V' i).name = (V i).name
  dot : ∀ {i}, Live kids i → (V' i).dot = (V i).dot
  ddot : ∀ {i}, Live kids i → (V' i).ddot = (V i).ddot ∨
    (i ∈ kids p ∧ (V' i).ddot = n ∧ (V' n).link = true ∧ (V' n).child ≠ -1)
  link : ∀ {i}, Live kids i → (V' i).link = (V i).link
  used : ∀ {i}, Live kids i → Typed (V i).mode → Typed (V' i).mode
  next : ∀ {i}, Live kids i → (kids p).getLast? ≠ some i → (V' i).next = (V i).next
  last : ∀ {q}, (kids p).getLast? = some q → (V' q).next = n
  child : ∀ {i}, Live kids i → i ≠ p ∨ kids p ≠ [] → (V' i).child = (V i).child
  first : kids p = [] → (V' p).child = n

theorem growKids_self (hn : p ≠ n) : growKids kids p n n = [] := by
  rw [growKids, Function.update_of_ne hn.symm, Function.update_self]

theorem growKids_parent : growKids kids p n p = kids p ++ [n] := Function.update_self ..

theorem growKids_other {i : Nat} (hp : i ≠ p) (hn : i ≠ n) : growKids kids p n i = kids i := by
  rw [growKids, Function.update_of_ne hp, Function.update_of_ne hn]

theorem ne_of_live {i : Nat} (hi : Live kids i) (hn : ¬Live kids n) : i ≠ n :=
  fun he => hn (he ▸ hi)

theorem subset_growKids (hn : ¬Live kids n) {i : Nat} (hi : Live kids i) :
    kids i ⊆ growKids kids p n i := by
  by_cases hip : i = p
  · rw [hip, growKids_parent]
    exact List.subset_append_left _ _
  · rw [growKids_other hip (ne_of_live hi hn)]
    exact List.Subset.refl _

theorem Live.grow (hn : ¬Live kids n) {i : Nat} (hi : Live kids i) :
    Live (growKids kids p n) i := by
  induction hi with
  | root => exact .root
  | kid hi hj ih => exact .kid ih (subset_growKids hn hi hj)

theorem live_grow (hp : Live kids p) (hn : ¬Live kids n) {j : Nat} :
    Live (growKids kids p n) j ↔ Live kids j ∨ j = n := by
  constructor
  · intro hj
    induction hj with
    | root => exact .inl .root
    | @kid i j _ hj ih =>
      rcases ih with hi | rfl
      · by_cases hip : i = p
        · rw [hip, growKids_parent] at hj
          rcases List.mem_append.mp hj with hj | hj
          · exact .inl (.kid hp hj)
          · exact .inr (List.mem_singleton.mp hj)
        · rw [growKids_other hip (ne_of_live hi hn)] at hj
          exact .inl (.kid hi hj)
      · rw [growKids_self (ne_of_live hp hn)] at hj
        cases hj
  · rintro (hj | rfl)
    · exact hj.grow hn
    · refine .kid (hp.grow hn) ?_
      rw [growKids_parent]
      simp

theorem Anc.grow (hn : ¬Live kids n) {c i : Nat} (h : Anc kids c i) :
    Anc (growKids kids p n) c i := by
  induction h with
  | refl hc => exact .refl (hc.grow hn)
  | kid hi hj ih => exact .kid ih (subset_growKids hn hi.live hj)

/-- Either the children are as before, or they are those of `p` and the new one. -/
theorem growKids_cases (hp : Live kids p) (hn : ¬Live kids n) {i : Nat}
    (hi : Live (growKids kids p n) i) :
    (i = n ∧ growKids kids p n i = []) ∨ (i = p ∧ growKids kids p n i = kids p ++ [n]) ∨
      (Live kids i ∧ i ≠ p ∧ growKids kids p n i = kids i) := by
  rcases (live_grow hp hn).mp hi with hi | rfl
  · by_cases hip : i = p
    · exact .inr (.inl ⟨hip, by rw [hip, growKids_parent]⟩)
    · exact .inr (.inr ⟨hi, hip, growKids_other hip (ne_of_live hi hn)⟩)
  · exact .inl ⟨rfl, growKids_self (ne_of_live hp hn)⟩

theorem Tree.grow (h : Tree V kids) (hp : Live kids p) (hpl : (V p).link = false)
    (hn : ¬Live kids n) (hlt : n < maxVinode) (ha : Attached V V' kids p n)
    (hw : Fits V kids p (V' n)) : Tree V' (growKids kids p n) := by
  have hpn : p ≠ n := ne_of_live hp hn
  have hmem : ∀ {j i}, Live kids i → j ∈ kids i → j ≠ n := fun hi hj => ne_of_live (.kid hi hj) hn
  -- the last child of `p` is no child of another vinode
  have hlast : ∀ {i j}, Live kids i → i ≠ p → j ∈ kids i → (kids p).getLast? ≠ some j :=
    fun hi hip hj he => hip (h.parent hi hp hj (List.mem_of_getLast? he))
  have hchild : ∀ {j}, Live kids j → (V j).link = true → (V' j).child = (V j).child := by
    intro j hj hl
    refine ha.child hj (.inl ?_)
    rintro rfl
    rw [hpl] at hl
    cases hl
  constructor
  case lt =>
    intro i hi
    rcases (live_grow hp hn).mp hi with hi | rfl
    · exact h.lt hi
    · exact hlt
  case used =>
    intro i hi
    rcases (live_grow hp hn).mp hi with hi | rfl
    · exact ha.used hi (h.used hi)
    · exact hw.used
  case root =>
    rw [ha.link .root, ha.next .root fun he => h.notRoot hp (List.mem_of_getLast? he)]
    exact h.root
  case leaf =>
    intro i hi hl
    rcases growKids_cases hp hn hi with ⟨-, hk⟩ | ⟨rfl, -⟩ | ⟨hi, -, hk⟩
    · exact hk
    · rw [ha.link hp, hpl] at hl
      cases hl
    · rw [hk]
      exact h.leaf hi (ha.link hi ▸ hl)
  case child =>
    intro i hi hl
    rcases growKids_cases hp hn hi with ⟨rfl, hk⟩ | ⟨rfl, hk⟩ | ⟨hi, hip, hk⟩
    · rw [hk]
      exact hw.real hl
    · rw [hk]
      cases hkp : kids i with
      | nil => exact ha.first hkp
      | cons a l =>
        rw [ha.child hp (.inr (by simp [hkp])), h.child hp hpl, hkp]
        rfl
    · rw [hk, ha.child hi (.inl hip)]
      exact h.child hi (ha.link hi ▸ hl)
  case chain =>
    intro i hi
    rcases growKids_cases hp hn hi with ⟨rfl, hk⟩ | ⟨rfl, hk⟩ | ⟨hi, hip, hk⟩
    · rw [hk]
      trivial
    · rw [hk]
      rcases List.eq_nil_or_concat (kids i) with hkp | ⟨l, q, hkp⟩
      · rw [hkp]
        exact ⟨hw.next, trivial⟩
      · rw [List.concat_eq_append] at hkp
        have hget : (kids i).getLast? = some q := by simp [hkp]
        have hnd := h.nodup hp
        have hc := h.chain hp
        rw [hkp] at hc hnd ⊢
        rw [List.append_assoc]
        refine hc.snoc hw.next (ha.last hget) (fun j hj => ha.next (.kid hp (by simp [hkp, hj])) ?_)
        rintro he
        rw [hget] at he
        cases he
        exact (List.disjoint_of_nodup_append hnd) hj (by simp)
    · rw [hk]
      exact (h.chain hi).congr fun j hj => ha.next (.kid hi hj) (hlast hi hip hj)
  case parent =>
    intro i i' j hi hi' hj hj'
    rcases growKids_cases hp hn hi with ⟨-, hk⟩ | ⟨rfl, hk⟩ | ⟨hi₁, hip, hk⟩
    · rw [hk] at hj
      cases hj
    · rcases growKids_cases hp hn hi' with ⟨-, hk'⟩ | ⟨rfl, -⟩ | ⟨hi', hip', hk'⟩
      · rw [hk'] at hj'
        cases hj'
      · rfl
      · rw [hk] at hj
        rw [hk'] at hj'
        rcases List.mem_append.mp hj with hj | hj
        · exact h.parent hp hi' hj hj'
        · exact absurd (List.mem_singleton.mp hj) (hmem hi' hj')
    · rw [hk] at hj
      rcases growKids_cases hp hn hi' with ⟨-, hk'⟩ | ⟨rfl, hk'⟩ | ⟨hi', hip', hk'⟩
      · rw [hk'] at hj'
        cases hj'
      · rw [hk'] at hj'
        rcases List.mem_append.mp hj' with hj' | hj'
        · exact h.parent hi₁ hp hj hj'
        · exact absurd (List.mem_singleton.mp hj') (hmem hi₁ hj)
      · rw [hk'] at hj'
        exact h.parent hi₁ hi' hj hj'
  case nodup =>
    intro i hi
    rcases growKids_cases hp hn hi with ⟨-, hk⟩ | ⟨rfl, hk⟩ | ⟨hi, -, hk⟩
    · rw [hk]
      exact List.nodup_nil
    · rw [hk]
      refine List.nodup_append'.mpr ⟨h.nodup hp, List.nodup_singleton n, fun j hj hj' => ?_⟩
      exact hmem hp hj (List.mem_singleton.mp hj')
    · rw [hk]
      exact h.nodup hi
  case notRoot =>
    intro i hi h0
    rcases growKids_cases hp hn hi with ⟨-, hk⟩ | ⟨rfl, hk⟩ | ⟨hi, -, hk⟩
    · rw [hk] at h0
      cases h0
    · rw [hk] at h0
      rcases List.mem_append.mp h0 with h0 | h0
      · exact h.notRoot hp h0
      · exact hn (List.mem_singleton.mp h0 ▸ .root)
    · rw [hk] at h0
      exact h.notRoot hi h0
  case dot =>
    intro i a l hi hal
    rcases growKids_cases hp hn hi with ⟨-, hk⟩ | ⟨rfl, hk⟩ | ⟨hi, hip, hk⟩
    · rw [hk] at hal
      cases hal
    · rw [hk] at hal
      cases hkp : kids i with
      | nil =>
        rw [hkp, List.nil_append] at hal
        cases hal
        obtain ⟨h1, h2, h3⟩ := hw.first hkp
        exact ⟨h1, h2, h3, by simp⟩
      | cons a' l' =>
        rw [hkp, List.cons_append] at hal
        cases hal
        obtain ⟨h1, h2, h3, h4⟩ := h.dot hp hkp
        have hla : Live kids a := .kid hp (by simp [hkp])
        have hal' : a ≠ i := by
          rintro rfl
          rw [hpl] at h1
          cases h1
        refine ⟨(ha.link hla).trans h1, (ha.name hla).trans h2,
          (ha.child hla (.inl hal')).trans h3, fun j hj => ?_⟩
        rcases List.mem_append.mp hj with hj | hj
        · rw [ha.name (.kid hp (by simp [hkp, hj]))]
          exact h4 j hj
        · rw [List.mem_singleton.mp hj]
          exact hw.name (by simp [hkp])
    · rw [hk] at hal
      obtain ⟨h1, h2, h3, h4⟩ := h.dot hi hal
      have hla : Live kids a := .kid hi (by simp [hal])
      refine ⟨(ha.link hla).trans h1, (ha.name hla).trans h2, (hchild hla h1).trans h3,
        fun j hj => ?_⟩
      rw [ha.name (.kid hi (by simp [hal, hj]))]
      exact h4 j hj
  case ddot =>
    intro i a b l hi hal
    rcases growKids_cases hp hn hi with ⟨-, hk⟩ | ⟨rfl, hk⟩ | ⟨hi, hip, hk⟩
    · rw [hk] at hal
      cases hal
    · rw [hk] at hal
      rcases hkp : kids i with _ | ⟨a', _ | ⟨b', l'⟩⟩
      · rw [hkp] at hal
        cases hal
      · rw [hkp] at hal
        cases hal
        exact hw.second hkp
      · rw [hkp] at hal
        cases hal
        obtain ⟨h1, h2⟩ := h.ddot hp hkp
        have hlb : Live kids b := .kid hp (by simp [hkp])
        exact ⟨(ha.link hlb).trans h1, hchild hlb h1 ▸ h2⟩
    · rw [hk] at hal
      obtain ⟨h1, h2⟩ := h.ddot hi hal
      have hlb : Live kids b := .kid hi (by simp [hal])
      exact ⟨(ha.link hlb).trans h1, hchild hlb h1 ▸ h2⟩
  case up =>
    intro i j hi hj hl hc
    have hold : ∀ {i}, Live kids i → j ∈ kids i →
        ∃ c : Nat, (V' j).child = c ∧ Anc (growKids kids p n) c i := by
      intro i hi hj
      have hlj : Live kids j := .kid hi hj
      rw [ha.link hlj] at hl
      rw [hchild hlj hl] at hc ⊢
      obtain ⟨c, h1, h2⟩ := h.up hi hj hl hc
      exact ⟨c, h1, h2.grow hn⟩
    rcases growKids_cases hp hn hi with ⟨-, hk⟩ | ⟨rfl, hk⟩ | ⟨hi, hip, hk⟩
    · rw [hk] at hj
      cases hj
    · rw [hk] at hj
      rcases List.mem_append.mp hj with hj | hj
      · exact hold hp hj
      · obtain rfl := List.mem_singleton.mp hj
        obtain ⟨c, h1, h2⟩ := hw.up hl hc
        exact ⟨c, h1, h2.grow hn⟩
    · rw [hk] at hj
      exact hold hi hj
  case named =>
    intro i j hi hj hl hc
    have hold : ∀ {i}, Live kids i → j ∈ kids i →
        (V' j).name = .lit "." ∨ (V' j).name = .lit ".." := by
      intro i hi hj
      have hlj : Live kids j := .kid hi hj
      rw [ha.link hlj] at hl
      rw [hchild hlj hl] at hc
      rw [ha.name hlj]
      exact h.named hi hj hl hc
    rcases growKids_cases hp hn hi with ⟨-, hk⟩ | ⟨rfl, hk⟩ | ⟨hi, hip, hk⟩
    · rw [hk] at hj
      cases hj
    · rw [hk] at hj
      rcases List.mem_append.mp hj with hj | hj
      · exact hold hp hj
      · obtain rfl := List.mem_singleton.mp hj
        exact hw.named hl hc
    · rw [hk] at hj
      exact hold hi hj
  case sib =>
    intro i a l j hi hal hj hc
    have hold : ∀ {i l}, Live kids i → kids i = a :: l → j ∈ l →
        (V' j).dot = a ∧ ((∃ b ∈ l, (V' j).ddot = b ∧ (V' b).link = true ∧ (V' b).child ≠ -1) ∨
          (i = p ∧ (V' j).ddot = n ∧ (V' n).link = true ∧ (V' n).child ≠ -1)) := by
      intro i l hi hal hj
      have hlj : Live kids j := .kid hi (by simp [hal, hj])
      have hc' : (V j).link = false ∨ (V j).child = -1 := by
        rcases hlk : (V j).link with _ | _
        · exact .inl rfl
        · rw [ha.link hlj, hchild hlj hlk, hlk] at hc
          exact .inr (hc.resolve_left (by simp))
      obtain ⟨h1, b, hb, h2, h3, h4⟩ := h.sib hi hal hj hc'
      have hlb : Live kids b := .kid hi (by simp [hal, hb])
      refine ⟨(ha.dot hlj).trans h1, ?_⟩
      rcases ha.ddot hlj with hd | ⟨hjp, hd⟩
      · exact .inl ⟨b, hb, hd.trans h2, (ha.link hlb).trans h3, hchild hlb h3 ▸ h4⟩
      · exact .inr ⟨h.parent hi hp (by simp [hal, hj]) hjp, hd⟩
    rcases growKids_cases hp hn hi with ⟨-, hk⟩ | ⟨rfl, hk⟩ | ⟨hi, hip, hk⟩
    · rw [hk] at hal
      cases hal
    · rw [hk] at hal
      cases hkp : kids i with
      | nil =>
        rw [hkp] at hal
        cases hal
        cases hj
      | cons a' l' =>
        rw [hkp, List.cons_append] at hal
        cases hal
        rcases List.mem_append.mp hj with hj | hj
        · obtain ⟨h1, ⟨b, hb, h2⟩ | ⟨-, h2⟩⟩ := hold hp hkp hj
          · exact ⟨h1, b, by simp [hb], h2⟩
          · exact ⟨h1, n, by simp, h2⟩
        · obtain rfl := List.mem_singleton.mp hj
          obtain ⟨h1, b, hb, h2, h3, h4⟩ := hw.sib hkp hc
          have hlb : Live kids b := .kid hp (by simp [hkp, hb])
          exact ⟨h1, b, by simp [hb], h2, (ha.link hlb).trans h3, hchild hlb h3 ▸ h4⟩
    · rw [hk] at hal
      obtain ⟨h1, h2 | ⟨hip', -⟩⟩ := hold hi hal hj
      · exact ⟨h1, h2⟩
      · exact absurd hip' hip

/-- The first child is attached. -/
theorem Tree.grow_first (h : Tree V kids) (hp : Live kids p) (hpl : (V p).link = false)
    (hk : kids p = []) (hn : ¬Live kids n) (hlt : n < maxVinode) {w : Vinode}
    (hw : Fits V kids p w) :
    Tree (Function.update (Function.update V p { V p with child := n }) n w)
      (growKids kids p n) := by
  have hne : ∀ {i}, Live kids i → i ≠ n := fun hi => ne_of_live hi hn
  have hself : Function.update (Function.update V p { V p with child := n }) n w p =
      { V p with child := n } := by
    rw [Function.update_of_ne (hne hp), Function.update_self]
  have hother : ∀ {i}, Live kids i → i ≠ p →
      Function.update (Function.update V p { V p with child := n }) n w i = V i := by
    intro i hi hip
    rw [Function.update_of_ne (hne hi), Function.update_of_ne hip]
  refine h.grow hp hpl hn hlt ?_ (by rwa [Function.update_self])
  constructor
  case last =>
    intro q hq
    rw [hk] at hq
    cases hq
  case first =>
    intro _
    rw [hself]
  case child =>
    intro i hi hip
    rw [hother hi (hip.resolve_right fun hne => hne hk)]
  all_goals
    intro i hi
    by_cases hip : i = p
    · subst hip
      simp [hself, Vinode.link]
    · simp [hother hi hip]

/-- A child is attached behind the last one. -/
theorem Tree.grow_last (h : Tree V kids) (hp : Live kids p) (hpl : (V p).link = false)
    {l : List Nat} {q : Nat} (hk : kids p = l ++ [q]) (hn : ¬Live kids n) (hlt : n < maxVinode)
    {w : Vinode} (hw : Fits V kids p w) {d : Int}
    (hd : d = (V q).ddot ∨ (d = n ∧ w.link = true ∧ w.child ≠ -1)) :
    Tree (Function.update (Function.update V q { V q with next := n, ddot := d }) n w)
      (growKids kids p n) := by
  have hqp : q ∈ kids p := by simp [hk]
  have hq : Live kids q := .kid hp hqp
  have hget : (kids p).getLast? = some q := by simp [hk]
  have hself : Function.update (Function.update V q { V q with next := n, ddot := d }) n w q =
      { V q with next := n, ddot := d } := by
    rw [Function.update_of_ne (ne_of_live hq hn), Function.update_self]
  have hother : ∀ {i}, Live kids i → i ≠ q →
      Function.update (Function.update V q { V q with next := n, ddot := d }) n w i = V i := by
    intro i hi hip
    rw [Function.update_of_ne (ne_of_live hi hn), Function.update_of_ne hip]
  refine h.grow hp hpl hn hlt ?_ (by rwa [Function.update_self])
  constructor
  case last =>
    intro q' hq'
    rw [hget] at hq'
    cases hq'
    rw [hself]
  case first =>
    intro hnil
    rw [hnil] at hqp
    cases hqp
  case next =>
    intro i hi hne
    rw [hother hi fun he => hne (he ▸ hget)]
  case ddot =>
    intro i hi
    by_cases hiq : i = q
    · subst hiq
      rw [hself, Function.update_self]
      rcases hd with hd | hd
      · exact .inl hd
      · exact .inr ⟨hqp, hd⟩
    · rw [hother hi hiq]
      exact .inl rfl
  all_goals
    intro i hi
    by_cases hiq : i = q
    · subst hiq
      simp [hself, Vinode.link]
    · simp [hother hi hiq]

end Grow

/-! ## A child removed -/

section Prune

variable {p q x : Nat} {l r : List Nat}

/-- The children after `x` was taken from those of `p`. -/
def pruneKids (kids : Nat → List Nat) (p x : Nat) : Nat → List Nat :=
  Function.update kids p ((kids p).erase x)

theorem pruneKids_parent : pruneKids kids p x p = (kids p).erase x := Function.update_self ..

theorem pruneKids_other {i : Nat} (hi : i ≠ p) : pruneKids kids p x i = kids i :=
  Function.update_of_ne hi ..

theorem pruneKids_subset (i : Nat) : pruneKids kids p x i ⊆ kids i := by
  by_cases hi : i = p
  · rw [hi, pruneKids_parent]
    exact List.erase_subset
  · rw [pruneKids_other hi]
    exact List.Subset.refl _

theorem mem_pruneKids {i j : Nat} (hj : j ∈ kids i) (hx : j ≠ x) : j ∈ pruneKids kids p x i := by
  by_cases hi : i = p
  · rw [hi, pruneKids_parent]
    exact (List.mem_erase_of_ne hx).mpr (hi ▸ hj)
  · rw [pruneKids_other hi]
    exact hj

theorem Live.of_prune {i : Nat} (h : Live (pruneKids kids p x) i) : Live kids i := by
  induction h with
  | root => exact .root
  | kid _ hj ih => exact .kid ih (pruneKids_subset _ hj)

/-- The removed vinode is out of the tree. -/
theorem Tree.not_live_prune (h : Tree V kids) (hp : Live kids p) (hx : x ∈ kids p) :
    ¬Live (pruneKids kids p x) x := by
  intro hlx
  cases hlx with
  | root => exact h.notRoot hp hx
  | @kid i _ hi hj =>
    obtain rfl : i = p := h.parent hi.of_prune hp (pruneKids_subset _ hj) hx
    rw [pruneKids_parent] at hj
    exact (h.nodup hp).not_mem_erase hj

/-- What is still in the tree has its parent there. -/
theorem Tree.live_parent (h : Tree V kids) {i j : Nat} (hi : Live kids i) (hj : j ∈ kids i)
    (hlj : Live (pruneKids kids p x) j) :
    Live (pruneKids kids p x) i ∧ j ∈ pruneKids kids p x i := by
  cases hlj with
  | root => exact absurd hj (h.notRoot hi)
  | @kid i' _ hi' hj' =>
    obtain rfl : i' = i := h.parent hi'.of_prune hi (pruneKids_subset _ hj') hj
    exact ⟨hi', hj'⟩

/-- What is left of the tree is all that is not below `x`. -/
theorem Tree.live_prune (h : Tree V kids) (hp : Live kids p) (hx : x ∈ kids p) {i : Nat} :
    Live (pruneKids kids p x) i ↔ Live kids i ∧ ¬Anc kids x i := by
  constructor
  · intro hi
    refine ⟨hi.of_prune, fun hanc => ?_⟩
    induction hanc with
    | refl _ => exact h.not_live_prune hp hx hi
    | kid hxi hj ih => exact ih (h.live_parent hxi.live hj hi).1
  · rintro ⟨hi, hanc⟩
    induction hi with
    | root => exact .root
    | @kid i j hi hj ih =>
      refine .kid (ih fun hxi => hanc (.kid hxi hj)) (mem_pruneKids hj ?_)
      rintro rfl
      exact hanc (.refl (.kid hi hj))

theorem Tree.anc_prune (h : Tree V kids) {c i : Nat} (hc : Anc kids c i)
    (hi : Live (pruneKids kids p x) i) : Anc (pruneKids kids p x) c i := by
  induction hc with
  | refl _ => exact .refl hi
  | kid hci hj ih =>
    obtain ⟨hli, hj'⟩ := h.live_parent hci.live hj hi
    exact .kid (ih hli) hj'

theorem erase_middle (hnd : (l ++ q :: x :: r).Nodup) :
    (l ++ q :: x :: r).erase x = l ++ q :: r := by
  have hl : x ∉ l := fun hx => (List.disjoint_of_nodup_append hnd) hx (by simp)
  have hq : q ≠ x := fun he => by
    have := (List.nodup_append'.mp hnd).2.1
    simp [he] at this
  rw [List.erase_append_right _ hl, List.erase_cons_tail (by simpa using hq), List.erase_cons_head]

theorem Tree.prune (h : Tree V kids) (hp : Live kids p) (hk : kids p = l ++ q :: x :: r)
    (hx : (V x).link = false ∨ (V x).child = -1) :
    Tree (Function.update V q { V q with next := (V x).next }) (pruneKids kids p x) := by
  have hxp : x ∈ kids p := by simp [hk]
  have hqp : q ∈ kids p := by simp [hk]
  have hnd : (l ++ q :: x :: r).Nodup := hk ▸ h.nodup hp
  have hkp : pruneKids kids p x p = l ++ q :: r := by rw [pruneKids_parent, hk, erase_middle hnd]
  let V' := Function.update V q { V q with next := (V x).next }
  -- all but `next` is the same everywhere
  have hsame : ∀ i, (V' i).name = (V i).name ∧ (V' i).dot = (V i).dot ∧ (V' i).ddot = (V i).ddot ∧
      (V' i).child = (V i).child ∧ (V' i).mode = (V i).mode := by
    intro i
    by_cases hi : i = q
    · subst hi
      simp [V']
    · simp [V', Function.update_of_ne hi]
  have hlink : ∀ i, (V' i).link = (V i).link := fun i => by
    rw [Vinode.link, (hsame i).2.2.2.2, Vinode.link]
  have hnext : ∀ {i}, i ≠ q → (V' i).next = (V i).next := fun hi => by
    simp [V', Function.update_of_ne hi]
  have hkeep : ∀ {j}, (V j).link = true → (V j).child ≠ -1 → j ≠ x := by
    rintro j hl hc rfl
    rcases hx with hx | hx
    · rw [hl] at hx
      cases hx
    · exact hc hx
  have hcases : ∀ {i}, Live (pruneKids kids p x) i →
      Live kids i ∧ ((i = p ∧ pruneKids kids p x i = l ++ q :: r) ∨
        (i ≠ p ∧ pruneKids kids p x i = kids i)) := by
    intro i hi
    refine ⟨hi.of_prune, ?_⟩
    by_cases hip : i = p
    · exact .inl ⟨hip, hip ▸ hkp⟩
    · exact .inr ⟨hip, pruneKids_other hip⟩
  constructor
  case lt => exact fun hi => h.lt hi.of_prune
  case used =>
    intro i hi
    rw [(hsame i).2.2.2.2]
    exact h.used hi.of_prune
  case root =>
    have h0 : 0 ≠ q := fun he => h.notRoot hp (he ▸ hqp)
    rw [hlink, hnext h0]
    exact h.root
  case leaf =>
    intro i hi hl
    rw [hlink] at hl
    exact List.eq_nil_of_subset_nil (h.leaf hi.of_prune hl ▸ pruneKids_subset i)
  case child =>
    intro i hi hl
    rw [hlink] at hl
    rw [(hsame i).2.2.2.1, h.child hi.of_prune hl]
    obtain ⟨-, ⟨rfl, he⟩ | ⟨-, he⟩⟩ := hcases hi
    · rw [he, hk]
      cases l <;> rfl
    · rw [he]
  case chain =>
    intro i hi
    obtain ⟨hli, ⟨rfl, he⟩ | ⟨hip, he⟩⟩ := hcases hi
    · rw [he]
      refine (hk ▸ h.chain hp).erase (by simp) fun j hj => hnext ?_
      rintro rfl
      have hd := List.nodup_append'.mp hnd
      rcases List.mem_append.mp hj with hj | hj
      · exact hd.2.2 hj (by simp)
      · have := hd.2.1
        simp [hj] at this
    · rw [he]
      refine (h.chain hli).congr fun j hj => hnext ?_
      rintro rfl
      exact hip (h.parent hli hp hj hqp)
  case parent =>
    intro i i' j hi hi' hj hj'
    exact h.parent hi.of_prune hi'.of_prune (pruneKids_subset _ hj) (pruneKids_subset _ hj')
  case nodup =>
    intro i hi
    by_cases hip : i = p
    · rw [hip, pruneKids_parent]
      exact (h.nodup hp).erase x
    · rw [pruneKids_other hip]
      exact h.nodup hi.of_prune
  case notRoot => exact fun hi h0 => h.notRoot hi.of_prune (pruneKids_subset _ h0)
  case dot =>
    intro i a l' hi hal
    have hfirst : ∃ l'', kids i = a :: l'' ∧ l' ⊆ l'' := by
      obtain ⟨-, ⟨rfl, he⟩ | ⟨-, he⟩⟩ := hcases hi
      · rw [he] at hal
        rw [hk]
        cases l with
        | nil =>
          cases hal
          exact ⟨x :: r, rfl, by simp⟩
        | cons b l =>
          cases hal
          exact ⟨l ++ q :: x :: r, rfl, fun j hj => by simp at hj ⊢; tauto⟩
      · exact ⟨l', he ▸ hal, List.Subset.refl _⟩
    obtain ⟨l'', hl'', hsub⟩ := hfirst
    obtain ⟨h1, h2, h3, h4⟩ := h.dot hi.of_prune hl''
    refine ⟨(hlink a).trans h1, (hsame a).1.trans h2, (hsame a).2.2.2.1.trans h3, fun j hj => ?_⟩
    rw [(hsame j).1]
    exact h4 j (hsub hj)
  case ddot =>
    intro i a b l' hi hal
    rw [hlink, (hsame b).2.2.2.1]
    obtain ⟨hli, ⟨rfl, he⟩ | ⟨-, he⟩⟩ := hcases hi
    · rw [he] at hal
      -- `x` is not the second child
      match l, hal with
      | [], hal =>
        obtain ⟨h1, h2⟩ := h.ddot hp hk
        exact absurd rfl (hkeep h1 h2)
      | [_], hal =>
        cases hal
        exact h.ddot hp hk
      | _ :: _ :: _, hal =>
        cases hal
        exact h.ddot hp hk
    · exact h.ddot hli (he ▸ hal)
  case up =>
    intro i j hi hj hl hc
    rw [hlink] at hl
    rw [(hsame j).2.2.2.1] at hc ⊢
    obtain ⟨c, h1, h2⟩ := h.up hi.of_prune (pruneKids_subset _ hj) hl hc
    exact ⟨c, h1, h.anc_prune h2 hi⟩
  case named =>
    intro i j hi hj hl hc
    rw [hlink] at hl
    rw [(hsame j).2.2.2.1] at hc
    rw [(hsame j).1]
    exact h.named hi.of_prune (pruneKids_subset _ hj) hl hc
  case sib =>
    intro i a l' j hi hal hj hc
    rw [hlink, (hsame j).2.2.2.1] at hc
    have hfirst : ∃ l'', kids i = a :: l'' ∧ l' ⊆ l'' ∧ ∀ b ∈ l'', b ≠ x → b ∈ l' := by
      obtain ⟨-, ⟨rfl, he⟩ | ⟨-, he⟩⟩ := hcases hi
      · rw [he] at hal
        rw [hk]
        cases l with
        | nil =>
          cases hal
          exact ⟨x :: r, rfl, by simp, fun b hb hbx => by simpa [hbx] using hb⟩
        | cons b l =>
          cases hal
          exact ⟨l ++ q :: x :: r, rfl, fun j hj => by simp at hj ⊢; tauto,
            fun b hb hbx => by simp [hbx] at hb ⊢; tauto⟩
      · exact ⟨l', he ▸ hal, List.Subset.refl _, fun b hb _ => hb⟩
    obtain ⟨l'', hl'', hsub, hback⟩ := hfirst
    obtain ⟨h1, b, hb, h2, h3, h4⟩ := h.sib hi.of_prune hl'' (hsub hj) hc
    exact ⟨(hsame j).2.1.trans h1, b, hback b hb (hkeep h3 h4), (hsame j).2.2.1.trans h2,
      (hlink b).trans h3, (hsame b).2.2.2.1 ▸ h4⟩

end Prune

end OsWorkbench.Vfs
