import OsWorkbench.Pstree.Model
import OsWorkbench.Lib.Path

/-!
# The lists of children

The nodes of `Tree` form one list for each parent, between two nodes that carry no process,
and no node is on two lists. `insert_node` puts the new node in front of the first one that
the comparison does not pass, and leaves the other lists alone.
-/

namespace OsWorkbench.Pstree

open Lib

/-- A process as the table lists it. -/
abbrev Entry := Int × CStr

/-- What a node says about its process. -/
def entry (s : State) (q : Nat) : Entry := ((s.node q).childPid, (s.node q).childName)

def nextOf (s : State) (q : Nat) : Nat := (s.node q).next

/-- The addresses of a list, its two ends included. -/
def cells (s : State) (lay : Nat → List Nat) (i : Nat) : List Nat :=
  if (s.tree i).head = 0 then [] else (s.tree i).head :: (lay i ++ [(s.tree i).tail])

/-- `lay i` are the nodes of the children of `i`, in order. -/
structure Lists (s : State) (lay : Nat → List Nat) : Prop where
  brk : 0 < s.brk
  empty : ∀ i, (s.tree i).head = 0 → (s.tree i).tail = 0 ∧ lay i = []
  path : ∀ i, (s.tree i).head ≠ 0 → Path (nextOf s) (s.tree i).head (lay i) (s.tree i).tail
  valid : ∀ i, ∀ q ∈ cells s lay i, 0 < q ∧ q < s.brk
  nodup : ∀ i, (cells s lay i).Nodup
  apart : ∀ i j, i ≠ j → (cells s lay i).Disjoint (cells s lay j)

/-- The table lists `f i` as the children of `i`. -/
def Represents (s : State) (f : Nat → List Entry) : Prop :=
  ∃ lay, Lists s lay ∧ ∀ i, f i = (lay i).map (entry s)

theorem get_eq {s : State} {p : Nat} (h : 0 < p ∧ p < s.brk) : s.get p = .ok (s.node p) := by
  rw [State.get, inBounds_bind h, pure_eq_ok]

theorem get_bind {s : State} {p : Nat} (h : 0 < p ∧ p < s.brk) {β : Type}
    {k : ListNode → Except Fault β} : (s.get p >>= k) = k (s.node p) := by
  rw [get_eq h, ok_bind]

theorem modify_eq {s : State} {p : Nat} {f : ListNode → ListNode} (h : 0 < p ∧ p < s.brk) :
    s.modify p f = .ok { s with node := Function.update s.node p (f (s.node p)) } := by
  rw [State.modify, inBounds_bind h, pure_eq_ok]

namespace Lists

variable {s : State} {lay : Nat → List Nat} {i j q : Nat}

theorem cells_eq (hi : (s.tree i).head ≠ 0) :
    cells s lay i = (s.tree i).head :: (lay i ++ [(s.tree i).tail]) := if_neg hi

theorem mem_cells (h : Lists s lay) (hq : q ∈ lay i) : q ∈ cells s lay i := by
  have hi : (s.tree i).head ≠ 0 := by
    intro h0
    rw [(h.empty i h0).2] at hq
    cases hq
  rw [cells_eq hi]
  exact List.mem_cons_of_mem _ (List.mem_append_left _ hq)

/-- The nodes that a loop over the list comes through, the first end included. -/
theorem path_subset (_ : Lists s lay) (hi : (s.tree i).head ≠ 0)
    (hq : q ∈ (s.tree i).head :: lay i) : q ∈ cells s lay i := by
  rw [cells_eq hi, ← List.cons_append]
  exact List.mem_append_left _ hq

theorem tail_notMem (h : Lists s lay) (hi : (s.tree i).head ≠ 0) : (s.tree i).tail ∉ lay i := by
  have hnd := h.nodup i
  rw [cells_eq hi, List.nodup_cons, List.nodup_append] at hnd
  exact fun hm => hnd.2.2.2 _ hm _ (List.mem_singleton_self _) rfl

/-- There are fewer nodes on a list than `malloc` has returned. -/
theorem length_lt (h : Lists s lay) (hi : (s.tree i).head ≠ 0) : (lay i).length + 1 < s.brk := by
  have hsub : cells s lay i ⊆ List.range s.brk := fun q hq =>
    List.mem_range.mpr (h.valid i q hq).2
  have hle := ((h.nodup i).subperm hsub).length_le
  rw [cells_eq hi, List.length_range] at hle
  simp at hle
  omega

/-- A new node that is on no list yet, and other contents of such nodes. -/
theorem fresh (h : Lists s lay) (s' : State) (htree : s'.tree = s.tree) (hbrk : s.brk ≤ s'.brk)
    (hnode : ∀ q < s.brk, s'.node q = s.node q) :
    Lists s' lay ∧ ∀ i, (lay i).map (entry s') = (lay i).map (entry s) := by
  have hcells : cells s' lay = cells s lay := by
    funext i
    rw [cells, cells, htree]
  refine ⟨⟨h.brk.trans_le hbrk, fun i => htree ▸ h.empty i, fun i hi => ?_, fun i q hq => ?_,
    fun i => hcells ▸ h.nodup i, fun i j hij => hcells ▸ h.apart i j hij⟩, fun i => ?_⟩
  · rw [htree] at hi ⊢
    refine (h.path i hi).congr fun q hq => ?_
    rw [nextOf, nextOf, hnode q (h.valid i q (h.path_subset hi hq)).2]
  · rw [hcells] at hq
    exact ⟨(h.valid i q hq).1, (h.valid i q hq).2.trans_le hbrk⟩
  · exact List.map_congr_left fun q hq => by
      rw [entry, entry, hnode q (h.valid i q (h.mem_cells hq)).2]

end Lists

/-- At the start there are no lists. -/
theorem represents_init (node : Nat → ListNode) : Represents (.init node) fun _ => [] :=
  ⟨fun _ => [], ⟨Nat.one_pos, fun _ _ => ⟨rfl, rfl⟩, fun _ h => absurd rfl h,
    fun _ _ h => (nomatch h), fun _ => .nil, fun _ _ _ _ h => (nomatch h)⟩, fun _ => rfl⟩

/-! ## The steps of `insert_node` -/

section Insert

variable {s : State} {lay : Nat → List Nat} {i : Nat}

theorem addEnds_spec (h : Lists s lay) (i : Nat) :
    ∃ s', addEnds s i = .ok s' ∧ Lists s' lay ∧ (s'.tree i).head ≠ 0 ∧
      ∀ j, (lay j).map (entry s') = (lay j).map (entry s) := by
  by_cases h0 : (s.tree i).head = 0
  · obtain ⟨ht, hnil⟩ := h.empty i h0
    have hb := h.brk
    let s' : State := {
      node := Function.update s.node s.brk { s.node s.brk with next := s.brk + 1 }
      brk := s.brk + 1 + 1
      tree := Function.update s.tree i ⟨s.brk, s.brk + 1⟩ }
    have hi : s'.tree i = ⟨s.brk, s.brk + 1⟩ := Function.update_self ..
    have hj : ∀ j, j ≠ i → s'.tree j = s.tree j := fun j hj => Function.update_of_ne hj _ _
    have hnode : ∀ q < s.brk, s'.node q = s.node q := fun q hq => Function.update_of_ne hq.ne _ _
    have hci : cells s' lay i = [s.brk, s.brk + 1] := by
      rw [Lists.cells_eq (by rw [hi]; exact hb.ne'), hi, hnil]
      rfl
    have hcj : ∀ j, j ≠ i → cells s' lay j = cells s lay j := fun j h => by
      rw [cells, cells, hj j h]
    have hold : ∀ {j}, j ≠ i → ∀ q ∈ cells s' lay j, 0 < q ∧ q < s.brk := fun {j} hji q hq =>
      h.valid j q (hcj j hji ▸ hq)
    have hnew : ∀ q ∈ cells s' lay i, s.brk ≤ q ∧ q < s.brk + 1 + 1 := by
      intro q hq
      rw [hci] at hq
      simp at hq
      omega
    refine ⟨s', ?_, ⟨by show 0 < s.brk + 1 + 1; omega, fun j => ?_, fun j => ?_, fun j q hq => ?_,
      fun j => ?_, fun j k hjk => ?_⟩, by rw [hi]; exact hb.ne', fun j => ?_⟩
    · rw [addEnds, if_pos ⟨h0, ht⟩]
      exact modify_eq (s := ⟨s.node, s.brk + 1 + 1, Function.update s.tree i ⟨s.brk, s.brk + 1⟩⟩)
        ⟨hb, by show _ < s.brk + 1 + 1; omega⟩
    · rcases eq_or_ne j i with rfl | hji
      · rw [hi]
        exact fun hb0 => absurd hb0 hb.ne'
      · rw [hj j hji]
        exact h.empty j
    · rcases eq_or_ne j i with rfl | hji
      · intro _
        rw [hi, hnil]
        show (s'.node s.brk).next = s.brk + 1
        show (Function.update s.node s.brk _ s.brk).next = _
        rw [Function.update_self]
      · intro hhead
        rw [hj j hji] at hhead ⊢
        refine (h.path j hhead).congr fun q hq => ?_
        rw [nextOf, nextOf, hnode q (h.valid j q (h.path_subset hhead hq)).2]
    · rcases eq_or_ne j i with rfl | hji
      · exact ⟨hb.trans_le (hnew q hq).1, (hnew q hq).2⟩
      · have := hold hji q hq
        exact ⟨this.1, this.2.trans (by show s.brk < s.brk + 1 + 1; omega)⟩
    · rcases eq_or_ne j i with rfl | hji
      · rw [hci]
        simp
      · rw [hcj j hji]
        exact h.nodup j
    · rcases eq_or_ne j i with rfl | hji
      · exact fun q hq hk => absurd (hold hjk.symm q hk).2 (not_lt.mpr (hnew q hq).1)
      · rcases eq_or_ne k i with rfl | hki
        · exact fun q hq hk => absurd (hold hji q hq).2 (not_lt.mpr (hnew q hk).1)
        · rw [hcj j hji, hcj k hki]
          exact h.apart j k hjk
    · exact List.map_congr_left fun q hq => by
        rw [entry, entry, hnode q (h.valid j q (h.mem_cells hq)).2]
  · exact ⟨s, if_neg fun hc => h0 hc.1, h, h0, fun _ => rfl⟩

/-- The loop passes the nodes that the comparison passes. -/
theorem findPlace_spec {cmp : Guard} {newNode : Nat} {t : PList} {c : Nat → Bool} {l : List Nat}
    {p : Nat} (fuel : Nat) (hpath : Path (nextOf s) p l t.tail) (htail : t.tail ∉ l)
    (hp : 0 < p ∧ p < s.brk) (hl : ∀ q ∈ l, 0 < q ∧ q < s.brk)
    (hcmp : ∀ q ∈ l, cmp s newNode q t.head t.tail = .ok (c q)) (hfuel : l.length < fuel) :
    findPlace cmp s newNode t fuel p (nextOf s p) =
      .ok ((p :: l.takeWhile c).getLast (by simp), (l.dropWhile c).headD t.tail) := by
  induction l generalizing p fuel with
  | nil =>
    obtain ⟨fuel, rfl⟩ := Nat.exists_eq_add_of_lt hfuel
    rw [hpath, findPlace, if_pos rfl]
    rfl
  | cons x l ih =>
    obtain ⟨fuel, rfl⟩ : ∃ m, fuel = m + 1 := ⟨fuel - 1, by simp at hfuel; omega⟩
    obtain ⟨hx, hrest⟩ := hpath
    have hxt : x ≠ t.tail := fun he => htail (he ▸ List.mem_cons_self)
    rw [hx, findPlace, if_neg hxt, hcmp x List.mem_cons_self, ok_bind]
    by_cases hc : c x
    · rw [if_pos hc, get_bind hp, get_bind (hl x List.mem_cons_self)]
      show findPlace cmp s newNode t fuel (nextOf s p) (nextOf s x) = _
      rw [hx, ih fuel hrest (fun hm => htail (List.mem_cons_of_mem _ hm)) (hl x List.mem_cons_self)
        (fun q hq => hl q (List.mem_cons_of_mem _ hq))
        (fun q hq => hcmp q (List.mem_cons_of_mem _ hq)) (by simpa using hfuel)]
      rw [List.takeWhile_cons_of_pos hc, List.dropWhile_cons_of_pos hc]
      rfl
    · rw [if_neg hc, List.takeWhile_cons_of_neg hc, List.dropWhile_cons_of_neg hc]
      rfl

theorem initNode_spec (h : Lists s lay) (pid : Int) {name : CStr}
    (hname : name.length < nameLength) :
    ∃ s', initNode { s with brk := s.brk + 1 } s.brk pid name = .ok s' ∧ Lists s' lay ∧
      s'.tree = s.tree ∧ s'.brk = s.brk + 1 ∧ entry s' s.brk = (pid, name) ∧
      ∀ j, (lay j).map (entry s') = (lay j).map (entry s) := by
  have hv : 0 < s.brk ∧ s.brk < s.brk + 1 := ⟨h.brk, Nat.lt_succ_self _⟩
  let n : ListNode := { s.node s.brk with childPid := pid }
  let s₁ : State := ⟨Function.update s.node s.brk n, s.brk + 1, s.tree⟩
  let s₂ : State := ⟨Function.update s₁.node s.brk { n with childName := name }, s.brk + 1, s.tree⟩
  have h₁ : ({ s with brk := s.brk + 1 } : State).modify s.brk
      (fun n => { n with childPid := pid }) = .ok s₁ := modify_eq hv
  have h₂ : s₁.modify s.brk (fun n => { n with childName := name }) = .ok s₂ := by
    rw [modify_eq hv]
    show Except.ok (State.mk (Function.update _ _ { s₁.node s.brk with childName := name }) _ _) = _
    rw [show s₁.node s.brk = n from Function.update_self ..]
  have hfresh := h.fresh s₂ rfl (Nat.le_succ _) fun q hq =>
    (Function.update_of_ne hq.ne _ _).trans (Function.update_of_ne hq.ne _ _)
  refine ⟨s₂, ?_, hfresh.1, rfl, rfl, ?_, hfresh.2⟩
  · rw [initNode, h₁, ok_bind, inBounds_bind hname, h₂]
  · rw [entry, show s₂.node s.brk = { n with childName := name } from Function.update_self ..]

/-- A node that is on no list is put behind the nodes `l₁`. -/
theorem insertNodeDo_spec (h : Lists s lay) (hi : (s.tree i).head ≠ 0) {n : Nat}
    (l₁ l₂ : List Nat) (hl : lay i = l₁ ++ l₂) (hn : 0 < n ∧ n < s.brk)
    (hfree : ∀ j, n ∉ cells s lay j) :
    ∃ s', insertNodeDo s (((s.tree i).head :: l₁).getLast (by simp)) n
        (l₂.headD (s.tree i).tail) = .ok s' ∧
      Lists s' (Function.update lay i (l₁ ++ n :: l₂)) ∧ ∀ q, entry s' q = entry s q := by
  set p := ((s.tree i).head :: l₁).getLast (by simp) with hp
  have hpc : p ∈ (s.tree i).head :: l₁ := List.getLast_mem _
  have hci : cells s lay i = (s.tree i).head :: l₁ ++ (l₂ ++ [(s.tree i).tail]) := by
    rw [Lists.cells_eq hi, hl]
    simp
  have hpi : p ∈ cells s lay i := hci ▸ List.mem_append_left _ hpc
  have hpv := h.valid i p hpi
  have hpn : p ≠ n := fun he => hfree i (he ▸ hpi)
  let s₁ : State := { s with node := Function.update s.node p { s.node p with next := n } }
  let s₂ : State := { s₁ with
    node := Function.update s₁.node n { s₁.node n with next := l₂.headD (s.tree i).tail } }
  have hother : ∀ q, q ≠ p → q ≠ n → nextOf s₂ q = nextOf s q := fun q hqp hqn => by
    show (Function.update (Function.update s.node p _) n _ q).next = _
    rw [Function.update_of_ne hqn, Function.update_of_ne hqp]
    rfl
  have hnextp : nextOf s₂ p = n := by
    show (Function.update (Function.update s.node p _) n _ p).next = _
    rw [Function.update_of_ne hpn, Function.update_self]
  have hnextn : nextOf s₂ n = l₂.headD (s.tree i).tail := by
    show (Function.update (Function.update s.node p _) n _ n).next = _
    rw [Function.update_self]
  have hcells : ∀ j, cells s₂ (Function.update lay i (l₁ ++ n :: l₂)) j =
      if j = i then (s.tree i).head :: l₁ ++ n :: (l₂ ++ [(s.tree i).tail]) else cells s lay j := by
    intro j
    split
    case isTrue hji =>
      rw [hji, Lists.cells_eq (s := s₂) hi, Function.update_self]
      simp [s₂, s₁]
    case isFalse hji =>
      rw [cells, cells, Function.update_of_ne hji]
  have hmem : ∀ j, ∀ q ∈ cells s₂ (Function.update lay i (l₁ ++ n :: l₂)) j,
      q ∈ cells s lay j ∨ (j = i ∧ q = n) := by
    intro j q hq
    rw [hcells] at hq
    split at hq
    case isTrue hji =>
      rw [hji, hci]
      simp only [List.mem_append, List.mem_cons] at hq ⊢
      tauto
    case isFalse hji => exact .inl hq
  refine ⟨s₂, ?_, ⟨h.brk, fun j hj => ?_, fun j hj => ?_, fun j q hq => ?_, fun j => ?_,
    fun j k hjk q hq hk => ?_⟩, fun q => ?_⟩
  · rw [insertNodeDo, modify_eq hpv, ok_bind]
    exact modify_eq hn
  · have hji : j ≠ i := by
      rintro rfl
      exact hi hj
    rw [Function.update_of_ne hji]
    exact h.empty j hj
  · rcases eq_or_ne j i with rfl | hji
    · rw [Function.update_self]
      have hnd := h.nodup j
      rw [Lists.cells_eq hi, ← List.cons_append] at hnd
      have hmem' : n ∉ (s.tree j).head :: (l₁ ++ l₂) := by
        intro hm
        refine hfree j ?_
        rw [Lists.cells_eq hi, ← List.cons_append, hl]
        exact List.mem_append_left _ hm
      exact (hl ▸ h.path j hi).insert (hl ▸ hnd.of_append_left) hmem' hnextp hnextn hother
    · rw [Function.update_of_ne hji]
      refine (h.path j hj).congr fun q hq => hother q ?_ ?_
      · rintro rfl
        exact h.apart i j hji.symm hpi (h.path_subset hj hq)
      · rintro rfl
        exact hfree j (h.path_subset hj hq)
  · rcases hmem j q hq with hold | ⟨-, rfl⟩
    · exact h.valid j q hold
    · exact hn
  · rw [hcells]
    split
    case isTrue hji =>
      have hnd := h.nodup i
      rw [hci] at hnd
      refine List.nodup_middle.mpr (List.nodup_cons.mpr ⟨?_, hnd⟩)
      rw [← hci]
      exact hfree i
    case isFalse hji => exact h.nodup j
  · rcases hmem j q hq with hj | ⟨rfl, rfl⟩
    · rcases hmem k q hk with hk | ⟨rfl, rfl⟩
      · exact h.apart j k hjk hj hk
      · exact hfree j hj
    · rcases hmem k q hk with hk | ⟨rfl, -⟩
      · exact hfree k hk
      · exact hjk rfl
  · have hkeep : ∀ (t : State) (a b : Nat),
        entry { t with node := Function.update t.node a { t.node a with next := b } } q =
          entry t q := by
      intro t a b
      rcases eq_or_ne q a with rfl | hqa
      · simp [entry]
      · simp [entry, hqa]
    rw [hkeep s₁, hkeep s]

/-- The comparison looks at what the two nodes say, away from the ends. -/
def Compares (cmp : Guard) (c : Entry → Entry → Bool) : Prop :=
  ∀ s p q head tail, 0 < p ∧ p < s.brk → 0 < q ∧ q < s.brk → p ≠ head → q ≠ tail →
    cmp s p q head tail = .ok (c (entry s p) (entry s q))

theorem compares_guardCmp1 : Compares guardCmp1 fun a b => decide (a.1 > b.1) := by
  intro s p q head tail hp hq hne hne'
  rw [guardCmp1, if_neg (not_or.mpr ⟨hne, hne'⟩), get_bind hp, get_bind hq]
  rfl

/-- The list of children after a process was inserted. -/
def insertEntry (c : Entry → Entry → Bool) (a : Entry) (l : List Entry) : List Entry :=
  l.takeWhile (c a) ++ a :: l.dropWhile (c a)

/-- What inserting a process does: one list gets one entry more. -/
theorem insertNode_spec {cmp : Guard} {c : Entry → Entry → Bool} (hcmp : Compares cmp c)
    {f : Nat → List Entry} (h : Represents s f) (hi : i < treeLength) (pid : Int) {name : CStr}
    (hname : name.length < nameLength) :
    ∃ s', insertNode cmp s i pid name = .ok s' ∧
      Represents s' (Function.update f i (insertEntry c (pid, name) (f i))) := by
  obtain ⟨lay, h, hf⟩ := h
  obtain ⟨s₁, h₁, hl₁, hhead, he₁⟩ := addEnds_spec h i
  obtain ⟨s₂, h₂, hl₂, htree, hbrk, hnew, he₂⟩ := initNode_spec hl₁ pid hname
  have hhead₂ : (s₂.tree i).head ≠ 0 := htree ▸ hhead
  have hcell : ∀ q ∈ cells s₂ lay i, 0 < q ∧ q < s₂.brk := hl₂.valid i
  have hold : ∀ j, ∀ q ∈ cells s₂ lay j, q < s₁.brk := by
    intro j q hq
    refine (hl₁.valid j q ?_).2
    rwa [cells, ← htree]
  have hfree : ∀ j, s₁.brk ∉ cells s₂ lay j := fun j hm => lt_irrefl _ (hold j _ hm)
  have hn : 0 < s₁.brk ∧ s₁.brk < s₂.brk := ⟨hl₁.brk, hbrk ▸ Nat.lt_succ_self _⟩
  have hheadc : (s₂.tree i).head ∈ cells s₂ lay i := by
    rw [Lists.cells_eq hhead₂]
    exact List.mem_cons_self
  let d : Nat → Bool := fun q => c (pid, name) (entry s₂ q)
  have hd : ∀ q ∈ lay i, cmp s₂ s₁.brk q (s₂.tree i).head (s₂.tree i).tail = .ok (d q) := by
    intro q hq
    have hne : s₁.brk ≠ (s₂.tree i).head := fun he => hfree i (he ▸ hheadc)
    have hne' : q ≠ (s₂.tree i).tail := fun he => hl₂.tail_notMem hhead₂ (he ▸ hq)
    rw [hcmp _ _ _ _ _ hn (hcell q (hl₂.mem_cells hq)) hne hne', hnew]
  have hplace := findPlace_spec s₂.brk (hl₂.path i hhead₂) (hl₂.tail_notMem hhead₂)
    (hcell _ hheadc) (fun q hq => hcell q (hl₂.mem_cells hq)) hd
    (Nat.lt_of_succ_lt (hl₂.length_lt hhead₂))
  obtain ⟨s₃, h₃, hl₃, he₃⟩ := insertNodeDo_spec hl₂ hhead₂ ((lay i).takeWhile d)
    ((lay i).dropWhile d) List.takeWhile_append_dropWhile.symm hn hfree
  refine ⟨s₃, ?_, _, hl₃, fun j => ?_⟩
  · rw [insertNode, index_bind hi, h₁, ok_bind]
    show (initNode { s₁ with brk := s₁.brk + 1 } s₁.brk pid name >>= _) = _
    rw [h₂, ok_bind, get_bind (hcell _ hheadc)]
    show (findPlace cmp s₂ s₁.brk (s₂.tree i) s₂.brk (s₂.tree i).head (nextOf s₂ (s₂.tree i).head)
      >>= _) = _
    rw [hplace, ok_bind]
    exact h₃
  · have hmap : ∀ l : List Nat, l.map (entry s₃) = l.map (entry s₂) := fun l =>
      List.map_congr_left fun q _ => he₃ q
    rcases eq_or_ne j i with rfl | hji
    · rw [Function.update_self, Function.update_self, hmap, insertEntry, hf j, ← he₁ j, ← he₂ j,
        List.takeWhile_map, List.dropWhile_map, List.map_append, List.map_cons, hnew]
      rfl
    · rw [Function.update_of_ne hji, Function.update_of_ne hji, hmap, he₂, he₁, hf]

end Insert

end OsWorkbench.Pstree
