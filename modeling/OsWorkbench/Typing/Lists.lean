import OsWorkbench.Typing.Model

/-!
# The letters and the free nodes

The nodes of the pool are on two lists: the letters of the game, linked in both directions,
and the free nodes, chained by `_next`. What `create_new_letter` and `update_letter_pos` do
to the lists is said in terms of the list of the letters.
-/

namespace OsWorkbench.Typing

open Function

/-! ## Assignments -/

section Assign

variable (pool : Node → Fly) {p : Option Node} (q : Option Node) (i j : Node) (l : Letter)

/-- A field that an assignment does not change. -/
theorem update_field {β : Type} (f : Fly → β) {a : Fly} (h : f a = f (pool i)) :
    f (update pool i a j) = f (pool j) := by
  obtain rfl | hne := eq_or_ne j i
  · rw [update_self, h]
  · rw [update_of_ne hne]

@[simp] theorem setPrev_next : (setPrev pool i q j).next = (pool j).next :=
  update_field pool i j Fly.next rfl

@[simp] theorem setPrev_letter : (setPrev pool i q j).letter = (pool j).letter :=
  update_field pool i j Fly.letter rfl

@[simp] theorem setPrev_prev_self : (setPrev pool i q i).prev = q := by
  rw [setPrev, update_self]

theorem setPrev_of_ne {i j : Node} (h : j ≠ i) : setPrev pool i q j = pool j := update_of_ne h ..

@[simp] theorem setNext_prev : (setNext pool i q j).prev = (pool j).prev :=
  update_field pool i j Fly.prev rfl

@[simp] theorem setNext_letter : (setNext pool i q j).letter = (pool j).letter :=
  update_field pool i j Fly.letter rfl

@[simp] theorem setNext_next_self : (setNext pool i q i).next = q := by
  rw [setNext, update_self]

theorem setNext_of_ne {i j : Node} (h : j ≠ i) : setNext pool i q j = pool j := update_of_ne h ..

@[simp] theorem setLetter_prev : (setLetter pool i l j).prev = (pool j).prev :=
  update_field pool i j Fly.prev rfl

@[simp] theorem setLetter_next : (setLetter pool i l j).next = (pool j).next :=
  update_field pool i j Fly.next rfl

@[simp] theorem setLetter_self : (setLetter pool i l i).letter = l := by
  rw [setLetter, update_self]

theorem setLetter_of_ne {i j : Node} (h : j ≠ i) : setLetter pool i l j = pool j :=
  update_of_ne h ..

theorem linkNext_next :
    (linkNext pool p q j).next = if p = some j then q else (pool j).next := by
  cases p with
  | none => rfl
  | some i =>
    by_cases h : i = j
    · rw [h, if_pos rfl]
      exact setNext_next_self ..
    · rw [if_neg (mt Option.some.inj h)]
      exact congrArg Fly.next (setNext_of_ne _ _ (Ne.symm h))

@[simp] theorem linkNext_prev : (linkNext pool p q j).prev = (pool j).prev := by
  cases p with
  | none => rfl
  | some i => exact setNext_prev ..

@[simp] theorem linkNext_letter : (linkNext pool p q j).letter = (pool j).letter := by
  cases p with
  | none => rfl
  | some i => exact setNext_letter ..

theorem linkPrev_prev :
    (linkPrev pool p q j).prev = if p = some j then q else (pool j).prev := by
  cases p with
  | none => rfl
  | some i =>
    by_cases h : i = j
    · rw [h, if_pos rfl]
      exact setPrev_prev_self ..
    · rw [if_neg (mt Option.some.inj h)]
      exact congrArg Fly.prev (setPrev_of_ne _ _ (Ne.symm h))

@[simp] theorem linkPrev_next : (linkPrev pool p q j).next = (pool j).next := by
  cases p with
  | none => rfl
  | some i => exact setPrev_next ..

@[simp] theorem linkPrev_letter : (linkPrev pool p q j).letter = (pool j).letter := by
  cases p with
  | none => rfl
  | some i => exact setPrev_letter ..

end Assign

/-! ## Chains -/

/-- The nodes are linked in the order of the list, from a node that `p` leads back to. -/
def Linked (pool : Node → Fly) : Option Node → List Node → Prop
  | _, [] => True
  | p, i :: l => (pool i).prev = p ∧ (pool i).next = l.head? ∧ Linked pool (some i) l

/-- The free nodes are chained in the order of the list. -/
def Chained (pool : Node → Fly) : List Node → Prop
  | [] => True
  | i :: l => (pool i).next = l.head? ∧ Chained pool l

section Chains

variable {pool pool' : Node → Fly} {p : Option Node} {i : Node} {l l' : List Node}

theorem Linked.congr (h : Linked pool p l) (hprev : ∀ j ∈ l, (pool' j).prev = (pool j).prev)
    (hnext : ∀ j ∈ l, (pool' j).next = (pool j).next) : Linked pool' p l := by
  induction l generalizing p with
  | nil => trivial
  | cons i l ih =>
    obtain ⟨hp, hn, hl⟩ := h
    have hmem : i ∈ i :: l := List.mem_cons_self
    exact ⟨(hprev i hmem).trans hp, (hnext i hmem).trans hn, ih hl
      (fun j hj => hprev j (List.mem_cons_of_mem i hj))
      (fun j hj => hnext j (List.mem_cons_of_mem i hj))⟩

theorem Chained.congr (h : Chained pool l) (hnext : ∀ j ∈ l, (pool' j).next = (pool j).next) :
    Chained pool' l := by
  induction l with
  | nil => trivial
  | cons i l ih =>
    exact ⟨(hnext i List.mem_cons_self).trans h.1, ih h.2 fun j hj =>
      hnext j (List.mem_cons_of_mem i hj)⟩

theorem Linked.next_eq (h : Linked pool p (l ++ i :: l')) : (pool i).next = l'.head? := by
  induction l generalizing p with
  | nil => exact h.2.1
  | cons j l ih => exact ih h.2.2

/-- A node that is not the first one is led back to one of the nodes in front of it. -/
theorem Linked.prev_mem (h : Linked pool p (l ++ i :: l')) (hl : l ≠ []) :
    ∃ j ∈ l, (pool i).prev = some j := by
  induction l generalizing p with
  | nil => exact absurd rfl hl
  | cons j l ih =>
    cases l with
    | nil => exact ⟨j, List.mem_cons_self, h.2.2.1⟩
    | cons k l =>
      obtain ⟨j', hj', hprev⟩ := ih h.2.2 (List.cons_ne_nil k l)
      exact ⟨j', List.mem_cons_of_mem j hj', hprev⟩

/-- A node is taken out: its neighbours are linked to each other. -/
theorem Linked.remove (h : Linked pool p (l ++ i :: l')) (hnd : (l ++ i :: l').Nodup)
    (hp : ∀ j ∈ l ++ i :: l', p ≠ some j)
    (hprev : ∀ j, (pool' j).prev = if l'.head? = some j then (pool i).prev else (pool j).prev)
    (hnext : ∀ j, (pool' j).next = if (pool i).prev = some j then l'.head? else (pool j).next) :
    Linked pool' p (l ++ l') := by
  induction l generalizing p with
  | nil =>
    obtain ⟨hi, -, hl⟩ := h
    cases l' with
    | nil => trivial
    | cons k l' =>
      obtain ⟨-, hk, hl⟩ := hl
      rw [List.nil_append, List.nodup_cons, List.nodup_cons] at hnd
      have hpk : ∀ j ∈ k :: l', p ≠ some j := fun j hj => hp j (List.mem_cons_of_mem i hj)
      refine ⟨?_, ?_, hl.congr (fun j hj => ?_) fun j hj => ?_⟩
      · rw [hprev, List.head?_cons, if_pos rfl, hi]
      · rw [hnext, hi, if_neg (hpk k List.mem_cons_self), hk]
      · rw [hprev, List.head?_cons, if_neg]
        rintro ⟨⟩
        exact hnd.2.1 hj
      · rw [hnext, hi, if_neg (hpk j (List.mem_cons_of_mem k hj))]
  | cons k l ih =>
    obtain ⟨hk, hkn, hl⟩ := h
    rw [List.cons_append, List.nodup_cons] at hnd
    refine ⟨?_, ?_, ih hl hnd.2 (fun j hj hkj => hnd.1 (Option.some.inj hkj ▸ hj))⟩
    · rw [hprev, if_neg, hk]
      intro hhead
      exact hnd.1 (List.mem_append_right l (List.mem_cons_of_mem i (List.mem_of_mem_head? hhead)))
    · cases l with
      | nil =>
        rw [hnext, if_pos hl.1]
        rfl
      | cons m l =>
        obtain ⟨j, hj, hij⟩ := hl.prev_mem (List.cons_ne_nil m l)
        rw [hnext, hij, if_neg, hkn]
        · rfl
        · intro hjk
          exact hnd.1 (List.mem_append_left _ (Option.some.inj hjk ▸ hj))

theorem chained_of_getElem (h : ∀ k (hk : k < l.length), (pool l[k]).next = l[k + 1]?) :
    Chained pool l := by
  induction l with
  | nil => trivial
  | cons i l ih =>
    refine ⟨(h 0 (Nat.succ_pos _)).trans List.head?_eq_getElem?.symm, ih fun k hk => ?_⟩
    exact h (k + 1) (Nat.succ_lt_succ hk)

/-- The assignments for the numbers `is`. -/
theorem foldl_setNext (pool : Node → Fly) {is : List (Fin poolSize)} (hnd : is.Nodup) :
    (∀ i ∈ is, (is.foldl (fun pool i => setNext pool i.castSucc (some i.succ)) pool
      i.castSucc).next = some i.succ) ∧
    ∀ j, (∀ i ∈ is, j ≠ i.castSucc) →
      is.foldl (fun pool i => setNext pool i.castSucc (some i.succ)) pool j = pool j := by
  induction is generalizing pool with
  | nil => exact ⟨fun i hi => absurd hi List.not_mem_nil, fun j _ => rfl⟩
  | cons i is ih =>
    obtain ⟨hi, hnd⟩ := List.nodup_cons.mp hnd
    obtain ⟨hset, hrest⟩ := ih (setNext pool i.castSucc (some i.succ)) hnd
    refine ⟨fun k hk => ?_, fun j hj => ?_⟩
    · rcases List.mem_cons.mp hk with rfl | hk
      · have hother : ∀ m ∈ is, k.castSucc ≠ m.castSucc := fun m hm he =>
          hi (Fin.castSucc_injective _ he ▸ hm)
        rw [List.foldl_cons, hrest _ hother, setNext_next_self]
      · exact hset k hk
    · rw [List.foldl_cons, hrest j fun m hm => hj m (List.mem_cons_of_mem i hm),
        setNext_of_ne _ _ (hj i List.mem_cons_self)]

/-- The pool is chained in its order, up to the node whose `_next` is `NULL`. -/
theorem threadLoop_chained (hend : (pool (Fin.last poolSize)).next = none) :
    Chained (threadLoop pool) (List.finRange (poolSize + 1)) := by
  obtain ⟨hset, hrest⟩ := foldl_setNext pool (List.nodup_finRange poolSize)
  refine chained_of_getElem fun k hk => ?_
  rw [List.getElem_finRange]
  rw [List.length_finRange] at hk
  by_cases hlt : k < poolSize
  · have hnext : (List.finRange (poolSize + 1))[k + 1]? = some ⟨k + 1, Nat.succ_lt_succ hlt⟩ := by
      rw [List.getElem?_eq_getElem (by rw [List.length_finRange]; omega), List.getElem_finRange]
      rfl
    exact (hset ⟨k, hlt⟩ (List.mem_finRange _)).trans hnext.symm
  · have hnext : (List.finRange (poolSize + 1))[k + 1]? = none := by
      rw [List.getElem?_eq_none_iff, List.length_finRange]
      omega
    have hlast : Fin.cast List.length_finRange ⟨k, by rwa [List.length_finRange]⟩ =
        Fin.last poolSize := Fin.ext (show k = poolSize by omega)
    have hother : ∀ i ∈ List.finRange poolSize, Fin.last poolSize ≠ i.castSucc := fun i _ =>
      (Fin.castSucc_lt_last i).ne'
    rw [hnext, hlast, threadLoop, hrest _ hother, hend]

end Chains

/-! ## The two lists -/

/-- The letters of the game are the nodes of `ls`, and the free nodes those of `fs`. -/
structure Lists (s : State) (ls fs : List Node) : Prop where
  head : s.head = ls.head?
  linked : Linked s.pool none ls
  freeHead : s.freeHead = fs.head?
  chained : Chained s.pool fs
  nodup : (ls ++ fs).Nodup

/-- Every node is in one of the lists, or no node was taken yet. -/
def Whole (s : State) (ls fs : List Node) : Prop :=
  ls.length + fs.length = poolSize + 1 ∨
    ls = [] ∧ fs = [] ∧ (s.pool (Fin.last poolSize)).next = none ∧ s.hit = 0 ∧ s.miss = 0

/-- The data of the nodes. -/
def State.letters (s : State) (ls : List Node) : List Letter := ls.map fun i => (s.pool i).letter

theorem letters_cons (s : State) (i : Node) (ls : List Node) :
    s.letters (i :: ls) = (s.pool i).letter :: s.letters ls := rfl

theorem letters_append (s : State) (ls ls' : List Node) :
    s.letters (ls ++ ls') = s.letters ls ++ s.letters ls' := List.map_append

theorem letters_congr {s s' : State} {ls : List Node}
    (h : ∀ j ∈ ls, (s'.pool j).letter = (s.pool j).letter) : s'.letters ls = s.letters ls :=
  List.map_congr_left h

section Lists

variable {s : State} {ls fs l l' : List Node} {i : Node}

theorem Lists.setLetter (h : Lists s ls fs) (i : Node) (a : Letter) :
    Lists { s with pool := setLetter s.pool i a } ls fs where
  head := h.head
  linked := h.linked.congr (fun _ _ => setLetter_prev ..) fun _ _ => setLetter_next ..
  freeHead := h.freeHead
  chained := h.chained.congr fun _ _ => setLetter_next ..
  nodup := h.nodup

/-- A node that is taken from the chain of free nodes. -/
theorem Lists.take {pool : Node → Fly} (hhead : s.head = ls.head?) (hlinked : Linked pool none ls)
    (hchained : Chained pool (i :: fs)) (hnd : (ls ++ i :: fs).Nodup) :
    Lists (s.take i pool).2 ls fs where
  head := hhead
  linked := by
    have hi : i ∉ ls := fun hi => (List.nodup_append.mp hnd).2.2 i hi i List.mem_cons_self rfl
    refine hlinked.congr (fun j hj => ?_) fun j hj => ?_
    · exact (setNext_prev ..).trans
        (congrArg Fly.prev (setPrev_of_ne _ _ (ne_of_mem_of_not_mem hj hi)))
    · exact (congrArg Fly.next (setNext_of_ne _ _ (ne_of_mem_of_not_mem hj hi))).trans
        (setPrev_next ..)
  freeHead := hchained.1
  chained := by
    have hi : i ∉ fs := (List.nodup_cons.mp (List.nodup_append.mp hnd).2.1).1
    refine hchained.2.congr fun j hj => ?_
    exact (congrArg Fly.next (setNext_of_ne _ _ (ne_of_mem_of_not_mem hj hi))).trans
      (setPrev_next ..)
  nodup := (List.nodup_middle.mp hnd).of_cons

theorem take_letter (pool : Node → Fly) (j : Node) :
    ((s.take i pool).2.pool j).letter = (pool j).letter :=
  (setNext_letter ..).trans (setPrev_letter ..)

theorem take_links (pool : Node → Fly) :
    ((s.take i pool).2.pool i).prev = none ∧ ((s.take i pool).2.pool i).next = none :=
  ⟨(setNext_prev ..).trans (setPrev_prev_self ..), setNext_next_self ..⟩

/-- What `fly_new` does as long as there is a free node. -/
structure Taken (s : State) (ls : List Node) (i : Node) (fs : List Node) (s' : State) : Prop where
  lists : Lists s' ls fs
  notMem : i ∉ ls ++ fs
  length : ls.length + 1 + fs.length = poolSize + 1
  prev : (s'.pool i).prev = none
  next : (s'.pool i).next = none
  letters : s'.letters ls = s.letters ls
  rest : s'.hit = s.hit ∧ s'.miss = s.miss ∧ s'.pressed = s.pressed

theorem flyNew_spec (h : Lists s ls fs) (hwhole : Whole s ls fs) (hroom : ls.length ≤ poolSize) :
    ∃ fs', Taken s ls (flyNew s).1 fs' (flyNew s).2 := by
  obtain hlen | ⟨rfl, rfl, hend, -, -⟩ := hwhole
  · cases fs with
    | nil =>
      rw [List.length_nil] at hlen
      omega
    | cons i fs =>
      have hnew : flyNew s = s.take i s.pool := by
        rw [flyNew, h.freeHead]
        rfl
      rw [hnew]
      obtain ⟨hprev, hnext⟩ := take_links (s := s) (i := i) s.pool
      refine ⟨fs, .take h.head h.linked h.chained h.nodup, ?_, ?_, hprev, hnext, ?_, rfl, rfl, rfl⟩
      · exact (List.nodup_cons.mp (List.nodup_middle.mp h.nodup)).1
      · rw [List.length_cons] at hlen
        omega
      · exact letters_congr fun j _ => take_letter s.pool j
  · have hnew : flyNew s = s.take 0 (threadLoop s.pool) := by
      rw [flyNew, h.freeHead]
      rfl
    rw [hnew]
    obtain ⟨hprev, hnext⟩ := take_links (s := s) (i := 0) (threadLoop s.pool)
    have hchained := threadLoop_chained hend
    have hnd := List.nodup_finRange (poolSize + 1)
    rw [List.finRange_succ] at hchained hnd
    refine ⟨(List.finRange poolSize).map Fin.succ, .take h.head trivial hchained hnd, ?_, ?_, hprev,
      hnext, rfl, rfl, rfl, rfl⟩
    · exact (List.nodup_cons.mp hnd).1
    · rw [List.length_map, List.length_finRange, List.length_nil]
      omega

/-- A new node is linked in front of the list. -/
theorem Lists.insert {k : Node} (h : Lists s (k :: ls) fs) (hi : i ∉ (k :: ls) ++ fs) :
    Linked (flyInsert none (some k) i s).pool none (i :: k :: ls) ∧
      Chained (flyInsert none (some k) i s).pool fs := by
  obtain ⟨hk, hkn, hl⟩ := h.linked
  rw [List.mem_append, List.mem_cons, not_or, not_or] at hi
  obtain ⟨⟨hik, hils⟩, hifs⟩ := hi
  have hnd := List.nodup_append.mp h.nodup
  have hkls := (List.nodup_cons.mp hnd.1).1
  have hpool : (flyInsert none (some k) i s).pool =
      setPrev (setNext (setPrev s.pool i none) i (some k)) k (some i) := rfl
  rw [hpool]
  refine ⟨⟨?_, ?_, ?_, ?_, hl.congr (fun j hj => ?_) fun j hj => ?_⟩,
    h.chained.congr fun j hj => ?_⟩
  · rw [setPrev_of_ne _ _ hik, setNext_prev, setPrev_prev_self]
  · rw [setPrev_next, setNext_next_self]
    rfl
  · rw [setPrev_prev_self]
  · rw [setPrev_next, setNext_of_ne _ _ (Ne.symm hik), setPrev_next, hkn]
  · rw [setPrev_of_ne _ _ (ne_of_mem_of_not_mem hj hkls), setNext_prev,
      setPrev_of_ne _ _ (ne_of_mem_of_not_mem hj hils)]
  · rw [setPrev_next, setNext_of_ne _ _ (ne_of_mem_of_not_mem hj hils), setPrev_next]
  · rw [setPrev_next, setNext_of_ne _ _ (ne_of_mem_of_not_mem hj hifs), setPrev_next]

theorem insert_letter (s : State) (k i j : Node) :
    ((flyInsert none (some k) i s).pool j).letter = (s.pool j).letter := by
  show (setPrev (setNext (setPrev s.pool i none) i (some k)) k (some i) j).letter = _
  rw [setPrev_letter, setNext_letter, setPrev_letter]

theorem createNewLetter_spec (r : Nat × Nat × Nat) (h : Lists s ls fs) (hwhole : Whole s ls fs)
    (hroom : ls.length ≤ poolSize) :
    ∃ i fs', Lists (createNewLetter r s) (i :: ls) fs' ∧
      (i :: ls).length + fs'.length = poolSize + 1 ∧
      (createNewLetter r s).letters (i :: ls) = newLetter r :: s.letters ls ∧
      (createNewLetter r s).hit = s.hit ∧ (createNewLetter r s).miss = s.miss ∧
      (createNewLetter r s).pressed = update s.pressed (newLetter r).text false := by
  obtain ⟨fs', ht⟩ := flyNew_spec h hwhole hroom
  obtain ⟨hhit, hmiss, hpressed⟩ := ht.rest
  have hi : (flyNew s).1 ∉ ls := fun hi => ht.notMem (List.mem_append_left _ hi)
  have hnd : ((flyNew s).1 :: ls ++ fs').Nodup := List.nodup_cons.mpr ⟨ht.notMem, ht.lists.nodup⟩
  refine ⟨(flyNew s).1, fs', ?_⟩
  cases ls with
  | nil =>
    have hcreate : createNewLetter r s = releaseKey (newLetter r).text { (flyNew s).2 with
        head := some (flyNew s).1
        pool := setLetter (flyNew s).2.pool (flyNew s).1 (newLetter r) } := by
      rw [createNewLetter, h.head]
      rfl
    rw [hcreate]
    refine ⟨?_, ?_, ?_, hhit, hmiss, ?_⟩
    · refine ⟨rfl, ⟨?_, ?_, trivial⟩, ht.lists.freeHead, ?_, hnd⟩
      · exact (setLetter_prev ..).trans ht.prev
      · exact (setLetter_next ..).trans ht.next
      · exact ht.lists.chained.congr fun j _ => setLetter_next ..
    · exact ht.length
    · exact congrArg (· :: []) (setLetter_self ..)
    · exact congrArg (update · (newLetter r).text false) hpressed
  | cons k ls =>
    have hcreate : createNewLetter r s = releaseKey (newLetter r).text
        { flyInsert none (some k) (flyNew s).1 (flyNew s).2 with
          head := some (flyNew s).1
          pool := setLetter (flyInsert none (some k) (flyNew s).1 (flyNew s).2).pool (flyNew s).1
            (newLetter r) } := by
      rw [createNewLetter, h.head]
      rfl
    rw [hcreate]
    obtain ⟨hlinked, hchained⟩ := ht.lists.insert ht.notMem
    refine ⟨?_, ?_, ?_, hhit, hmiss, ?_⟩
    · refine ⟨rfl, ?_, ht.lists.freeHead, ?_, hnd⟩
      · exact hlinked.congr (fun j _ => setLetter_prev ..) fun j _ => setLetter_next ..
      · exact hchained.congr fun j _ => setLetter_next ..
    · exact ht.length
    · refine congrArg₂ List.cons (setLetter_self ..) ?_
      rw [← ht.letters]
      refine letters_congr fun j hj => ?_
      have hne : j ≠ (flyNew s).1 := ne_of_mem_of_not_mem hj hi
      exact (congrArg Fly.letter (setLetter_of_ne _ _ hne)).trans (insert_letter ..)
    · exact congrArg (update · (newLetter r).text false) hpressed

end Lists

/-! ## The loops -/

section Loops

variable {s : State} {ls fs l l' : List Node} {i : Node}

theorem Linked.prev_mem_front {pool : Node → Fly} {j : Node} (h : Linked pool none (l ++ i :: l'))
    (hj : (pool i).prev = some j) : j ∈ l := by
  cases l with
  | nil => exact absurd (h.1.symm.trans hj) (Option.some_ne_none j).symm
  | cons k l =>
    obtain ⟨j', hj', hprev⟩ := h.prev_mem (List.cons_ne_nil k l)
    exact Option.some.inj (hprev.symm.trans hj) ▸ hj'

/-- A node goes from the list to the free nodes. -/
theorem Lists.free (h : Lists s (l ++ i :: l') fs) :
    Linked (flyFree i (flyRemove i s)).pool none (l ++ l') ∧
      Chained (flyFree i (flyRemove i s)).pool (i :: fs) ∧ (l ++ l' ++ i :: fs).Nodup := by
  have hnd : (l ++ l' ++ i :: fs).Nodup := by
    have hnodup := h.nodup
    rw [List.append_assoc, List.cons_append] at hnodup
    refine List.nodup_middle.mpr ?_
    rw [List.append_assoc]
    exact List.nodup_middle.mp hnodup
  have hcons := List.nodup_cons.mp (List.nodup_middle.mp hnd)
  have hnext : (s.pool i).next = l'.head? := h.linked.next_eq
  have hlinked : Linked (flyRemove i s).pool none (l ++ l') := by
    refine h.linked.remove (List.nodup_append.mp h.nodup).1
      (fun j _ => (Option.some_ne_none j).symm) (fun j => ?_) fun j => ?_
    · rw [flyRemove, linkPrev_prev, linkNext_prev, hnext]
    · rw [flyRemove, linkPrev_next, linkNext_next, hnext]
  have hfree : Chained (flyRemove i s).pool fs := by
    refine h.chained.congr fun j hj => ?_
    rw [flyRemove, linkPrev_next, linkNext_next, if_neg]
    intro hprev
    have hjl := h.linked.prev_mem_front hprev
    exact (List.nodup_append.mp h.nodup).2.2 j (List.mem_append_left _ hjl) j hj rfl
  refine ⟨hlinked.congr (fun j _ => setNext_prev ..) fun j hj => ?_,
    ⟨?_, hfree.congr fun j hj => ?_⟩, hnd⟩
  · have hne : j ≠ i := ne_of_mem_of_not_mem hj fun hi => hcons.1 (List.mem_append_left _ hi)
    exact congrArg Fly.next (setNext_of_ne _ _ hne)
  · exact (setNext_next_self ..).trans h.freeHead
  · have hne : j ≠ i := ne_of_mem_of_not_mem hj fun hi => hcons.1 (List.mem_append_right _ hi)
    exact congrArg Fly.next (setNext_of_ne _ _ hne)

theorem free_letter (s : State) (i j : Node) :
    ((flyFree i (flyRemove i s)).pool j).letter = (s.pool j).letter := by
  show (setNext (linkPrev (linkNext s.pool _ _) _ _) i _ j).letter = _
  rw [setNext_letter, linkPrev_letter, linkNext_letter]

theorem updateOne_stays (hstays : ¬(s.pool i).letter.moved.Gone) :
    updateOne i s = .ok { s with pool := setLetter s.pool i (s.pool i).letter.moved } :=
  if_neg hstays

/-- The letters that are gone upwards and downwards. -/
def hits (as : List Letter) : Nat := as.countP fun a => decide (a.y < 0)

def misses (as : List Letter) : Nat := as.countP fun a => decide (a.Gone ∧ ¬a.y < 0)

/-- There is room in the counters for `n` letters more. -/
structure Countable (s : State) (n : Nat) : Prop where
  hit : 0 ≤ s.hit
  miss : 0 ≤ s.miss
  total : s.hit + s.miss + n < 2 ^ 31

theorem score_eq {a : Letter} {n : Nat} (hgone : a.Gone) (hc : Countable s (n + 1)) :
    s.score a = .ok { s with hit := s.hit + hits [a], miss := s.miss + misses [a] } := by
  obtain ⟨hhit, hmiss, htotal⟩ := hc
  rw [State.score, hits, misses, List.countP_singleton, List.countP_singleton]
  push_cast at htotal
  by_cases hy : a.y < 0
  · have hint : int (s.hit + 1) = .ok (s.hit + 1) := if_pos ⟨by omega, by omega⟩
    rw [if_pos hy, hint]
    simp [hy]
  · have hint : int (s.miss + 1) = .ok (s.miss + 1) := if_pos ⟨by omega, by omega⟩
    rw [if_neg hy, hint]
    simp [hy, hgone]

theorem hits_add_misses {a : Letter} (hgone : a.Gone) : hits [a] + misses [a] = 1 := by
  rw [hits, misses, List.countP_singleton, List.countP_singleton]
  by_cases hy : a.y < 0
  · simp [hy]
  · simp [hy, hgone]

/-- What a turn of the loop does with a letter that is gone. -/
structure Removed (s : State) (i : Node) (ls fs : List Node) (n : Nat) (s' : State) : Prop where
  lists : Lists s' ls (i :: fs)
  letter : ∀ j, j ≠ i → (s'.pool j).letter = (s.pool j).letter
  hit : s'.hit = s.hit + hits [(s.pool i).letter.moved]
  miss : s'.miss = s.miss + misses [(s.pool i).letter.moved]
  pressed : s'.pressed = s.pressed
  countable : Countable s' n

theorem updateOne_gone {n : Nat} (h : Lists s (l ++ i :: l') fs) (hc : Countable s (n + 1))
    (hgone : (s.pool i).letter.moved.Gone) :
    ∃ s', updateOne i s = .ok s' ∧ Removed s i (l ++ l') fs n s' := by
  obtain ⟨a, ha⟩ : ∃ a, a = (s.pool i).letter.moved := ⟨_, rfl⟩
  rw [← ha] at hgone
  obtain ⟨t, ht⟩ : ∃ t : State, t = { s with
      pool := setLetter s.pool i a
      hit := s.hit + hits [a]
      miss := s.miss + misses [a] } := ⟨_, rfl⟩
  have hscore : ({ s with pool := setLetter s.pool i a } : State).score a = .ok t := by
    rw [ht]
    exact score_eq (n := n) hgone ⟨hc.hit, hc.miss, hc.total⟩
  have hpool : t.pool = setLetter s.pool i a := by rw [ht]
  have hhead : t.head = (l ++ i :: l').head? := by
    rw [ht]
    exact h.head
  have hlists : Lists t (l ++ i :: l') fs := by
    rw [ht]
    obtain ⟨hset, hlinked, hfree, hchained, hnd⟩ := h.setLetter i a
    exact ⟨hset, hlinked, hfree, hchained, hnd⟩
  have hcountable : Countable t n := by
    have hone := hits_add_misses hgone
    obtain ⟨hhit, hmiss, htotal⟩ := hc
    push_cast at htotal
    rw [ht]
    exact ⟨by dsimp only; omega, by dsimp only; omega, by dsimp only; omega⟩
  have hupdate : updateOne i s =
      .ok (if t.head = some i then { flyFree i (flyRemove i t) with head := (s.pool i).next }
        else flyFree i (flyRemove i t)) := by
    rw [updateOne, ← ha, if_pos hgone, hscore]
    rfl
  obtain ⟨hlinked, hchained, hnd⟩ := hlists.free
  have hletter : ∀ j, j ≠ i →
      ((flyFree i (flyRemove i t)).pool j).letter = (s.pool j).letter := by
    intro j hj
    rw [free_letter, hpool, setLetter_of_ne _ _ hj]
  have hcounts : t.hit = s.hit + hits [(s.pool i).letter.moved] ∧
      t.miss = s.miss + misses [(s.pool i).letter.moved] ∧ t.pressed = s.pressed := by
    rw [ht, ha]
    exact ⟨rfl, rfl, rfl⟩
  obtain ⟨hhit, hmiss, hpressed⟩ := hcounts
  obtain ⟨hhit₀, hmiss₀, htotal₀⟩ := hcountable
  refine ⟨_, hupdate, ?_⟩
  cases l with
  | nil =>
    rw [if_pos (show t.head = some i from hhead)]
    exact ⟨⟨h.linked.2.1, hlinked, rfl, hchained, hnd⟩, hletter, hhit, hmiss, hpressed,
      ⟨hhit₀, hmiss₀, htotal₀⟩⟩
  | cons k l =>
    have hki : ¬t.head = some i := by
      rw [hhead]
      intro hki
      have hnodup := (List.nodup_append.mp h.nodup).1
      rw [Option.some.inj hki] at hnodup
      exact (List.nodup_cons.mp hnodup).1 (List.mem_append_right l List.mem_cons_self)
    rw [if_neg hki]
    exact ⟨⟨hhead, hlinked, rfl, hchained, hnd⟩, hletter, hhit, hmiss, hpressed,
      ⟨hhit₀, hmiss₀, htotal₀⟩⟩

/-- The letters behind an update: those that are still on the screen, moved. -/
def moveAll (as : List Letter) : List Letter := (as.map Letter.moved).filter fun a => ¬a.Gone

theorem moveAll_cons_gone {a : Letter} {as : List Letter} (h : a.moved.Gone) :
    moveAll (a :: as) = moveAll as :=
  List.filter_cons_of_neg (by simpa using h)

theorem moveAll_cons_stays {a : Letter} {as : List Letter} (h : ¬a.moved.Gone) :
    moveAll (a :: as) = a.moved :: moveAll as :=
  List.filter_cons_of_pos (by simpa using h)

theorem hits_cons (a : Letter) (as : List Letter) : hits (a :: as) = hits [a] + hits as := by
  rw [hits, hits, hits, List.countP_cons, List.countP_singleton, Nat.add_comm]

theorem misses_cons (a : Letter) (as : List Letter) :
    misses (a :: as) = misses [a] + misses as := by
  rw [misses, misses, misses, List.countP_cons, List.countP_singleton, Nat.add_comm]

theorem counts_stays {a : Letter} (h : ¬a.Gone) : hits [a] = 0 ∧ misses [a] = 0 := by
  have hy : ¬a.y < 0 := fun hy => h (.inl hy)
  rw [hits, misses, List.countP_singleton, List.countP_singleton]
  simp [h, hy]

/-- What the loop does with the rest `ls` of the list behind `l`. -/
structure Updated (s : State) (l ls fs : List Node) (s' : State) (ls' fs' : List Node) : Prop where
  lists : Lists s' (l ++ ls') fs'
  length : ls'.length + fs'.length = ls.length + fs.length
  letters : s'.letters (l ++ ls') = s.letters l ++ moveAll (s.letters ls)
  hit : s'.hit = s.hit + hits ((s.letters ls).map Letter.moved)
  miss : s'.miss = s.miss + misses ((s.letters ls).map Letter.moved)
  pressed : s'.pressed = s.pressed

theorem Lists.notMem (h : Lists s (l ++ i :: ls) fs) : i ∉ l ∧ i ∉ ls := by
  have hnodup := (List.nodup_append.mp h.nodup).1
  have hi := (List.nodup_cons.mp (List.nodup_middle.mp hnodup)).1
  exact ⟨fun hl => hi (List.mem_append_left _ hl), fun hls => hi (List.mem_append_right _ hls)⟩

/-- The first node of the rest is taken out. -/
theorem Updated.gone {n : Nat} {t s' : State} {ls' fs' : List Node}
    (h : Lists s (l ++ i :: ls) fs) (hgone : (s.pool i).letter.moved.Gone)
    (hone : Removed s i (l ++ ls) fs n t) (hrest : Updated t l ls (i :: fs) s' ls' fs') :
    Updated s l (i :: ls) fs s' ls' fs' := by
  have hl : t.letters l = s.letters l :=
    letters_congr fun j hj => hone.letter j (ne_of_mem_of_not_mem hj h.notMem.1)
  have hls : t.letters ls = s.letters ls :=
    letters_congr fun j hj => hone.letter j (ne_of_mem_of_not_mem hj h.notMem.2)
  refine ⟨hrest.lists, ?_, ?_, ?_, ?_, hrest.pressed.trans hone.pressed⟩
  · rw [hrest.length, List.length_cons, List.length_cons]
    omega
  · rw [hrest.letters, hl, hls, letters_cons, moveAll_cons_gone hgone]
  · rw [hrest.hit, hone.hit, hls, letters_cons, List.map_cons, hits_cons _ (List.map _ _),
      Nat.cast_add, add_assoc]
  · rw [hrest.miss, hone.miss, hls, letters_cons, List.map_cons, misses_cons _ (List.map _ _),
      Nat.cast_add, add_assoc]

/-- The first node of the rest stays. -/
theorem Updated.stays {s' : State} {ls' fs' : List Node} (h : Lists s (l ++ i :: ls) fs)
    (hstays : ¬(s.pool i).letter.moved.Gone)
    (hrest : Updated { s with pool := setLetter s.pool i (s.pool i).letter.moved } (l ++ [i]) ls fs
      s' ls' fs') :
    Updated s l (i :: ls) fs s' (i :: ls') fs' := by
  obtain ⟨t, ht⟩ : ∃ t : State, t = { s with
      pool := setLetter s.pool i (s.pool i).letter.moved } := ⟨_, rfl⟩
  rw [← ht] at hrest
  obtain ⟨hzero, hzero'⟩ := counts_stays hstays
  have hl : t.letters (l ++ [i]) = s.letters l ++ [(s.pool i).letter.moved] := by
    rw [ht, letters_append]
    refine congrArg₂ (· ++ ·) (letters_congr fun j hj => ?_) ?_
    · exact congrArg Fly.letter (setLetter_of_ne _ _ (ne_of_mem_of_not_mem hj h.notMem.1))
    · exact congrArg (· :: []) (setLetter_self ..)
  have hls : t.letters ls = s.letters ls := by
    rw [ht]
    exact letters_congr fun j hj =>
      congrArg Fly.letter (setLetter_of_ne _ _ (ne_of_mem_of_not_mem hj h.notMem.2))
  have hhit := hrest.hit
  have hmiss := hrest.miss
  have hpressed := hrest.pressed
  rw [hls, ht] at hhit hmiss
  rw [ht] at hpressed
  refine ⟨?_, ?_, ?_, ?_, ?_, hpressed⟩
  · rw [List.append_cons]
    exact hrest.lists
  · have hlength := hrest.length
    rw [List.length_cons, List.length_cons]
    omega
  · rw [letters_cons, moveAll_cons_stays hstays, List.append_cons, hrest.letters, hl, hls]
    exact (List.append_cons ..).symm
  · rw [hhit, letters_cons, List.map_cons, hits_cons, hzero, Nat.zero_add]
  · rw [hmiss, letters_cons, List.map_cons, misses_cons, hzero', Nat.zero_add]

/-- The loop moves the rest of the list and takes out of it what is gone. -/
theorem updateLoop_spec {n : Nat} (h : Lists s (l ++ ls) fs) (hc : Countable s ls.length)
    (hn : ls.length ≤ n) :
    ∃ s' ls' fs', updateLoop n ls.head? s = .ok s' ∧ Updated s l ls fs s' ls' fs' := by
  induction ls generalizing n l fs s with
  | nil =>
    refine ⟨s, [], fs, ?_, h, rfl, ?_, (add_zero _).symm, (add_zero _).symm, rfl⟩
    · cases n <;> rfl
    · rw [List.append_nil]
      exact (List.append_nil _).symm
  | cons i ls ih =>
    cases n with
    | zero => exact absurd hn (Nat.not_succ_le_zero _)
    | succ n =>
      have hturn : updateLoop (n + 1) (i :: ls).head? s =
          updateOne i s >>= updateLoop n ls.head? := by
        rw [← h.linked.next_eq]
        rfl
      rw [hturn]
      by_cases hgone : (s.pool i).letter.moved.Gone
      · obtain ⟨t, ht, hone⟩ := updateOne_gone h hc hgone
        rw [ht, ok_bind]
        obtain ⟨s', ls', fs', hrun, hrest⟩ :=
          ih hone.lists hone.countable (Nat.le_of_succ_le_succ hn)
        exact ⟨s', ls', fs', hrun, .gone h hgone hone hrest⟩
      · rw [updateOne_stays hgone, ok_bind]
        have hlists := h.setLetter i (s.pool i).letter.moved
        rw [List.append_cons] at hlists
        have hroom : s.hit + s.miss + (ls.length : Int) < 2 ^ 31 := by
          have htotal := hc.total
          rw [List.length_cons, Nat.cast_succ] at htotal
          omega
        obtain ⟨s', ls', fs', hrun, hrest⟩ :=
          ih hlists ⟨hc.hit, hc.miss, hroom⟩ (Nat.le_of_succ_le_succ hn)
        exact ⟨s', i :: ls', fs', hrun, .stays h hgone hrest⟩

end Loops

end OsWorkbench.Typing
