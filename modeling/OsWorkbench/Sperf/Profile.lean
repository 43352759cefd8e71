import OsWorkbench.Lib.Chain
import OsWorkbench.Sperf.Model

/-!
# The list of the profile

The nodes between the two ends form a doubly linked chain of distinct pool slots. The node
that is inserted goes in front of the first one with no more time, so the times stay in
non-increasing order; and as the slots in use are always the first ones of the pool, the
slot `list_size` is free for a new name.
-/

namespace OsWorkbench.Sperf

open Chain

variable {K : Type}

theorem poolSize_lt : poolSize < sizeMax := by
  unfold poolSize sizeMax
  decide

/-! ## Chains -/

/-- The pointers met on the way from `syscall.head` to `syscall.tail`. -/
def ptrs (l : List Nat) : List Ptr := .head :: (l.map .pool ++ [.tail])

/-- The last pointer of `p` and the nodes behind it. -/
def lastOf (p : Ptr) (l : List Nat) : Ptr := l.getLast?.elim p .pool

/-- The first pointer of the nodes and the tail. -/
def firstOf (l : List Nat) : Ptr := l.head?.elim .tail .pool

theorem ptrs_split (l₁ l₂ : List Nat) :
    ∃ L₁ L₂, ptrs (l₁ ++ l₂) = L₁ ++ lastOf .head l₁ :: firstOf l₂ :: L₂ ∧
      ∀ x, ptrs (l₁ ++ x :: l₂) = L₁ ++ lastOf .head l₁ :: .pool x :: firstOf l₂ :: L₂ := by
  obtain ⟨L₁, h₁⟩ : ∃ L₁, Ptr.head :: l₁.map .pool = L₁ ++ [lastOf .head l₁] := by
    rcases List.eq_nil_or_concat' l₁ with rfl | ⟨l, a, rfl⟩
    · exact ⟨[], rfl⟩
    · exact ⟨.head :: l.map .pool, by simp [lastOf]⟩
  obtain ⟨L₂, h₂⟩ : ∃ L₂, l₂.map .pool ++ [Ptr.tail] = firstOf l₂ :: L₂ := by
    cases l₂ with
    | nil => exact ⟨[], rfl⟩
    | cons b l => exact ⟨l.map .pool ++ [.tail], rfl⟩
  refine ⟨L₁, L₂, ?_, fun x => ?_⟩
  · rw [ptrs, List.map_append, List.append_assoc, ← List.cons_append, h₁, h₂, List.append_assoc]
    rfl
  · rw [ptrs, List.map_append, List.append_assoc, ← List.cons_append, h₁, List.map_cons,
      List.cons_append, h₂, List.append_assoc]
    rfl

theorem valid_firstOf {l : List Nat} (h : ∀ i ∈ l, i < poolSize) : (firstOf l).Valid := by
  cases l with
  | nil => trivial
  | cons a l => exact h a List.mem_cons_self

theorem valid_lastOf {p : Ptr} {l : List Nat} (hp : p.Valid) (h : ∀ i ∈ l, i < poolSize) :
    (lastOf p l).Valid := by
  rcases List.eq_nil_or_concat' l with rfl | ⟨l, a, rfl⟩
  · exact hp
  · rw [lastOf, List.getLast?_concat]
    exact h a (by simp)

theorem lastOf_ne_tail (l : List Nat) : lastOf .head l ≠ .tail := by
  rcases List.eq_nil_or_concat' l with rfl | ⟨l, a, rfl⟩ <;> simp [lastOf]

def nextOf (s : State K) (p : Ptr) : Ptr := (s.node p).next

def prevOf (s : State K) (p : Ptr) : Ptr := (s.node p).prev

def nameOf (s : State K) (i : Nat) : CStr := (s.node (.pool i)).name

def timeOf (s : State K) (i : Nat) : K := (s.node (.pool i)).time

/-- The name of the slot is another one. -/
def differs (s : State K) (name : CStr) (i : Nat) : Bool := decide (name ≠ nameOf s i)

/-- The slot has more time. -/
def ahead [LinearOrder K] (s : State K) (t : K) (i : Nat) : Bool := decide (t < timeOf s i)

/-- The list of the slots `l`, and its length in `list_size`. -/
structure Listed (s : State K) (l : List Nat) : Prop where
  linked : Linked (nextOf s) (prevOf s) (ptrs l)
  nodup : l.Nodup
  bound : ∀ i ∈ l, i < poolSize
  size : s.listSize = l.length

theorem nodup_ptrs {l : List Nat} (h : l.Nodup) : (ptrs l).Nodup := by
  have hinj : Function.Injective Ptr.pool := fun a b hab => by cases hab; rfl
  refine List.nodup_cons.mpr ⟨by simp, ?_⟩
  exact List.nodup_append.mpr ⟨h.map hinj, List.nodup_singleton _, by simp⟩

theorem pool_notMem_ptrs {l : List Nat} {x : Nat} (h : x ∉ l) : Ptr.pool x ∉ ptrs l := by
  simpa [ptrs] using h

/-- The links at the front of a part of the list. -/
theorem linked_first {s : State K} {p : Ptr} {l : List Nat}
    (h : Linked (nextOf s) (prevOf s) (p :: (l.map .pool ++ [.tail]))) :
    nextOf s p = firstOf l ∧ prevOf s (firstOf l) = p := by
  cases l with
  | nil => exact (linked_cons_cons.mp h).1
  | cons a l => exact (linked_cons_cons.mp h).1

/-! ## Loads and stores -/

/-- The state after an assignment to fields of `*p`. -/
def State.upd (s : State K) (p : Ptr) (f : ListNode K → ListNode K) : State K :=
  { s with node := Function.update s.node p (f (s.node p)) }

section Memory

variable {s : State K} {p q : Ptr} {f : ListNode K → ListNode K}

theorem load_bind {β : Type} (h : p.Valid) {k : ListNode K → Except Fault β} :
    (s.load p >>= k) = k (s.node p) := by
  rw [State.load, bind_assoc, inBounds_bind h]
  rfl

theorem store_bind {β : Type} (h : p.Valid) {k : State K → Except Fault β} :
    (s.store p f >>= k) = k (s.upd p f) := by
  rw [State.store, bind_assoc, inBounds_bind h]
  rfl

@[simp] theorem upd_node_self : (s.upd p f).node p = f (s.node p) := Function.update_self ..

theorem upd_node_ne (h : q ≠ p) : (s.upd p f).node q = s.node q := Function.update_of_ne h ..

/-- A field that the assignment does not change. -/
theorem upd_field {β : Type} (field : ListNode K → β) (h : ∀ n, field (f n) = field n) (q : Ptr) :
    field ((s.upd p f).node q) = field (s.node q) := by
  rcases eq_or_ne q p with rfl | hne
  · rw [upd_node_self, h]
  · rw [upd_node_ne hne]

theorem next_setPrev {r : Ptr} : ((s.upd p (setPrev r)).node q).next = (s.node q).next :=
  upd_field (f := setPrev r) ListNode.next (fun _ => rfl) q

theorem prev_setNext {r : Ptr} : ((s.upd p (setNext r)).node q).prev = (s.node q).prev :=
  upd_field (f := setNext r) ListNode.prev (fun _ => rfl) q

end Memory

/-! ## The loops -/

section Loops

variable {s : State K} {l : List Nat} {x : Nat}

theorem checkFrom_spec {p : Ptr} {cnt fuel : Nat} (hp : p.Valid)
    (h : Linked (nextOf s) (prevOf s) (p :: (l.map .pool ++ [.tail])))
    (hl : ∀ i ∈ l, i < poolSize) (hfuel : l.length < fuel) :
    checkFrom s fuel (firstOf l) cnt = .ok (cnt + l.length) := by
  induction l generalizing p cnt fuel with
  | nil =>
    obtain ⟨fuel, rfl⟩ := Nat.exists_eq_add_of_lt hfuel
    rfl
  | cons a l ih =>
    obtain ⟨fuel, rfl⟩ : ∃ m, fuel = m + 1 := ⟨fuel - 1, by simp at hfuel; omega⟩
    obtain ⟨hnext, hprev⟩ := linked_first h
    have hrest : Linked (nextOf s) (prevOf s) (.pool a :: (l.map .pool ++ [.tail])) :=
      (linked_cons_cons.mp h).2
    obtain ⟨hnext', hprev'⟩ := linked_first hrest
    have hl' : ∀ i ∈ l, i < poolSize := fun i hi => hl i (List.mem_cons_of_mem _ hi)
    have ha : (Ptr.pool a).Valid := hl a List.mem_cons_self
    have hfirst : ((s.node (.pool a)).next).Valid := by
      rw [show (s.node (.pool a)).next = firstOf l from hnext']
      exact valid_firstOf hl'
    have hlast : ((s.node (.pool a)).prev).Valid := by
      rw [show (s.node (.pool a)).prev = p from hprev]
      exact hp
    rw [firstOf, List.head?_cons, Option.elim_some, checkFrom, if_neg (by simp), load_bind ha,
      load_bind hfirst, check_bind, load_bind hlast, check_bind]
    · rw [show (s.node (.pool a)).next = firstOf l from hnext',
        ih ha hrest hl' (by simpa using hfuel), List.length_cons]
      congr 1
      omega
    · rw [show (s.node (.pool a)).prev = p from hprev]
      exact hnext
    · rw [show (s.node (.pool a)).next = firstOf l from hnext']
      exact hprev'

theorem length_le_poolSize (hnd : l.Nodup) (hl : ∀ i ∈ l, i < poolSize) : l.length ≤ poolSize := by
  have hsub : l ⊆ List.range poolSize := fun i hi => List.mem_range.mpr (hl i hi)
  have hle := (hnd.subperm hsub).length_le
  rwa [List.length_range] at hle

theorem syscallCheck_spec (h : Listed s l) : syscallCheck s = .ok () := by
  have hvalid : Ptr.head.Valid := trivial
  rw [syscallCheck, load_bind hvalid,
    show (s.node .head).next = firstOf l from (linked_first h.linked).1,
    checkFrom_spec hvalid h.linked h.bound (Nat.lt_succ_of_le (length_le_poolSize h.nodup h.bound)),
    ok_bind, check_pos (by rw [h.size, Nat.zero_add])]

theorem findName_spec (name : CStr) {p : Ptr} {fuel : Nat}
    (h : Linked (nextOf s) (prevOf s) (p :: (l.map .pool ++ [.tail])))
    (hl : ∀ i ∈ l, i < poolSize) (hfuel : l.length < fuel) :
    findName s name fuel (firstOf l) =
      .ok (firstOf (l.dropWhile (differs s name))) := by
  induction l generalizing p fuel with
  | nil =>
    obtain ⟨fuel, rfl⟩ := Nat.exists_eq_add_of_lt hfuel
    rfl
  | cons a l ih =>
    obtain ⟨fuel, rfl⟩ : ∃ m, fuel = m + 1 := ⟨fuel - 1, by simp at hfuel; omega⟩
    have hrest : Linked (nextOf s) (prevOf s) (.pool a :: (l.map .pool ++ [.tail])) :=
      (linked_cons_cons.mp h).2
    have ha : (Ptr.pool a).Valid := hl a List.mem_cons_self
    rw [firstOf, List.head?_cons, Option.elim_some, findName, if_neg (by simp), load_bind ha]
    by_cases hne : name ≠ (s.node (.pool a)).name
    · have hd : differs s name a = true := decide_eq_true hne
      rw [if_pos hne, show (s.node (.pool a)).next = firstOf l from (linked_first hrest).1,
        ih hrest (fun i hi => hl i (List.mem_cons_of_mem _ hi)) (by simpa using hfuel),
        List.dropWhile_cons_of_pos hd]
    · have hd : ¬differs s name a = true := fun hd => hne (of_decide_eq_true hd)
      rw [if_neg hne, List.dropWhile_cons_of_neg hd]
      rfl

variable [LinearOrder K]

theorem syscallCmp_pool {a b : Nat} (ha : a < poolSize) (hb : b < poolSize) :
    syscallCmp s (.pool a) (.pool b) = .ok (decide (timeOf s a ≥ timeOf s b)) := by
  have hva : (Ptr.pool a).Valid := ha
  have hvb : (Ptr.pool b).Valid := hb
  rw [syscallCmp, if_neg (by simp), check_bind (by simp), check_bind (by simp), load_bind hva,
    load_bind hvb]
  rfl

/-- The loop passes the nodes with more time. -/
theorem findPlace_spec {p : Ptr} {fuel : Nat} (hx : x < poolSize) (hp : p.Valid)
    (hpx : syscallCmp s p (.pool x) = .ok true)
    (h : Linked (nextOf s) (prevOf s) (p :: (l.map .pool ++ [.tail])))
    (hl : ∀ i ∈ l, i < poolSize) (hfuel : l.length < fuel) :
    findPlace s (.pool x) fuel p =
      .ok (lastOf p (l.takeWhile (ahead s (timeOf s x)))) := by
  induction l generalizing p fuel with
  | nil =>
    obtain ⟨fuel, rfl⟩ := Nat.exists_eq_add_of_lt hfuel
    rw [findPlace, hpx, ok_bind, load_bind hp, if_pos rfl,
      show (s.node p).next = .tail from (linked_first h).1, syscallCmp, if_pos (.inr rfl)]
    rfl
  | cons a l ih =>
    obtain ⟨fuel, rfl⟩ : ∃ m, fuel = m + 1 := ⟨fuel - 1, by simp at hfuel; omega⟩
    have ha : a < poolSize := hl a List.mem_cons_self
    rw [findPlace, hpx, ok_bind, load_bind hp, if_pos rfl,
      show (s.node p).next = .pool a from (linked_first h).1, syscallCmp_pool hx ha, ok_bind]
    show (if decide (timeOf s x ≥ timeOf s a) = true then _ else _) = _
    by_cases hlt : timeOf s x < timeOf s a
    · have hcmp : syscallCmp s (.pool a) (.pool x) = .ok true := by
        rw [syscallCmp_pool ha hx, decide_eq_true hlt.le]
      have hd : ahead s (timeOf s x) a = true := decide_eq_true hlt
      rw [if_neg (by simpa using hlt), List.takeWhile_cons_of_pos hd,
        ih (show (Ptr.pool a).Valid from ha) hcmp (linked_cons_cons.mp h).2
          (fun i hi => hl i (List.mem_cons_of_mem _ hi))
          (by simpa using hfuel)]
      rcases List.eq_nil_or_concat' (l.takeWhile (ahead s (timeOf s x))) with
        hnil | ⟨m, b, hb⟩
      · rw [hnil]
        rfl
      · rw [hb, lastOf, lastOf, ← List.cons_append, List.getLast?_concat, List.getLast?_concat]
        rfl
    · have hd : ¬ahead s (timeOf s x) a = true := fun hd => hlt (of_decide_eq_true hd)
      rw [if_pos (by simpa using hlt), List.takeWhile_cons_of_neg hd]
      rfl

end Loops

/-! ## Linking and unlinking -/

/-- The two states have the same names and times. -/
def SameData (s s' : State K) : Prop :=
  ∀ i, nameOf s' i = nameOf s i ∧ timeOf s' i = timeOf s i

/-- The four assignments of `syscall_insert_do`. -/
def linkIn (s : State K) (p y n : Ptr) : State K :=
  (((s.upd y (setPrev p)).upd y (setNext n)).upd n (setPrev y)).upd p (setNext y)

/-- The four assignments of `syscall_delete_do`. -/
def unlink (s : State K) (p y n : Ptr) : State K :=
  (((s.upd p (setNext n)).upd n (setPrev p)).upd y (setPrev .null)).upd y (setNext .null)

section Links

variable {s : State K} {p y n : Ptr} {L₁ L₂ : List Ptr}

theorem linkIn_field {β : Type} (field : ListNode K → β)
    (hn : ∀ q m, field (setNext q m) = field m) (hp : ∀ q m, field (setPrev q m) = field m)
    (q : Ptr) : field ((linkIn s p y n).node q) = field (s.node q) := by
  rw [linkIn, upd_field field (hn y), upd_field field (hp y), upd_field field (hn n),
    upd_field field (hp p)]

theorem unlink_field {β : Type} (field : ListNode K → β)
    (hn : ∀ q m, field (setNext q m) = field m) (hp : ∀ q m, field (setPrev q m) = field m)
    (q : Ptr) : field ((unlink s p y n).node q) = field (s.node q) := by
  rw [unlink, upd_field field (hn .null), upd_field field (hp .null), upd_field field (hp p),
    upd_field field (hn n)]

theorem linkIn_sameData : SameData s (linkIn s p y n) := fun _ =>
  ⟨linkIn_field ListNode.name (fun _ _ => rfl) (fun _ _ => rfl) _,
    linkIn_field ListNode.time (fun _ _ => rfl) (fun _ _ => rfl) _⟩

theorem unlink_sameData : SameData s (unlink s p y n) := fun _ =>
  ⟨unlink_field ListNode.name (fun _ _ => rfl) (fun _ _ => rfl) _,
    unlink_field ListNode.time (fun _ _ => rfl) (fun _ _ => rfl) _⟩

/-- Neighbours and a node that is not on the list are three different nodes. -/
theorem neighbours_ne (hnd : (L₁ ++ p :: n :: L₂).Nodup) (hy : y ∉ L₁ ++ p :: n :: L₂) :
    y ≠ p ∧ y ≠ n ∧ n ≠ p := by
  refine ⟨?_, ?_, ?_⟩
  · rintro rfl
    simp at hy
  · rintro rfl
    simp at hy
  · rintro rfl
    simp [List.nodup_append] at hnd

theorem linkIn_linked (h : Linked (nextOf s) (prevOf s) (L₁ ++ p :: n :: L₂))
    (hnd : (L₁ ++ p :: n :: L₂).Nodup) (hy : y ∉ L₁ ++ p :: n :: L₂) :
    Linked (nextOf (linkIn s p y n)) (prevOf (linkIn s p y n)) (L₁ ++ p :: y :: n :: L₂) := by
  obtain ⟨hyp, hyn, hnp⟩ := neighbours_ne hnd hy
  refine h.insert hnd hy ?_ ?_ ?_ ?_ (fun q hqp hqy => ?_) (fun q hqn hqy => ?_)
  · rw [nextOf, linkIn, upd_node_self]
    rfl
  · rw [nextOf, linkIn, upd_node_ne hyp, upd_node_ne hyn, upd_node_self]
    rfl
  · rw [prevOf, linkIn, upd_node_ne hyp, upd_node_ne hyn, prev_setNext, upd_node_self]
    rfl
  · rw [prevOf, linkIn, upd_node_ne hnp, upd_node_self]
    rfl
  · rw [nextOf, linkIn, upd_node_ne hqp, next_setPrev, upd_node_ne hqy, upd_node_ne hqy]
    rfl
  · rw [prevOf, linkIn, prev_setNext, upd_node_ne hqn, upd_node_ne hqy, upd_node_ne hqy]
    rfl

theorem unlink_linked (h : Linked (nextOf s) (prevOf s) (L₁ ++ p :: y :: n :: L₂))
    (hnd : (L₁ ++ p :: y :: n :: L₂).Nodup) :
    Linked (nextOf (unlink s p y n)) (prevOf (unlink s p y n)) (L₁ ++ p :: n :: L₂) := by
  have hmid : L₁ ++ p :: y :: n :: L₂ = (L₁ ++ [p]) ++ y :: (n :: L₂) := by simp
  have hsub : (L₁ ++ [p]) ++ (n :: L₂) = L₁ ++ p :: n :: L₂ := by simp
  have hnd' := List.nodup_cons.mp (List.nodup_middle.mp (hmid ▸ hnd))
  rw [hsub] at hnd'
  obtain ⟨hyp, hyn, hnp⟩ := neighbours_ne hnd'.2 hnd'.1
  refine h.remove hnd ?_ ?_ (fun q hqp hqy => ?_) (fun q hqn hqy => ?_)
  · rw [nextOf, unlink, upd_node_ne hyp.symm, upd_node_ne hyp.symm, next_setPrev, upd_node_self]
    rfl
  · rw [prevOf, unlink, upd_node_ne hyn.symm, upd_node_ne hyn.symm, upd_node_self]
    rfl
  · rw [nextOf, unlink, upd_node_ne hqy, upd_node_ne hqy, next_setPrev, upd_node_ne hqp]
    rfl
  · rw [prevOf, unlink, upd_node_ne hqy, upd_node_ne hqy, upd_node_ne hqn, prev_setNext]
    rfl

end Links

/-- The neighbours of a place in the list. -/
theorem Listed.place {s : State K} {l₁ l₂ : List Nat} (h : Listed s (l₁ ++ l₂)) :
    ∃ L₁ L₂, ptrs (l₁ ++ l₂) = L₁ ++ lastOf .head l₁ :: firstOf l₂ :: L₂ ∧
      (∀ x, ptrs (l₁ ++ x :: l₂) = L₁ ++ lastOf .head l₁ :: .pool x :: firstOf l₂ :: L₂) ∧
      (lastOf .head l₁).Valid ∧ (firstOf l₂).Valid := by
  obtain ⟨L₁, L₂, h₁, h₂⟩ := ptrs_split l₁ l₂
  exact ⟨L₁, L₂, h₁, h₂, valid_lastOf trivial fun i hi => h.bound i (List.mem_append_left _ hi),
    valid_firstOf fun i hi => h.bound i (List.mem_append_right _ hi)⟩

variable [LinearOrder K] [AddCommGroup K] {s : State K} {x : Nat} {l l₁ l₂ : List Nat}

/-- The new node goes behind the nodes with more time. -/
theorem insertDo_spec (h : Listed s l) (hx : x < poolSize) (hfresh : x ∉ l) :
    ∃ s', insertDo s (.pool x) = .ok s' ∧
      Listed s' (l.takeWhile (ahead s (timeOf s x)) ++ x :: l.dropWhile (ahead s (timeOf s x))) ∧
      SameData s s' ∧ s'.totalTime = s.totalTime + timeOf s x := by
  have hcmp : syscallCmp s .head (.pool x) = .ok true := if_pos (.inl rfl)
  have hplace := findPlace_spec hx (show Ptr.head.Valid from trivial) hcmp h.linked h.bound
    (Nat.lt_succ_of_le (length_le_poolSize h.nodup h.bound))
  have hl : l.takeWhile (ahead s (timeOf s x)) ++ l.dropWhile (ahead s (timeOf s x)) = l :=
    List.takeWhile_append_dropWhile
  generalize l.takeWhile (ahead s (timeOf s x)) = l₁ at *
  generalize l.dropWhile (ahead s (timeOf s x)) = l₂ at *
  subst hl
  obtain ⟨L₁, L₂, hptrs, hptrs', hvp, hvn⟩ := h.place
  have hvy : (Ptr.pool x).Valid := hx
  have hnd' : (x :: (l₁ ++ l₂)).Nodup := List.nodup_cons.mpr ⟨hfresh, h.nodup⟩
  have hb : ∀ i ∈ x :: (l₁ ++ l₂), i < poolSize := List.forall_mem_cons.mpr ⟨hx, h.bound⟩
  have hlen := length_le_poolSize hnd' hb
  have hlink := h.linked
  have hnd := nodup_ptrs h.nodup
  have hymem := pool_notMem_ptrs hfresh
  rw [hptrs] at hlink hnd hymem
  have hnext : (s.node (lastOf .head l₁)).next = firstOf l₂ := (linked_append.mp hlink).2.1.1
  obtain ⟨hyp, hyn, hnp⟩ := neighbours_ne hnd hymem
  let s' : State K :=
    { linkIn s (lastOf .head l₁) (.pool x) (firstOf l₂) with
      listSize := (s.listSize + 1) % sizeMax
      totalTime := s.totalTime + timeOf s x }
  have hs' : Listed s' (l₁ ++ x :: l₂) := by
    refine ⟨?_, List.nodup_middle.mpr hnd', fun i hi => hb i ?_, ?_⟩
    · rw [hptrs' x]
      exact linkIn_linked hlink hnd hymem
    · exact List.perm_middle.mem_iff.mp hi
    · show (s.listSize + 1) % sizeMax = _
      rw [h.size, List.perm_middle.length_eq, List.length_cons]
      rw [List.length_cons] at hlen
      exact Nat.mod_eq_of_lt (hlen.trans_lt poolSize_lt)
  refine ⟨s', ?_, hs', linkIn_sameData, rfl⟩
  have hnext₁ : ((s.upd (.pool x) (setPrev (lastOf .head l₁))).node (lastOf .head l₁)).next =
      firstOf l₂ := next_setPrev.trans hnext
  have hnext₂ : (((s.upd (.pool x) (setPrev (lastOf .head l₁))).upd (.pool x)
      (setNext (firstOf l₂))).node (lastOf .head l₁)).next = firstOf l₂ := by
    rw [upd_node_ne hyp.symm, hnext₁]
  rw [insertDo, check_bind (by simp), hplace, ok_bind, check_bind (lastOf_ne_tail l₁),
    store_bind hvy, load_bind hvp, store_bind hvy, load_bind hvp]
  rw [hnext₁, hnext₂, store_bind hvn, store_bind hvp, load_bind hvy]
  let t : State K := ⟨(linkIn s (lastOf .head l₁) (.pool x) (firstOf l₂)).node,
    (s.listSize + 1) % sizeMax, s.totalTime +
      ((linkIn s (lastOf .head l₁) (.pool x) (firstOf l₂)).node (.pool x)).time⟩
  have hend : t = s' := by
    show State.mk _ _ _ = _
    rw [linkIn_field ListNode.time (fun _ _ => rfl) (fun _ _ => rfl)]
    rfl
  show (syscallCheck t >>= fun _ => Except.ok t) = _
  rw [hend, syscallCheck_spec hs']
  rfl

omit [LinearOrder K] in
/-- A node is taken out of the list. -/
theorem deleteDo_spec (h : Listed s (l₁ ++ x :: l₂)) :
    ∃ s', deleteDo s (.pool x) = .ok s' ∧ Listed s' (l₁ ++ l₂) ∧ SameData s s' ∧
      s'.totalTime = s.totalTime - timeOf s x := by
  obtain ⟨L₁, L₂, hptrs, hptrs'⟩ := ptrs_split l₁ l₂
  have hb : ∀ i ∈ x :: (l₁ ++ l₂), i < poolSize := fun i hi =>
    h.bound i (List.perm_middle.mem_iff.mpr hi)
  have hnd' := List.nodup_middle.mp h.nodup
  have hvy : (Ptr.pool x).Valid := hb x List.mem_cons_self
  have hvp : (lastOf .head l₁).Valid := valid_lastOf trivial fun i hi => hb i (by simp [hi])
  have hvn : (firstOf l₂).Valid := valid_firstOf fun i hi => hb i (by simp [hi])
  have hlink := h.linked
  have hnd := nodup_ptrs h.nodup
  rw [hptrs' x] at hlink hnd
  have hlinks := linked_append.mp hlink
  have hprev : (s.node (.pool x)).prev = lastOf .head l₁ := hlinks.2.1.2
  have hnext : (s.node (.pool x)).next = firstOf l₂ := (linked_cons_cons.mp hlinks.2.2).1.1
  have hne : Ptr.pool x ≠ lastOf .head l₁ := by
    intro he
    rw [he] at hnd
    simp [List.nodup_append] at hnd
  have hne' : Ptr.pool x ≠ firstOf l₂ := by
    intro he
    rw [he] at hnd
    simp [List.nodup_append] at hnd
  -- the new length as a variable: the modulus must not be computed
  obtain ⟨k, hk, hklen⟩ : ∃ k, (s.listSize + sizeMax - 1) % sizeMax = k ∧
      k = (l₁ ++ l₂).length := by
    have hlen := length_le_poolSize hnd' hb
    have hsize : s.listSize = (l₁ ++ l₂).length + 1 := by
      rw [h.size, List.perm_middle.length_eq, List.length_cons]
    rw [List.length_cons] at hlen
    refine ⟨_, rfl, ?_⟩
    rw [hsize, Nat.add_right_comm, Nat.add_sub_cancel, Nat.add_mod_right]
    exact Nat.mod_eq_of_lt ((Nat.lt_of_succ_le hlen).trans poolSize_lt)
  let s' : State K :=
    { unlink s (lastOf .head l₁) (.pool x) (firstOf l₂) with
      listSize := k
      totalTime := s.totalTime - timeOf s x }
  have hs' : Listed s' (l₁ ++ l₂) := by
    refine ⟨?_, (List.nodup_cons.mp hnd').2, fun i hi => hb i (List.mem_cons_of_mem _ hi), hklen⟩
    rw [hptrs]
    exact unlink_linked hlink hnd
  refine ⟨s', ?_, hs', unlink_sameData, rfl⟩
  have hprev₁ : ((s.upd (lastOf .head l₁) (setNext (firstOf l₂))).node (.pool x)).prev =
      lastOf .head l₁ := prev_setNext.trans hprev
  have hnext₁ : ((s.upd (lastOf .head l₁) (setNext (firstOf l₂))).node (.pool x)).next =
      firstOf l₂ := by
    rw [upd_node_ne hne, hnext]
  let t : State K := ⟨(unlink s (lastOf .head l₁) (.pool x) (firstOf l₂)).node,
    (s.listSize + sizeMax - 1) % sizeMax, s.totalTime -
      ((unlink s (lastOf .head l₁) (.pool x) (firstOf l₂)).node (.pool x)).time⟩
  have hend : t = s' := by
    show State.mk _ _ _ = _
    rw [unlink_field ListNode.time (fun _ _ => rfl) (fun _ _ => rfl), hk]
    rfl
  rw [deleteDo, load_bind hvy, hprev, hnext, store_bind hvp, load_bind hvy, hprev₁, hnext₁,
    store_bind hvn, store_bind hvy, store_bind hvy, load_bind hvy]
  show (syscallCheck t >>= fun _ => Except.ok t) = _
  rw [hend, syscallCheck_spec hs']
  rfl

/-! ## The profile -/

/-- The time of all records of a name. -/
def spentOn (rs : List (CStr × K)) (name : CStr) : K :=
  ((rs.filter fun r => r.1 = name).map Prod.snd).sum

/-- The list is the profile of the records so far. -/
structure Profile (s : State K) (l : List Nat) (rs : List (CStr × K)) : Prop
    extends Listed s l where
  slots : ∀ i, i ∈ l ↔ i < l.length
  names : (l.map (nameOf s)).Nodup
  sorted : l.Pairwise fun i j => timeOf s j ≤ timeOf s i
  mem : ∀ name, name ∈ l.map (nameOf s) ↔ name ∈ rs.map Prod.fst
  spent : ∀ i ∈ l, timeOf s i = spentOn rs (nameOf s i)
  total : s.totalTime = (rs.map Prod.snd).sum

variable {rs : List (CStr × K)} {name : CStr} {time : K}

omit [LinearOrder K] in
theorem spentOn_snoc (rs : List (CStr × K)) (name n : CStr) (time : K) :
    spentOn (rs ++ [(name, time)]) n = spentOn rs n + if name = n then time else 0 := by
  rw [spentOn, List.filter_append, List.map_append, List.sum_append, spentOn]
  by_cases h : name = n <;> simp [h]

omit [LinearOrder K] [AddCommGroup K] in
/-- Assignments to a node that keep its links. -/
theorem Listed.upd {p : Ptr} {f : ListNode K → ListNode K} (h : Listed s l)
    (hn : ∀ n, (f n).next = n.next) (hp : ∀ n, (f n).prev = n.prev) : Listed (s.upd p f) l := by
  have hnext : nextOf (s.upd p f) = nextOf s := funext fun q => upd_field ListNode.next hn q
  have hprev : prevOf (s.upd p f) = prevOf s := funext fun q => upd_field ListNode.prev hp q
  exact ⟨hnext ▸ hprev ▸ h.linked, h.nodup, h.bound, h.size⟩

omit [AddCommGroup K] in
/-- The place behind the nodes with more time keeps the order. -/
theorem sorted_place (h : l.Pairwise fun i j => timeOf s j ≤ timeOf s i) (x : Nat) :
    (l.takeWhile (ahead s (timeOf s x)) ++ x :: l.dropWhile (ahead s (timeOf s x))).Pairwise
      fun i j => timeOf s j ≤ timeOf s i := by
  have : Std.Total fun i j => timeOf s j ≤ timeOf s i := ⟨fun i j => le_total _ _⟩
  have : IsTrans Nat fun i j => timeOf s j ≤ timeOf s i := ⟨fun i j k hij hjk => hjk.trans hij⟩
  have hord := List.Pairwise.orderedInsert x l h
  rw [List.orderedInsert_eq_take_drop] at hord
  have heq : (fun i => decide ¬timeOf s i ≤ timeOf s x) = ahead s (timeOf s x) := by
    funext i
    exact decide_eq_decide.mpr not_le
  rwa [heq] at hord

/-- A node whose name and time are right goes into the list. -/
theorem insertDo_profile (rs : List (CStr × K)) (h : Listed s l) (hx : x < poolSize)
    (hslots : ∀ i, i ∈ x :: l ↔ i < l.length + 1)
    (hnames : ((x :: l).map (nameOf s)).Nodup)
    (hsorted : l.Pairwise fun i j => timeOf s j ≤ timeOf s i)
    (hmem : ∀ name, name ∈ (x :: l).map (nameOf s) ↔ name ∈ rs.map Prod.fst)
    (hspent : ∀ i ∈ x :: l, timeOf s i = spentOn rs (nameOf s i))
    (htotal : s.totalTime + timeOf s x = (rs.map Prod.snd).sum) :
    ∃ s' l', insertDo s (.pool x) = .ok s' ∧ Profile s' l' rs := by
  have hfresh : x ∉ l := fun hm =>
    (List.nodup_cons.mp hnames).1 (List.mem_map_of_mem hm)
  obtain ⟨s', hs', hlist, hsame, htotal'⟩ := insertDo_spec h hx hfresh
  have hplace := sorted_place hsorted x
  have hperm : (l.takeWhile (ahead s (timeOf s x)) ++ x :: l.dropWhile (ahead s (timeOf s x))).Perm
      (x :: l) := by
    refine List.perm_middle.trans ?_
    rw [List.takeWhile_append_dropWhile]
  have hname : nameOf s' = nameOf s := funext fun i => (hsame i).1
  have htime : timeOf s' = timeOf s := funext fun i => (hsame i).2
  refine ⟨s', _, hs', hlist, fun i => ?_, ?_, ?_, fun n => ?_, fun i hi => ?_, ?_⟩
  · rw [hperm.mem_iff, hperm.length_eq, List.length_cons]
    exact hslots i
  · rw [hname]
    exact ((hperm.map _).nodup_iff).mpr hnames
  · rw [htime]
    exact hplace
  · rw [hname, (hperm.map _).mem_iff]
    exact hmem n
  · rw [hname, htime]
    exact hspent i (hperm.mem_iff.mp hi)
  · rw [htotal', htotal]

omit [LinearOrder K] in
/-- The records of another name say nothing about this one. -/
theorem spentOn_of_notMem (h : name ∉ rs.map Prod.fst) : spentOn rs name = 0 := by
  rw [spentOn, List.filter_eq_nil_iff.mpr fun r hr => ?_]
  · rfl
  · rw [decide_eq_true_eq]
    rintro rfl
    exact h (List.mem_map_of_mem hr)

/-- The record of a name that is on the list. -/
theorem record_known (h : Profile s (l₁ ++ x :: l₂) rs) (hname : nameOf s x = name) :
    ∃ s' l', record s (.pool x) name time = .ok s' ∧ Profile s' l' (rs ++ [(name, time)]) := by
  have hperm : (x :: (l₁ ++ l₂)).Perm (l₁ ++ x :: l₂) := List.perm_middle.symm
  have hx : x < poolSize := h.bound x (by simp)
  have hvx : (Ptr.pool x).Valid := hx
  have hfresh : x ∉ l₁ ++ l₂ := (List.nodup_cons.mp (hperm.nodup_iff.mpr h.nodup)).1
  obtain ⟨s₁, hs₁, hlist₁, hsame, htotal₁⟩ := deleteDo_spec h.toListed
  have hlist₂ : Listed (s₁.upd (.pool x) (addTime time)) (l₁ ++ l₂) :=
    hlist₁.upd (fun _ => rfl) fun _ => rfl
  have hname₂ : nameOf (s₁.upd (.pool x) (addTime time)) = nameOf s :=
    funext fun i => (upd_field (f := addTime time) ListNode.name (fun _ => rfl) _).trans (hsame i).1
  have htimex : timeOf (s₁.upd (.pool x) (addTime time)) x =
      timeOf s x + time := by
    rw [timeOf, upd_node_self]
    exact congrArg (· + time) (hsame x).2
  have htime₂ : ∀ i, i ≠ x →
      timeOf (s₁.upd (.pool x) (addTime time)) i = timeOf s i := by
    intro i hi
    rw [timeOf, upd_node_ne (by simpa using hi)]
    exact (hsame i).2
  have hnames : ((x :: (l₁ ++ l₂)).map (nameOf s)).Nodup := ((hperm.map _).nodup_iff).mpr h.names
  have hne : ∀ i ∈ l₁ ++ l₂, i ≠ x := fun i hi he => hfresh (he ▸ hi)
  have hsub : (l₁ ++ l₂).Sublist (l₁ ++ x :: l₂) :=
    (List.Sublist.refl l₁).append (List.sublist_cons_self x l₂)
  generalize hs₂ : (s₁.upd (.pool x) (addTime time)) = s₂ at *
  obtain ⟨s', l', hs', hprofile⟩ := insertDo_profile (rs ++ [(name, time)]) hlist₂ hx
    (fun i => by
      rw [hperm.mem_iff, h.slots i, ← hperm.length_eq, List.length_cons])
    (hname₂ ▸ hnames)
    ((h.sorted.sublist hsub).imp_of_mem fun {i j} hi hj hij => by
      rwa [htime₂ i (hne i hi), htime₂ j (hne j hj)])
    (fun n => by
      rw [hname₂, (hperm.map _).mem_iff, h.mem n, List.map_append, List.mem_append]
      constructor
      · exact .inl
      · rintro (hn | hn)
        · exact hn
        · rw [List.mem_singleton.mp hn, ← hname, ← h.mem]
          exact List.mem_map_of_mem (by simp))
    (fun i hi => by
      rw [hname₂, spentOn_snoc]
      rcases List.mem_cons.mp hi with rfl | hi
      · rw [htimex, h.spent i (by simp), hname, if_pos rfl]
      · have hnei : name ≠ nameOf s i := by
          intro he
          refine (List.nodup_cons.mp hnames).1 ?_
          rw [hname, he]
          exact List.mem_map_of_mem hi
        rw [htime₂ i (hne i hi), h.spent i (hperm.mem_iff.mp (List.mem_cons_of_mem _ hi)),
          if_neg hnei, add_zero])
    (by
      have htot : s₂.totalTime = s₁.totalTime := by rw [← hs₂]; rfl
      rw [htot, htotal₁, htimex, h.total, List.map_append, List.sum_append, ← add_assoc,
        sub_add_cancel]
      simp)
  refine ⟨s', l', ?_, hprofile⟩
  rw [record, if_pos (by simp), load_bind hvx,
    check_bind (show name = (s.node (.pool x)).name from hname.symm), hs₁, ok_bind,
    store_bind hvx, hs₂, hs']

/-- The record of a new name takes the slot behind the ones in use. -/
theorem record_new (h : Profile s l rs) (hlen : l.length < poolSize)
    (hname : name.length < nameLength) (hnew : name ∉ rs.map Prod.fst) :
    ∃ s' l', record s .tail name time = .ok s' ∧ Profile s' l' (rs ++ [(name, time)]) := by
  let s₂ : State K := ((s.upd (.pool l.length) (setId l.length)).upd (.pool l.length)
    (setName name)).upd (.pool l.length) (setTime time)
  have hv : (Ptr.pool l.length).Valid := hlen
  have hnode : newNode s l.length name time = .ok s₂ := by
    rw [newNode, store_bind hv, inBounds_bind hname, store_bind hv, State.store, inBounds_bind hv]
    rfl
  have hlist₁ : Listed (s.upd (.pool l.length) (setId l.length)) l :=
    h.toListed.upd (fun _ => rfl) fun _ => rfl
  have hlist₂ : Listed ((s.upd (.pool l.length) (setId l.length)).upd (.pool l.length)
    (setName name)) l := hlist₁.upd (fun _ => rfl) fun _ => rfl
  have hlist : Listed s₂ l := hlist₂.upd (fun _ => rfl) fun _ => rfl
  have hold : ∀ i, i ≠ l.length → s₂.node (.pool i) = s.node (.pool i) := by
    intro i hi
    have hne : Ptr.pool i ≠ .pool l.length := by simpa using hi
    rw [upd_node_ne hne, upd_node_ne hne, upd_node_ne hne]
  have hnamex : nameOf s₂ l.length = name := by
    rw [nameOf, upd_node_self, upd_node_self]
    rfl
  have htimex : timeOf s₂ l.length = time := by
    rw [timeOf, upd_node_self]
    rfl
  have hfresh : ∀ i ∈ l, i ≠ l.length := fun i hi => ((h.slots i).mp hi).ne
  have hname₂ : l.map (nameOf s₂) = l.map (nameOf s) :=
    List.map_congr_left fun i hi => congrArg ListNode.name (hold i (hfresh i hi))
  have htime₂ : ∀ i ∈ l, timeOf s₂ i = timeOf s i := fun i hi =>
    congrArg ListNode.time (hold i (hfresh i hi))
  obtain ⟨s', l', hs', hprofile⟩ := insertDo_profile (rs ++ [(name, time)]) hlist hlen
    (fun i => by
      rw [List.mem_cons, h.slots i]
      omega)
    (by
      rw [List.map_cons, hname₂, hnamex]
      exact List.nodup_cons.mpr ⟨fun hm => hnew ((h.mem name).mp hm), h.names⟩)
    (h.sorted.imp_of_mem fun {i j} hi hj hij => by rwa [htime₂ i hi, htime₂ j hj])
    (fun n => by
      rw [List.map_cons, List.mem_cons, hname₂, hnamex, h.mem n, List.map_append, List.mem_append]
      simp [or_comm])
    (fun i hi => by
      rw [spentOn_snoc]
      rcases List.mem_cons.mp hi with rfl | hi
      · rw [htimex, hnamex, if_pos rfl, spentOn_of_notMem hnew, zero_add]
      · have hni : nameOf s₂ i = nameOf s i := congrArg ListNode.name (hold i (hfresh i hi))
        have hne : name ≠ nameOf s i := by
          rintro rfl
          exact hnew ((h.mem _).mp (List.mem_map_of_mem hi))
        rw [htime₂ i hi, hni, h.spent i hi, if_neg hne, add_zero])
    (by
      show s.totalTime + _ = _
      rw [htimex, h.total, List.map_append, List.sum_append]
      simp)
  refine ⟨s', l', ?_, hprofile⟩
  rw [record, if_neg (by simp), h.size]
  show (newNode s l.length name time >>= _) = _
  rw [hnode, ok_bind, hs']

/-- One record. -/
theorem syscallInsert_spec (h : Profile s l rs) (hname : name.length < nameLength)
    (hdistinct : ((rs ++ [(name, time)]).map Prod.fst).dedup.length ≤ poolSize) :
    ∃ s' l', syscallInsert s name time = .ok s' ∧ Profile s' l' (rs ++ [(name, time)]) := by
  have hhead : Ptr.head.Valid := trivial
  have hfind := findName_spec name h.linked h.bound
    (Nat.lt_succ_of_le (length_le_poolSize h.nodup h.bound))
  have hfirst : (s.node .head).next = firstOf l := (linked_first h.linked).1
  have hsplit : l.takeWhile (differs s name) ++ l.dropWhile (differs s name) = l :=
    List.takeWhile_append_dropWhile
  suffices hrecord : ∃ s' l', record s (firstOf (l.dropWhile (differs s name))) name time = .ok s' ∧
      Profile s' l' (rs ++ [(name, time)]) by
    obtain ⟨s', l', hs', hp⟩ := hrecord
    refine ⟨s', l', ?_, hp⟩
    rw [syscallInsert, load_bind hhead, hfirst, hfind, ok_bind, hs', ok_bind,
      syscallCheck_spec hp.toListed]
    rfl
  cases hrest : l.dropWhile (differs s name) with
  | nil =>
    have hnew : name ∉ rs.map Prod.fst := by
      rw [← h.mem]
      intro hm
      obtain ⟨i, hi, he⟩ := List.mem_map.mp hm
      have hd : differs s name i = true := List.dropWhile_eq_nil_iff.mp hrest i hi
      exact of_decide_eq_true hd he.symm
    have hlen : l.length < poolSize := by
      have hnd : (name :: l.map (nameOf s)).Nodup :=
        List.nodup_cons.mpr ⟨fun hm => hnew ((h.mem name).mp hm), h.names⟩
      have hsub : name :: l.map (nameOf s) ⊆ ((rs ++ [(name, time)]).map Prod.fst).dedup := by
        intro n hn
        rw [List.mem_dedup, List.map_append, List.mem_append]
        rcases List.mem_cons.mp hn with rfl | hn
        · exact .inr (by simp)
        · exact .inl ((h.mem n).mp hn)
      have hle := (hnd.subperm hsub).length_le
      rw [List.length_cons, List.length_map] at hle
      omega
    exact record_new h hlen hname hnew
  | cons x l₂ =>
    have hknown : nameOf s x = name := by
      have hhd := List.head?_dropWhile_not (differs s name) l
      rw [hrest, List.head?_cons] at hhd
      exact (not_not.mp (of_decide_eq_false hhd)).symm
    rw [hrest] at hsplit
    exact record_known (hsplit.symm ▸ h) hknown

theorem profile_init (node : Ptr → ListNode K) : Profile (syscallInit node) [] [] := by
  refine ⟨⟨?_, .nil, fun i hi => (nomatch hi), rfl⟩, by simp, .nil, .nil, by simp,
    fun i hi => (nomatch hi), rfl⟩
  refine linked_cons_cons.mpr ⟨⟨rfl, rfl⟩, ?_⟩
  exact List.isChain_singleton _

/-- All records of a run. -/
theorem profile_run (h : Profile s l rs) {qs : List (CStr × K)}
    (hnames : ∀ r ∈ qs, r.1.length < nameLength)
    (hdistinct : ((rs ++ qs).map Prod.fst).dedup.length ≤ poolSize) :
    ∃ s' l', run (fun s r => syscallInsert s r.1 r.2) s qs = .ok s' ∧ Profile s' l' (rs ++ qs) := by
  induction qs generalizing s l rs with
  | nil => exact ⟨s, l, rfl, by rwa [List.append_nil]⟩
  | cons r qs ih =>
    have hsplit : rs ++ r :: qs = (rs ++ [r]) ++ qs := by simp
    have hle : ((rs ++ [r]).map Prod.fst).dedup.length ≤
        ((rs ++ r :: qs).map Prod.fst).dedup.length := by
      refine ((List.nodup_dedup _).subperm fun n hn => ?_).length_le
      rw [List.mem_dedup] at hn ⊢
      rw [hsplit, List.map_append]
      exact List.mem_append_left _ hn
    obtain ⟨s₁, l₁, hs₁, h₁⟩ :=
      syscallInsert_spec h (hnames r List.mem_cons_self) (hle.trans hdistinct)
    obtain ⟨s₂, l₂, hs₂, h₂⟩ := ih h₁ (fun r hr => hnames r (List.mem_cons_of_mem _ hr))
      (hsplit ▸ hdistinct)
    exact ⟨s₂, l₂, run_cons.mpr ⟨s₁, hs₁, hs₂⟩, hsplit ▸ h₂⟩

/-- The list after any records of at most `POOL_SIZE` names: no assertion fails, the list is
linked in both directions, has one node for each name, in non-increasing order of the
times, which are the sums over the records; and the slot for a new name is free. -/
theorem profile_list (node : Ptr → ListNode K) (rs : List (CStr × K))
    (hnames : ∀ r ∈ rs, r.1.length < nameLength)
    (hdistinct : (rs.map Prod.fst).dedup.length ≤ poolSize) :
    ∃ s l, run (fun s r => syscallInsert s r.1 r.2) (syscallInit node) rs = .ok s ∧
      Linked (nextOf s) (prevOf s) (ptrs l) ∧ s.listSize = l.length ∧ l.Nodup ∧
      (∀ i ∈ l, i < poolSize) ∧ (l.map (nameOf s)).Nodup ∧
      (∀ name, name ∈ l.map (nameOf s) ↔ name ∈ rs.map Prod.fst) ∧
      l.Pairwise (fun i j => timeOf s j ≤ timeOf s i) ∧
      (∀ i ∈ l, timeOf s i = ((rs.filter fun r => r.1 = nameOf s i).map Prod.snd).sum) ∧
      s.totalTime = (rs.map Prod.snd).sum ∧ s.listSize ∉ l := by
  obtain ⟨s, l, hs, h⟩ := profile_run (profile_init node) hnames hdistinct
  rw [List.nil_append] at h
  exact ⟨s, l, hs, h.linked, h.size, h.nodup, h.bound, h.names, h.mem, h.sorted, h.spent, h.total,
    fun hm => absurd ((h.slots _).mp hm) (h.size ▸ lt_irrefl _)⟩

/-- Two calls, one of them twice. -/
theorem profile_list_two :
    ∃ (s : State ℚ) (l : List Nat), run (fun s r => syscallInsert s r.1 r.2)
        (syscallInit fun _ => ⟨0, .ofBytes [], (0 : ℚ), .null, .null⟩)
        [(.ofBytes [114], 1), (.ofBytes [119], 2), (.ofBytes [114], 3)] = .ok s ∧
      s.totalTime = 6 ∧ l.Pairwise fun i j => timeOf s j ≤ timeOf s i := by
  obtain ⟨s, l, hs, -, -, -, -, -, -, hsorted, -, htotal, -⟩ := profile_list
    (fun _ => ⟨0, .ofBytes [], (0 : ℚ), .null, .null⟩)
    [(.ofBytes [114], 1), (.ofBytes [119], 2), (.ofBytes [114], 3)] (by decide) (by decide)
  exact ⟨s, l, hs, by rw [htotal]; norm_num, hsorted⟩

end OsWorkbench.Sperf
