import OsWorkbench.Lib.Chain
import OsWorkbench.Lib.Tiling
import OsWorkbench.Alloc.Model

/-!
# The allocator invariant

`Wf s l` ties the parts of the allocator together: `l` is the free list as pool
indices, threaded through `next` and `prev`; its members are the `UNALLOCATED`
descriptors in ascending order; and the descriptors in use tile the heap.
-/

namespace OsWorkbench.Alloc

open Chain Tiling

def lefts (l : List Nat) : List Ptr := .head :: l.map .pool

def rights (l : List Nat) : List Ptr := l.map .pool ++ [.tail]

/-- The pointers met on the way from `free.head` to `free.tail`. -/
def ptrs (l : List Nat) : List Ptr := .head :: rights l

/-- The interval of a descriptor in use. -/
def used (s : Pmm) (i : Nat) : Option (Nat × Nat) :=
  if i < poolSize ∧ (s.blk (.pool i)).state ≠ .unused then some (interval s i) else none

structure Wf (s : Pmm) (l : List Nat) : Prop where
  linked : Linked (fun p => (s.blk p).next) (fun p => (s.blk p).prev) (ptrs l)
  count : s.listSize = l.length
  mem : ∀ {i}, i ∈ l ↔ i < poolSize ∧ (s.blk (.pool i)).state = .unallocated
  ids : ∀ {i}, i < poolSize → (s.blk (.pool i)).id = i
  tiles : Tiles (used s) s.pmStart s.pmEnd
  full : ∀ {i}, i < poolSize → (s.blk (.pool i)).state = .allocated →
    (s.blk (.pool i)).beginAddr < (s.blk (.pool i)).endAddr
  sized : ∀ {i}, i < poolSize → (s.blk (.pool i)).state ≠ .unused →
    (s.blk (.pool i)).size = (s.blk (.pool i)).endAddr - (s.blk (.pool i)).beginAddr
  sorted : l.Pairwise fun i j => (s.blk (.pool i)).beginAddr < (s.blk (.pool j)).beginAddr
  start_pos : 0 < s.pmStart
  end_lt : s.pmEnd < 2 ^ 32

/-! ## Reading and writing descriptors -/

/-- The state after `*p = b`. -/
def Pmm.set (s : Pmm) (p : Ptr) (b : MemBlock) : Pmm :=
  { s with blk := Function.update s.blk p b }

section Memory

variable (s : Pmm) (p q : Ptr) (b : MemBlock)

theorem load_eq {p : Ptr} (h : p ≠ .null) : s.load p = .ok (s.blk p) := if_neg h

theorem store_eq {p : Ptr} (h : p ≠ .null) (f : MemBlock → MemBlock) :
    s.store p f = .ok (s.set p (f (s.blk p))) := if_neg h

theorem load_bind {β : Type} {p : Ptr} (h : p ≠ .null) {k : MemBlock → Except Fault β} :
    (s.load p >>= k) = k (s.blk p) := by
  rw [load_eq s h, ok_bind]

theorem store_bind {β : Type} {p : Ptr} (h : p ≠ .null) {f : MemBlock → MemBlock}
    {k : Pmm → Except Fault β} : (s.store p f >>= k) = k (s.set p (f (s.blk p))) := by
  rw [store_eq s h, ok_bind]

@[simp] theorem set_blk_self : (s.set p b).blk p = b := by simp [Pmm.set]

theorem set_blk : (s.set p b).blk q = if q = p then b else s.blk q := by
  simp [Pmm.set, Function.update_apply]

@[simp] theorem set_listSize : (s.set p b).listSize = s.listSize := rfl

@[simp] theorem set_pmStart : (s.set p b).pmStart = s.pmStart := rfl

@[simp] theorem set_pmEnd : (s.set p b).pmEnd = s.pmEnd := rfl

@[simp] theorem set_memTotal : (s.set p b).memTotal = s.memTotal := rfl

@[simp] theorem set_memUsed : (s.set p b).memUsed = s.memUsed := rfl

end Memory

/-! ## The pointer list -/

theorem ptrs_ne_null {l : List Nat} {p : Ptr} (h : p ∈ ptrs l) : p ≠ .null := by
  rintro rfl
  simp [ptrs, rights] at h

theorem ptrs_nodup {l : List Nat} (h : l.Nodup) : (ptrs l).Nodup := by
  have hinj : Function.Injective Ptr.pool := fun a b hab => by cases hab; rfl
  simp [ptrs, rights, List.nodup_append, h.map hinj]

/-- The neighbours of a place in the free list. -/
theorem ptrs_split (l₁ l₂ : List Nat) :
    ∃ L₁ p n L₂, lefts l₁ = L₁ ++ [p] ∧ rights l₂ = n :: L₂ := by
  obtain ⟨L₁, p, h₁⟩ := (List.eq_nil_or_concat (lefts l₁)).resolve_left (by simp [lefts])
  obtain ⟨n, L₂, h₂⟩ := List.exists_cons_of_ne_nil (l := rights l₂) (by simp [rights])
  exact ⟨L₁, p, n, L₂, by rw [h₁, List.concat_eq_append], h₂⟩

section Split

variable {l₁ l₂ : List Nat} {L₁ L₂ : List Ptr} {p n : Ptr}

theorem ptrs_append (h₁ : lefts l₁ = L₁ ++ [p]) (h₂ : rights l₂ = n :: L₂) :
    ptrs (l₁ ++ l₂) = L₁ ++ p :: n :: L₂ := by
  calc ptrs (l₁ ++ l₂) = lefts l₁ ++ rights l₂ := by simp [ptrs, lefts, rights]
    _ = L₁ ++ p :: n :: L₂ := by rw [h₁, h₂]; simp

theorem ptrs_append_cons (h₁ : lefts l₁ = L₁ ++ [p]) (h₂ : rights l₂ = n :: L₂) (i : Nat) :
    ptrs (l₁ ++ i :: l₂) = L₁ ++ p :: .pool i :: n :: L₂ := by
  calc ptrs (l₁ ++ i :: l₂) = lefts l₁ ++ .pool i :: rights l₂ := by simp [ptrs, lefts, rights]
    _ = L₁ ++ p :: .pool i :: n :: L₂ := by rw [h₁, h₂]; simp

end Split

/-! ## Consequences of the invariant -/

section Consequences

variable {s : Pmm} {l : List Nat}

theorem Wf.nodup (h : Wf s l) : l.Nodup :=
  h.sorted.imp fun hlt heq => by simp [heq] at hlt

theorem Wf.length_le (h : Wf s l) : l.length ≤ poolSize := by
  have hsub : l.toFinset ⊆ Finset.range poolSize := by
    intro i hi
    exact Finset.mem_range.mpr (h.mem.mp (List.mem_toFinset.mp hi)).1
  have hcard := Finset.card_le_card hsub
  rwa [List.toFinset_card_of_nodup h.nodup, Finset.card_range] at hcard

theorem used_some {i a b : Nat} : used s i = some (a, b) ↔
    i < poolSize ∧ (s.blk (.pool i)).state ≠ .unused ∧
      (s.blk (.pool i)).beginAddr = a ∧ (s.blk (.pool i)).endAddr = b := by
  unfold used interval
  split
  · next h => simp [h]
  · next h =>
    simp only [reduceCtorEq, false_iff]
    rintro ⟨h1, h2, _⟩
    exact h ⟨h1, h2⟩

theorem used_none {i : Nat} : used s i = none ↔
    ¬ (i < poolSize ∧ (s.blk (.pool i)).state ≠ .unused) := by
  unfold used
  split <;> simp_all

theorem used_of {i : Nat} (hi : i < poolSize) (hu : (s.blk (.pool i)).state ≠ .unused) :
    used s i = some ((s.blk (.pool i)).beginAddr, (s.blk (.pool i)).endAddr) :=
  used_some.mpr ⟨hi, hu, rfl, rfl⟩

/-- The bounds that keep the 32-bit arithmetic of `alloc.c` from wrapping. -/
theorem Wf.bounds (h : Wf s l) {i : Nat} (hi : i < poolSize)
    (hu : (s.blk (.pool i)).state ≠ .unused) :
    s.pmStart ≤ (s.blk (.pool i)).beginAddr ∧
      (s.blk (.pool i)).beginAddr ≤ (s.blk (.pool i)).endAddr ∧
      (s.blk (.pool i)).endAddr ≤ s.pmEnd :=
  ⟨h.tiles.lo_le (used_of hi hu), h.tiles.le (used_of hi hu), h.tiles.le_hi (used_of hi hu)⟩

/-- Two descriptors in use with the same begin are one, unless one of them is empty. -/
theorem Wf.eq_of_begin (h : Wf s l) {i j : Nat} (hi : i < poolSize) (hj : j < poolSize)
    (hui : (s.blk (.pool i)).state ≠ .unused) (huj : (s.blk (.pool j)).state ≠ .unused)
    (hfi : (s.blk (.pool i)).beginAddr < (s.blk (.pool i)).endAddr)
    (hfj : (s.blk (.pool j)).beginAddr < (s.blk (.pool j)).endAddr)
    (heq : (s.blk (.pool i)).beginAddr = (s.blk (.pool j)).beginAddr) : i = j :=
  h.tiles.eq_of_left (used_of hi hui) (by rw [used_of hj huj, heq]) hfi (heq ▸ hfj)

theorem Wf.eq_of_allocated (h : Wf s l) {i j : Nat} (hi : i < poolSize) (hj : j < poolSize)
    (hai : (s.blk (.pool i)).state = .allocated) (haj : (s.blk (.pool j)).state = .allocated)
    (heq : (s.blk (.pool i)).beginAddr = (s.blk (.pool j)).beginAddr) : i = j :=
  h.eq_of_begin hi hj (by simp [hai]) (by simp [haj]) (h.full hi hai) (h.full hj haj) heq

/-- Two nodes of the list with the same begin are one. -/
theorem Wf.eq_of_mem (h : Wf s l) {i j : Nat} (hi : i ∈ l) (hj : j ∈ l)
    (heq : (s.blk (.pool i)).beginAddr = (s.blk (.pool j)).beginAddr) : i = j := by
  by_contra hij
  rcases List.Pairwise.forall_of_forall_of_flip
    (R := fun i j => i = j ∨ (s.blk (.pool i)).beginAddr < (s.blk (.pool j)).beginAddr ∨
      (s.blk (.pool j)).beginAddr < (s.blk (.pool i)).beginAddr)
    (fun _ _ => .inl rfl) (h.sorted.imp fun hab => .inr (.inl hab))
    (h.sorted.imp fun hab => .inr (.inr hab)) hi hj with h1 | h1 | h1
  · exact hij h1
  · omega
  · omega

theorem Wf.end_le (h : Wf s l) {i j : Nat} (hi : i < poolSize) (hj : j < poolSize)
    (hui : (s.blk (.pool i)).state ≠ .unused) (huj : (s.blk (.pool j)).state ≠ .unused)
    (hlt : (s.blk (.pool i)).beginAddr < (s.blk (.pool j)).beginAddr) :
    (s.blk (.pool i)).endAddr ≤ (s.blk (.pool j)).beginAddr := by
  have hij : i ≠ j := by
    rintro rfl
    exact lt_irrefl _ hlt
  exact h.tiles.right_le hij (used_of hi hui) (used_of hj huj) hlt

end Consequences

/-! ## `free_check` -/

theorem freeCheckLoop_eq {s : Pmm} {l : List Nat} {a : Ptr} {fuel cnt : Nat} (ha : a ≠ .null)
    (h : Linked (fun p => (s.blk p).next) (fun p => (s.blk p).prev)
      (a :: rights l))
    (hf : l.length < fuel) :
    freeCheckLoop s fuel (s.blk a).next cnt = .ok (cnt + l.length) := by
  induction l generalizing a fuel cnt with
  | nil =>
    obtain ⟨fuel, rfl⟩ := Nat.exists_eq_succ_of_ne_zero (Nat.ne_of_gt hf)
    have hn : (s.blk a).next = .tail := (linked_cons_cons.mp h).1.1
    simp [hn, freeCheckLoop]
  | cons i l ih =>
    obtain ⟨fuel, rfl⟩ := Nat.exists_eq_succ_of_ne_zero (Nat.ne_of_gt (Nat.zero_lt_of_lt hf))
    obtain ⟨⟨hn, hp⟩, hl⟩ := linked_cons_cons.mp h
    -- the node after `pool i` points back to it
    obtain ⟨y, L, hy⟩ := List.exists_cons_of_ne_nil (l := rights l) (by simp [rights])
    have hyl : (s.blk (.pool i)).next = y ∧ (s.blk y).prev = .pool i := by
      have hl := hl
      change Linked _ _ (Ptr.pool i :: rights l) at hl
      rw [hy] at hl
      exact (linked_cons_cons.mp hl).1
    have hy0 : y ≠ .null := by
      have : y ∈ rights l := by rw [hy]; simp
      rintro rfl
      simp [rights] at this
    have hf' : l.length < fuel := Nat.lt_of_succ_lt_succ (by simpa using hf)
    have ih' : freeCheckLoop s fuel (s.blk (.pool i)).next (cnt + 1) = .ok (cnt + 1 + l.length) :=
      ih (by simp) hl hf'
    rw [hn, freeCheckLoop, if_neg (by simp), load_bind s (by simp), hyl.1, load_bind s hy0,
      check_bind hyl.2, hp, load_bind s ha, check_bind hn, ← hyl.1, ih', List.length_cons]
    congr 1
    omega

theorem Wf.freeCheck {s : Pmm} {l : List Nat} (h : Wf s l) : freeCheck s = .ok () := by
  unfold Alloc.freeCheck
  have hlen : l.length < listFuel := Nat.lt_succ_of_le h.length_le
  rw [load_bind s (by simp), freeCheckLoop_eq (by simp) h.linked hlen, ok_bind, Nat.zero_add]
  exact check_pos h.count.symm

/-! ## Neighbours in the free list -/

theorem Wf.neighbours {s : Pmm} {l₁ l₂ : List Nat} {i : Nat} (h : Wf s (l₁ ++ i :: l₂)) :
    ∃ L₁ p n L₂, lefts l₁ = L₁ ++ [p] ∧ rights l₂ = n :: L₂ ∧
      (s.blk (.pool i)).prev = p ∧ (s.blk (.pool i)).next = n ∧
      p ≠ .null ∧ n ≠ .null ∧ p ≠ .pool i ∧ n ≠ .pool i ∧ p ≠ n := by
  obtain ⟨L₁, p, n, L₂, h₁, h₂⟩ := ptrs_split l₁ l₂
  have hlink := h.linked
  have hnd := ptrs_nodup h.nodup
  have hnull : ∀ q ∈ ptrs (l₁ ++ i :: l₂), q ≠ .null := fun q hq => ptrs_ne_null hq
  rw [ptrs_append_cons h₁ h₂] at hlink hnd hnull
  obtain ⟨_, ⟨_, hprev⟩, hr⟩ := linked_append.mp hlink
  obtain ⟨⟨hnext, _⟩, _⟩ := linked_cons_cons.mp hr
  simp only [List.nodup_append, List.nodup_cons, List.mem_cons, not_or] at hnd
  exact ⟨L₁, p, n, L₂, h₁, h₂, hprev, hnext, hnull p (by simp), hnull n (by simp),
    hnd.2.1.1.1, Ne.symm hnd.2.1.2.1.1, hnd.2.1.1.2.1⟩

theorem Wf.place {s : Pmm} {l₁ l₂ : List Nat} (h : Wf s (l₁ ++ l₂)) :
    ∃ L₁ p n L₂, lefts l₁ = L₁ ++ [p] ∧ rights l₂ = n :: L₂ ∧
      (s.blk p).next = n ∧ p ≠ .null ∧ n ≠ .null ∧ p ≠ n := by
  obtain ⟨L₁, p, n, L₂, h₁, h₂⟩ := ptrs_split l₁ l₂
  have hlink := h.linked
  have hnd := ptrs_nodup h.nodup
  have hnull : ∀ q ∈ ptrs (l₁ ++ l₂), q ≠ .null := fun q hq => ptrs_ne_null hq
  rw [ptrs_append h₁ h₂] at hlink hnd hnull
  obtain ⟨_, ⟨hnext, _⟩, _⟩ := linked_append.mp hlink
  simp only [List.nodup_append, List.nodup_cons, List.mem_cons, not_or] at hnd
  exact ⟨L₁, p, n, L₂, h₁, h₂, hnext, hnull p (by simp), hnull n (by simp), hnd.2.1.1.1⟩

theorem left_ne_null {l₁ : List Nat} {L₁ : List Ptr} {p : Ptr} (h₁ : lefts l₁ = L₁ ++ [p]) :
    p ≠ .null := by
  rintro rfl
  have : Ptr.null ∈ lefts l₁ := by rw [h₁]; simp
  simp [lefts] at this

/-- The pointer at which the list goes on behind `p`. -/
theorem Wf.next_of_left {s : Pmm} {l₁ l₂ : List Nat} {L₁ : List Ptr} {p : Ptr}
    (h : Wf s (l₁ ++ l₂)) (h₁ : lefts l₁ = L₁ ++ [p]) :
    ∃ n L₂, rights l₂ = n :: L₂ ∧ (s.blk p).next = n := by
  obtain ⟨L₁', p', n, L₂, h₁', h₂, hnext, -⟩ := h.place
  obtain rfl : p' = p := List.singleton_inj.mp (List.append_inj_right' (h₁'.symm.trans h₁) rfl)
  exact ⟨n, L₂, h₂, hnext⟩

/-- `s'` is `s` with `y` unlinked from between `p` and `n`. -/
structure Unlinked (s s' : Pmm) (p y n : Ptr) : Prop where
  next_left : (s'.blk p).next = n
  prev_right : (s'.blk n).prev = p
  next_other : ∀ q, q ≠ p → q ≠ y → (s'.blk q).next = (s.blk q).next
  prev_other : ∀ q, q ≠ n → q ≠ y → (s'.blk q).prev = (s.blk q).prev

/-- `s'` is `s` with `y` linked between `p` and `n`. -/
structure LinkedIn (s s' : Pmm) (p y n : Ptr) : Prop where
  next_left : (s'.blk p).next = y
  next_self : (s'.blk y).next = n
  prev_self : (s'.blk y).prev = p
  prev_right : (s'.blk n).prev = y
  next_other : ∀ q, q ≠ p → q ≠ y → (s'.blk q).next = (s.blk q).next
  prev_other : ∀ q, q ≠ n → q ≠ y → (s'.blk q).prev = (s.blk q).prev

theorem Wf.linked_of_unlinked {s s' : Pmm} {l₁ l₂ : List Nat} {i : Nat} {L₁ L₂ : List Ptr}
    {p n : Ptr} (h : Wf s (l₁ ++ i :: l₂)) (h₁ : lefts l₁ = L₁ ++ [p]) (h₂ : rights l₂ = n :: L₂)
    (hu : Unlinked s s' p (.pool i) n) :
    Linked (fun p => (s'.blk p).next) (fun p => (s'.blk p).prev) (ptrs (l₁ ++ l₂)) := by
  have hlink := h.linked
  have hnd := ptrs_nodup h.nodup
  rw [ptrs_append_cons h₁ h₂] at hlink hnd
  rw [ptrs_append h₁ h₂]
  exact hlink.remove hnd hu.next_left hu.prev_right hu.next_other hu.prev_other

theorem Wf.linked_of_linkedIn {s s' : Pmm} {l₁ l₂ : List Nat} {i : Nat} {L₁ L₂ : List Ptr}
    {p n : Ptr} (h : Wf s (l₁ ++ l₂)) (hi : i ∉ l₁ ++ l₂) (h₁ : lefts l₁ = L₁ ++ [p])
    (h₂ : rights l₂ = n :: L₂) (hu : LinkedIn s s' p (.pool i) n) :
    Linked (fun p => (s'.blk p).next) (fun p => (s'.blk p).prev) (ptrs (l₁ ++ i :: l₂)) := by
  have hlink := h.linked
  have hnd := ptrs_nodup h.nodup
  have hfresh : Ptr.pool i ∉ ptrs (l₁ ++ l₂) := by
    intro hmem
    simp only [ptrs, rights, List.map_append, List.append_assoc, List.mem_cons, List.mem_append,
      List.mem_map, Ptr.pool.injEq, exists_eq_right, reduceCtorEq, List.not_mem_nil, or_false,
      false_or] at hmem
    exact hi (List.mem_append.mpr hmem)
  rw [ptrs_append h₁ h₂] at hlink hnd hfresh
  rw [ptrs_append_cons h₁ h₂]
  exact hlink.insert hnd hfresh hu.next_left hu.next_self hu.prev_self hu.prev_right
    hu.next_other hu.prev_other

end OsWorkbench.Alloc
