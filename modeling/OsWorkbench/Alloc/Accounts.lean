import OsWorkbench.Alloc.Coalesce

/-!
# The accounts of the allocator

What `/proc/meminfo` shows: `mem_used` is the size of the allocated blocks, and the rest
of `mem_total` is the size of the free ones. Every call of `kalloc` or `kfree` that
returns changes one block from free to allocated or back, and an allocated block keeps
its size until it is freed.
-/

namespace OsWorkbench.Alloc

open Tiling

/-! ## Calls that return -/

section Calls

variable {lo hi : Nat} {s s' : Pmm} {o : Op}

/-- What a call of `kalloc` or `kfree` that returned did. -/
inductive Served (s s' : Pmm) : Op → Prop
  | zero : s' = s → Served s s' (.alloc 0)
  | grant {i size newsz : Nat} : 0 < size → Rounded size newsz → Granted s s' i newsz →
      Served s s' (.alloc size)
  | release {i : Nat} : i < poolSize → (s.blk (.pool i)).state = .allocated → Released s s' i →
      Served s s' (.free (s.blk (.pool i)).beginAddr)

theorem kalloc_ok {size p : Nat} (h : Inv s) (hk : kalloc s size = .ok (p, s')) :
    (size = 0 ∧ p = 0 ∧ s' = s) ∨
    (0 < size ∧ Inv s' ∧ ∃ i newsz, Rounded size newsz ∧ Granted s s' i newsz ∧
      p = (s'.blk (.pool i)).beginAddr ∧ p ≠ 0) := by
  rcases Nat.eq_zero_or_pos size with rfl | hpos
  · rw [kalloc, if_pos rfl] at hk
    cases hk
    exact .inl ⟨rfl, rfl, rfl⟩
  · rcases Nat.lt_or_ge (2 ^ 31) size with hlarge | hle
    · rw [kalloc_diverges s hlarge] at hk
      cases hk
    · obtain ⟨newsz, hr, ⟨herr, -⟩ | ⟨i, t, hok, hne, hinv, hg⟩⟩ := kalloc_spec h hpos hle
      · rw [herr] at hk
        cases hk
      · rw [hok] at hk
        cases hk
        exact .inr ⟨hpos, hinv, i, newsz, hr, hg, rfl, hne⟩

theorem kfree_ok {p : Nat} (h : Inv s) (hk : kfree s p = .ok s') :
    Inv s' ∧ ∃ i, i < poolSize ∧ (s.blk (.pool i)).state = .allocated ∧
      (s.blk (.pool i)).beginAddr = p ∧ Released s s' i := by
  by_cases hl : ∃ b, (p, b) ∈ live s
  · obtain ⟨b, hl⟩ := hl
    obtain ⟨i, hi, ha, rfl, -⟩ := mem_live.mp hl
    rcases (kfree_spec h hi ha).2 with ⟨herr, -⟩ | ⟨t, hok, hinv, hrel⟩
    · rw [herr] at hk
      cases hk
    · rw [hok] at hk
      cases hk
      exact ⟨hinv, i, hi, ha, rfl, hrel⟩
  · rw [kfree_dead (fun b hb => hl ⟨b, hb⟩)] at hk
    cases hk

theorem step_served (h : Inv s) (ho : o ≠ .init) (hs : step lo hi s o = .ok s') :
    Inv s' ∧ Served s s' o := by
  cases o with
  | init => exact absurd rfl ho
  | alloc size =>
    obtain ⟨⟨p, t⟩, hk, hs⟩ := bind_eq_ok.mp hs
    cases hs
    rcases kalloc_ok h hk with ⟨rfl, -, rfl⟩ | ⟨hpos, hinv, i, newsz, hr, hg, -⟩
    · exact ⟨h, .zero rfl⟩
    · exact ⟨hinv, .grant hpos hr hg⟩
  | free ptr =>
    obtain ⟨hinv, i, hi, ha, rfl, hrel⟩ := kfree_ok h hs
    exact ⟨hinv, .release hi ha hrel⟩

/-- A block that is not freed stays as it is. -/
theorem Served.keeps {k : Nat} (h : Served s s' o) (hk : (s.blk (.pool k)).state = .allocated)
    (ho : o ≠ .free (s.blk (.pool k)).beginAddr) :
    (s'.blk (.pool k)).state = .allocated ∧ (s'.blk (.pool k)).data = (s.blk (.pool k)).data := by
  cases h with
  | zero he =>
    subst he
    exact ⟨hk, rfl⟩
  | grant _ _ hg => exact ⟨(hg.live k).mpr (.inl hk), hg.data k hk⟩
  | @release i hi ha hrel =>
    have hki : k ≠ i := by
      rintro rfl
      exact ho rfl
    exact ⟨(hrel.live k).mpr ⟨hk, hki⟩, hrel.data k hk hki⟩

/-- Over a whole run, too. -/
theorem run_keeps {os : List Op} {k : Nat} (h : Inv s) (hk : (s.blk (.pool k)).state = .allocated)
    (hos : ∀ o ∈ os, o ≠ .init ∧ o ≠ .free (s.blk (.pool k)).beginAddr)
    (hr : run (step lo hi) s os = .ok s') :
    Inv s' ∧ (s'.blk (.pool k)).state = .allocated ∧
      (s'.blk (.pool k)).data = (s.blk (.pool k)).data := by
  refine run_invariant (I := fun t => Inv t ∧ (t.blk (.pool k)).state = .allocated ∧
    (t.blk (.pool k)).data = (s.blk (.pool k)).data) ?_ ⟨h, hk, rfl⟩ hos hr
  rintro t o t' ⟨hinv, hkt, hd⟩ ⟨hi, hf⟩ ht
  obtain ⟨hinv', hserved⟩ := step_served hinv hi ht
  have hb : (t.blk (.pool k)).beginAddr = (s.blk (.pool k)).beginAddr :=
    (data_eq_iff.mp hd).2.2.2.1
  obtain ⟨hk', hd'⟩ := hserved.keeps hkt (hb ▸ hf)
  exact ⟨hinv', hk', hd'.trans hd⟩

end Calls

/-! ## Sums -/

section Sums

variable {s s' : Pmm} {i newsz : Nat}

/-- The descriptors in a state. -/
def inState (s : Pmm) (st : BlockState) : Finset Nat :=
  (Finset.range poolSize).filter fun i => (s.blk (.pool i)).state = st

/-- The size of the allocated blocks. -/
def allocatedSize (s : Pmm) : Nat := ∑ i ∈ inState s .allocated, (s.blk (.pool i)).size

/-- The size of the nodes of the free list. -/
def freeSize (s : Pmm) : Nat := ((freeNodes s).map fun i => (s.blk (.pool i)).size).sum

theorem mem_inState {st : BlockState} :
    i ∈ inState s st ↔ i < poolSize ∧ (s.blk (.pool i)).state = st := by
  rw [inState, Finset.mem_filter, Finset.mem_range]

theorem Inv.freeSize_eq (h : Inv s) :
    freeSize s = ∑ i ∈ inState s .unallocated, (s.blk (.pool i)).size := by
  obtain ⟨l, hwf, -⟩ := h
  have hset : inState s .unallocated = l.toFinset := by
    ext i
    rw [mem_inState, List.mem_toFinset, hwf.mem]
  rw [freeSize, hwf.freeNodes_eq, hset, List.sum_toFinset _ hwf.nodup]

/-- The blocks make up the heap. -/
theorem Inv.sum_size (h : Inv s) : allocatedSize s + freeSize s = s.pmEnd - s.pmStart := by
  rw [h.freeSize_eq]
  obtain ⟨l, hwf, -⟩ := h
  have hsum := hwf.tiles.sum_card (Finset.range poolSize) fun i hi =>
    used_none.mpr fun hu => hi (Finset.mem_range.mpr hu.1)
  rw [← hsum, allocatedSize, inState, inState, Finset.sum_filter, Finset.sum_filter,
    ← Finset.sum_add_distrib]
  refine Finset.sum_congr rfl fun i hi => ?_
  have hi := Finset.mem_range.mp hi
  cases hs : (s.blk (.pool i)).state with
  | unused => simp [used_none.mpr (fun hu => hu.2 hs), points]
  | allocated =>
    have hu : (s.blk (.pool i)).state ≠ .unused := by simp [hs]
    simp [used_of hi hu, points, hwf.sized hi hu]
  | unallocated =>
    have hu : (s.blk (.pool i)).state ≠ .unused := by simp [hs]
    simp [used_of hi hu, points, hwf.sized hi hu]

theorem Granted.inState_eq (h : Granted s s' i newsz) :
    inState s' .allocated = insert i (inState s .allocated) := by
  ext k
  rw [Finset.mem_insert, mem_inState, mem_inState, h.live k]
  constructor
  · rintro ⟨hk, hks | rfl⟩
    · exact .inr ⟨hk, hks⟩
    · exact .inl rfl
  · rintro (rfl | ⟨hk, hks⟩)
    · exact ⟨h.lt, .inr rfl⟩
    · exact ⟨hk, .inl hks⟩

theorem Granted.allocatedSize_eq (h : Granted s s' i newsz) :
    allocatedSize s' = allocatedSize s + (s'.blk (.pool i)).size := by
  have hi : i ∉ inState s .allocated := fun hi => by
    have := (mem_inState.mp hi).2
    rw [h.free] at this
    cases this
  have hsame : ∀ k ∈ inState s .allocated, (s'.blk (.pool k)).size = (s.blk (.pool k)).size :=
    fun k hk => (data_eq_iff.mp (h.data k (mem_inState.mp hk).2)).2.2.1
  rw [allocatedSize, allocatedSize, h.inState_eq, Finset.sum_insert hi, Finset.sum_congr rfl hsame,
    Nat.add_comm]

theorem Released.inState_eq (h : Released s s' i) :
    inState s' .allocated = (inState s .allocated).erase i := by
  ext k
  rw [Finset.mem_erase, mem_inState, mem_inState, h.live k]
  constructor
  · rintro ⟨hk, hks, hki⟩
    exact ⟨hki, hk, hks⟩
  · rintro ⟨hki, hk, hks⟩
    exact ⟨hk, hks, hki⟩

theorem Released.allocatedSize_eq (h : Released s s' i) (hi : i < poolSize)
    (ha : (s.blk (.pool i)).state = .allocated) :
    allocatedSize s = allocatedSize s' + (s.blk (.pool i)).size := by
  have hsame : ∀ k ∈ (inState s .allocated).erase i,
      (s'.blk (.pool k)).size = (s.blk (.pool k)).size := by
    intro k hk
    obtain ⟨hki, hk⟩ := Finset.mem_erase.mp hk
    exact (data_eq_iff.mp (h.data k (mem_inState.mp hk).2 hki)).2.2.1
  rw [allocatedSize, allocatedSize, h.inState_eq, Finset.sum_congr rfl hsame,
    Finset.sum_erase_add _ _ (mem_inState.mpr ⟨hi, ha⟩)]

end Sums

/-! ## Reachable states -/

section Reachable

variable {lo hi : Nat} {s s' : Pmm} {o : Op}

/-- The counters are right. -/
structure Accounted (lo hi : Nat) (s : Pmm) : Prop where
  inv : Inv s
  pmStart : s.pmStart = lo
  pmEnd : s.pmEnd = hi
  memTotal : s.memTotal = hi - lo
  memUsed : s.memUsed = allocatedSize s

theorem Accounted.sum_size (h : Accounted lo hi s) : allocatedSize s + freeSize s = hi - lo := by
  rw [h.inv.sum_size, h.pmStart, h.pmEnd]

theorem pmmInit_allocated {s₀ : Pmm} (hlo : 0 < lo) (hle : lo ≤ hi) (hhi : hi < 2 ^ 32) :
    inState (pmmInit s₀ lo hi) .allocated = ∅ := by
  refine Finset.eq_empty_of_forall_notMem fun i hi => ?_
  obtain ⟨hlt, hs⟩ := mem_inState.mp hi
  obtain ⟨-, hu, -⟩ := (pmmInit_spec s₀ hlo hle hhi).2 i hlt (by simp [hs])
  rw [hs] at hu
  cases hu

theorem Accounted.init {s₀ : Pmm} (hlo : 0 < lo) (hle : lo ≤ hi) (hhi : hi < 2 ^ 32)
    (h0 : s₀.memUsed = 0) : Accounted lo hi (pmmInit s₀ lo hi) where
  inv := (pmmInit_spec s₀ hlo hle hhi).1
  pmStart := rfl
  pmEnd := rfl
  memTotal := sub32_eq hhi hle
  memUsed := by
    rw [allocatedSize, pmmInit_allocated hlo hle hhi, Finset.sum_empty]
    exact h0

theorem Accounted.served (h : Accounted lo hi s) (hhi : hi < 2 ^ 32) (hinv : Inv s')
    (hs : Served s s' o) : Accounted lo hi s' := by
  cases hs with
  | zero he => exact he ▸ h
  | grant _ _ hg =>
    have hsum := hg.allocatedSize_eq
    have htotal := hinv.sum_size
    rw [hg.pmStart, hg.pmEnd, h.pmStart, h.pmEnd] at htotal
    refine ⟨hinv, hg.pmStart.trans h.pmStart, hg.pmEnd.trans h.pmEnd, hg.memTotal.trans h.memTotal,
      ?_⟩
    rw [hg.memUsed, h.memUsed, ← hsum]
    exact Nat.mod_eq_of_lt (by omega)
  | release hi ha hrel =>
    have hsum := hrel.allocatedSize_eq hi ha
    have htotal := h.sum_size
    refine ⟨hinv, hrel.pmStart.trans h.pmStart, hrel.pmEnd.trans h.pmEnd,
      hrel.memTotal.trans h.memTotal, ?_⟩
    rw [hrel.memUsed, h.memUsed, hsum,
      show ∀ a b : Nat, a + b + 2 ^ 64 - b = a + 2 ^ 64 from fun a b => by omega, Nat.add_mod_right]
    exact Nat.mod_eq_of_lt (by omega)

theorem run_accounts {os : List Op} {s₀ : Pmm} (hlo : 0 < lo) (hle : lo ≤ hi) (hhi : hi < 2 ^ 32)
    (h0 : s₀.memUsed = 0) (hos : ∀ o ∈ os, o ≠ .init)
    (hr : run (step lo hi) s₀ (.init :: os) = .ok s) : Accounted lo hi s := by
  obtain ⟨t, ht, hr⟩ := run_cons.mp hr
  cases ht
  refine run_invariant (I := Accounted lo hi) (P := fun o => o ≠ .init) (fun h ho ht => ?_)
    (.init hlo hle hhi h0) hos hr
  obtain ⟨hinv, hserved⟩ := step_served h.inv ho ht
  exact h.served hhi hinv hserved

end Reachable

/-- In every state that calls of `kalloc` and `kfree` after `pmm_init` reach, `mem_used` is
the size of the allocated blocks, and the rest of `mem_total` is the size of the free
ones. What `kalloc` adds for a pointer is what `kfree` of the pointer takes off, whatever
is called in between. -/
theorem run_accounted {lo hi : Nat} (hlo : 0 < lo) (hle : lo ≤ hi) (hhi : hi < 2 ^ 32) (s₀ : Pmm)
    (h0 : s₀.memUsed = 0) {os : List Op} (hos : ∀ o ∈ os, o ≠ .init) {s : Pmm}
    (hr : run (step lo hi) s₀ (.init :: os) = .ok s) :
    s.memUsed = allocatedSize s ∧ s.memUsed ≤ s.memTotal ∧ s.memTotal - s.memUsed = freeSize s ∧
    ∀ size p s', kalloc s size = .ok (p, s') → p ≠ 0 → ∃ b, s'.memUsed = s.memUsed + b ∧
      ∀ os' t t', (∀ o ∈ os', o ≠ .init ∧ o ≠ .free p) → run (step lo hi) s' os' = .ok t →
        kfree t p = .ok t' → t.memUsed = t'.memUsed + b := by
  have h := run_accounts hlo hle hhi h0 hos hr
  have hsum := h.sum_size
  have htotal := h.memTotal
  have hused := h.memUsed
  refine ⟨hused, by omega, by omega, fun size p s' hk hp => ?_⟩
  rcases kalloc_ok h.inv hk with ⟨-, rfl, -⟩ | ⟨hpos, hinv', i, newsz, hround, hg, rfl, -⟩
  · exact absurd rfl hp
  have h' := h.served hhi hinv' (.grant hpos hround hg)
  have ha' : (s'.blk (.pool i)).state = .allocated := (hg.live i).mpr (.inr rfl)
  refine ⟨(s'.blk (.pool i)).size, ?_, fun os' t t' hos' hr' hfree => ?_⟩
  · rw [h'.memUsed, hused, hg.allocatedSize_eq]
  · obtain ⟨hinvt, hat, hd⟩ := run_keeps hinv' ha' hos' hr'
    obtain ⟨-, -, hsz, hb, -⟩ := data_eq_iff.mp hd
    have ht : Accounted lo hi t := run_invariant (I := Accounted lo hi)
      (P := fun o => o ≠ .init ∧ o ≠ .free (s'.blk (.pool i)).beginAddr) (fun h ho ht => by
        obtain ⟨hinv, hserved⟩ := step_served h.inv ho.1 ht
        exact h.served hhi hinv hserved) h' hos' hr'
    obtain ⟨hinvt', k, hklt, hka, hkb, hrel⟩ := kfree_ok hinvt hfree
    obtain ⟨l, hwf, -⟩ := hinvt
    obtain rfl := hwf.eq_of_allocated hklt hg.lt hka hat (hkb.trans hb.symm)
    have ht' := ht.served hhi hinvt' (.release hklt hka hrel)
    rw [ht.memUsed, ht'.memUsed, hrel.allocatedSize_eq hklt hka, hsz]

theorem run_accounted_two_blocks :
    ∃ s, run (step 1048576 2097152) .zero [.init, .alloc 100, .alloc 2000, .free 1048576] = .ok s ∧
      s.memUsed = allocatedSize s := by
  obtain ⟨s, hs, -⟩ := exists_of_test (f := fun _ => true) (x := run (step 1048576 2097152) .zero
    [.init, .alloc 100, .alloc 2000, .free 1048576]) (by decide +kernel)
  exact ⟨s, hs, (run_accounted (by decide) (by decide) (by decide) .zero rfl (by simp) hs).1⟩

end OsWorkbench.Alloc
