import OsWorkbench.Alloc.FreeList

/-!
# The allocator partitions the heap

The effect of `pmm_init`, `kalloc` and `kfree` on the state between two calls,
and the partition of the heap that every run of them keeps.
-/

namespace OsWorkbench.Alloc

open Chain Tiling

/-- The states between two calls. -/
def Inv (s : Pmm) : Prop := ∃ l, Wf s l ∧ Canon s l

/-- No descriptor in use is empty. -/
def Solid (s : Pmm) : Prop :=
  ∀ i, i < poolSize → (s.blk (.pool i)).state ≠ .unused →
    (s.blk (.pool i)).beginAddr < (s.blk (.pool i)).endAddr

/-- The intervals of the allocated blocks. -/
def live (s : Pmm) : Set (Nat × Nat) :=
  { iv | ∃ k, k < poolSize ∧ (s.blk (.pool k)).state = .allocated ∧ interval s k = iv }

theorem mem_live {s : Pmm} {a b : Nat} : (a, b) ∈ live s ↔
    ∃ k, k < poolSize ∧ (s.blk (.pool k)).state = .allocated ∧
      (s.blk (.pool k)).beginAddr = a ∧ (s.blk (.pool k)).endAddr = b := by
  simp [live, interval]

/-- The part of the state that the list operations read is the same. -/
structure SameBlocks (s s' : Pmm) : Prop where
  blk : s'.blk = s.blk
  listSize : s'.listSize = s.listSize
  pmStart : s'.pmStart = s.pmStart
  pmEnd : s'.pmEnd = s.pmEnd
  memTotal : s'.memTotal = s.memTotal

theorem SameBlocks.wf {s s' : Pmm} (e : SameBlocks s s') {l : List Nat} (h : Wf s l) :
    Wf s' l := by
  have hu : used s' = used s := by
    funext i
    rw [used, used, interval, interval, e.blk]
  constructor
  · rw [e.blk]; exact h.linked
  · rw [e.listSize]; exact h.count
  · rw [e.blk]; exact h.mem
  · rw [e.blk]; exact h.ids
  · rw [hu, e.pmStart, e.pmEnd]; exact h.tiles
  · rw [e.blk]; exact h.full
  · rw [e.blk]; exact h.sized
  · rw [e.blk]; exact h.sorted
  · rw [e.pmStart]; exact h.start_pos
  · rw [e.pmEnd]; exact h.end_lt

theorem SameBlocks.canon {s s' : Pmm} (e : SameBlocks s s') {l : List Nat} (h : Canon s l) :
    Canon s' l :=
  h.congr fun k _ => by rw [e.blk]

theorem memTracePlus_spec (s : Pmm) (n : Nat) :
    SameBlocks s (memTracePlus s n) ∧ (memTracePlus s n).memUsed = (s.memUsed + n) % 2 ^ 64 := by
  unfold memTracePlus
  exact ⟨⟨rfl, rfl, rfl, rfl, rfl⟩, rfl⟩

theorem memTraceMinus_spec (s : Pmm) (n : Nat) :
    SameBlocks s (memTraceMinus s n) ∧
      (memTraceMinus s n).memUsed = (s.memUsed + 2 ^ 64 - n) % 2 ^ 64 := by
  unfold memTraceMinus
  exact ⟨⟨rfl, rfl, rfl, rfl, rfl⟩, rfl⟩

theorem freeWalk_eq {s : Pmm} {l : List Nat} {a : Ptr} {fuel : Nat}
    (h : Linked (fun p => (s.blk p).next) (fun p => (s.blk p).prev) (a :: rights l))
    (hf : l.length < fuel) : freeWalk s fuel (s.blk a).next = l := by
  induction l generalizing a fuel with
  | nil =>
    have hn : (s.blk a).next = .tail := (linked_cons_cons.mp h).1.1
    rw [hn]
    cases fuel <;> rfl
  | cons i l ih =>
    obtain ⟨fuel, rfl⟩ := Nat.exists_eq_succ_of_ne_zero (Nat.ne_of_gt (Nat.zero_lt_of_lt hf))
    obtain ⟨⟨hn, _⟩, hl⟩ := linked_cons_cons.mp h
    rw [show (s.blk a).next = .pool i from hn, freeWalk,
      ih hl (Nat.lt_of_succ_lt_succ (by simpa using hf))]

/-- The walk from `free.head` is the list of the invariant. -/
theorem Wf.freeNodes_eq {s : Pmm} {l : List Nat} (h : Wf s l) : freeNodes s = l :=
  freeWalk_eq h.linked (Nat.lt_succ_of_le h.length_le)

/-! ## The entry points -/

theorem pmmInit_spec (s : Pmm) {lo hi : Nat} (hlo : 0 < lo) (hle : lo ≤ hi) (hhi : hi < 2 ^ 32) :
    Inv (pmmInit s lo hi) ∧ ∀ i, i < poolSize →
      ((pmmInit s lo hi).blk (.pool i)).state ≠ .unused →
      i = 0 ∧ ((pmmInit s lo hi).blk (.pool i)).state = .unallocated ∧
        interval (pmmInit s lo hi) i = (lo, hi) := by
  have hsize : sub32 hi lo = hi - lo := sub32_eq hhi hle
  have hzero : ((pmmInit s lo hi).blk (.pool 0)).state = .unallocated := rfl
  have hunused : ∀ {i}, i < poolSize → i ≠ 0 →
      ((pmmInit s lo hi).blk (.pool i)).state = .unused := by
    intro i hi hi0
    simp [pmmInit, freeInit, hi0, hi]
  constructor
  · refine ⟨[0], ?_, List.IsChain.singleton 0⟩
    constructor
    · refine linked_cons_cons.mpr ⟨⟨rfl, rfl⟩, linked_cons_cons.mpr ⟨⟨rfl, rfl⟩, ?_⟩⟩
      exact List.IsChain.singleton _
    · rfl
    · intro i
      by_cases hi0 : i = 0
      · subst hi0
        simp [hzero, poolSize]
      · simp only [List.mem_singleton, hi0, false_iff, not_and]
        intro hi
        simp [hunused hi hi0]
    · intro i hi
      by_cases hi0 : i = 0
      · subst hi0; rfl
      · simp [pmmInit, freeInit, hi0, hi]
    · refine tiles_single hle (i := 0) ?_ (fun j hj => ?_)
      · simp [used, interval, pmmInit, freeInit, poolSize]
      · rw [used_none]
        rintro ⟨hj', hu⟩
        exact hu (hunused hj' hj)
    · intro i hi ha
      by_cases hi0 : i = 0
      · subst hi0
        rw [hzero] at ha
        cases ha
      · rw [hunused hi hi0] at ha
        cases ha
    · intro i hi hu
      by_cases hi0 : i = 0
      · subst hi0
        exact hsize
      · exact absurd (hunused hi hi0) hu
    · exact List.pairwise_singleton _ _
    · exact hlo
    · exact hhi
  · intro i hi hu
    by_cases hi0 : i = 0
    · subst hi0
      exact ⟨rfl, hzero, rfl⟩
    · exact absurd (hunused hi hi0) hu

theorem findAllocatedBlock_spec {s : Pmm} {l : List Nat} (h : Wf s l) {i : Nat} (hi : i < poolSize)
    (ha : (s.blk (.pool i)).state = .allocated) :
    findAllocatedBlock s (s.blk (.pool i)).beginAddr = .ok i := by
  obtain ⟨j, hj⟩ := findBlock_of (s := s)
    (p := fun b => b.state == .allocated && b.beginAddr == (s.blk (.pool i)).beginAddr) hi
    (by simp [ha])
  obtain ⟨hlt, hp⟩ := findBlock_ok hj
  simp only [Bool.and_eq_true, beq_iff_eq] at hp
  obtain rfl := h.eq_of_allocated hlt hi hp.1 ha hp.2
  exact hj

/-- The block of the descriptor `i` was freed. -/
structure Released (s s' : Pmm) (i : Nat) : Prop where
  live : ∀ k, (s'.blk (.pool k)).state = .allocated ↔
    (s.blk (.pool k)).state = .allocated ∧ k ≠ i
  data : ∀ k, (s.blk (.pool k)).state = .allocated → k ≠ i →
    (s'.blk (.pool k)).data = (s.blk (.pool k)).data
  grown : Grown s s'
  pmStart : s'.pmStart = s.pmStart
  pmEnd : s'.pmEnd = s.pmEnd
  memTotal : s'.memTotal = s.memTotal
  memUsed : s'.memUsed = (s.memUsed + 2 ^ 64 - (s.blk (.pool i)).size) % 2 ^ 64

/-- `kfree` of the first address of an allocated block finds its descriptor. It returns,
unless a node of the free list begins at the same address, which then is empty. -/
theorem kfree_spec {s : Pmm} (h : Inv s) {i : Nat} (hi : i < poolSize)
    (ha : (s.blk (.pool i)).state = .allocated) :
    findAllocatedBlock s (s.blk (.pool i)).beginAddr = .ok i ∧
    ((kfree s (s.blk (.pool i)).beginAddr = .error .assertion ∧ ¬Solid s) ∨
      ∃ s', kfree s (s.blk (.pool i)).beginAddr = .ok s' ∧ Inv s' ∧ Released s s' i) := by
  obtain ⟨l, hwf, hc⟩ := h
  have hfind := findAllocatedBlock_spec hwf hi ha
  obtain ⟨he, hmem⟩ := memTraceMinus_spec s (s.blk (.pool i)).size
  generalize hm : memTraceMinus s (s.blk (.pool i)).size = s₁ at he hmem
  have hk : kfree s (s.blk (.pool i)).beginAddr = freeInsert s₁ (.pool i) := by
    unfold kfree
    rw [hfind, ok_bind, hm]
  have ha₁ : (s₁.blk (.pool i)).state = .allocated := by rw [he.blk]; exact ha
  refine ⟨hfind, ?_⟩
  by_cases hne : ∀ k ∈ l, (s.blk (.pool k)).beginAddr ≠ (s.blk (.pool i)).beginAddr
  · obtain ⟨s', l', hs', hwf', hc', hfreed⟩ :=
      freeInsert_spec (he.wf hwf) (he.canon hc) hi ha₁ (by rw [he.blk]; exact hne)
    refine .inr ⟨s', hk.trans hs', ⟨l', hwf', hc'⟩, ?_⟩
    constructor
    · rw [← he.blk]; exact hfreed.live
    · rw [← he.blk]; exact hfreed.data
    · intro k hu
      rw [← he.blk]
      exact hfreed.grown k hu
    · exact hfreed.same.pmStart.trans he.pmStart
    · exact hfreed.same.pmEnd.trans he.pmEnd
    · exact hfreed.same.memTotal.trans he.memTotal
    · exact hfreed.same.memUsed.trans hmem
  · push Not at hne
    obtain ⟨k, hkl, heq⟩ := hne
    refine .inl ⟨hk.trans (freeInsert_stuck (he.wf hwf) ha₁ hkl (by rw [he.blk]; exact heq)), ?_⟩
    intro hsolid
    obtain ⟨hklt, hks⟩ := hwf.mem.mp hkl
    have hki := hwf.eq_of_begin hklt hi (by simp [hks]) (by simp [ha])
      (hsolid k hklt (by simp [hks])) (hwf.full hi ha) heq
    rw [hki, ha] at hks
    cases hks

/-- `kfree` of any other address fails its assertion. -/
theorem kfree_dead {s : Pmm} {a : Nat} (hl : ∀ b, (a, b) ∉ live s) :
    kfree s a = .error .assertion := by
  unfold kfree
  cases hfind : findAllocatedBlock s a with
  | error e =>
    cases findBlock_error hfind
    rfl
  | ok i =>
    obtain ⟨hi, hp⟩ := findBlock_ok hfind
    simp only [Bool.and_eq_true, beq_iff_eq] at hp
    exact absurd (mem_live.mpr ⟨i, hi, hp.1, hp.2, rfl⟩) (hl _)

/-- A block was allocated, under the descriptor `i` of a free block. -/
structure Granted (s s' : Pmm) (i newsz : Nat) : Prop where
  lt : i < poolSize
  free : (s.blk (.pool i)).state = .unallocated
  beginAddr : (s'.blk (.pool i)).beginAddr = (s.blk (.pool i)).beginAddr
  le_size : newsz ≤ (s'.blk (.pool i)).size
  size_lt : (s'.blk (.pool i)).size < 2 * newsz
  size_le : (s'.blk (.pool i)).size ≤ (s.blk (.pool i)).size
  /-- First fit. -/
  first : ∀ k, k < poolSize → (s.blk (.pool k)).state = .unallocated →
    newsz ≤ (s.blk (.pool k)).size → (s.blk (.pool i)).beginAddr ≤ (s.blk (.pool k)).beginAddr
  live : ∀ k, (s'.blk (.pool k)).state = .allocated ↔ (s.blk (.pool k)).state = .allocated ∨ k = i
  data : ∀ k, (s.blk (.pool k)).state = .allocated →
    (s'.blk (.pool k)).data = (s.blk (.pool k)).data
  rest : ∀ k, (s'.blk (.pool k)).state ≠ .unused →
    ((s.blk (.pool k)).state ≠ .unused ∧
      (s'.blk (.pool k)).beginAddr = (s.blk (.pool k)).beginAddr ∧
      (k ≠ i → (s'.blk (.pool k)).endAddr = (s.blk (.pool k)).endAddr)) ∨
    (2 * newsz % 2 ^ 32 ≤ (s.blk (.pool i)).size ∧
      (s'.blk (.pool k)).beginAddr = (s.blk (.pool i)).beginAddr + newsz ∧
      (s'.blk (.pool k)).endAddr = (s.blk (.pool i)).endAddr)
  pmStart : s'.pmStart = s.pmStart
  pmEnd : s'.pmEnd = s.pmEnd
  memTotal : s'.memTotal = s.memTotal
  memUsed : s'.memUsed = (s.memUsed + (s'.blk (.pool i)).size) % 2 ^ 64

/-- `kalloc` of a positive size up to `2 ^ 31` fails an assertion, because no free block is
large enough or all descriptors are in use, or it grants a block. -/
theorem kalloc_spec {s : Pmm} (h : Inv s) {size : Nat} (hpos : 0 < size) (hle : size ≤ 2 ^ 31) :
    ∃ newsz, Rounded size newsz ∧
      ((kalloc s size = .error .assertion ∧
        ((∀ k, k < poolSize → (s.blk (.pool k)).state = .unallocated →
            (s.blk (.pool k)).size < newsz) ∨
          ∀ k, k < poolSize → (s.blk (.pool k)).state ≠ .unused)) ∨
      ∃ i s', kalloc s size = .ok ((s'.blk (.pool i)).beginAddr, s') ∧
        (s'.blk (.pool i)).beginAddr ≠ 0 ∧ Inv s' ∧ Granted s s' i newsz) := by
  obtain ⟨l, hwf, hc⟩ := h
  obtain ⟨newsz, hround, hr⟩ := newszLoop_rounded hle
  refine ⟨newsz, hr, ?_⟩
  rcases freeFind_spec hwf hc hround hr with
    ⟨herr, hwhy⟩ | ⟨m₁, i, m₂, s', l', rfl, hfind, hwf', hc', hsmall, hlt, htaken⟩
  · refine .inl ⟨?_, hwhy.imp_left fun hsmall k hk hks => hsmall k (hwf.mem.mpr ⟨hk, hks⟩)⟩
    unfold kalloc
    rw [if_neg (Nat.ne_of_gt hpos), herr]
    rfl
  · have hi := hwf.mem.mp (show i ∈ m₁ ++ i :: m₂ by simp)
    have hs' : (s'.blk (.pool i)).state = .allocated := (htaken.live i).mpr (.inr rfl)
    have hb1 := (hwf'.bounds hi.1 (by simp [hs'])).1
    have hstart := hwf'.start_pos
    obtain ⟨he, hmem⟩ := memTracePlus_spec s' (s'.blk (.pool i)).size
    generalize hm : memTracePlus s' (s'.blk (.pool i)).size = s₁ at he hmem
    refine .inr ⟨i, s₁, ?_, ?_, ⟨l', he.wf hwf', he.canon hc'⟩, ?_⟩
    · unfold kalloc
      rw [if_neg (Nat.ne_of_gt hpos), hfind, ok_bind]
      simp only
      rw [load_bind _ (by simp), hm, (he.wf hwf').freeCheck, ok_bind, check_bind (by omega),
        pure_eq_ok, he.blk]
    · rw [he.blk]
      omega
    · constructor
      · exact hi.1
      · exact hi.2
      · rw [he.blk]; exact htaken.beginAddr
      · rw [he.blk]; exact htaken.le_size
      · rw [he.blk]; exact hlt
      · rw [he.blk]; exact htaken.size_le
      · -- the nodes before `i` are too short, those behind it begin later
        intro k hk hks hsz
        have hsorted := hwf.sorted
        simp only [List.pairwise_append, List.pairwise_cons] at hsorted
        rcases List.mem_append.mp (hwf.mem.mpr ⟨hk, hks⟩) with hm | hm
        · exact absurd (hsmall k hm) (not_lt.mpr hsz)
        · rcases List.mem_cons.mp hm with rfl | hm
          · exact le_rfl
          · exact (hsorted.2.1.1 k hm).le
      · rw [he.blk]; exact htaken.live
      · rw [he.blk]; exact htaken.data
      · rw [he.blk]; exact htaken.rest
      · exact he.pmStart.trans htaken.same.pmStart
      · exact he.pmEnd.trans htaken.same.pmEnd
      · exact he.memTotal.trans htaken.same.memTotal
      · rw [hmem, he.blk, htaken.same.memUsed]

/-- `kalloc` of a larger size does not return. -/
theorem kalloc_diverges (s : Pmm) {size : Nat} (hs : 2 ^ 31 < size) :
    kalloc s size = .error .diverges := by
  unfold kalloc freeFind
  rw [if_neg (by omega), newszLoop_diverges hs]
  rfl

theorem Released.live_eq {s s' : Pmm} {i : Nat} (h : Released s s' i) (hinv : Inv s)
    (hi : i < poolSize) (ha : (s.blk (.pool i)).state = .allocated) :
    Alloc.live s' = { iv ∈ Alloc.live s | iv.1 ≠ (s.blk (.pool i)).beginAddr } := by
  obtain ⟨l, hwf, -⟩ := hinv
  ext ⟨c, d⟩
  rw [Set.mem_sep_iff, mem_live, mem_live]
  constructor
  · rintro ⟨k, hk, hks, hkc, hkd⟩
    obtain ⟨hks', hki⟩ := (h.live k).mp hks
    obtain ⟨_, _, _, e1, e2⟩ := data_eq_iff.mp (h.data k hks' hki)
    refine ⟨⟨k, hk, hks', e1.symm.trans hkc, e2.symm.trans hkd⟩, fun hca => hki ?_⟩
    exact hwf.eq_of_allocated hk hi hks' ha (e1.symm.trans (hkc.trans hca))
  · rintro ⟨⟨k, hk, hks, hkc, hkd⟩, hca⟩
    have hki : k ≠ i := by
      rintro rfl
      exact hca hkc.symm
    obtain ⟨_, _, _, e1, e2⟩ := data_eq_iff.mp (h.data k hks hki)
    exact ⟨k, hk, (h.live k).mpr ⟨hks, hki⟩, e1.trans hkc, e2.trans hkd⟩

theorem Granted.live_eq {s s' : Pmm} {i newsz : Nat} (h : Granted s s' i newsz) :
    Alloc.live s' = insert (interval s' i) (Alloc.live s) := by
  ext ⟨c, d⟩
  rw [Set.mem_insert_iff, mem_live, mem_live]
  constructor
  · rintro ⟨k, hk, hks, hkc, hkd⟩
    rcases (h.live k).mp hks with hks' | rfl
    · obtain ⟨_, _, _, e1, e2⟩ := data_eq_iff.mp (h.data k hks')
      exact .inr ⟨k, hk, hks', e1.symm.trans hkc, e2.symm.trans hkd⟩
    · exact .inl (Prod.ext hkc.symm hkd.symm)
  · rintro (heq | ⟨k, hk, hks, hkc, hkd⟩)
    · cases heq
      exact ⟨i, h.lt, (h.live i).mpr (.inr rfl), rfl, rfl⟩
    · obtain ⟨_, _, _, e1, e2⟩ := data_eq_iff.mp (h.data k hks)
      exact ⟨k, hk, (h.live k).mpr (.inl hks), e1.trans hkc, e2.trans hkd⟩

/-- The address of a new block is that of no other. -/
theorem Granted.fresh {s s' : Pmm} {i newsz : Nat} (h : Granted s s' i newsz) (hinv' : Inv s')
    (c : Nat) : ((s'.blk (.pool i)).beginAddr, c) ∉ Alloc.live s := by
  obtain ⟨l', hwf', -⟩ := hinv'
  intro hmem
  obtain ⟨k, hk, hks, hkc, -⟩ := mem_live.mp hmem
  have hb := (data_eq_iff.mp (h.data k hks)).2.2.2.1
  have hki := hwf'.eq_of_allocated hk h.lt ((h.live k).mpr (.inl hks)) ((h.live i).mpr (.inr rfl))
    (hb.trans hkc)
  rw [hki, h.free] at hks
  cases hks

/-! ## Blocks that are not empty -/

theorem pmmInit_solid (s : Pmm) {lo hi : Nat} (hlo : 0 < lo) (hlt : lo < hi) (hhi : hi < 2 ^ 32) :
    Solid (pmmInit s lo hi) := by
  intro i hi hu
  obtain ⟨rfl, -, -⟩ := (pmmInit_spec s hlo hlt.le hhi).2 i hi hu
  exact hlt

theorem Released.solid {s s' : Pmm} {i : Nat} (h : Released s s' i) (hs : Solid s) : Solid s' := by
  intro k hk hu
  obtain ⟨hu', hb, he⟩ := h.grown k hu
  have := hs k hk hu'
  omega

/-- The remainder of a cut is empty only if a block of `2 ^ 31` bytes was cut at its end. -/
theorem Granted.solid {s s' : Pmm} {i size newsz : Nat} (h : Granted s s' i newsz) (hinv : Inv s)
    (hinv' : Inv s') (hr : Rounded size newsz) (hs : Solid s)
    (hcut : newsz ≤ 2 ^ 30 ∨ (s.blk (.pool i)).size ≠ 2 ^ 31) : Solid s' := by
  obtain ⟨l, hwf, -⟩ := hinv
  obtain ⟨l', hwf', -⟩ := hinv'
  have hsz := hwf.sized h.lt (by simp [h.free])
  have hle := h.le_size.trans h.size_le
  have hpos := hr.pos
  intro k hk hu
  rcases h.rest k hu with ⟨hu', hb, he⟩ | ⟨hd, hb, he⟩
  · by_cases hki : k = i
    · rw [hki]
      exact hwf'.full h.lt ((h.live i).mpr (.inr rfl))
    · rw [hb, he hki]
      exact hs k hk hu'
  · rcases hr.double with ⟨-, h2⟩ | ⟨h1, -⟩
    · omega
    · omega

/-! ## Runs -/

/-- A call whose size argument is at most `2 ^ 30`. -/
def Op.Bounded : Op → Prop
  | .alloc size => size ≤ 2 ^ 30
  | _ => True

/-- One call from a state between two calls without empty blocks: it returns in such a
state, or it stops at a failed assertion. -/
theorem step_spec {lo hi : Nat} (hlo : 0 < lo) (hlt : lo < hi) (hhi : hi < 2 ^ 32) {s : Pmm}
    {o : Op}
    (h : (Inv s ∧ Solid s) ∧ s.pmStart = lo ∧ s.pmEnd = hi) (ho : o.Bounded) :
    step lo hi s o = .error .assertion ∨
    ∃ s', step lo hi s o = .ok s' ∧ (Inv s' ∧ Solid s') ∧ s'.pmStart = lo ∧ s'.pmEnd = hi := by
  obtain ⟨⟨hinv, hsolid⟩, hs, he⟩ := h
  cases o with
  | init =>
    exact .inr ⟨_, rfl, ⟨(pmmInit_spec s hlo hlt.le hhi).1, pmmInit_solid s hlo hlt hhi⟩, rfl, rfl⟩
  | alloc size =>
    rcases Nat.eq_zero_or_pos size with rfl | hpos
    · exact .inr ⟨s, by simp [step, kalloc], ⟨hinv, hsolid⟩, hs, he⟩
    · have hle : size ≤ 2 ^ 30 := ho
      obtain ⟨newsz, hr, ⟨herr, -⟩ | ⟨i, s', hok, -, hinv', hg⟩⟩ := kalloc_spec hinv hpos (by omega)
      · exact .inl (by simp [step, herr])
      · have hcut : newsz ≤ 2 ^ 30 := hr.least 30 (by norm_num) hle
        exact .inr ⟨s', by simp [step, hok], ⟨hinv', hg.solid hinv hinv' hr hsolid (.inl hcut)⟩,
          hg.pmStart.trans hs, hg.pmEnd.trans he⟩
  | free ptr =>
    by_cases hl : ∃ b, (ptr, b) ∈ live s
    · obtain ⟨b, hl⟩ := hl
      obtain ⟨i, hi, ha, rfl, -⟩ := mem_live.mp hl
      rcases (kfree_spec hinv hi ha).2 with ⟨-, hns⟩ | ⟨s', hok, hinv', hrel⟩
      · exact absurd hsolid hns
      · exact .inr ⟨s', hok, ⟨hinv', hrel.solid hsolid⟩, hrel.pmStart.trans hs, hrel.pmEnd.trans he⟩
    · exact .inl (kfree_dead (fun b hb => hl ⟨b, hb⟩))

/-- The calls after `pmm_init` keep the invariant, or one of them stops at a
failed assertion. -/
theorem run_spec {lo hi : Nat} (hlo : 0 < lo) (hlt : lo < hi) (hhi : hi < 2 ^ 32) (s₀ : Pmm)
    {os : List Op} (hos : ∀ o ∈ os, o.Bounded) :
    run (step lo hi) s₀ (.init :: os) = .error .assertion ∨
    ∃ s, run (step lo hi) s₀ (.init :: os) = .ok s ∧ (Inv s ∧ Solid s) ∧ s.pmStart = lo ∧
      s.pmEnd = hi := by
  rw [run, step, ok_bind]
  exact run_or_fault (I := fun s => (Inv s ∧ Solid s) ∧ s.pmStart = lo ∧ s.pmEnd = hi)
    (P := Op.Bounded) (fun h ho => step_spec hlo hlt hhi h ho)
    ⟨⟨(pmmInit_spec s₀ hlo hlt.le hhi).1, pmmInit_solid s₀ hlo hlt hhi⟩, rfl, rfl⟩ hos

/-- The heap `[lo, hi)` is cut into free and allocated blocks, and the free ones
are the free list. -/
structure Partitioned (s : Pmm) (lo hi : Nat) : Prop where
  /-- Walking `next` from `free.head` reaches `free.tail`, and `prev` is its inverse. -/
  linked : Linked (fun p => (s.blk p).next) (fun p => (s.blk p).prev) (ptrs (freeNodes s))
  count : s.listSize = (freeNodes s).length
  nodes : ∀ i, i ∈ freeNodes s ↔ i < poolSize ∧ (s.blk (.pool i)).state = .unallocated
  ascending : (freeNodes s).Pairwise fun i j =>
    (s.blk (.pool i)).beginAddr < (s.blk (.pool j)).beginAddr
  proper : ∀ i, i < poolSize → (s.blk (.pool i)).state ≠ .unused →
    (s.blk (.pool i)).beginAddr < (s.blk (.pool i)).endAddr ∧
      (s.blk (.pool i)).size = (s.blk (.pool i)).endAddr - (s.blk (.pool i)).beginAddr
  disjoint : ∀ i j, i < poolSize → j < poolSize → i ≠ j → (s.blk (.pool i)).state ≠ .unused →
    (s.blk (.pool j)).state ≠ .unused →
    (s.blk (.pool i)).endAddr ≤ (s.blk (.pool j)).beginAddr ∨
      (s.blk (.pool j)).endAddr ≤ (s.blk (.pool i)).beginAddr
  cover : ∀ x, (∃ i, i < poolSize ∧ (s.blk (.pool i)).state ≠ .unused ∧
    (s.blk (.pool i)).beginAddr ≤ x ∧ x < (s.blk (.pool i)).endAddr) ↔ lo ≤ x ∧ x < hi

theorem Inv.partitioned {s : Pmm} (h : Inv s) (hsolid : Solid s) :
    Partitioned s s.pmStart s.pmEnd := by
  obtain ⟨l, hwf, -⟩ := h
  have hl := hwf.freeNodes_eq
  constructor
  · rw [hl]; exact hwf.linked
  · rw [hl]; exact hwf.count
  · intro i
    rw [hl]; exact hwf.mem
  · rw [hl]; exact hwf.sorted
  · intro i hi hu
    exact ⟨hsolid i hi hu, hwf.sized hi hu⟩
  · intro i j hi hj hij hui huj
    exact hwf.tiles.disjoint hij (used_of hi hui) (used_of hj huj)
  · intro x
    rw [← hwf.tiles.cover x]
    constructor
    · rintro ⟨i, hi, hu, hx⟩
      exact ⟨i, _, _, used_of hi hu, hx⟩
    · rintro ⟨i, a, b, hi, hx⟩
      obtain ⟨hi', hu, rfl, rfl⟩ := used_some.mp hi
      exact ⟨i, hi', hu, hx⟩

/-- Every run of the allocator after `pmm_init`, on any heap below `2 ^ 31` and
with any mixture of further calls, either stops at a failed assertion or leaves
the heap partitioned. -/
theorem run_partitioned {lo hi : Nat} (hlo : 0 < lo) (hlt : lo < hi) (hhi : hi < 2 ^ 31)
    (s₀ : Pmm) {os : List Op} (hos : ∀ o ∈ os, o.Bounded) :
    (∀ s, run (step lo hi) s₀ (.init :: os) = .ok s → Partitioned s lo hi) ∧
    ∀ e, run (step lo hi) s₀ (.init :: os) = .error e → e = .assertion := by
  rcases run_spec hlo hlt (by omega) s₀ hos with herr | ⟨t, hok, ⟨hinv, hsolid⟩, rfl, rfl⟩
  · refine ⟨fun s hr => ?_, fun e hr => ?_⟩
    · rw [herr] at hr
      cases hr
    · rw [herr] at hr
      cases hr
      rfl
  · refine ⟨fun s hr => ?_, fun e hr => ?_⟩
    · rw [hok] at hr
      cases hr
      exact hinv.partitioned hsolid
    · rw [hok] at hr
      cases hr

/-- The zeroed globals before the first `pmm_init`. -/
def Pmm.zero : Pmm where
  blk _ := ⟨0, .unused, 0, 0, 0, .null, .null⟩
  listSize := 0
  pmStart := 0
  pmEnd := 0
  memTotal := 0
  memUsed := 0

theorem run_partitioned_two_blocks :
    (run (step 1048576 2097152) .zero [.init, .alloc 100, .alloc 2000, .free 1048576]).isOk ∧
    ∀ s, run (step 1048576 2097152) .zero [.init, .alloc 100, .alloc 2000, .free 1048576] = .ok s →
      Partitioned s 1048576 2097152 :=
  ⟨by decide +kernel, (run_partitioned (by decide) (by decide) (by decide) .zero
    (by simp [Op.Bounded])).1⟩

end OsWorkbench.Alloc
