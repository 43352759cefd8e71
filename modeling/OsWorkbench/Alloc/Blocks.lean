import OsWorkbench.Alloc.Invariant

/-!
# Deleting, cutting and merging blocks

For each of `free_delete`, `free_cut` and `free_merge` two lemmas. The `_effect`
lemma runs the code on pointers known to be valid and lists what it writes; the
`_spec` lemma says what that does to a well-formed state.
-/

namespace OsWorkbench.Alloc

open Chain Tiling

/-! ## Descriptors up to their links -/

/-- A descriptor without its links. -/
def MemBlock.data (b : MemBlock) : MemBlock := { b with prev := .null, next := .null }

theorem data_eq_iff {b c : MemBlock} : b.data = c.data ↔
    b.id = c.id ∧ b.state = c.state ∧ b.size = c.size ∧ b.beginAddr = c.beginAddr ∧
      b.endAddr = c.endAddr := by
  simp [MemBlock.data]

theorem used_congr {s s' : Pmm} {j : Nat}
    (h : (s'.blk (.pool j)).data = (s.blk (.pool j)).data) : used s' j = used s j := by
  obtain ⟨_, h1, _, h2, h3⟩ := data_eq_iff.mp h
  simp only [used, interval, h1, h2, h3]

/-- An allocated descriptor that is as before is not empty. -/
theorem Wf.full_of_data {s s' : Pmm} {l : List Nat} {j : Nat} (h : Wf s l) (hj : j < poolSize)
    (hd : (s'.blk (.pool j)).data = (s.blk (.pool j)).data)
    (ha : (s'.blk (.pool j)).state = .allocated) :
    (s'.blk (.pool j)).beginAddr < (s'.blk (.pool j)).endAddr := by
  obtain ⟨-, e1, -, e2, e3⟩ := data_eq_iff.mp hd
  rw [e2, e3]
  exact h.full hj (e1.symm.trans ha)

/-- The state outside the descriptors and the list size. -/
structure SameHeap (s s' : Pmm) : Prop where
  pmStart : s'.pmStart = s.pmStart
  pmEnd : s'.pmEnd = s.pmEnd
  memTotal : s'.memTotal = s.memTotal
  memUsed : s'.memUsed = s.memUsed

theorem SameHeap.trans {s s' s'' : Pmm} (h : SameHeap s s') (h' : SameHeap s' s'') :
    SameHeap s s'' :=
  ⟨h'.pmStart.trans h.pmStart, h'.pmEnd.trans h.pmEnd, h'.memTotal.trans h.memTotal,
    h'.memUsed.trans h.memUsed⟩

/-! ## `free_delete` -/

theorem freeDelete_effect {s : Pmm} {i : Nat} {p n : Ptr}
    (hs : (s.blk (.pool i)).state = .unallocated) (hprev : (s.blk (.pool i)).prev = p)
    (hnext : (s.blk (.pool i)).next = n) (hp0 : p ≠ .null) (hn0 : n ≠ .null)
    (hpi : p ≠ .pool i) (hni : n ≠ .pool i) (hpn : p ≠ n) :
    ∃ s', freeDelete s (.pool i) = .ok s' ∧ s'.listSize = s.listSize - 1 ∧ SameHeap s s' ∧
      Unlinked s s' p (.pool i) n ∧
      ∀ j, (s'.blk (.pool j)).data =
        if j = i then { (s.blk (.pool i)).data with state := .allocated }
        else (s.blk (.pool j)).data := by
  refine ⟨{ ((s.set p { s.blk p with next := n }).set n { s.blk n with prev := p }).set (.pool i)
    { s.blk (.pool i) with prev := .null, next := .null, state := .allocated } with
      listSize := s.listSize - 1 }, ?_, rfl, ⟨rfl, rfl, rfl, rfl⟩, ⟨?_, ?_, ?_, ?_⟩, ?_⟩
  · unfold freeDelete
    rw [check_bind (by simp), check_bind (by simp), load_bind s (by simp), check_bind hs, hprev,
      hnext, store_bind _ hp0, store_bind _ hn0, store_bind _ (by simp)]
    simp [set_blk, hpi.symm, hni.symm, hpn.symm]
  · simp [set_blk, hpi, hpn]
  · simp [set_blk, hni]
  · intro q hqp hqi
    simp only [set_blk, hqp, hqi, if_false]
    split <;> simp_all
  · intro q hqn hqi
    simp only [set_blk, hqn, hqi, if_false]
    split <;> simp_all
  · intro j
    simp only [set_blk, Ptr.pool.injEq]
    split
    · simp [MemBlock.data]
    · split
      · simp_all [MemBlock.data]
      · split <;> simp_all [MemBlock.data]

theorem freeDelete_spec {s : Pmm} {l₁ l₂ : List Nat} {i : Nat} (h : Wf s (l₁ ++ i :: l₂))
    (hfull : (s.blk (.pool i)).beginAddr < (s.blk (.pool i)).endAddr) :
    ∃ s', freeDelete s (.pool i) = .ok s' ∧ Wf s' (l₁ ++ l₂) ∧ SameHeap s s' ∧
      ∀ j, (s'.blk (.pool j)).data =
        if j = i then { (s.blk (.pool i)).data with state := .allocated }
        else (s.blk (.pool j)).data := by
  obtain ⟨L₁, p, n, L₂, h₁, h₂, hprev, hnext, hp0, hn0, hpi, hni, hpn⟩ := h.neighbours
  have hi : i < poolSize ∧ (s.blk (.pool i)).state = .unallocated := h.mem.mp (by simp)
  obtain ⟨s', hs', hsize, hheap, hun, hdata⟩ :=
    freeDelete_effect hi.2 hprev hnext hp0 hn0 hpi hni hpn
  refine ⟨s', hs', ?_, hheap, hdata⟩
  -- only the state of block `i` changes
  have hself : (s'.blk (.pool i)).state = .allocated ∧
      (s'.blk (.pool i)).id = (s.blk (.pool i)).id ∧
      (s'.blk (.pool i)).size = (s.blk (.pool i)).size ∧
      (s'.blk (.pool i)).beginAddr = (s.blk (.pool i)).beginAddr ∧
      (s'.blk (.pool i)).endAddr = (s.blk (.pool i)).endAddr := by
    have := hdata i
    simp [MemBlock.data] at this
    simp [this]
  have hother : ∀ {j}, j ≠ i → (s'.blk (.pool j)).data = (s.blk (.pool j)).data := by
    intro j hj
    rw [hdata j, if_neg hj]
  have hbegin : ∀ j, (s'.blk (.pool j)).beginAddr = (s.blk (.pool j)).beginAddr := by
    intro j
    by_cases hj : j = i
    · rw [hj]; exact hself.2.2.2.1
    · exact (data_eq_iff.mp (hother hj)).2.2.2.1
  have hused : used s' = used s := by
    funext j
    by_cases hj : j = i
    · subst hj
      simp [used, interval, hself, hi.2]
    · exact used_congr (hother hj)
  have hnd := h.nodup
  constructor
  · exact h.linked_of_unlinked h₁ h₂ hun
  · rw [hsize, h.count]; simp
  · intro j
    by_cases hj : j = i
    · subst hj
      simp only [hself.1, reduceCtorEq, and_false, iff_false]
      simp only [List.nodup_append, List.nodup_cons] at hnd
      intro hmem
      rcases List.mem_append.mp hmem with hm | hm
      · exact hnd.2.2 j hm j (by simp) rfl
      · exact hnd.2.1.1 hm
    · rw [(data_eq_iff.mp (hother hj)).2.1, ← h.mem]
      simp [hj]
  · intro j hj
    by_cases hji : j = i
    · rw [hji, hself.2.1]; exact h.ids hi.1
    · rw [(data_eq_iff.mp (hother hji)).1]; exact h.ids hj
  · rw [hused, hheap.pmStart, hheap.pmEnd]; exact h.tiles
  · intro j hj ha
    by_cases hji : j = i
    · rw [hji, hself.2.2.2.1, hself.2.2.2.2]
      exact hfull
    · exact h.full_of_data hj (hother hji) ha
  · intro j hj hu
    by_cases hji : j = i
    · rw [hji, hself.2.2.1, hself.2.2.2.1, hself.2.2.2.2]
      exact h.sized hi.1 (by simp [hi.2])
    · obtain ⟨_, e1, e2, e3, e4⟩ := data_eq_iff.mp (hother hji)
      rw [e2, e3, e4]
      exact h.sized hj (by rw [← e1]; exact hu)
  · simp only [hbegin]
    exact h.sorted.sublist (by simp)
  · rw [hheap.pmStart]; exact h.start_pos
  · rw [hheap.pmEnd]; exact h.end_lt

/-! ## `free_cut` -/

theorem findBlock_ok {s : Pmm} {p : MemBlock → Bool} {i : Nat} (h : findBlock s p = .ok i) :
    i < poolSize ∧ p (s.blk (.pool i)) = true := by
  unfold findBlock at h
  split at h
  · next k hk =>
    cases h
    rw [List.find?_range'_eq_some] at hk
    exact ⟨by simpa using hk.2.1, hk.1⟩
  · cases h

theorem findBlock_error {s : Pmm} {p : MemBlock → Bool} {e : Fault} (h : findBlock s p = .error e) :
    e = .assertion := by
  unfold findBlock at h
  split at h
  · cases h
  · cases h; rfl

theorem findBlock_of {s : Pmm} {p : MemBlock → Bool} {i : Nat} (hi : i < poolSize)
    (hp : p (s.blk (.pool i)) = true) : ∃ j, findBlock s p = .ok j := by
  unfold findBlock
  split
  · next k _ => exact ⟨k, rfl⟩
  · next hnone =>
    rw [List.find?_range'_eq_none] at hnone
    have := hnone i (Nat.zero_le _) (by simpa using hi)
    simp [hp] at this

theorem freeCut_effect {s : Pmm} {i j : Nat} (size : Nat) {n : Ptr} (hj : getUnusedBlock s = .ok j)
    (hs : (s.blk (.pool i)).state = .unallocated) (hid : (s.blk (.pool j)).id = j)
    (hnext : (s.blk (.pool i)).next = n) (hn0 : n ≠ .null)
    (hni : n ≠ .pool i) (hnj : n ≠ .pool j) :
    ∃ s', freeCut s (.pool i) size = .ok s' ∧ s'.listSize = s.listSize + 1 ∧ SameHeap s s' ∧
      LinkedIn s s' (.pool i) (.pool j) n ∧
      ∀ k, (s'.blk (.pool k)).data =
        if k = i then { (s.blk (.pool i)).data with
          endAddr := add32 (s.blk (.pool i)).beginAddr size, size := size }
        else if k = j then { (s.blk (.pool j)).data with
          state := .unallocated, beginAddr := add32 (s.blk (.pool i)).beginAddr size,
          endAddr := (s.blk (.pool i)).endAddr, size := sub32 (s.blk (.pool i)).size size }
        else (s.blk (.pool k)).data := by
  have hunused : (s.blk (.pool j)).state = .unused := by simpa using (findBlock_ok hj).2
  have hij : i ≠ j := by
    rintro rfl
    rw [hs] at hunused
    cases hunused
  refine ⟨{ ((s.set (.pool j) { s.blk (.pool j) with
      prev := .pool i, next := n, state := .unallocated,
      beginAddr := add32 (s.blk (.pool i)).beginAddr size, endAddr := (s.blk (.pool i)).endAddr,
      size := sub32 (s.blk (.pool i)).size size }).set n { s.blk n with prev := .pool j }).set
      (.pool i) { s.blk (.pool i) with
        next := .pool j, endAddr := add32 (s.blk (.pool i)).beginAddr size, size := size } with
      listSize := s.listSize + 1 }, ?_, rfl, ⟨rfl, rfl, rfl, rfl⟩, ⟨?_, ?_, ?_, ?_, ?_, ?_⟩, ?_⟩
  · unfold freeCut
    rw [hj, ok_bind, load_bind s (by simp), check_bind hs, check_bind hid, check_bind hunused,
      hnext, store_bind _ (by simp), store_bind _ hn0, store_bind _ (by simp),
      load_bind _ (by simp), store_bind _ (by simp), store_bind _ (by simp),
      store_bind _ (by simp)]
    simp only [pure_eq_ok, Except.ok.injEq, Pmm.set, Pmm.mk.injEq, and_true]
    funext q
    by_cases hqi : q = .pool i
    · subst hqi
      simp [Function.update_apply, hni.symm, hij]
    · by_cases hqj : q = .pool j
      · subst hqj
        simp [Function.update_apply, hnj.symm, hij, hij.symm, hni.symm]
      · simp [Function.update_apply, hqi, hqj, hnj]
  · simp
  · simp [set_blk, hij.symm, hnj.symm]
  · simp [set_blk, hij.symm, hnj.symm]
  · simp [set_blk, hni]
  · intro q hqi hqj
    simp only [set_blk, hqi, hqj, if_false]
    split <;> simp_all
  · intro q hqn hqj
    simp only [set_blk, hqn, hqj, if_false]
    split <;> simp_all
  · intro k
    simp only [set_blk, Ptr.pool.injEq]
    split
    · simp [MemBlock.data]
    · split
      · next hk =>
        subst hk
        simp only [ne_eq, Ptr.pool.injEq] at hnj
        simp [MemBlock.data, hnj]
      · split <;> simp_all [MemBlock.data]

theorem freeCut_spec {s : Pmm} {l₁ l₂ : List Nat} {i j size : Nat} (h : Wf s (l₁ ++ i :: l₂))
    (hj : getUnusedBlock s = .ok j) (hpos : 0 < size) (hle : size ≤ (s.blk (.pool i)).size)
    (hgap : ∀ k ∈ l₂, (s.blk (.pool i)).endAddr < (s.blk (.pool k)).beginAddr) :
    ∃ s', freeCut s (.pool i) size = .ok s' ∧ Wf s' (l₁ ++ i :: j :: l₂) ∧ SameHeap s s' ∧
      ∀ k, (s'.blk (.pool k)).data =
        if k = i then { (s.blk (.pool i)).data with
          endAddr := (s.blk (.pool i)).beginAddr + size, size := size }
        else if k = j then { (s.blk (.pool j)).data with
          state := .unallocated, beginAddr := (s.blk (.pool i)).beginAddr + size,
          endAddr := (s.blk (.pool i)).endAddr, size := (s.blk (.pool i)).size - size }
        else (s.blk (.pool k)).data := by
  obtain ⟨L₁, p, n, L₂, h₁, h₂, -, hnext, -, hn0, -, hni, -⟩ := h.neighbours
  have hi : i < poolSize ∧ (s.blk (.pool i)).state = .unallocated := h.mem.mp (by simp)
  have hui : (s.blk (.pool i)).state ≠ .unused := by simp [hi.2]
  obtain ⟨hjlt, hju⟩ := findBlock_ok hj
  have hju : (s.blk (.pool j)).state = .unused := by simpa using hju
  have hjl : j ∉ l₁ ++ i :: l₂ := fun hmem => by simp [(h.mem.mp hmem).2] at hju
  have hnj : n ≠ .pool j := by
    rintro rfl
    have : Ptr.pool j ∈ rights l₂ := by rw [h₂]; simp
    exact hjl (by simpa [rights] using Or.inr (Or.inr this))
  obtain ⟨hb1, hb2, hb3⟩ := h.bounds hi.1 hui
  have hsz := h.sized hi.1 hui
  have hend := h.end_lt
  have hadd : add32 (s.blk (.pool i)).beginAddr size = (s.blk (.pool i)).beginAddr + size :=
    add32_eq (by omega)
  have hsub : sub32 (s.blk (.pool i)).size size = (s.blk (.pool i)).size - size :=
    sub32_eq (by omega) hle
  obtain ⟨s', hs', hsize, hheap, hlink, hdata⟩ :=
    freeCut_effect size hj hi.2 (h.ids hjlt) hnext hn0 hni hnj
  rw [hadd, hsub] at hdata
  refine ⟨s', hs', ?_, hheap, hdata⟩
  have hij : j ≠ i := fun e => hjl (by simp [e])
  have hdi : (s'.blk (.pool i)).id = (s.blk (.pool i)).id ∧
      (s'.blk (.pool i)).state = .unallocated ∧ (s'.blk (.pool i)).size = size ∧
      (s'.blk (.pool i)).beginAddr = (s.blk (.pool i)).beginAddr ∧
      (s'.blk (.pool i)).endAddr = (s.blk (.pool i)).beginAddr + size := by
    have := hdata i
    simp [MemBlock.data] at this
    simp [this, hi.2]
  have hdj : (s'.blk (.pool j)).id = (s.blk (.pool j)).id ∧
      (s'.blk (.pool j)).state = .unallocated ∧
      (s'.blk (.pool j)).size = (s.blk (.pool i)).size - size ∧
      (s'.blk (.pool j)).beginAddr = (s.blk (.pool i)).beginAddr + size ∧
      (s'.blk (.pool j)).endAddr = (s.blk (.pool i)).endAddr := by
    have := hdata j
    simp [MemBlock.data, hij] at this
    simp [this]
  have hother : ∀ {k}, k ≠ i → k ≠ j → (s'.blk (.pool k)).data = (s.blk (.pool k)).data := by
    intro k hki hkj
    rw [hdata k, if_neg hki, if_neg hkj]
  have hbegin : ∀ {k}, k ≠ j → (s'.blk (.pool k)).beginAddr = (s.blk (.pool k)).beginAddr := by
    intro k hkj
    by_cases hki : k = i
    · rw [hki]; exact hdi.2.2.2.1
    · exact (data_eq_iff.mp (hother hki hkj)).2.2.2.1
  have hused : ∀ {k}, k ≠ i → k ≠ j → used s' k = used s k :=
    fun hki hkj => used_congr (hother hki hkj)
  constructor
  · have h' : Wf s ((l₁ ++ [i]) ++ l₂) := by simpa using h
    have h₁' : lefts (l₁ ++ [i]) = lefts l₁ ++ [.pool i] := by simp [lefts]
    have := h'.linked_of_linkedIn (by simpa using hjl) h₁' h₂ hlink
    simpa using this
  · rw [hsize, h.count]
    simp only [List.length_append, List.length_cons]
    omega
  · intro k
    by_cases hki : k = i
    · subst hki
      simp [hdi.2.1, hi.1]
    · by_cases hkj : k = j
      · subst hkj
        simp [hdj.2.1, hjlt]
      · rw [(data_eq_iff.mp (hother hki hkj)).2.1, ← h.mem]
        simp [hki, hkj]
  · intro k hk
    by_cases hki : k = i
    · rw [hki, hdi.1]; exact h.ids hi.1
    · by_cases hkj : k = j
      · rw [hkj, hdj.1]; exact h.ids hjlt
      · rw [(data_eq_iff.mp (hother hki hkj)).1]; exact h.ids hk
  · rw [hheap.pmStart, hheap.pmEnd]
    refine h.tiles.split (j := j) (m := (s.blk (.pool i)).beginAddr + size) (used_of hi.1 hui)
      (used_none.mpr (by simp [hju])) (by omega) (by omega) ?_ ?_ (fun k => hused)
    · rw [used_of hi.1 (by simp [hdi.2.1]), hdi.2.2.2.1, hdi.2.2.2.2]
    · rw [used_of hjlt (by simp [hdj.2.1]), hdj.2.2.2.1, hdj.2.2.2.2]
  · intro k hk ha
    by_cases hki : k = i
    · rw [hki, hdi.2.1] at ha
      cases ha
    · by_cases hkj : k = j
      · rw [hkj, hdj.2.1] at ha
        cases ha
      · exact h.full_of_data hk (hother hki hkj) ha
  · intro k hk hu
    by_cases hki : k = i
    · rw [hki, hdi.2.2.1, hdi.2.2.2.1, hdi.2.2.2.2]; omega
    · by_cases hkj : k = j
      · rw [hkj, hdj.2.2.1, hdj.2.2.2.1, hdj.2.2.2.2]; omega
      · obtain ⟨_, e1, e2, e3, e4⟩ := data_eq_iff.mp (hother hki hkj)
        rw [e2, e3, e4]
        exact h.sized hk (by rw [← e1]; exact hu)
  · -- the right half begins inside the old block `i`, so it sorts right after it
    have hne : ∀ k ∈ l₁ ++ i :: l₂, k ≠ j := fun k hk e => hjl (e ▸ hk)
    have hsorted := h.sorted
    simp only [List.pairwise_append, List.pairwise_cons, List.mem_cons] at hsorted ⊢
    obtain ⟨hs1, ⟨hs2, hs3⟩, hs4⟩ := hsorted
    refine ⟨?_, ⟨?_, ?_, ?_⟩, ?_⟩
    · refine hs1.imp_of_mem (fun {a b} ha hb hab => ?_)
      rw [hbegin (hne a (by simp [ha])), hbegin (hne b (by simp [hb]))]
      exact hab
    · rintro k (rfl | hk)
      · rw [hdi.2.2.2.1, hdj.2.2.2.1]; omega
      · rw [hbegin (hne i (by simp)), hbegin (hne k (by simp [hk]))]
        exact hs2 k hk
    · intro k hk
      have := hgap k hk
      rw [hdj.2.2.2.1, hbegin (hne k (by simp [hk]))]
      omega
    · refine hs3.imp_of_mem (fun {a b} ha hb hab => ?_)
      rw [hbegin (hne a (by simp [ha])), hbegin (hne b (by simp [hb]))]
      exact hab
    · intro a ha b hb
      rw [hbegin (hne a (by simp [ha]))]
      rcases hb with rfl | rfl | hb
      · rw [hdi.2.2.2.1]
        exact hs4 a ha b (.inl rfl)
      · have := hs4 a ha i (.inl rfl)
        rw [hdj.2.2.2.1]
        omega
      · rw [hbegin (hne b (by simp [hb]))]
        exact hs4 a ha b (.inr hb)
  · rw [hheap.pmStart]; exact h.start_pos
  · rw [hheap.pmEnd]; exact h.end_lt

/-! ## `free_merge` -/

theorem freeAdjcent_pool {s : Pmm} {i j : Nat} : freeAdjcent s (.pool i) (.pool j) =
    .ok ((s.blk (.pool i)).endAddr == (s.blk (.pool j)).beginAddr) := by
  unfold freeAdjcent
  rw [if_neg (by simp), check_pos (by simp), check_pos (by simp), load_eq s (by simp),
    load_eq s (by simp)]
  rfl

theorem freeMerge_effect {s : Pmm} {i j : Nat} {n : Ptr} (hij : i ≠ j)
    (hadj : (s.blk (.pool i)).endAddr = (s.blk (.pool j)).beginAddr)
    (hi : (s.blk (.pool i)).state = .unallocated) (hj : (s.blk (.pool j)).state = .unallocated)
    (hsum : sub32 (s.blk (.pool j)).endAddr (s.blk (.pool i)).beginAddr =
      add32 (s.blk (.pool i)).size (s.blk (.pool j)).size)
    (hnext : (s.blk (.pool j)).next = n) (hn0 : n ≠ .null)
    (hni : n ≠ .pool i) (hnj : n ≠ .pool j) :
    ∃ s', freeMerge s (.pool i) (.pool j) = (freeCheck s' >>= fun _ => .ok s') ∧
      s'.listSize = s.listSize - 1 ∧ SameHeap s s' ∧ Unlinked s s' (.pool i) (.pool j) n ∧
      ∀ k, (s'.blk (.pool k)).data =
        if k = i then { (s.blk (.pool i)).data with
          endAddr := (s.blk (.pool j)).endAddr,
          size := sub32 (s.blk (.pool j)).endAddr (s.blk (.pool i)).beginAddr }
        else if k = j then { (s.blk (.pool j)).data with state := .unused }
        else (s.blk (.pool k)).data := by
  refine ⟨{ ((s.set (.pool i) { s.blk (.pool i) with
      next := n, endAddr := (s.blk (.pool j)).endAddr,
      size := sub32 (s.blk (.pool j)).endAddr (s.blk (.pool i)).beginAddr }).set n
      { s.blk n with prev := .pool i }).set (.pool j) { s.blk (.pool j) with
        prev := .null, next := .null, state := .unused } with
      listSize := s.listSize - 1 }, ?_, rfl, ⟨rfl, rfl, rfl, rfl⟩, ⟨?_, ?_, ?_, ?_⟩, ?_⟩
  · unfold freeMerge
    rw [freeAdjcent_pool, ok_bind, check_bind (by simpa using hadj), check_bind (by simp),
      check_bind (by simp), load_bind s (by simp), check_bind hi, load_bind s (by simp),
      check_bind hj, hnext, store_bind _ (by simp), store_bind _ hn0, store_bind _ (by simp),
      load_bind _ (by simp), load_bind _ (by simp),
      check_bind (by simp [set_blk, hij, hij.symm, hni.symm, hnj.symm, hsum]),
      store_bind _ (by simp), store_bind _ (by simp)]
    -- the writes commute to the stated final descriptors
    have hstate : ∀ {u v : Pmm}, u = v →
        (freeCheck u >>= fun _ => Except.ok u) = (freeCheck v >>= fun _ => Except.ok v) :=
      fun e => by rw [e]
    apply hstate
    simp only [Pmm.set, Pmm.mk.injEq, and_true]
    funext q
    by_cases hqi : q = .pool i
    · subst hqi
      simp [Function.update_apply, hni.symm, hnj.symm, hij, hij.symm]
    · by_cases hqj : q = .pool j
      · subst hqj
        simp [Function.update_apply, hnj.symm, hij.symm]
      · simp [Function.update_apply, hqi, hqj, hni]
  · simp [set_blk, hij, hni.symm]
  · simp [set_blk, hnj]
  · intro q hqi hqj
    simp only [set_blk, hqi, hqj, if_false]
    split <;> simp_all
  · intro q hqn hqj
    simp only [set_blk, hqn, hqj, if_false]
    split <;> simp_all
  · intro k
    simp only [set_blk, Ptr.pool.injEq]
    split
    · next hk =>
      subst hk
      simp [MemBlock.data, hij.symm]
    · split
      · next hk =>
        subst hk
        simp only [ne_eq, Ptr.pool.injEq] at hni
        simp_all [MemBlock.data]
      · split <;> simp_all [MemBlock.data]

theorem freeMerge_spec {s : Pmm} {l₁ l₂ : List Nat} {i j : Nat} (h : Wf s (l₁ ++ i :: j :: l₂))
    (hadj : (s.blk (.pool i)).endAddr = (s.blk (.pool j)).beginAddr) :
    ∃ s', freeMerge s (.pool i) (.pool j) = .ok s' ∧ Wf s' (l₁ ++ i :: l₂) ∧ SameHeap s s' ∧
      ∀ k, (s'.blk (.pool k)).data =
        if k = i then { (s.blk (.pool i)).data with
          endAddr := (s.blk (.pool j)).endAddr,
          size := (s.blk (.pool j)).endAddr - (s.blk (.pool i)).beginAddr }
        else if k = j then { (s.blk (.pool j)).data with state := .unused }
        else (s.blk (.pool k)).data := by
  have hassoc : Wf s ((l₁ ++ [i]) ++ j :: l₂) := by simpa using h
  obtain ⟨L₁, p, n, L₂, h₁, h₂, -, hnext, -, hn0, hpj, hnj, hpn⟩ := hassoc.neighbours
  -- the left neighbour of `j` is `i`
  have hp : p = .pool i := by
    have : lefts (l₁ ++ [i]) = lefts l₁ ++ [.pool i] := by simp [lefts]
    rw [this] at h₁
    exact (List.append_inj_right' h₁ rfl |> List.singleton_inj.mp).symm
  subst hp
  have hi : i < poolSize ∧ (s.blk (.pool i)).state = .unallocated := h.mem.mp (by simp)
  have hj : j < poolSize ∧ (s.blk (.pool j)).state = .unallocated := h.mem.mp (by simp)
  have hui : (s.blk (.pool i)).state ≠ .unused := by simp [hi.2]
  have huj : (s.blk (.pool j)).state ≠ .unused := by simp [hj.2]
  have hij : i ≠ j := fun e => hpj (by rw [e])
  obtain ⟨hb1, hb2, hb3⟩ := h.bounds hi.1 hui
  obtain ⟨hc1, hc2, hc3⟩ := h.bounds hj.1 huj
  have hszi := h.sized hi.1 hui
  have hszj := h.sized hj.1 huj
  have hend := h.end_lt
  have hsub : sub32 (s.blk (.pool j)).endAddr (s.blk (.pool i)).beginAddr =
      (s.blk (.pool j)).endAddr - (s.blk (.pool i)).beginAddr := sub32_eq (by omega) (by omega)
  have hsum : sub32 (s.blk (.pool j)).endAddr (s.blk (.pool i)).beginAddr =
      add32 (s.blk (.pool i)).size (s.blk (.pool j)).size := by
    rw [hsub, add32_eq (by omega)]
    omega
  obtain ⟨s', hs', hsize, hheap, hun, hdata⟩ :=
    freeMerge_effect hij hadj hi.2 hj.2 hsum hnext hn0 hpn.symm hnj
  rw [hsub] at hdata
  have hdi : (s'.blk (.pool i)).id = (s.blk (.pool i)).id ∧
      (s'.blk (.pool i)).state = .unallocated ∧
      (s'.blk (.pool i)).size = (s.blk (.pool j)).endAddr - (s.blk (.pool i)).beginAddr ∧
      (s'.blk (.pool i)).beginAddr = (s.blk (.pool i)).beginAddr ∧
      (s'.blk (.pool i)).endAddr = (s.blk (.pool j)).endAddr := by
    have := hdata i
    simp [MemBlock.data] at this
    simp [this, hi.2]
  have hdj : (s'.blk (.pool j)).id = (s.blk (.pool j)).id ∧
      (s'.blk (.pool j)).state = .unused := by
    have := hdata j
    simp [MemBlock.data, hij.symm] at this
    simp [this]
  have hother : ∀ {k}, k ≠ i → k ≠ j → (s'.blk (.pool k)).data = (s.blk (.pool k)).data := by
    intro k hki hkj
    rw [hdata k, if_neg hki, if_neg hkj]
  have hbegin : ∀ {k}, k ≠ j → (s'.blk (.pool k)).beginAddr = (s.blk (.pool k)).beginAddr := by
    intro k hkj
    by_cases hki : k = i
    · rw [hki]; exact hdi.2.2.2.1
    · exact (data_eq_iff.mp (hother hki hkj)).2.2.2.1
  -- an empty descriptor in between would be on the list, at the place of `j`
  have hno : ∀ k, k ≠ j →
      used s k ≠ some ((s.blk (.pool j)).beginAddr, (s.blk (.pool j)).beginAddr) := by
    intro k hkj hk
    obtain ⟨hk, hu, hk1, hk2⟩ := used_some.mp hk
    cases hks : (s.blk (.pool k)).state with
    | unused => exact hu hks
    | allocated => exact absurd (h.full hk hks) (by omega)
    | unallocated => exact hkj (h.eq_of_mem (h.mem.mpr ⟨hk, hks⟩) (by simp) hk1)
  have hnd := h.nodup
  have hjl : j ∉ l₁ ++ i :: l₂ := by
    simp only [List.nodup_append, List.nodup_cons, List.mem_cons, not_or] at hnd
    simp only [List.mem_append, List.mem_cons, not_or]
    exact ⟨fun hm => hnd.2.2 j hm j (by simp) rfl, hij.symm, hnd.2.1.2.1⟩
  have hwf : Wf s' (l₁ ++ i :: l₂) := by
    constructor
    · have := hassoc.linked_of_unlinked h₁ h₂ hun
      simpa using this
    · rw [hsize, h.count]; simp
    · intro k
      by_cases hki : k = i
      · subst hki
        simp [hdi.2.1, hi.1]
      · by_cases hkj : k = j
        · subst hkj
          simp only [hdj.2, reduceCtorEq, and_false, iff_false]
          exact hjl
        · rw [(data_eq_iff.mp (hother hki hkj)).2.1, ← h.mem]
          simp [hki, hkj]
    · intro k hk
      by_cases hki : k = i
      · rw [hki, hdi.1]; exact h.ids hi.1
      · by_cases hkj : k = j
        · rw [hkj, hdj.1]; exact h.ids hj.1
        · rw [(data_eq_iff.mp (hother hki hkj)).1]; exact h.ids hk
    · rw [hheap.pmStart, hheap.pmEnd]
      refine h.tiles.merge (i := i) (j := j) (m := (s.blk (.pool j)).beginAddr)
        (by rw [used_of hi.1 hui, hadj]) (used_of hj.1 huj) hno ?_
        (used_none.mpr (by simp [hdj.2])) (fun k hki hkj => used_congr (hother hki hkj))
      rw [used_of hi.1 (by simp [hdi.2.1]), hdi.2.2.2.1, hdi.2.2.2.2]
    · intro k hk ha
      by_cases hki : k = i
      · rw [hki, hdi.2.1] at ha
        cases ha
      · by_cases hkj : k = j
        · rw [hkj, hdj.2] at ha
          cases ha
        · exact h.full_of_data hk (hother hki hkj) ha
    · intro k hk hu
      by_cases hki : k = i
      · rw [hki, hdi.2.2.1, hdi.2.2.2.1, hdi.2.2.2.2]
      · by_cases hkj : k = j
        · rw [hkj] at hu
          exact absurd hdj.2 hu
        · obtain ⟨_, e1, e2, e3, e4⟩ := data_eq_iff.mp (hother hki hkj)
          rw [e2, e3, e4]
          exact h.sized hk (by rw [← e1]; exact hu)
    · have hsub : (l₁ ++ i :: l₂).Sublist (l₁ ++ i :: j :: l₂) := by simp
      refine (h.sorted.sublist hsub).imp_of_mem (fun {a b} ha hb hab => ?_)
      rw [hbegin (fun e => hjl (e ▸ ha)), hbegin (fun e => hjl (e ▸ hb))]
      exact hab
    · rw [hheap.pmStart]; exact h.start_pos
    · rw [hheap.pmEnd]; exact h.end_lt
  refine ⟨s', ?_, hwf, hheap, hdata⟩
  rw [hs', hwf.freeCheck, ok_bind]

end OsWorkbench.Alloc
