import OsWorkbench.Alloc.Blocks

/-!
# Inserting into and taking from the free list

`free_insert` and `free_find` on a well-formed state, and from them `kfree` and
`kalloc`. `Canon` is the property that distinguishes the states between two
calls from the intermediate ones: no two free blocks touch.
-/

namespace OsWorkbench.Alloc

open Chain Tiling

/-! ## `free_insert` -/

theorem freeCmp_pool {s : Pmm} {i j : Nat}
    (h : (s.blk (.pool i)).beginAddr ≠ (s.blk (.pool j)).beginAddr) :
    freeCmp s (.pool i) (.pool j) =
      .ok (decide ((s.blk (.pool i)).beginAddr < (s.blk (.pool j)).beginAddr)) := by
  unfold freeCmp
  rw [if_neg (by simp), check_bind (by simp), check_bind (by simp), load_bind s (by simp),
    load_bind s (by simp), check_bind h]
  rfl

theorem freeCmp_head {s : Pmm} {q : Ptr} : freeCmp s .head q = .ok true := if_pos (.inl rfl)

theorem freeCmp_tail {s : Pmm} {p : Ptr} : freeCmp s p .tail = .ok true := if_pos (.inr rfl)

theorem mem_lefts_last {l₁ : List Nat} {L₁ : List Ptr} {p : Ptr} (h₁ : lefts l₁ = L₁ ++ [p]) :
    p = .head ∨ ∃ k ∈ l₁, p = .pool k := by
  have : p ∈ lefts l₁ := by rw [h₁]; simp
  simpa [lefts, eq_comm] using this

/-- The last of the pointers on the left passes the comparison with the block. -/
theorem freeCmp_left {s : Pmm} {l₁ : List Nat} {L₁ : List Ptr} {p : Ptr} {i : Nat}
    (hl : ∀ k ∈ l₁, (s.blk (.pool k)).beginAddr < (s.blk (.pool i)).beginAddr)
    (h₁ : lefts l₁ = L₁ ++ [p]) : freeCmp s p (.pool i) = .ok true := by
  rcases mem_lefts_last h₁ with rfl | ⟨k, hk, rfl⟩
  · exact freeCmp_head
  · rw [freeCmp_pool (Nat.ne_of_lt (hl k hk))]
    simp [hl k hk]

/-- The insertion loop finds the place where the free list passes the address of
the block. -/
theorem freeInsertLoop_spec {s : Pmm} {l₁ l₂ : List Nat} {L₁ L₂ : List Ptr} {p n : Ptr}
    {i fuel : Nat} (h : Wf s (l₁ ++ l₂))
    (hne : ∀ k ∈ l₂, (s.blk (.pool k)).beginAddr ≠ (s.blk (.pool i)).beginAddr)
    (hl : ∀ k ∈ l₁, (s.blk (.pool k)).beginAddr < (s.blk (.pool i)).beginAddr)
    (h₁ : lefts l₁ = L₁ ++ [p]) (h₂ : rights l₂ = n :: L₂) (hf : l₂.length < fuel) :
    ∃ m₁ m₂ M₁ p' n' M₂, m₁ ++ m₂ = l₁ ++ l₂ ∧ lefts m₁ = M₁ ++ [p'] ∧ rights m₂ = n' :: M₂ ∧
      freeInsertLoop s (.pool i) fuel p n = .ok (p', n') ∧
      freeFits s p' (.pool i) n' = .ok true ∧
      (∀ k ∈ m₁, (s.blk (.pool k)).beginAddr < (s.blk (.pool i)).beginAddr) ∧
      ∀ k ∈ m₂, (s.blk (.pool i)).beginAddr < (s.blk (.pool k)).beginAddr := by
  induction l₂ generalizing l₁ L₁ L₂ p n fuel with
  | nil =>
    obtain ⟨fuel, rfl⟩ := Nat.exists_eq_succ_of_ne_zero (Nat.ne_of_gt hf)
    obtain ⟨rfl, rfl⟩ : Ptr.tail = n ∧ [] = L₂ := by simpa [rights] using h₂
    have hleft := freeCmp_left hl h₁
    have hfits : freeFits s p (.pool i) .tail = .ok true := by
      simp [freeFits, hleft, freeCmp_tail]
    refine ⟨l₁, [], L₁, p, .tail, [], rfl, h₁, rfl, ?_, hfits, hl, by simp⟩
    simp [freeInsertLoop, hfits]
  | cons k l₂ ih =>
    obtain ⟨fuel, rfl⟩ := Nat.exists_eq_succ_of_ne_zero (Nat.ne_of_gt (Nat.zero_lt_of_lt hf))
    obtain ⟨rfl, hL₂⟩ : Ptr.pool k = n ∧ rights l₂ = L₂ := by simpa [rights] using h₂
    have hik : (s.blk (.pool i)).beginAddr ≠ (s.blk (.pool k)).beginAddr := (hne k (by simp)).symm
    have hleft := freeCmp_left hl h₁
    have hfits : freeFits s p (.pool i) (.pool k) =
        .ok (decide ((s.blk (.pool i)).beginAddr < (s.blk (.pool k)).beginAddr)) := by
      simp [freeFits, hleft, freeCmp_pool hik]
    rcases Nat.lt_or_gt_of_ne hik with hlt | hgt
    · -- the block goes before `k`
      refine ⟨l₁, k :: l₂, L₁, p, .pool k, L₂, rfl, h₁, h₂, ?_, by simp [hfits, hlt], hl, ?_⟩
      · simp [freeInsertLoop, hfits, hlt]
      · have hsorted := h.sorted
        simp only [List.pairwise_append, List.pairwise_cons] at hsorted
        intro k' hk'
        rcases List.mem_cons.mp hk' with rfl | hk'
        · exact hlt
        · exact hlt.trans (hsorted.2.1.1 k' hk')
    · -- both cursors move on
      have hassoc : Wf s ((l₁ ++ [k]) ++ l₂) := by simpa using h
      have hlk : lefts (l₁ ++ [k]) = lefts l₁ ++ [.pool k] := by simp [lefts]
      obtain ⟨n', L₂', h₂', hnext⟩ := hassoc.next_of_left hlk
      obtain ⟨n'', _, h₂'', hnext''⟩ := h.next_of_left h₁
      obtain rfl : .pool k = n'' := (List.cons.inj (h₂.symm.trans h₂'')).1
      have hp0 : p ≠ .null := left_ne_null h₁
      have hl' : ∀ k' ∈ l₁ ++ [k],
          (s.blk (.pool k')).beginAddr < (s.blk (.pool i)).beginAddr := by
        intro k' hk'
        rcases List.mem_append.mp hk' with hm | hm
        · exact hl k' hm
        · rw [List.mem_singleton.mp hm]; exact hgt
      have hf' : l₂.length < fuel := Nat.lt_of_succ_lt_succ (by simpa using hf)
      obtain ⟨m₁, m₂, M₁, p₂, n₂, M₂, hm, hM₁, hM₂, hloop, hrest⟩ :=
        ih hassoc (fun k' hk' => hne k' (by simp [hk'])) hl' hlk h₂' hf'
      refine ⟨m₁, m₂, M₁, p₂, n₂, M₂, by simpa using hm, hM₁, hM₂, ?_, hrest⟩
      rw [freeInsertLoop, hfits, ok_bind, if_neg (by simp [Nat.le_of_lt hgt]), check_bind (by simp),
        load_bind s hp0, load_bind s (by simp), hnext'', hnext, hloop]

/-- The insertion loop stops at an assertion when a node of the list begins where the block
does. -/
theorem freeInsertLoop_stuck {s : Pmm} {l₁ l₂ : List Nat} {L₁ L₂ : List Ptr} {p n : Ptr}
    {i k fuel : Nat} (h : Wf s (l₁ ++ l₂)) (hk : k ∈ l₂)
    (heq : (s.blk (.pool k)).beginAddr = (s.blk (.pool i)).beginAddr)
    (hl : ∀ k ∈ l₁, (s.blk (.pool k)).beginAddr < (s.blk (.pool i)).beginAddr)
    (h₁ : lefts l₁ = L₁ ++ [p]) (h₂ : rights l₂ = n :: L₂) (hf : l₂.length < fuel) :
    freeInsertLoop s (.pool i) fuel p n = .error .assertion := by
  induction l₂ generalizing l₁ L₁ L₂ p n fuel with
  | nil => simp at hk
  | cons j l₂ ih =>
    obtain ⟨fuel, rfl⟩ := Nat.exists_eq_succ_of_ne_zero (Nat.ne_of_gt (Nat.zero_lt_of_lt hf))
    obtain ⟨rfl, hL₂⟩ : Ptr.pool j = n ∧ rights l₂ = L₂ := by simpa [rights] using h₂
    have hleft := freeCmp_left hl h₁
    rcases List.mem_cons.mp hk with rfl | hk
    · have hcmp : freeCmp s (.pool i) (.pool k) = .error .assertion := by
        rw [freeCmp, if_neg (by simp), check_bind (by simp), check_bind (by simp),
          load_bind s (by simp), load_bind s (by simp), check_neg (by simp [heq]), error_bind]
      simp [freeInsertLoop, freeFits, hleft, hcmp]
    · have hsorted := h.sorted
      simp only [List.pairwise_append, List.pairwise_cons, List.mem_cons] at hsorted
      have hgt : (s.blk (.pool j)).beginAddr < (s.blk (.pool i)).beginAddr :=
        heq ▸ hsorted.2.1.1 k hk
      have hfits : freeFits s p (.pool i) (.pool j) = .ok false := by
        simp [freeFits, hleft, freeCmp_pool (Nat.ne_of_gt hgt), hgt.le]
      have hassoc : Wf s ((l₁ ++ [j]) ++ l₂) := by simpa using h
      have hlj : lefts (l₁ ++ [j]) = lefts l₁ ++ [.pool j] := by simp [lefts]
      obtain ⟨n', L₂', h₂', hnext⟩ := hassoc.next_of_left hlj
      obtain ⟨n'', _, h₂'', hnext''⟩ := h.next_of_left h₁
      obtain rfl : .pool j = n'' := (List.cons.inj (h₂.symm.trans h₂'')).1
      have hl' : ∀ k' ∈ l₁ ++ [j], (s.blk (.pool k')).beginAddr < (s.blk (.pool i)).beginAddr := by
        intro k' hk'
        rcases List.mem_append.mp hk' with hm | hm
        · exact hl k' hm
        · rw [List.mem_singleton.mp hm]; exact hgt
      rw [freeInsertLoop, hfits, ok_bind, if_neg (by simp), check_bind (by simp),
        load_bind s (left_ne_null h₁), load_bind s (by simp), hnext'', hnext]
      exact ih hassoc hk hl' hlj h₂' (Nat.lt_of_succ_lt_succ (by simpa using hf))

theorem freeLink_effect {s : Pmm} {i : Nat} {p n : Ptr} (hp0 : p ≠ .null) (hn0 : n ≠ .null)
    (hpi : p ≠ .pool i) (hni : n ≠ .pool i) (hpn : p ≠ n) :
    ∃ s', freeLink s p (.pool i) n = .ok s' ∧ s'.listSize = s.listSize + 1 ∧ SameHeap s s' ∧
      LinkedIn s s' p (.pool i) n ∧
      ∀ k, (s'.blk (.pool k)).data =
        if k = i then { (s.blk (.pool i)).data with state := .unallocated }
        else (s.blk (.pool k)).data := by
  refine ⟨{ ((s.set p { s.blk p with next := .pool i }).set n { s.blk n with prev := .pool i }).set
    (.pool i) { s.blk (.pool i) with prev := p, next := n, state := .unallocated } with
      listSize := s.listSize + 1 }, ?_, rfl, ⟨rfl, rfl, rfl, rfl⟩, ⟨?_, ?_, ?_, ?_, ?_, ?_⟩, ?_⟩
  · unfold freeLink
    rw [store_bind _ (by simp), store_bind _ hp0, store_bind _ hn0, store_bind _ (by simp)]
    simp only [pure_eq_ok, Except.ok.injEq, Pmm.set, Pmm.mk.injEq, and_true]
    funext q
    by_cases hqi : q = .pool i
    · subst hqi
      simp [Function.update_apply, hpi.symm, hni.symm]
    · simp [Function.update_apply, hqi, hpi, hni, hpn.symm]
  · simp [set_blk, hpi, hpn]
  · simp
  · simp
  · simp [set_blk, hni]
  · intro q hqp hqi
    simp only [set_blk, hqp, hqi, if_false]
    split <;> simp_all
  · intro q hqn hqi
    simp only [set_blk, hqn, hqi, if_false]
    split <;> simp_all
  · intro k
    simp only [set_blk, Ptr.pool.injEq]
    split
    · simp [MemBlock.data]
    · split
      · simp_all [MemBlock.data]
      · split <;> simp_all [MemBlock.data]

theorem freeLink_spec {s : Pmm} {m₁ m₂ : List Nat} {M₁ M₂ : List Ptr} {p n : Ptr} {i : Nat}
    (h : Wf s (m₁ ++ m₂)) (hi : i < poolSize) (ha : (s.blk (.pool i)).state = .allocated)
    (h₁ : lefts m₁ = M₁ ++ [p]) (h₂ : rights m₂ = n :: M₂)
    (hl : ∀ k ∈ m₁, (s.blk (.pool k)).beginAddr < (s.blk (.pool i)).beginAddr)
    (hr : ∀ k ∈ m₂, (s.blk (.pool i)).beginAddr < (s.blk (.pool k)).beginAddr) :
    ∃ s', freeLink s p (.pool i) n = .ok s' ∧ Wf s' (m₁ ++ i :: m₂) ∧ SameHeap s s' ∧
      ∀ k, (s'.blk (.pool k)).data =
        if k = i then { (s.blk (.pool i)).data with state := .unallocated }
        else (s.blk (.pool k)).data := by
  have hil : i ∉ m₁ ++ m₂ := fun hmem => by simp [(h.mem.mp hmem).2] at ha
  have hmem : ∀ q ∈ ptrs (m₁ ++ m₂), q ≠ .null ∧ q ≠ .pool i := by
    intro q hq
    refine ⟨ptrs_ne_null hq, ?_⟩
    rintro rfl
    simp only [ptrs, rights, List.mem_cons, reduceCtorEq, List.mem_append, List.mem_map,
      Ptr.pool.injEq, exists_eq_right, List.not_mem_nil, or_false, false_or] at hq
    exact hil (by simpa using hq)
  have hnd := ptrs_nodup h.nodup
  rw [ptrs_append h₁ h₂] at hmem hnd
  have hp := hmem p (by simp)
  have hn := hmem n (by simp)
  have hpn : p ≠ n := by
    simp only [List.nodup_append, List.nodup_cons, List.mem_cons, not_or] at hnd
    exact hnd.2.1.1.1
  obtain ⟨s', hs', hsize, hheap, hlink, hdata⟩ :=
    freeLink_effect (s := s) (i := i) hp.1 hn.1 hp.2 hn.2 hpn
  refine ⟨s', hs', ?_, hheap, hdata⟩
  have hself : (s'.blk (.pool i)).state = .unallocated ∧
      (s'.blk (.pool i)).id = (s.blk (.pool i)).id ∧
      (s'.blk (.pool i)).size = (s.blk (.pool i)).size ∧
      (s'.blk (.pool i)).beginAddr = (s.blk (.pool i)).beginAddr ∧
      (s'.blk (.pool i)).endAddr = (s.blk (.pool i)).endAddr := by
    have := hdata i
    simp [MemBlock.data] at this
    simp [this]
  have hother : ∀ {j}, j ≠ i → (s'.blk (.pool j)).data = (s.blk (.pool j)).data := by
    intro j hj
    rw [hdata j, if_neg hj]
  have hbegin : ∀ j, (s'.blk (.pool j)).beginAddr = (s.blk (.pool j)).beginAddr := by
    intro j
    by_cases hj : j = i
    · rw [hj]; exact hself.2.2.2.1
    · exact (data_eq_iff.mp (hother hj)).2.2.2.1
  have hused : used s' = used s := by
    funext j
    by_cases hj : j = i
    · subst hj
      simp [used, interval, hself, ha]
    · exact used_congr (hother hj)
  constructor
  · exact h.linked_of_linkedIn hil h₁ h₂ hlink
  · rw [hsize, h.count]
    simp only [List.length_append, List.length_cons]
    omega
  · intro j
    by_cases hj : j = i
    · subst hj
      simp [hself.1, hi]
    · rw [(data_eq_iff.mp (hother hj)).2.1, ← h.mem]
      simp [hj]
  · intro j hj
    by_cases hji : j = i
    · rw [hji, hself.2.1]; exact h.ids hi
    · rw [(data_eq_iff.mp (hother hji)).1]; exact h.ids hj
  · rw [hused, hheap.pmStart, hheap.pmEnd]; exact h.tiles
  · intro j hj ha
    by_cases hji : j = i
    · rw [hji, hself.1] at ha
      cases ha
    · exact h.full_of_data hj (hother hji) ha
  · intro j hj hu
    by_cases hji : j = i
    · rw [hji, hself.2.2.1, hself.2.2.2.1, hself.2.2.2.2]
      exact h.sized hi (by simp [ha])
    · obtain ⟨_, e1, e2, e3, e4⟩ := data_eq_iff.mp (hother hji)
      rw [e2, e3, e4]
      exact h.sized hj (by rw [← e1]; exact hu)
  · have hsorted := h.sorted
    simp only [hbegin, List.pairwise_append, List.pairwise_cons, List.mem_cons] at hsorted ⊢
    refine ⟨hsorted.1, ⟨hr, hsorted.2.1⟩, ?_⟩
    rintro a ha' b (rfl | hb)
    · exact hl a ha'
    · exact hsorted.2.2 a ha' b hb
  · rw [hheap.pmStart]; exact h.start_pos
  · rw [hheap.pmEnd]; exact h.end_lt

/-- No two neighbours of the list touch. -/
def Canon (s : Pmm) (l : List Nat) : Prop :=
  l.IsChain fun i j => (s.blk (.pool i)).endAddr < (s.blk (.pool j)).beginAddr

/-- The allocated blocks of the two states are the same. -/
def SameLive (s s' : Pmm) : Prop :=
  ∀ k, ((s'.blk (.pool k)).state = .allocated ↔ (s.blk (.pool k)).state = .allocated) ∧
    ((s.blk (.pool k)).state = .allocated → (s'.blk (.pool k)).data = (s.blk (.pool k)).data)

theorem SameLive.refl (s : Pmm) : SameLive s s := fun _ => ⟨Iff.rfl, fun _ => rfl⟩

theorem SameLive.trans {s s' s'' : Pmm} (h : SameLive s s') (h' : SameLive s' s'') :
    SameLive s s'' := fun k =>
  ⟨(h' k).1.trans (h k).1, fun hk => ((h' k).2 ((h k).1.mpr hk)).trans ((h k).2 hk)⟩

/-- No descriptors came into use, and those in use have moved at most their ends. -/
def Grown (s s' : Pmm) : Prop :=
  ∀ k, (s'.blk (.pool k)).state ≠ .unused → (s.blk (.pool k)).state ≠ .unused ∧
    (s'.blk (.pool k)).beginAddr = (s.blk (.pool k)).beginAddr ∧
    (s.blk (.pool k)).endAddr ≤ (s'.blk (.pool k)).endAddr

theorem Grown.refl (s : Pmm) : Grown s s := fun _ hu => ⟨hu, rfl, le_rfl⟩

theorem Grown.trans {s s' s'' : Pmm} (h : Grown s s') (h' : Grown s' s'') : Grown s s'' := by
  intro k hu
  obtain ⟨hu', hb', he'⟩ := h' k hu
  obtain ⟨hu, hb, he⟩ := h k hu'
  exact ⟨hu, hb'.trans hb, he.trans he'⟩

theorem Grown.of_data {s s' : Pmm} {k : Nat} (hd : (s'.blk (.pool k)).data = (s.blk (.pool k)).data)
    (hu : (s'.blk (.pool k)).state ≠ .unused) : (s.blk (.pool k)).state ≠ .unused ∧
      (s'.blk (.pool k)).beginAddr = (s.blk (.pool k)).beginAddr ∧
      (s.blk (.pool k)).endAddr ≤ (s'.blk (.pool k)).endAddr := by
  obtain ⟨-, e1, -, e2, e3⟩ := data_eq_iff.mp hd
  exact ⟨e1 ▸ hu, e2, e3.ge⟩

theorem Canon.congr {s s' : Pmm} {l : List Nat} (h : Canon s l)
    (hd : ∀ k ∈ l, (s'.blk (.pool k)).data = (s.blk (.pool k)).data) : Canon s' l := by
  refine List.IsChain.imp_of_mem_imp (fun a b ha hb hab => ?_) h
  obtain ⟨_, _, _, _, e1⟩ := data_eq_iff.mp (hd a ha)
  obtain ⟨_, _, _, e2, _⟩ := data_eq_iff.mp (hd b hb)
  rw [e1, e2]
  exact hab

theorem Canon.concat_congr {s s' : Pmm} {l : List Nat} {j : Nat} (h : Canon s (l ++ [j]))
    (hd : ∀ k ∈ l, (s'.blk (.pool k)).data = (s.blk (.pool k)).data)
    (hj : (s'.blk (.pool j)).beginAddr = (s.blk (.pool j)).beginAddr) : Canon s' (l ++ [j]) := by
  induction l with
  | nil => exact List.IsChain.singleton j
  | cons a l ih =>
    have ih' := ih h.tail (fun k hk => hd k (by simp [hk]))
    have ha := (data_eq_iff.mp (hd a (by simp))).2.2.2.2
    cases l with
    | nil =>
      refine List.isChain_cons_cons.mpr ⟨?_, ih'⟩
      rw [ha, hj]
      exact (List.isChain_cons_cons.mp h).1
    | cons b l =>
      refine List.isChain_cons_cons.mpr ⟨?_, ih'⟩
      rw [ha, (data_eq_iff.mp (hd b (by simp))).2.2.2.1]
      exact (List.isChain_cons_cons.mp h).1

/-- `if (free_adjcent(block, latter)) free_merge(block, latter)`. -/
theorem freeTryMerge_right {s : Pmm} {m₁ m₂ : List Nat} {n : Ptr} {M₂ : List Ptr} {i : Nat}
    (h : Wf s (m₁ ++ i :: m₂)) (h₂ : rights m₂ = n :: M₂) (hc : Canon s m₂) :
    ∃ s' m₂', freeTryMerge s (.pool i) n = .ok s' ∧ Wf s' (m₁ ++ i :: m₂') ∧ Canon s' (i :: m₂') ∧
      SameHeap s s' ∧ SameLive s s' ∧ Grown s s' ∧
      (s'.blk (.pool i)).beginAddr = (s.blk (.pool i)).beginAddr ∧
      ∀ k ∈ m₁, (s'.blk (.pool k)).data = (s.blk (.pool k)).data := by
  cases m₂ with
  | nil =>
    obtain ⟨rfl, rfl⟩ : Ptr.tail = n ∧ [] = M₂ := by simpa [rights] using h₂
    refine ⟨s, [], ?_, h, List.IsChain.singleton i, ⟨rfl, rfl, rfl, rfl⟩, SameLive.refl s,
      Grown.refl s, rfl, fun _ _ => rfl⟩
    simp [freeTryMerge, freeAdjcent]
  | cons j m₂ =>
    obtain ⟨rfl, -⟩ : Ptr.pool j = n ∧ rights m₂ = M₂ := by simpa [rights] using h₂
    have hi := h.mem.mp (show i ∈ m₁ ++ i :: j :: m₂ by simp)
    have hj := h.mem.mp (show j ∈ m₁ ++ i :: j :: m₂ by simp)
    by_cases hadj : (s.blk (.pool i)).endAddr = (s.blk (.pool j)).beginAddr
    · obtain ⟨s', hs', hwf, hheap, hdata⟩ := freeMerge_spec h hadj
      have hnd := h.nodup
      simp only [List.nodup_append, List.nodup_cons, List.mem_cons, not_or] at hnd
      have hkeep : ∀ k, k ≠ i → k ≠ j → (s'.blk (.pool k)).data = (s.blk (.pool k)).data := by
        intro k hki hkj
        rw [hdata k, if_neg hki, if_neg hkj]
      have hend : (s'.blk (.pool i)).endAddr = (s.blk (.pool j)).endAddr ∧
          (s'.blk (.pool i)).beginAddr = (s.blk (.pool i)).beginAddr ∧
          (s'.blk (.pool i)).state = .unallocated := by
        have := hdata i
        simp [MemBlock.data] at this
        simp [this, hi.2]
      have hdead : (s'.blk (.pool j)).state = .unused := by
        have := hdata j
        simp [MemBlock.data, Ne.symm hnd.2.1.1.1] at this
        simp [this]
      refine ⟨s', m₂, ?_, hwf, ?_, hheap, ?_, ?_, hend.2.1, ?_⟩
      · simp [freeTryMerge, freeAdjcent_pool, hadj, hs']
      · -- `j` did not touch its successor, so neither does the merged block
        have hc' : Canon s' m₂ := by
          refine (show Canon s m₂ from hc.tail).congr (fun k hk => hkeep k ?_ ?_)
          · rintro rfl; exact hnd.2.1.1.2 hk
          · rintro rfl; exact hnd.2.1.2.1 hk
        cases m₂ with
        | nil => exact List.IsChain.singleton i
        | cons k m₂ =>
          refine List.isChain_cons_cons.mpr ⟨?_, hc'⟩
          have hjk := (List.isChain_cons_cons.mp hc).1
          have hki : k ≠ i := fun e => hnd.2.1.1.2 (by simp [e])
          have hkj : k ≠ j := fun e => hnd.2.1.2.1 (by simp [e])
          rw [hend.1, (data_eq_iff.mp (hkeep k hki hkj)).2.2.2.1]
          exact hjk
      · intro k
        by_cases hki : k = i
        · rw [hki]; simp [hend.2.2, hi.2]
        · by_cases hkj : k = j
          · rw [hkj]; simp [hdead, hj.2]
          · rw [(data_eq_iff.mp (hkeep k hki hkj)).2.1]
            exact ⟨Iff.rfl, fun _ => hkeep k hki hkj⟩
      · intro k hu
        by_cases hki : k = i
        · have hbi := (h.bounds hi.1 (by simp [hi.2])).2.1
          have hbj := (h.bounds hj.1 (by simp [hj.2])).2.1
          rw [hki, hend.1, hend.2.1]
          exact ⟨by simp [hi.2], rfl, by omega⟩
        · by_cases hkj : k = j
          · rw [hkj, hdead] at hu
            exact absurd rfl hu
          · exact Grown.of_data (hkeep k hki hkj) hu
      · intro k hk
        exact hkeep k (hnd.2.2 k hk i (by simp)) (hnd.2.2 k hk j (by simp))
    · have hlt : (s.blk (.pool i)).endAddr < (s.blk (.pool j)).beginAddr := by
        have hsorted := h.sorted
        simp only [List.pairwise_append, List.pairwise_cons, List.mem_cons] at hsorted
        have hle := h.end_le hi.1 hj.1 (by simp [hi.2]) (by simp [hj.2])
          (hsorted.2.1.1 j (.inl rfl))
        omega
      refine ⟨s, j :: m₂, ?_, h, List.isChain_cons_cons.mpr ⟨hlt, hc⟩, ⟨rfl, rfl, rfl, rfl⟩,
        SameLive.refl s, Grown.refl s, rfl, fun _ _ => rfl⟩
      simp [freeTryMerge, freeAdjcent_pool, hadj]

/-- `if (free_adjcent(former, block)) free_merge(former, block)`. -/
theorem freeTryMerge_left {s : Pmm} {m₁ m₂ : List Nat} {p : Ptr} {M₁ : List Ptr} {i : Nat}
    (h : Wf s (m₁ ++ i :: m₂)) (h₁ : lefts m₁ = M₁ ++ [p]) (hc₁ : Canon s m₁)
    (hc₂ : Canon s (i :: m₂)) :
    ∃ s' l', freeTryMerge s p (.pool i) = .ok s' ∧ Wf s' l' ∧ Canon s' l' ∧
      SameHeap s s' ∧ SameLive s s' ∧ Grown s s' := by
  rcases List.eq_nil_or_concat m₁ with rfl | ⟨m₁, j, rfl⟩
  · have hp : p = .head := by
      have : ([] : List Ptr) ++ [.head] = M₁ ++ [p] := by simpa [lefts] using h₁
      exact (List.append_inj_right' this rfl |> List.singleton_inj.mp).symm
    subst hp
    refine ⟨s, i :: m₂, ?_, h, hc₂, ⟨rfl, rfl, rfl, rfl⟩, SameLive.refl s, Grown.refl s⟩
    simp [freeTryMerge, freeAdjcent]
  · rw [List.concat_eq_append] at h h₁ hc₁
    have hp : p = .pool j := by
      have : lefts (m₁ ++ [j]) = lefts m₁ ++ [.pool j] := by simp [lefts]
      rw [this] at h₁
      exact (List.append_inj_right' h₁ rfl |> List.singleton_inj.mp).symm
    subst hp
    have h' : Wf s (m₁ ++ j :: i :: m₂) := by simpa using h
    -- seen from the left neighbour `j` this is the merge with its successor
    have hrights : rights (i :: m₂) = .pool i :: rights m₂ := by simp [rights]
    obtain ⟨s', m₂', hs', hwf, hc', hheap, hlive, hgrown, hbegin, hkeep⟩ :=
      freeTryMerge_right h' hrights hc₂
    exact ⟨s', m₁ ++ j :: m₂', hs', hwf,
      List.isChain_split.mpr ⟨hc₁.concat_congr hkeep hbegin, hc'⟩, hheap, hlive, hgrown⟩

theorem Canon.split {s : Pmm} {m₁ m₂ : List Nat} (h : Canon s (m₁ ++ m₂)) :
    Canon s m₁ ∧ Canon s m₂ := by
  obtain ⟨h1, h2, _⟩ := List.isChain_append.mp h
  exact ⟨h1, h2⟩

/-- The block `i` is free again. -/
structure Freed (s s' : Pmm) (i : Nat) : Prop where
  same : SameHeap s s'
  live : ∀ k, (s'.blk (.pool k)).state = .allocated ↔
    (s.blk (.pool k)).state = .allocated ∧ k ≠ i
  data : ∀ k, (s.blk (.pool k)).state = .allocated → k ≠ i →
    (s'.blk (.pool k)).data = (s.blk (.pool k)).data
  grown : Grown s s'

/-- The pointer behind `free.head`. -/
theorem Wf.head_next {s : Pmm} {l : List Nat} (h : Wf s l) :
    ∃ n L, rights l = n :: L ∧ (s.blk .head).next = n := by
  have hwf : Wf s ([] ++ l) := h
  have hleft : lefts [] = [] ++ [Ptr.head] := rfl
  exact hwf.next_of_left hleft

/-- `free_insert` on an allocated block, when no node of the list begins where the block
does: it returns, the state is canonical again, and the other allocated blocks stay as
they were. -/
theorem freeInsert_spec {s : Pmm} {l : List Nat} {i : Nat} (h : Wf s l) (hc : Canon s l)
    (hi : i < poolSize) (ha : (s.blk (.pool i)).state = .allocated)
    (hne : ∀ k ∈ l, (s.blk (.pool k)).beginAddr ≠ (s.blk (.pool i)).beginAddr) :
    ∃ s' l', freeInsert s (.pool i) = .ok s' ∧ Wf s' l' ∧ Canon s' l' ∧ Freed s s' i := by
  obtain ⟨n, L, hn, hhead⟩ := h.head_next
  have hfuel : l.length < listFuel := Nat.lt_succ_of_le h.length_le
  have hnil : Wf s ([] ++ l) := h
  have hlefts : lefts [] = [] ++ [Ptr.head] := rfl
  obtain ⟨m₁, m₂, M₁, p', n', M₂, hm, hM₁, hM₂, hloop, hfits, hl, hr⟩ :=
    freeInsertLoop_spec hnil hne (by simp) hlefts hn hfuel
  rw [List.nil_append] at hm
  subst hm
  obtain ⟨s₁, hs₁, hwf₁, hheap₁, hdata₁⟩ := freeLink_spec h hi ha hM₁ hM₂ hl hr
  have hkeep₁ : ∀ k ∈ m₁ ++ m₂, (s₁.blk (.pool k)).data = (s.blk (.pool k)).data := by
    intro k hk
    have : k ≠ i := by
      rintro rfl
      simp [(h.mem.mp hk).2] at ha
    rw [hdata₁ k, if_neg this]
  have hc₁ : Canon s₁ (m₁ ++ m₂) := hc.congr hkeep₁
  obtain ⟨s₂, m₂', hs₂, hwf₂, hc₂, hheap₂, hlive₂, hgrown₂, -, hkeep₂⟩ :=
    freeTryMerge_right hwf₁ hM₂ hc₁.split.2
  obtain ⟨s₃, l', hs₃, hwf₃, hc₃, hheap₃, hlive₃, hgrown₃⟩ :=
    freeTryMerge_left hwf₂ hM₁ (hc₁.split.1.congr hkeep₂) hc₂
  have hlive := hlive₂.trans hlive₃
  have hother : ∀ {k}, k ≠ i → (s₁.blk (.pool k)).data = (s.blk (.pool k)).data := by
    intro k hki
    rw [hdata₁ k, if_neg hki]
  have hself : (s₁.blk (.pool i)).state = .unallocated ∧
      (s₁.blk (.pool i)).beginAddr = (s.blk (.pool i)).beginAddr ∧
      (s₁.blk (.pool i)).endAddr = (s.blk (.pool i)).endAddr := by
    have := hdata₁ i
    simp [MemBlock.data] at this
    simp [this]
  have hgrown₁ : Grown s s₁ := by
    intro k hu
    by_cases hki : k = i
    · rw [hki, hself.2.1, hself.2.2]
      exact ⟨by simp [ha], rfl, le_rfl⟩
    · exact Grown.of_data (hother hki) hu
  refine ⟨s₃, l', ?_, hwf₃, hc₃, (hheap₁.trans hheap₂).trans hheap₃, fun k => ?_,
    fun k hk hki => ?_,
    (hgrown₁.trans hgrown₂).trans hgrown₃⟩
  · unfold freeInsert
    rw [load_bind s (by simp), check_bind ha, load_bind s (by simp), hhead, hloop, ok_bind]
    simp only
    rw [hfits, ok_bind, check_bind rfl, hs₁, ok_bind, hs₂, ok_bind, hs₃, ok_bind, hwf₃.freeCheck,
      ok_bind]
    rfl
  · rw [(hlive k).1]
    by_cases hki : k = i
    · rw [hki, hself.1]
      simp
    · rw [(data_eq_iff.mp (hother hki)).2.1]
      simp [hki]
  · rw [(hlive k).2 ((data_eq_iff.mp (hother hki)).2.1.trans hk), hother hki]

/-- `free_insert` stops at an assertion when a node of the list begins where the block
does. -/
theorem freeInsert_stuck {s : Pmm} {l : List Nat} {i k : Nat} (h : Wf s l)
    (ha : (s.blk (.pool i)).state = .allocated) (hk : k ∈ l)
    (heq : (s.blk (.pool k)).beginAddr = (s.blk (.pool i)).beginAddr) :
    freeInsert s (.pool i) = .error .assertion := by
  obtain ⟨n, L, hn, hhead⟩ := h.head_next
  have hnil : Wf s ([] ++ l) := h
  have hloop := freeInsertLoop_stuck hnil hk heq (by simp) (List.nil_append _).symm hn
    (Nat.lt_succ_of_le h.length_le)
  unfold freeInsert
  rw [load_bind s (by simp), check_bind ha, load_bind s (by simp), hhead]
  change (freeInsertLoop s (.pool i) listFuel .head n >>= _) = _
  rw [show freeInsertLoop s (.pool i) listFuel .head n = .error .assertion from hloop, error_bind]

/-! ## `free_find` -/

/-- Doubling from a power of two stops at the least power of two not below `size`. -/
theorem newszLoop_spec {size : Nat} (hs : size ≤ 2 ^ 31) (fuel : Nat) {k : Nat} (hk : k ≤ 31)
    (hf : 31 < fuel + k) (hpre : ∀ m, 10 ≤ m → m < k → 2 ^ m < size) :
    ∃ k', k ≤ k' ∧ k' ≤ 31 ∧ newszLoop size fuel (2 ^ k) = .ok (2 ^ k') ∧ size ≤ 2 ^ k' ∧
      ∀ m, 10 ≤ m → m < k' → 2 ^ m < size := by
  induction fuel generalizing k with
  | zero => omega
  | succ fuel ih =>
    rw [newszLoop]
    split
    · next hlt =>
      have hk' : k < 31 := by
        by_contra hge
        have : k = 31 := by omega
        subst this
        omega
      have hmod : 2 ^ k * 2 % 2 ^ 32 = 2 ^ (k + 1) := by
        rw [← Nat.pow_succ, Nat.mod_eq_of_lt (Nat.pow_lt_pow_right (by norm_num) (by omega))]
      have hpre' : ∀ m, 10 ≤ m → m < k + 1 → 2 ^ m < size := by
        intro m h10 hm
        rcases Nat.lt_succ_iff_lt_or_eq.mp hm with hm | rfl
        · exact hpre m h10 hm
        · exact hlt
      obtain ⟨k', h1, h2, h3, h4⟩ := ih (k := k + 1) (by omega) (by omega) hpre'
      exact ⟨k', by omega, h2, by rw [hmod]; exact h3, h4⟩
    · next hge => exact ⟨k, le_refl k, hk, rfl, not_lt.mp hge, hpre⟩

/-- The first block of the list that is large enough, if there is one. -/
theorem freeFindLoop_spec {s : Pmm} {l₁ l₂ : List Nat} {L₁ L₂ : List Ptr} {p n : Ptr}
    {fuel : Nat} (newsz : Nat) (h : Wf s (l₁ ++ l₂)) (h₁ : lefts l₁ = L₁ ++ [p])
    (h₂ : rights l₂ = n :: L₂) (hsmall : ∀ k ∈ l₁, (s.blk (.pool k)).size < newsz)
    (hf : l₂.length < fuel) :
    (freeFindLoop s newsz fuel n = .ok .tail ∧ ∀ k ∈ l₁ ++ l₂, (s.blk (.pool k)).size < newsz) ∨
    ∃ m₁ i m₂, l₁ ++ l₂ = m₁ ++ i :: m₂ ∧ freeFindLoop s newsz fuel n = .ok (.pool i) ∧
      newsz ≤ (s.blk (.pool i)).size ∧ ∀ k ∈ m₁, (s.blk (.pool k)).size < newsz := by
  induction l₂ generalizing l₁ L₁ L₂ p n fuel with
  | nil =>
    obtain ⟨fuel, rfl⟩ := Nat.exists_eq_succ_of_ne_zero (Nat.ne_of_gt hf)
    obtain ⟨rfl, rfl⟩ : Ptr.tail = n ∧ [] = L₂ := by simpa [rights] using h₂
    exact .inl ⟨by simp [freeFindLoop], by simpa using hsmall⟩
  | cons k l₂ ih =>
    obtain ⟨fuel, rfl⟩ := Nat.exists_eq_succ_of_ne_zero (Nat.ne_of_gt (Nat.zero_lt_of_lt hf))
    obtain ⟨rfl, hL₂⟩ : Ptr.pool k = n ∧ rights l₂ = L₂ := by simpa [rights] using h₂
    have hk := h.mem.mp (show k ∈ l₁ ++ k :: l₂ by simp)
    by_cases hsz : (s.blk (.pool k)).size < newsz
    · have hassoc : Wf s ((l₁ ++ [k]) ++ l₂) := by simpa using h
      have hlk : lefts (l₁ ++ [k]) = lefts l₁ ++ [.pool k] := by simp [lefts]
      obtain ⟨_, q, n', L₂', h₁', h₂', hnext, -, -, -⟩ := hassoc.place
      have hq : q = .pool k := by
        rw [hlk] at h₁'
        exact (List.append_inj_right' h₁' rfl |> List.singleton_inj.mp).symm
      subst hq
      have hsmall' : ∀ k' ∈ l₁ ++ [k], (s.blk (.pool k')).size < newsz := by
        intro k' hk'
        rcases List.mem_append.mp hk' with hm | hm
        · exact hsmall k' hm
        · rw [List.mem_singleton.mp hm]; exact hsz
      have hloop : freeFindLoop s newsz (fuel + 1) (.pool k) = freeFindLoop s newsz fuel n' := by
        rw [freeFindLoop, if_neg (by simp), load_bind s (by simp), if_pos hsz, check_bind hk.2,
          hnext]
      rw [hloop]
      have hf' : l₂.length < fuel := Nat.lt_of_succ_lt_succ (by simpa using hf)
      simpa using ih hassoc hlk h₂' hsmall' hf'
    · refine .inr ⟨l₁, k, l₂, rfl, ?_, not_lt.mp hsz, hsmall⟩
      rw [freeFindLoop, if_neg (by simp), load_bind s (by simp), if_neg hsz]
      rfl

theorem Wf.canon_pairwise {s : Pmm} {l : List Nat} (h : Wf s l) (hc : Canon s l) :
    l.Pairwise fun i j => (s.blk (.pool i)).endAddr < (s.blk (.pool j)).beginAddr := by
  refine pairwise_of_isChain (f := fun i => (s.blk (.pool i)).beginAddr) (fun i hi => ?_) hc
  have hi := h.mem.mp hi
  exact (h.bounds hi.1 (by simp [hi.2])).2.1

/-- The power of two to which `free_find` rounds a request. -/
structure Rounded (size newsz : Nat) : Prop where
  pow : ∃ e, 10 ≤ e ∧ e ≤ 31 ∧ newsz = 2 ^ e
  le : size ≤ newsz
  least : ∀ m, 10 ≤ m → size ≤ 2 ^ m → newsz ≤ 2 ^ m

theorem newszLoop_rounded {size : Nat} (hs : size ≤ 2 ^ 31) :
    ∃ newsz, newszLoop size 32 1024 = .ok newsz ∧ Rounded size newsz := by
  obtain ⟨e, h10, h31, hloop, hle, hleast⟩ :=
    newszLoop_spec hs 32 (k := 10) (by omega) (by omega) (fun m h1 h2 => by omega)
  refine ⟨2 ^ e, hloop, ⟨e, h10, h31, rfl⟩, hle, fun m h10 hm => ?_⟩
  by_contra hlt
  have hme : m < e := (Nat.pow_lt_pow_iff_right (by norm_num)).mp (not_le.mp hlt)
  exact absurd (hleast m h10 hme) (not_lt.mpr hm)

theorem Rounded.pos {size newsz : Nat} (h : Rounded size newsz) : 0 < newsz := by
  obtain ⟨e, -, -, rfl⟩ := h.pow
  exact Nat.two_pow_pos e

/-- Twice the rounded size wraps around for the largest power of two only, and then to `0`. -/
theorem Rounded.double {size newsz : Nat} (h : Rounded size newsz) :
    (newsz ≤ 2 ^ 30 ∧ 2 * newsz % 2 ^ 32 = 2 * newsz) ∨
      (newsz = 2 ^ 31 ∧ 2 * newsz % 2 ^ 32 = 0) := by
  obtain ⟨e, -, h31, rfl⟩ := h.pow
  rcases Nat.lt_or_ge e 31 with he | he
  · have : 2 ^ e ≤ 2 ^ 30 := Nat.pow_le_pow_right (by norm_num) (by omega)
    exact .inl ⟨this, Nat.mod_eq_of_lt (by omega)⟩
  · obtain rfl : e = 31 := by omega
    exact .inr ⟨rfl, rfl⟩

/-- Above the largest power of two, `newsz` wraps around to `0` and stays there. -/
theorem newszLoop_zero {size : Nat} (hs : 0 < size) (fuel : Nat) :
    newszLoop size fuel 0 = .error .diverges := by
  induction fuel with
  | zero => rfl
  | succ fuel ih =>
    rw [newszLoop, if_pos hs]
    exact ih

theorem newszLoop_large {size : Nat} (hs : 2 ^ 31 < size) (fuel : Nat) {k : Nat} (hk : k ≤ 31) :
    newszLoop size fuel (2 ^ k) = .error .diverges := by
  induction fuel generalizing k with
  | zero => rfl
  | succ fuel ih =>
    have hlt : 2 ^ k < size := lt_of_le_of_lt (Nat.pow_le_pow_right (by norm_num) hk) hs
    rw [newszLoop, if_pos hlt]
    rcases Nat.lt_or_ge k 31 with hk' | hk'
    · rw [← Nat.pow_succ, Nat.mod_eq_of_lt (Nat.pow_lt_pow_right (by norm_num) (by omega))]
      exact ih (by omega)
    · obtain rfl : k = 31 := by omega
      exact newszLoop_zero (by omega) fuel

theorem newszLoop_diverges {size : Nat} (hs : 2 ^ 31 < size) (fuel : Nat) :
    newszLoop size fuel 1024 = .error .diverges := newszLoop_large hs fuel (k := 10) (by norm_num)

/-- The block `i` of the free list was taken, cut down if it was twice as long as needed. -/
structure Taken (s s' : Pmm) (i newsz : Nat) : Prop where
  same : SameHeap s s'
  beginAddr : (s'.blk (.pool i)).beginAddr = (s.blk (.pool i)).beginAddr
  le_size : newsz ≤ (s'.blk (.pool i)).size
  size_le : (s'.blk (.pool i)).size ≤ (s.blk (.pool i)).size
  live : ∀ k, (s'.blk (.pool k)).state = .allocated ↔ (s.blk (.pool k)).state = .allocated ∨ k = i
  data : ∀ k, (s.blk (.pool k)).state = .allocated →
    (s'.blk (.pool k)).data = (s.blk (.pool k)).data
  /-- The one descriptor that may have come into use is that of the remainder. -/
  rest : ∀ k, (s'.blk (.pool k)).state ≠ .unused →
    ((s.blk (.pool k)).state ≠ .unused ∧
      (s'.blk (.pool k)).beginAddr = (s.blk (.pool k)).beginAddr ∧
      (k ≠ i → (s'.blk (.pool k)).endAddr = (s.blk (.pool k)).endAddr)) ∨
    (2 * newsz % 2 ^ 32 ≤ (s.blk (.pool i)).size ∧
      (s'.blk (.pool k)).beginAddr = (s.blk (.pool i)).beginAddr + newsz ∧
      (s'.blk (.pool k)).endAddr = (s.blk (.pool i)).endAddr)

/-- A block is cut in two, and the first part is taken off the list. -/
theorem cutDelete_spec {s : Pmm} {m₁ m₂ : List Nat} {i j newsz : Nat} (h : Wf s (m₁ ++ i :: m₂))
    (hc : Canon s (m₁ ++ i :: m₂)) (hj : getUnusedBlock s = .ok j) (hpos : 0 < newsz)
    (hle : newsz ≤ (s.blk (.pool i)).size) (hcut : 2 * newsz % 2 ^ 32 ≤ (s.blk (.pool i)).size) :
    ∃ s₁ s₂, freeCut s (.pool i) newsz = .ok s₁ ∧ freeDelete s₁ (.pool i) = .ok s₂ ∧
      Wf s₂ (m₁ ++ j :: m₂) ∧ Canon s₂ (m₁ ++ j :: m₂) ∧ (s₂.blk (.pool i)).size = newsz ∧
      Taken s s₂ i newsz := by
  have hpw := h.canon_pairwise hc
  simp only [List.pairwise_append, List.pairwise_cons, List.mem_cons] at hpw
  obtain ⟨s₁, hs₁, hwf₁, hheap₁, hdata₁⟩ := freeCut_spec h hj hpos hle hpw.2.1.1
  have hfull : (s₁.blk (.pool i)).beginAddr < (s₁.blk (.pool i)).endAddr := by
    have := hdata₁ i
    simp [MemBlock.data] at this
    omega
  obtain ⟨s₂, hs₂, hwf₂, hheap₂, hdata₂⟩ := freeDelete_spec hwf₁ hfull
  have hi := h.mem.mp (show i ∈ m₁ ++ i :: m₂ by simp)
  have hju : (s.blk (.pool j)).state = .unused := by simpa using (findBlock_ok hj).2
  have hjl : j ∉ m₁ ++ i :: m₂ := fun hmem => by simp [(h.mem.mp hmem).2] at hju
  have hji : j ≠ i := fun e => hjl (by simp [e])
  have hdi : (s₂.blk (.pool i)).state = .allocated ∧ (s₂.blk (.pool i)).size = newsz ∧
      (s₂.blk (.pool i)).beginAddr = (s.blk (.pool i)).beginAddr := by
    have h1 := hdata₁ i
    have h2 := hdata₂ i
    simp [MemBlock.data] at h1 h2
    simp [h1, h2]
  have hdj : (s₂.blk (.pool j)).state = .unallocated ∧
      (s₂.blk (.pool j)).beginAddr = (s.blk (.pool i)).beginAddr + newsz ∧
      (s₂.blk (.pool j)).endAddr = (s.blk (.pool i)).endAddr := by
    have h1 := hdata₁ j
    have h2 := hdata₂ j
    simp [MemBlock.data, hji] at h1 h2
    simp [h1, h2]
  have hkeep : ∀ {k}, k ≠ i → k ≠ j → (s₂.blk (.pool k)).data = (s.blk (.pool k)).data := by
    intro k hki hkj
    rw [hdata₂ k, if_neg hki, hdata₁ k, if_neg hki, if_neg hkj]
  refine ⟨s₁, s₂, hs₁, hs₂, hwf₂, ?_, hdi.2.1, hheap₁.trans hheap₂, hdi.2.2, hdi.2.1.ge,
    hdi.2.1.trans_le hle, fun k => ?_, fun k hk => ?_, fun k hu => ?_⟩
  · -- the remainder ends where the old block ended and begins further right
    have hnd := h.nodup
    simp only [List.nodup_append, List.nodup_cons, List.mem_cons] at hnd
    simp only [List.mem_append, List.mem_cons, not_or] at hjl
    have hk₁ : ∀ k ∈ m₁, (s₂.blk (.pool k)).data = (s.blk (.pool k)).data := fun k hk =>
      hkeep (hnd.2.2 k hk i (.inl rfl)) (fun e => hjl.1 (e ▸ hk))
    have hk₂ : ∀ k ∈ m₂, (s₂.blk (.pool k)).data = (s.blk (.pool k)).data := fun k hk =>
      hkeep (fun e => hnd.2.1.1 (e ▸ hk)) (fun e => hjl.2.2 (e ▸ hk))
    have hb₁ := fun k hk => (data_eq_iff.mp (hk₁ k hk)).2.2.2
    have hb₂ := fun k hk => (data_eq_iff.mp (hk₂ k hk)).2.2.2
    refine List.Pairwise.isChain (List.pairwise_append.mpr
      ⟨?_, List.pairwise_cons.mpr ⟨?_, ?_⟩, ?_⟩)
    · refine hpw.1.imp_of_mem (fun {a b} ha hb hab => ?_)
      rw [(hb₁ a ha).2, (hb₁ b hb).1]
      exact hab
    · intro b hb
      rw [hdj.2.2, (hb₂ b hb).1]
      exact hpw.2.1.1 b hb
    · refine hpw.2.1.2.imp_of_mem (fun {a b} ha hb hab => ?_)
      rw [(hb₂ a ha).2, (hb₂ b hb).1]
      exact hab
    · intro a ha b hb
      rw [(hb₁ a ha).2]
      rcases List.mem_cons.mp hb with rfl | hb
      · have := hpw.2.2 a ha i (.inl rfl)
        rw [hdj.2.1]
        omega
      · rw [(hb₂ b hb).1]
        exact hpw.2.2 a ha b (.inr hb)
  · by_cases hki : k = i
    · rw [hki]
      simp [hdi.1]
    · by_cases hkj : k = j
      · rw [hkj]
        simp [hdj.1, hju, hji]
      · rw [(data_eq_iff.mp (hkeep hki hkj)).2.1]
        simp [hki]
  · refine hkeep ?_ ?_
    · rintro rfl
      simp [hi.2] at hk
    · rintro rfl
      simp [hju] at hk
  · by_cases hki : k = i
    · rw [hki]
      exact .inl ⟨by simp [hi.2], hdi.2.2, fun h => absurd rfl h⟩
    · by_cases hkj : k = j
      · rw [hkj]
        exact .inr ⟨hcut, hdj.2⟩
      · obtain ⟨-, e1, -, e2, e3⟩ := data_eq_iff.mp (hkeep hki hkj)
        exact .inl ⟨e1 ▸ hu, e2, fun _ => e3⟩

/-- A whole block is taken off the list. -/
theorem wholeDelete_spec {s : Pmm} {m₁ m₂ : List Nat} {i newsz : Nat} (h : Wf s (m₁ ++ i :: m₂))
    (hc : Canon s (m₁ ++ i :: m₂)) (hpos : 0 < newsz) (hle : newsz ≤ (s.blk (.pool i)).size) :
    ∃ s', freeDelete s (.pool i) = .ok s' ∧ Wf s' (m₁ ++ m₂) ∧ Canon s' (m₁ ++ m₂) ∧
      (s'.blk (.pool i)).size = (s.blk (.pool i)).size ∧ Taken s s' i newsz := by
  have hi := h.mem.mp (show i ∈ m₁ ++ i :: m₂ by simp)
  have hsz := h.sized hi.1 (by simp [hi.2])
  obtain ⟨s', hs', hwf, hheap, hdata⟩ := freeDelete_spec h (by omega)
  have hdi : (s'.blk (.pool i)).state = .allocated ∧
      (s'.blk (.pool i)).size = (s.blk (.pool i)).size ∧
      (s'.blk (.pool i)).beginAddr = (s.blk (.pool i)).beginAddr := by
    have := hdata i
    simp [MemBlock.data] at this
    simp [this]
  have hkeep : ∀ {k}, k ≠ i → (s'.blk (.pool k)).data = (s.blk (.pool k)).data := by
    intro k hki
    rw [hdata k, if_neg hki]
  refine ⟨s', hs', hwf, ?_, hdi.2.1, hheap, hdi.2.2, hle.trans hdi.2.1.ge, hdi.2.1.le, fun k => ?_,
    fun k hk => ?_, fun k hu => ?_⟩
  · have hpw : (m₁ ++ m₂).Pairwise
        fun i j => (s.blk (.pool i)).endAddr < (s.blk (.pool j)).beginAddr :=
      (h.canon_pairwise hc).sublist (by simp)
    refine (show Canon s (m₁ ++ m₂) from hpw.isChain).congr (fun k hk => hkeep ?_)
    rintro rfl
    have hst := (hwf.mem.mp hk).2
    rw [hdi.1] at hst
    cases hst
  · by_cases hki : k = i
    · rw [hki]
      simp [hdi.1]
    · rw [(data_eq_iff.mp (hkeep hki)).2.1]
      simp [hki]
  · refine hkeep ?_
    rintro rfl
    simp [hi.2] at hk
  · by_cases hki : k = i
    · rw [hki]
      exact .inl ⟨by simp [hi.2], hdi.2.2, fun h => absurd rfl h⟩
    · obtain ⟨-, e1, -, e2, e3⟩ := data_eq_iff.mp (hkeep hki)
      exact .inl ⟨e1 ▸ hu, e2, fun _ => e3⟩

/-- `free_find` either fails an assertion, because no free block is large enough
or a cut finds no unused descriptor, or it moves the first block that is large
enough, cut down below twice the rounded size, from the free to the allocated
ones. -/
theorem freeFind_spec {s : Pmm} {l : List Nat} {size newsz : Nat} (h : Wf s l) (hc : Canon s l)
    (hround : newszLoop size 32 1024 = .ok newsz) (hr : Rounded size newsz) :
    (freeFind s size = .error .assertion ∧
      ((∀ k ∈ l, (s.blk (.pool k)).size < newsz) ∨
        ∀ k, k < poolSize → (s.blk (.pool k)).state ≠ .unused)) ∨
    ∃ m₁ i m₂ s' l', l = m₁ ++ i :: m₂ ∧ freeFind s size = .ok (.pool i, s') ∧ Wf s' l' ∧
      Canon s' l' ∧ (∀ k ∈ m₁, (s.blk (.pool k)).size < newsz) ∧
      (s'.blk (.pool i)).size < 2 * newsz ∧ Taken s s' i newsz := by
  have hpos := hr.pos
  obtain ⟨n, L, hn, hhead⟩ := h.head_next
  have hfuel : l.length < listFuel := Nat.lt_succ_of_le h.length_le
  have hnil : Wf s ([] ++ l) := h
  have hlefts : lefts [] = [] ++ [Ptr.head] := rfl
  rcases freeFindLoop_spec newsz hnil hlefts hn (by simp) hfuel with
    ⟨hloop, hsmall⟩ | ⟨m₁, i, m₂, hl, hloop, hge, hsmall⟩
  · refine .inl ⟨?_, .inl (by simpa using hsmall)⟩
    unfold freeFind
    rw [hround, ok_bind, load_bind s (by simp), hhead, hloop, ok_bind, check_neg (by simp),
      error_bind]
  · rw [List.nil_append] at hl
    subst hl
    have hstart : freeFind s size = (do
        let s ← if 2 * newsz % 2 ^ 32 ≤ (s.blk (.pool i)).size then freeCut s (.pool i) newsz
          else pure s
        let s ← freeDelete s (.pool i)
        return (.pool i, s)) := by
      unfold freeFind
      rw [hround, ok_bind, load_bind s (by simp), hhead, hloop, ok_bind, check_bind (by simp),
        load_bind s (by simp), check_bind hge]
    by_cases hcut : 2 * newsz % 2 ^ 32 ≤ (s.blk (.pool i)).size
    · rw [hstart, if_pos hcut]
      cases hj : getUnusedBlock s with
      | error e =>
        cases findBlock_error hj
        refine .inl ⟨by simp [freeCut, hj], .inr (fun k hk hu => ?_)⟩
        obtain ⟨j, hj'⟩ :=
          findBlock_of (s := s) (p := fun b => b.state == .unused) hk (by simp [hu])
        rw [getUnusedBlock, hj'] at hj
        cases hj
      | ok j =>
        obtain ⟨s₁, s₂, hs₁, hs₂, hwf, hc', hsz, htaken⟩ := cutDelete_spec h hc hj hpos hge hcut
        refine .inr ⟨m₁, i, m₂, s₂, _, rfl, ?_, hwf, hc', hsmall, by omega, htaken⟩
        rw [hs₁, ok_bind]
        simp only [hs₂, ok_bind, pure_eq_ok]
    · -- twice the size did not wrap around, for the block is not shorter than `0`
      have hdouble : 2 * newsz % 2 ^ 32 = 2 * newsz := by
        rcases hr.double with ⟨-, hd⟩ | ⟨-, hd⟩
        · exact hd
        · omega
      obtain ⟨s', hs', hwf, hc', hsz, htaken⟩ := wholeDelete_spec h hc hpos hge
      refine .inr ⟨m₁, i, m₂, s', _, rfl, ?_, hwf, hc', hsmall, by omega, htaken⟩
      rw [hstart, if_neg hcut, pure_eq_ok, ok_bind]
      simp only [hs', ok_bind, pure_eq_ok]

end OsWorkbench.Alloc
