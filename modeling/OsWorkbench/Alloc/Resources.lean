import OsWorkbench.Alloc.Grants

/-!
# Requests and the resources they need

No assertion of the allocator fails for another reason than a lack of memory or of
descriptors, as long as no descriptor in use is empty. Free blocks do not touch each other,
so there is at most one more of them than allocated ones, and 2047 allocations leave an
unused descriptor.

An empty descriptor comes from the 32-bit arithmetic of `free_find`. A request above
`2 ^ 30` is rounded to `2 ^ 31`, and `2 * newsz` is then `0`: a block of `2 ^ 31` bytes is
cut although nothing is left over. Above `2 ^ 31`, the rounding does not end.
-/

namespace OsWorkbench.Alloc

section Resources

variable {lo hi : Nat} {s s' : Pmm} {o : Op} {size newsz : Nat}

/-! ## Counting descriptors -/

/-- There is at most one more free block than allocated ones. -/
theorem Inv.freeNodes_length_le (h : Inv s) (hs : Solid s) :
    (freeNodes s).length ≤ (inState s .allocated).card + 1 := by
  obtain ⟨l, hwf, hc⟩ := h
  rw [hwf.freeNodes_eq]
  have hused : ∀ i ∈ l, i < poolSize ∧ (s.blk (.pool i)).state ≠ .unused := fun i hi =>
    ⟨(hwf.mem.mp hi).1, by simp [(hwf.mem.mp hi).2]⟩
  refine hwf.tiles.length_le (fun i hi => used_of (hused i hi).1 (hused i hi).2)
    (fun i hi => hs i (hused i hi).1 (hused i hi).2) (hwf.canon_pairwise hc) ?_
  intro k a b hk _
  obtain ⟨hlt, hu, -⟩ := used_some.mp hk
  cases hst : (s.blk (.pool k)).state with
  | unused => exact absurd hst hu
  | unallocated => exact .inl (hwf.mem.mpr ⟨hlt, hst⟩)
  | allocated => exact .inr (mem_inState.mpr ⟨hlt, hst⟩)

/-- With at most 2047 allocated blocks, a descriptor is unused. -/
theorem Inv.exists_unused (h : Inv s) (hs : Solid s) (hfew : (inState s .allocated).card ≤ 2047) :
    ∃ k, k < poolSize ∧ (s.blk (.pool k)).state = .unused := by
  by_contra hno
  push Not at hno
  have hfree := h.freeNodes_length_le hs
  obtain ⟨l, hwf, -⟩ := h
  rw [hwf.freeNodes_eq] at hfree
  have hall : Finset.range poolSize ⊆ l.toFinset ∪ inState s .allocated := by
    intro k hk
    have hk := Finset.mem_range.mp hk
    rw [Finset.mem_union, List.mem_toFinset, hwf.mem, mem_inState]
    cases hst : (s.blk (.pool k)).state with
    | unused => exact absurd hst (hno k hk)
    | unallocated => exact .inl ⟨hk, rfl⟩
    | allocated => exact .inr ⟨hk, rfl⟩
  have hcard := (Finset.card_le_card hall).trans (Finset.card_union_le _ _)
  have hl := l.toFinset_card_le
  rw [Finset.card_range, poolSize] at hcard
  omega

/-- A request that fits a free block is granted, if a descriptor is unused. -/
theorem Inv.kalloc_fits (h : Inv s) (hpos : 0 < size) (hsz : size ≤ 2 ^ 31)
    (hunused : ∃ k, k < poolSize ∧ (s.blk (.pool k)).state = .unused)
    (hnew : IsLeast { n | (∃ e, n = 2 ^ e) ∧ max size 1024 ≤ n } newsz)
    (hfit : ∃ iv ∈ freeIntervals s, iv.1 + newsz ≤ iv.2) :
    ∃ p s', kalloc s size = .ok (p, s') ∧ p ≠ 0 := by
  obtain ⟨n, hr, ⟨-, hwhy⟩ | ⟨i, s', hok, hne, -⟩⟩ := kalloc_spec h hpos hsz
  · obtain rfl := hr.isLeast.unique hnew
    exfalso
    rcases hwhy with hsmall | hfull
    · obtain ⟨iv, hiv, hfit⟩ := hfit
      obtain ⟨k, hk, hks, rfl⟩ := h.freeInterval_iff.mp hiv
      have hend := h.end_eq hk (by simp [hks])
      have := hsmall k hk hks
      simp only [interval] at hfit
      omega
    · obtain ⟨k, hk, hks⟩ := hunused
      exact hfull k hk hks
  · exact ⟨_, s', hok, hne⟩

/-! ## Calls that cut off no empty block -/

/-- A request above `2 ^ 30` meets a block of `2 ^ 31` bytes, as the lowest that fits. -/
def CutsEmpty (s : Pmm) (size : Nat) : Prop :=
  2 ^ 30 < size ∧ ∃ iv ∈ freeIntervals s, iv.1 + 2 ^ 31 = iv.2 ∧
    ∀ jv ∈ freeIntervals s, jv.1 + 2 ^ 31 ≤ jv.2 → iv.1 ≤ jv.1

/-- A call that cuts off no empty block. -/
def Careful (s : Pmm) : Op → Prop
  | .alloc size => ¬CutsEmpty s size
  | _ => True

/-- The states that calls of `kalloc` and `kfree` allowed by `P` reach. -/
inductive Calls (lo hi : Nat) (P : Pmm → Op → Prop) (s₀ : Pmm) : Pmm → Prop
  | start : Calls lo hi P s₀ s₀
  | call {s s' : Pmm} {o : Op} : Calls lo hi P s₀ s → o ≠ .init → P s o →
      step lo hi s o = .ok s' → Calls lo hi P s₀ s'

/-- A state between two calls, without empty blocks unless the heap is empty. -/
structure Steady (lo hi : Nat) (s : Pmm) : Prop where
  inv : Inv s
  pmStart : s.pmStart = lo
  pmEnd : s.pmEnd = hi
  solid : lo < hi → Solid s

theorem Granted.solid_of_careful {i : Nat} (h : Granted s s' i newsz) (hinv : Inv s)
    (hinv' : Inv s') (hr : Rounded size newsz) (hs : Solid s) (hc : ¬CutsEmpty s size) :
    Solid s' := by
  refine h.solid hinv hinv' hr hs ?_
  by_contra hno
  push Not at hno
  obtain ⟨hnew, hsz⟩ := hno
  have h31 : newsz = 2 ^ 31 := (hr.double.resolve_left fun hd => absurd hd.1 (not_le.mpr hnew)).1
  have hbig : 2 ^ 30 < size := by
    by_contra hle
    have := hr.least 30 (by decide) (not_lt.mp hle)
    omega
  have hend := hinv.end_eq h.lt (by simp [h.free])
  refine hc ⟨hbig, interval s i, hinv.freeInterval_iff.mpr ⟨i, h.lt, h.free, rfl⟩, ?_, ?_⟩
  · simp only [interval]
    omega
  · intro jv hjv hfit
    obtain ⟨k, hk, hks, rfl⟩ := hinv.freeInterval_iff.mp hjv
    have hendk := hinv.end_eq hk (by simp [hks])
    simp only [interval] at hfit ⊢
    exact h.first k hk hks (by omega)

theorem Steady.served (h : Steady lo hi s) (hinv' : Inv s') (hc : Careful s o)
    (hs : Served s s' o) : Steady lo hi s' := by
  cases hs with
  | zero he => exact he ▸ h
  | grant _ hr hg =>
    exact ⟨hinv', hg.pmStart.trans h.pmStart, hg.pmEnd.trans h.pmEnd, fun hlt =>
      hg.solid_of_careful h.inv hinv' hr (h.solid hlt) hc⟩
  | release _ _ hrel =>
    exact ⟨hinv', hrel.pmStart.trans h.pmStart, hrel.pmEnd.trans h.pmEnd, fun hlt =>
      hrel.solid (h.solid hlt)⟩

theorem Steady.init (s₀ : Pmm) (hlo : 0 < lo) (hle : lo ≤ hi) (hhi : hi < 2 ^ 32) :
    Steady lo hi (pmmInit s₀ lo hi) :=
  ⟨(pmmInit_spec s₀ hlo hle hhi).1, rfl, rfl, fun hlt => pmmInit_solid s₀ hlo hlt hhi⟩

theorem Steady.calls {P : Pmm → Op → Prop} (hP : ∀ {t o}, P t o → Careful t o)
    (h : Steady lo hi s) (hc : Calls lo hi P s s') : Steady lo hi s' := by
  induction hc with
  | start => exact h
  | call _ ho hp hs ih =>
    obtain ⟨hinv', hserved⟩ := step_served ih.inv ho hs
    exact ih.served hinv' (hP hp) hserved

/-- Where there is an allocated block or one that a request fits, there is a heap. -/
theorem Steady.solid_of_used (h : Steady lo hi s) {k a : Nat} (hk : k < poolSize)
    (hu : (s.blk (.pool k)).state ≠ .unused)
    (ha : (s.blk (.pool k)).beginAddr ≤ a ∧ a < (s.blk (.pool k)).endAddr) : Solid s := by
  refine h.solid ?_
  obtain ⟨l, hwf, -⟩ := h.inv
  have hb := hwf.bounds hk hu
  rw [h.pmStart, h.pmEnd] at hb
  omega

/-- `kfree` of an allocated block returns. -/
theorem Steady.kfree_returns (h : Steady lo hi s) {i : Nat} (hi : i < poolSize)
    (ha : (s.blk (.pool i)).state = .allocated) :
    findAllocatedBlock s (s.blk (.pool i)).beginAddr = .ok i ∧
      ∃ s', kfree s (s.blk (.pool i)).beginAddr = .ok s' := by
  obtain ⟨hfind, ⟨-, hns⟩ | ⟨s', hok, -⟩⟩ := kfree_spec h.inv hi ha
  · obtain ⟨l, hwf, -⟩ := id h.inv
    exact absurd (h.solid_of_used hi (by simp [ha]) ⟨le_rfl, hwf.full hi ha⟩) hns
  · exact ⟨hfind, s', hok⟩

/-- The descriptor under which `kalloc` grants a block is that of `free_find`. -/
theorem kalloc_entry (h : Inv s) (hpos : 0 < size) {p : Nat} (hk : kalloc s size = .ok (p, s')) :
    ∃ i s₁, freeFind s size = .ok (.pool i, s₁) ∧ i < poolSize ∧
      (s'.blk (.pool i)).state = .allocated ∧ (s'.blk (.pool i)).beginAddr = p := by
  have hle : size ≤ 2 ^ 31 := by
    by_contra hlarge
    rw [kalloc_diverges s (not_le.mp hlarge)] at hk
    cases hk
  rw [kalloc, if_neg (Nat.ne_of_gt hpos)] at hk
  obtain ⟨⟨block, s₁⟩, hfind, hk⟩ := bind_eq_ok.mp hk
  obtain ⟨n, hround, hr⟩ := newszLoop_rounded hle
  obtain ⟨l, hwf, hc⟩ := h
  rcases freeFind_spec hwf hc hround hr with
    ⟨herr, -⟩ | ⟨m₁, i, m₂, s₂, l', rfl, hok, -, -, -, -, htaken⟩
  · rw [herr] at hfind
    cases hfind
  · rw [hok] at hfind
    cases hfind
    have hi := (hwf.mem.mp (List.mem_append_right m₁ List.mem_cons_self)).1
    refine ⟨i, s₁, hok, hi, ?_⟩
    simp only at hk
    rw [load_bind _ (by simp)] at hk
    obtain ⟨_, -, hk⟩ := bind_eq_ok.mp hk
    obtain ⟨_, -, hk⟩ := bind_eq_ok.mp hk
    cases hk
    exact ⟨(htaken.live i).mpr (.inr rfl), rfl⟩

/-- What `kalloc` granted is freed as what it was, while nothing else frees it. -/
theorem Steady.entry_found (h : Steady lo hi s) (hpos : 0 < size) (hc : Careful s (.alloc size))
    {p : Nat} (hk : kalloc s size = .ok (p, s')) :
    ∃ i s₁, freeFind s size = .ok (.pool i, s₁) ∧
      ∀ t, Calls lo hi (fun t o => Careful t o ∧ o ≠ .free p) s' t →
        findAllocatedBlock t p = .ok i ∧ ∃ t', kfree t p = .ok t' := by
  obtain ⟨i, s₁, hfind, hlt, ha, hp⟩ := kalloc_entry h.inv hpos hk
  have hstep : step lo hi s (.alloc size) = .ok s' := by rw [step, hk]; rfl
  obtain ⟨hinv', hserved⟩ := step_served h.inv (by simp) hstep
  have h' := h.served hinv' hc hserved
  have hall : ∀ t, Calls lo hi (fun t o => Careful t o ∧ o ≠ .free p) s' t → Steady lo hi t :=
    fun t ht => h'.calls And.left ht
  refine ⟨i, s₁, hfind, fun t ht => ?_⟩
  have hkeep : (t.blk (.pool i)).state = .allocated ∧ (t.blk (.pool i)).beginAddr = p := by
    induction ht with
    | start => exact ⟨ha, hp⟩
    | call hc' ho hP hs ih =>
      obtain ⟨hat, hpt⟩ := ih
      obtain ⟨-, hserved'⟩ := step_served (hall _ hc').inv ho hs
      obtain ⟨ha', hd⟩ := hserved'.keeps hat (hpt ▸ hP.2)
      exact ⟨ha', (data_eq_iff.mp hd).2.2.2.1.trans hpt⟩
  have hret := (hall t ht).kfree_returns hlt hkeep.1
  rwa [hkeep.2] at hret

/-- A call allocates at most one block. -/
theorem Served.card_le (h : Served s s' o) :
    (inState s' .allocated).card ≤ (inState s .allocated).card + 1 := by
  cases h with
  | zero he => exact he ▸ Nat.le_succ _
  | grant _ _ hg =>
    rw [hg.inState_eq]
    exact Finset.card_insert_le _ _
  | release _ _ hrel =>
    rw [hrel.inState_eq]
    exact (Finset.card_erase_le).trans (Nat.le_succ _)

theorem run_card_le {os : List Op} (h : Inv s) (hos : ∀ o ∈ os, o ≠ .init)
    (hr : run (step lo hi) s os = .ok s') :
    (inState s' .allocated).card ≤ (inState s .allocated).card + os.length := by
  induction os generalizing s with
  | nil =>
    cases hr
    exact Nat.le_add_right _ _
  | cons o os ih =>
    obtain ⟨t, ht, hr⟩ := run_cons.mp hr
    obtain ⟨hinv, hserved⟩ := step_served h (hos o (by simp)) ht
    have h1 := hserved.card_le
    have h2 := ih hinv (fun o ho => hos o (by simp [ho])) hr
    rw [List.length_cons]
    omega

end Resources

/-- In every state that calls of `kalloc` and `kfree` reach without cutting off an empty
block: a request that fits a free block is granted while at most 2047 blocks are allocated;
`kfree` of an allocated block finds its descriptor and returns, and the descriptor is the
one that `kalloc` returned the block from. -/
theorem calls_served {lo hi : Nat} (hlo : 0 < lo) (hle : lo ≤ hi) (hhi : hi < 2 ^ 32) (s₀ : Pmm)
    {s : Pmm} (h : Calls lo hi Careful (pmmInit s₀ lo hi) s) :
    ((inState s .allocated).card ≤ 2047 → ∀ size newsz, 0 < size → size ≤ 2 ^ 30 →
      IsLeast { n | (∃ e, n = 2 ^ e) ∧ max size 1024 ≤ n } newsz →
      (∃ iv ∈ freeIntervals s, iv.1 + newsz ≤ iv.2) →
      ∃ p s', kalloc s size = .ok (p, s') ∧ p ≠ 0) ∧
    (∀ i, i < poolSize → (s.blk (.pool i)).state = .allocated →
      findAllocatedBlock s (s.blk (.pool i)).beginAddr = .ok i ∧
        ∃ s', kfree s (s.blk (.pool i)).beginAddr = .ok s') ∧
    ∀ size p s', 0 < size → Careful s (.alloc size) → kalloc s size = .ok (p, s') →
      ∃ i s₁, freeFind s size = .ok (.pool i, s₁) ∧
        ∀ t, Calls lo hi (fun t o => Careful t o ∧ o ≠ .free p) s' t →
          findAllocatedBlock t p = .ok i ∧ ∃ t', kfree t p = .ok t' := by
  have hst := (Steady.init s₀ hlo hle hhi).calls id h
  refine ⟨fun hfew size newsz hpos hsz hnew hfit => ?_, fun i hi ha => hst.kfree_returns hi ha,
    fun size p s' hpos hc hk => hst.entry_found hpos hc hk⟩
  obtain ⟨iv, hiv, hroom⟩ := id hfit
  obtain ⟨k, hk, hks, rfl⟩ := hst.inv.freeInterval_iff.mp hiv
  have hpos' : 0 < newsz := by
    have := (le_max_right _ _).trans hnew.1.2
    omega
  have hsolid := hst.solid_of_used (a := (s.blk (.pool k)).beginAddr) hk (by simp [hks])
    ⟨le_rfl, by simp only [interval] at hroom; omega⟩
  exact hst.inv.kalloc_fits hpos (hsz.trans (by decide)) (hst.inv.exists_unused hsolid hfew)
    hnew hfit

theorem calls_served_one_block :
    ∃ s, Calls 1048576 2097152 Careful (pmmInit .zero 1048576 2097152) s ∧
      ∃ p s', kalloc s 1000 = .ok (p, s') ∧ p ≠ 0 := by
  obtain ⟨s, hs, hroom⟩ := exists_of_test
    (f := fun s => (freeIntervals s).any fun iv => decide (iv.1 + 1024 ≤ iv.2))
    (x := step 1048576 2097152 (pmmInit .zero 1048576 2097152) (.alloc 100)) (by decide +kernel)
  have hcalls : Calls 1048576 2097152 Careful (pmmInit .zero 1048576 2097152) s :=
    .call .start (by simp) (fun hcut => absurd hcut.1 (by decide)) hs
  have hinit : Inv (pmmInit .zero 1048576 2097152) :=
    (pmmInit_spec .zero (by decide) (by decide) (by decide)).1
  obtain ⟨-, hserved⟩ := step_served hinit (by simp) hs
  have hcard := hserved.card_le
  rw [pmmInit_allocated (by decide) (by decide) (by decide), Finset.card_empty] at hcard
  refine ⟨s, hcalls, (calls_served (by decide) (by decide) (by decide) .zero hcalls).1 (by omega)
    1000 1024 (by decide) (by decide) ⟨⟨⟨10, rfl⟩, by decide⟩, fun n hn => ?_⟩ ?_⟩
  · exact (le_max_right _ _).trans hn.2
  · obtain ⟨iv, hiv, hfit⟩ := List.any_eq_true.mp hroom
    exact ⟨iv, hiv, of_decide_eq_true hfit⟩

/-- On a heap of 3 GB: two blocks of `2 ^ 30` bytes and one behind them, the two freed, and a
request for `2 ^ 31` bytes. The empty rest of it begins where the block behind begins. -/
theorem kfree_behind_empty_rest :
    ∃ s i, run (step 1048576 3222274048) .zero [.init, .alloc (2 ^ 30), .alloc (2 ^ 30),
        .alloc 1024, .free 1048576, .free (1048576 + 2 ^ 30), .alloc (2 ^ 31)] = .ok s ∧
      (inState s .allocated).card ≤ 2047 ∧ i < poolSize ∧ (s.blk (.pool i)).state = .allocated ∧
      (s.blk (.pool i)).beginAddr = 1048576 + 2 ^ 31 ∧
      kfree s (s.blk (.pool i)).beginAddr = .error .assertion := by
  obtain ⟨s, hs, htest⟩ := exists_of_test (f := fun s =>
      (s.blk (.pool 2)).state == .allocated && (s.blk (.pool 2)).beginAddr == 1048576 + 2 ^ 31 &&
      match kfree s (1048576 + 2 ^ 31) with
      | .error .assertion => true
      | _ => false)
    (x := run (step 1048576 3222274048) .zero [.init, .alloc (2 ^ 30), .alloc (2 ^ 30),
      .alloc 1024, .free 1048576, .free (1048576 + 2 ^ 30), .alloc (2 ^ 31)]) (by decide +kernel)
  simp only [Bool.and_eq_true, beq_iff_eq] at htest
  obtain ⟨⟨ha, hb⟩, hfree⟩ := htest
  refine ⟨s, 2, hs, ?_, by decide, ha, hb, ?_⟩
  · obtain ⟨t, ht, hr⟩ := run_cons.mp hs
    cases ht
    have hinit : Inv (pmmInit .zero 1048576 3222274048) :=
      (pmmInit_spec .zero (by decide) (by decide) (by decide)).1
    have hcard := run_card_le hinit (by simp) hr
    rw [pmmInit_allocated (by decide) (by decide) (by decide), Finset.card_empty] at hcard
    simp only [List.length_cons, List.length_nil] at hcard
    omega
  · rw [hb]
    revert hfree
    cases kfree s (1048576 + 2 ^ 31) with
    | ok _ => simp
    | error e => cases e <;> simp

/-! ## The arithmetic of a request -/

section Rounding

variable {s : Pmm} {size newsz : Nat}

/-- What a request gets from `free_find` when its arithmetic is right. The doubling ends
with `newsz`, not below the request. `2 * newsz` is below `2 ^ 32` whenever a block is
compared with it. The call returns a block of at least `size` bytes, or it stops at an
assertion for lack of memory or of descriptors. A descriptor that comes into use is not
empty. -/
def SafeFind (s : Pmm) (size : Nat) : Prop :=
  ∃ fuel newsz, newszLoop size fuel 1024 = .ok newsz ∧ size ≤ newsz ∧
    (∀ i, freeFindLoop s newsz listFuel (s.blk .head).next = .ok (.pool i) →
      2 * newsz < 2 ^ 32) ∧
    ((freeFind s size = .error .assertion ∧
        ((∀ iv ∈ freeIntervals s, iv.2 < iv.1 + newsz) ∨
          ∀ k, k < poolSize → (s.blk (.pool k)).state ≠ .unused)) ∨
      ∃ block s', freeFind s size = .ok (block, s') ∧ size ≤ (s'.blk block).size ∧
        ∀ k, k < poolSize → (s.blk (.pool k)).state = .unused →
          (s'.blk (.pool k)).state ≠ .unused →
          (s'.blk (.pool k)).beginAddr < (s'.blk (.pool k)).endAddr)

theorem newszLoop_unique {f f' x a b : Nat} (h : newszLoop size f x = .ok a)
    (h' : newszLoop size f' x = .ok b) : a = b := by
  induction f generalizing x f' with
  | zero => cases h
  | succ f ih =>
    cases f' with
    | zero => cases h'
    | succ f' =>
      rw [newszLoop] at h h'
      split at h
      · next hlt =>
        rw [if_pos hlt] at h'
        exact ih h h'
      · next hlt =>
        rw [if_neg hlt] at h'
        cases h
        cases h'
        rfl

/-- The search passes the whole list if no block is large enough, and finds one else. -/
theorem Inv.freeFindLoop_spec (h : Inv s) (newsz : Nat) :
    (freeFindLoop s newsz listFuel (s.blk .head).next = .ok .tail ∧
      ∀ iv ∈ freeIntervals s, iv.2 < iv.1 + newsz) ∨
    ((∃ i, freeFindLoop s newsz listFuel (s.blk .head).next = .ok (.pool i)) ∧
      ∃ iv ∈ freeIntervals s, iv.1 + newsz ≤ iv.2) := by
  obtain ⟨l, hwf, hc⟩ := id h
  obtain ⟨n, L, hn, hhead⟩ := hwf.head_next
  rw [hhead]
  have hf : l.length < listFuel := Nat.lt_succ_of_le hwf.length_le
  have hnil : Wf s ([] ++ l) := hwf
  have hleft : lefts [] = [] ++ [Ptr.head] := rfl
  rcases Alloc.freeFindLoop_spec newsz hnil hleft hn (by simp) hf
    with ⟨hloop, hsmall⟩ | ⟨m₁, i, m₂, hl, hloop, hfit, -⟩
  · refine .inl ⟨hloop, fun iv hiv => ?_⟩
    obtain ⟨k, hk, hks, rfl⟩ := h.freeInterval_iff.mp hiv
    have hend := h.end_eq hk (by simp [hks])
    have := hsmall k (hwf.mem.mpr ⟨hk, hks⟩)
    simp only [interval]
    omega
  · rw [List.nil_append] at hl
    obtain ⟨hi, his⟩ := hwf.mem.mp (hl ▸ List.mem_append_right m₁ List.mem_cons_self)
    have hend := h.end_eq hi (by simp [his])
    refine .inr ⟨⟨i, hloop⟩, _, h.freeInterval_iff.mpr ⟨i, hi, his, rfl⟩, ?_⟩
    simp only [interval]
    omega

/-- A request that is rounded to at most `2 ^ 30`. -/
theorem Inv.safeFind_small (h : Inv s) (hsz : size ≤ 2 ^ 30) : SafeFind s size := by
  obtain ⟨newsz, hround, hr⟩ := newszLoop_rounded (hsz.trans (by decide))
  have hnew : newsz ≤ 2 ^ 30 := hr.least 30 (by decide) hsz
  have hpos := hr.pos
  refine ⟨32, newsz, hround, hr.le, fun _ _ => by omega, ?_⟩
  obtain ⟨l, hwf, hc⟩ := id h
  rcases freeFind_spec hwf hc hround hr with
    ⟨herr, hwhy⟩ | ⟨m₁, i, m₂, s', l', hl, hok, -, -, -, -, htaken⟩
  · refine .inl ⟨herr, hwhy.imp_left fun hsmall iv hiv => ?_⟩
    obtain ⟨k, hk, hks, rfl⟩ := h.freeInterval_iff.mp hiv
    have hend := h.end_eq hk (by simp [hks])
    have := hsmall k (hwf.mem.mpr ⟨hk, hks⟩)
    simp only [interval]
    omega
  · refine .inr ⟨.pool i, s', hok, hr.le.trans htaken.le_size, fun k hk hu hu' => ?_⟩
    obtain ⟨hi, his⟩ := hwf.mem.mp (hl ▸ List.mem_append_right m₁ List.mem_cons_self)
    have hend := h.end_eq hi (by simp [his])
    rcases htaken.rest k hu' with ⟨hused, -⟩ | ⟨hcut, hb, he⟩
    · exact absurd hu hused
    · rw [Nat.mod_eq_of_lt (by omega)] at hcut
      omega

/-- A request above `2 ^ 30`, when no block is large enough for it. -/
theorem Inv.safeFind_none (h : Inv s) (hsz : size ≤ 2 ^ 31) (hbig : 2 ^ 30 < size)
    (hno : ∀ iv ∈ freeIntervals s, iv.2 < iv.1 + 2 ^ 31) : SafeFind s size := by
  obtain ⟨newsz, hround, hr⟩ := newszLoop_rounded hsz
  have hnew : newsz = 2 ^ 31 :=
    (hr.double.resolve_left fun hd => absurd (hr.le.trans hd.1) (not_le.mpr hbig)).1
  rw [← hnew] at hno
  have hloop : freeFindLoop s newsz listFuel (s.blk .head).next = .ok .tail := by
    rcases h.freeFindLoop_spec newsz with ⟨hloop, -⟩ | ⟨-, iv, hiv, hfit⟩
    · exact hloop
    · exact absurd (hno iv hiv) (not_lt.mpr hfit)
  refine ⟨32, newsz, hround, hr.le, fun i hi => ?_, .inl ⟨?_, .inl hno⟩⟩
  · rw [hloop] at hi
    cases hi
  · rw [freeFind, hround, ok_bind, load_bind _ (by simp), hloop, ok_bind, check_neg (by simp)]
    rfl

end Rounding

/-- The arithmetic of `free_find` is right for a request up to `2 ^ 30`, and for one up to
`2 ^ 31` where no free block reaches that size. -/
theorem safeFind_iff {s : Pmm} (h : Inv s) {size : Nat} :
    SafeFind s size ↔
      size ≤ 2 ^ 30 ∨ (size ≤ 2 ^ 31 ∧ ∀ iv ∈ freeIntervals s, iv.2 < iv.1 + 2 ^ 31) := by
  constructor
  · rintro ⟨fuel, newsz, hround, hle, hwrap, -⟩
    by_cases hsmall : size ≤ 2 ^ 30
    · exact .inl hsmall
    have hsz : size ≤ 2 ^ 31 := by
      by_contra hlarge
      rw [newszLoop_diverges (not_le.mp hlarge)] at hround
      cases hround
    obtain ⟨n, hn, hr⟩ := newszLoop_rounded hsz
    obtain rfl := newszLoop_unique hround hn
    have hnew : newsz = 2 ^ 31 :=
      (hr.double.resolve_left fun hd => hsmall (hr.le.trans hd.1)).1
    rcases h.freeFindLoop_spec newsz with ⟨-, hno⟩ | ⟨⟨i, hloop⟩, -⟩
    · exact .inr ⟨hsz, hnew ▸ hno⟩
    · have := hwrap i hloop
      omega
  · rintro (hsmall | ⟨hsz, hno⟩)
    · exact h.safeFind_small hsmall
    · rcases Nat.lt_or_ge (2 ^ 30) size with hbig | hsmall
      · exact h.safeFind_none hsz hbig hno
      · exact h.safeFind_small hsmall

theorem safeFind_iff_one_block : SafeFind (pmmInit .zero 1048576 2097152) 5000 :=
  (safeFind_iff (pmmInit_spec .zero (by decide) (by decide) (by decide)).1).mpr (.inl (by decide))

/-- A request above `2 ^ 31` spins on the smallest heap, and one of `2 ^ 31` bytes cuts off an
empty block on a heap of that size. -/
theorem free_find_spins_and_cuts :
    (Inv (pmmInit .zero 1048576 2097152) ∧
      ¬SafeFind (pmmInit .zero 1048576 2097152) (2 ^ 31 + 1) ∧
      ∀ fuel, newszLoop (2 ^ 31 + 1) fuel 1024 = .error .diverges) ∧
    ∃ s, kalloc (pmmInit .zero 1048576 (1048576 + 2 ^ 31)) (2 ^ 31) = .ok (1048576, s) ∧
      freeIntervals s = [(1048576 + 2 ^ 31, 1048576 + 2 ^ 31)] := by
  have hspin : ∀ fuel, newszLoop (2 ^ 31 + 1) fuel 1024 = .error .diverges := fun fuel =>
    newszLoop_diverges (by decide) fuel
  refine ⟨⟨(pmmInit_spec .zero (by decide) (by decide) (by decide)).1, ?_, hspin⟩, ?_⟩
  · rintro ⟨fuel, newsz, hround, -⟩
    rw [hspin fuel] at hround
    cases hround
  · obtain ⟨⟨p, s⟩, hk, ht⟩ := exists_of_test
      (f := fun r => r.1 == 1048576 &&
        freeIntervals r.2 == [(1048576 + 2 ^ 31, 1048576 + 2 ^ 31)])
      (x := kalloc (pmmInit .zero 1048576 (1048576 + 2 ^ 31)) (2 ^ 31)) (by decide +kernel)
    simp only [Bool.and_eq_true, beq_iff_eq] at ht
    obtain ⟨rfl, hfree⟩ := ht
    exact ⟨s, hk, hfree⟩

end OsWorkbench.Alloc
