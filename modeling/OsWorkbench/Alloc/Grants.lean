import OsWorkbench.Alloc.Accounts

/-!
# What `kalloc` returns

The block of a request: its length is the rounded size up to the double of it, its address
is the lowest one that fits and a multiple of 1 KB, it was free before, and it stays as it
is until it is freed.
-/

namespace OsWorkbench.Alloc

section Grants

variable {lo hi : Nat} {s s' : Pmm} {o : Op} {size newsz : Nat}

/-- The rounded size, as a power of two of its own. -/
theorem Rounded.isLeast (h : Rounded size newsz) :
    IsLeast { n | (∃ e, n = 2 ^ e) ∧ max size 1024 ≤ n } newsz := by
  obtain ⟨e, he, -, rfl⟩ := h.pow
  have hkb : ∀ m, 1024 ≤ 2 ^ m ↔ 10 ≤ m := fun m =>
    Nat.pow_le_pow_iff_right (a := 2) (n := 10) (by decide)
  refine ⟨⟨⟨e, rfl⟩, max_le h.le ((hkb e).mpr he)⟩, ?_⟩
  rintro n ⟨⟨m, rfl⟩, hm⟩
  exact h.least m ((hkb m).mp ((le_max_right _ _).trans hm)) ((le_max_left _ _).trans hm)

theorem Rounded.dvd (h : Rounded size newsz) : 1024 ∣ newsz := by
  obtain ⟨e, he, -, rfl⟩ := h.pow
  exact Nat.pow_dvd_pow 2 he

theorem Inv.freeInterval_iff (h : Inv s) {iv : Nat × Nat} : iv ∈ freeIntervals s ↔
    ∃ k, k < poolSize ∧ (s.blk (.pool k)).state = .unallocated ∧ interval s k = iv := by
  obtain ⟨l, hwf, -⟩ := h
  rw [freeIntervals, hwf.freeNodes_eq, List.mem_map]
  constructor
  · rintro ⟨k, hk, he⟩
    exact ⟨k, (hwf.mem.mp hk).1, (hwf.mem.mp hk).2, he⟩
  · rintro ⟨k, hk, hs, he⟩
    exact ⟨k, hwf.mem.mpr ⟨hk, hs⟩, he⟩

/-! ## Alignment -/

/-- Every block in use begins at a multiple of 1 KB. -/
def Aligned (s : Pmm) : Prop :=
  ∀ k, k < poolSize → (s.blk (.pool k)).state ≠ .unused → 1024 ∣ (s.blk (.pool k)).beginAddr

theorem Granted.aligned {i : Nat} (h : Granted s s' i newsz) (hr : Rounded size newsz)
    (ha : Aligned s) : Aligned s' := by
  intro k hk hu
  rcases h.rest k hu with ⟨hu', hb, -⟩ | ⟨-, hb, -⟩
  · rw [hb]
    exact ha k hk hu'
  · rw [hb]
    exact (ha i h.lt (by simp [h.free])).add hr.dvd

theorem Released.aligned {i : Nat} (h : Released s s' i) (ha : Aligned s) : Aligned s' := by
  intro k hk hu
  obtain ⟨hu', hb, -⟩ := h.grown k hu
  rw [hb]
  exact ha k hk hu'

theorem Served.aligned (h : Served s s' o) (ha : Aligned s) : Aligned s' := by
  cases h with
  | zero he => exact he ▸ ha
  | grant _ hr hg => exact hg.aligned hr ha
  | release _ _ hrel => exact hrel.aligned ha

theorem pmmInit_aligned (s₀ : Pmm) (hlo : 0 < lo) (hle : lo ≤ hi) (hhi : hi < 2 ^ 32)
    (hal : 1024 ∣ lo) : Aligned (pmmInit s₀ lo hi) := by
  intro k hk hu
  obtain ⟨-, -, hiv⟩ := (pmmInit_spec s₀ hlo hle hhi).2 k hk hu
  rwa [show ((pmmInit s₀ lo hi).blk (.pool k)).beginAddr = lo from congrArg Prod.fst hiv]

theorem run_aligned {os : List Op} {s₀ : Pmm} (hlo : 0 < lo) (hle : lo ≤ hi) (hhi : hi < 2 ^ 32)
    (hal : 1024 ∣ lo) (hos : ∀ o ∈ os, o ≠ .init)
    (hr : run (step lo hi) s₀ (.init :: os) = .ok s) : Inv s ∧ Aligned s := by
  obtain ⟨t, ht, hr⟩ := run_cons.mp hr
  cases ht
  refine run_invariant (I := fun t => Inv t ∧ Aligned t) (P := fun o => o ≠ .init) ?_
    ⟨(pmmInit_spec s₀ hlo hle hhi).1, pmmInit_aligned s₀ hlo hle hhi hal⟩ hos hr
  rintro t o t' ⟨hinv, hat⟩ ho ht
  obtain ⟨hinv', hserved⟩ := step_served hinv ho ht
  exact ⟨hinv', hserved.aligned hat⟩

/-! ## One call -/

/-- The end of a block in use, from its size. -/
theorem Inv.end_eq (h : Inv s) {i : Nat} (hi : i < poolSize)
    (hu : (s.blk (.pool i)).state ≠ .unused) :
    (s.blk (.pool i)).endAddr = (s.blk (.pool i)).beginAddr + (s.blk (.pool i)).size := by
  obtain ⟨l, hwf, -⟩ := h
  have hb := hwf.bounds hi hu
  have hsz := hwf.sized hi hu
  omega

/-- The recorded block of a granted request. -/
theorem Granted.recorded {i : Nat} (h : Granted s s' i newsz) (hinv' : Inv s') :
    findAllocatedBlock s' (s'.blk (.pool i)).beginAddr = .ok i ∧
    interval s' i =
      ((s'.blk (.pool i)).beginAddr, (s'.blk (.pool i)).beginAddr + (s'.blk (.pool i)).size) := by
  have ha : (s'.blk (.pool i)).state = .allocated := (h.live i).mpr (.inr rfl)
  have hend := hinv'.end_eq h.lt (by simp [ha])
  obtain ⟨l, hwf, -⟩ := hinv'
  exact ⟨findAllocatedBlock_spec hwf h.lt ha, Prod.ext rfl hend⟩

/-- The address of a granted request is the lowest one of the free blocks that fit. -/
theorem Granted.firstFit {i : Nat} (h : Granted s s' i newsz) (hinv : Inv s) :
    IsLeast { a | ∃ b, (a, b) ∈ freeIntervals s ∧ a + newsz ≤ b } (s'.blk (.pool i)).beginAddr := by
  rw [h.beginAddr]
  have hend := hinv.end_eq h.lt (by simp [h.free])
  have hle := h.le_size.trans h.size_le
  constructor
  · exact ⟨_, hinv.freeInterval_iff.mpr ⟨i, h.lt, h.free, rfl⟩, by omega⟩
  · rintro a ⟨b, hab, hfit⟩
    obtain ⟨k, hk, hks, he⟩ := hinv.freeInterval_iff.mp hab
    cases he
    have hendk := hinv.end_eq hk (by simp [hks])
    exact h.first k hk hks (by omega)

/-- The block of a granted request was a part of a free one. -/
theorem Granted.was_free {i : Nat} (h : Granted s s' i newsz) (hinv : Inv s) :
    ∃ iv ∈ freeIntervals s, iv.1 ≤ (s'.blk (.pool i)).beginAddr ∧
      (s'.blk (.pool i)).beginAddr + (s'.blk (.pool i)).size ≤ iv.2 := by
  have hend := hinv.end_eq h.lt (by simp [h.free])
  refine ⟨interval s i, hinv.freeInterval_iff.mpr ⟨i, h.lt, h.free, rfl⟩, h.beginAddr.ge, ?_⟩
  have hle := h.size_le
  rw [h.beginAddr, interval, hend]
  omega

end Grants

/-- What `kalloc` returns in any state that calls of `kalloc` and `kfree` reach: a block
below twice the rounded size, at the lowest address that fits, aligned and free before. The
other allocated blocks stay as they are until they are freed, whatever is called. -/
theorem kalloc_post {lo hi : Nat} (hlo : 0 < lo) (hle : lo ≤ hi) (hhi : hi < 2 ^ 32)
    (hal : 1024 ∣ lo) (s₀ : Pmm) {os : List Op} (hos : ∀ o ∈ os, o ≠ .init) {s s' : Pmm}
    (hr : run (step lo hi) s₀ (.init :: os) = .ok s) {size p : Nat} (hpos : 0 < size)
    (hk : kalloc s size = .ok (p, s')) :
    ∃ newsz b, IsLeast { n | (∃ e, n = 2 ^ e) ∧ max size 1024 ≤ n } newsz ∧
      newsz ≤ b ∧ b < 2 * newsz ∧
      (∃ i, findAllocatedBlock s' p = .ok i ∧ interval s' i = (p, p + b) ∧
        (s'.blk (.pool i)).size = b) ∧
      IsLeast { a | ∃ c, (a, c) ∈ freeIntervals s ∧ a + newsz ≤ c } p ∧
      1024 ∣ p ∧
      (∃ iv ∈ freeIntervals s, iv.1 ≤ p ∧ p + b ≤ iv.2) ∧
      ∀ k, k < poolSize → (s.blk (.pool k)).state = .allocated →
        ∀ os' t, (∀ o ∈ os', o ≠ .init ∧ o ≠ .free (s.blk (.pool k)).beginAddr) →
          run (step lo hi) s' os' = .ok t →
          (t.blk (.pool k)).state = .allocated ∧ interval t k = interval s k ∧
            (t.blk (.pool k)).size = (s.blk (.pool k)).size := by
  obtain ⟨hinv, hat⟩ := run_aligned hlo hle hhi hal hos hr
  rcases kalloc_ok hinv hk with ⟨rfl, -⟩ | ⟨-, hinv', i, newsz, hround, hg, rfl, -⟩
  · cases hpos
  have hat' := hg.aligned hround hat
  have ha' : (s'.blk (.pool i)).state = .allocated := (hg.live i).mpr (.inr rfl)
  obtain ⟨hfind, hiv⟩ := hg.recorded hinv'
  refine ⟨newsz, (s'.blk (.pool i)).size, hround.isLeast, hg.le_size, hg.size_lt,
    ⟨i, hfind, hiv, rfl⟩, hg.firstFit hinv, hat' i hg.lt (by simp [ha']), hg.was_free hinv, ?_⟩
  intro k hk hks os' t hos' hr'
  have hd := hg.data k hks
  obtain ⟨-, -, -, hb, -⟩ := data_eq_iff.mp hd
  obtain ⟨-, hkt, hdt⟩ := run_keeps hinv' ((hg.live k).mpr (.inl hks)) (hb ▸ hos') hr'
  obtain ⟨-, -, hsz, hb, he⟩ := data_eq_iff.mp (hdt.trans hd)
  exact ⟨hkt, Prod.ext hb he, hsz⟩

theorem kalloc_post_two_blocks :
    ∃ s s' p, run (step 1048576 2097152) .zero [.init, .alloc 100, .alloc 2000, .free 1048576] =
      .ok s ∧ kalloc s 3000 = .ok (p, s') ∧ 1024 ∣ p := by
  obtain ⟨s, hs, ht⟩ := exists_of_test
    (f := fun s => (kalloc s 3000).isOk) (x := run (step 1048576 2097152) .zero
    [.init, .alloc 100, .alloc 2000, .free 1048576]) (by decide +kernel)
  obtain ⟨⟨p, s'⟩, hk, -⟩ := exists_of_test (f := fun _ => true) (x := kalloc s 3000) (by
    revert ht
    cases kalloc s 3000 <;> simp [Except.isOk, Except.toBool])
  obtain ⟨-, -, -, -, -, -, -, hdvd, -⟩ := kalloc_post (by decide) (by decide) (by decide)
    (by decide) .zero (by simp) hs (by decide) hk
  exact ⟨s, s', p, hs, hk, hdvd⟩

end OsWorkbench.Alloc
