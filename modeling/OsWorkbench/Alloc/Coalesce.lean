import OsWorkbench.Alloc.Partition

/-!
# The free list is canonical

Between two calls the free list is the ascending list of the maximal gaps between
the live blocks, so it depends on nothing else: not on the descriptors in use and
not on the order of the calls that led there.
-/

namespace OsWorkbench.Alloc

open Chain Tiling

/-- The addresses of the heap that no live block holds. -/
def Gap (s : Pmm) (x : Nat) : Prop :=
  s.pmStart ≤ x ∧ x < s.pmEnd ∧ ∀ iv ∈ live s, ¬(iv.1 ≤ x ∧ x < iv.2)

theorem Wf.freeIntervals_eq {s : Pmm} {l : List Nat} (h : Wf s l) :
    freeIntervals s = l.map (interval s) := by
  rw [freeIntervals, h.freeNodes_eq]

theorem Inv.gapped {s : Pmm} (h : Inv s) (hsolid : Solid s) : Gapped (freeIntervals s) := by
  obtain ⟨l, hwf, hc⟩ := h
  rw [hwf.freeIntervals_eq]
  constructor
  · intro p hp
    obtain ⟨i, hi, rfl⟩ := List.mem_map.mp hp
    obtain ⟨hlt, hs⟩ := hwf.mem.mp hi
    exact hsolid i hlt (by simp [hs])
  · exact List.pairwise_map.mpr (hwf.canon_pairwise hc)

/-- The free list covers exactly the gaps between the live blocks. -/
theorem Inv.covers_iff {s : Pmm} (h : Inv s) {x : Nat} : Covers (freeIntervals s) x ↔ Gap s x := by
  obtain ⟨l, hwf, -⟩ := h
  rw [hwf.freeIntervals_eq]
  constructor
  · rintro ⟨p, hp, hx⟩
    obtain ⟨i, hi, rfl⟩ := List.mem_map.mp hp
    obtain ⟨hlt, hs⟩ := hwf.mem.mp hi
    have hu : used s i = some (interval s i) := used_of hlt (by simp [hs])
    have hxr := (hwf.tiles.cover x).mp ⟨i, _, _, hu, hx⟩
    refine ⟨hxr.1, hxr.2, ?_⟩
    rintro ⟨a, b⟩ hiv hx'
    obtain ⟨k, hk, hks, rfl, rfl⟩ := mem_live.mp hiv
    have hki : k ≠ i := by
      rintro rfl
      rw [hs] at hks
      cases hks
    rcases hwf.tiles.disjoint hki (used_of hk (by simp [hks])) hu with hle | hle
    · exact absurd (hle.trans hx.1) (not_le.mpr hx'.2)
    · exact absurd (hle.trans hx'.1) (not_le.mpr hx.2)
  · rintro ⟨h1, h2, hgap⟩
    obtain ⟨i, a, b, hi, hx⟩ := (hwf.tiles.cover x).mpr ⟨h1, h2⟩
    obtain ⟨hlt, hu, rfl, rfl⟩ := used_some.mp hi
    cases hs : (s.blk (.pool i)).state with
    | unused => exact absurd hs hu
    | unallocated => exact ⟨_, List.mem_map.mpr ⟨i, hwf.mem.mpr ⟨hlt, hs⟩, rfl⟩, hx⟩
    | allocated => exact absurd hx (hgap _ (mem_live.mpr ⟨i, hlt, hs, rfl, rfl⟩))

/-- The free intervals are the maximal intervals of the gap. -/
theorem Inv.mem_freeIntervals {s : Pmm} (h : Inv s) (hsolid : Solid s) {p : Nat × Nat} :
    p ∈ freeIntervals s ↔ MaxGap (Gap s) p.1 p.2 := by
  have hcov : Covers (freeIntervals s) = Gap s := funext fun x => propext h.covers_iff
  rw [(h.gapped hsolid).mem_iff_maxGap, hcov]

/-- The free intervals are a function of the live blocks. -/
theorem Inv.freeIntervals_congr {s t : Pmm} (hs : Inv s ∧ Solid s) (ht : Inv t ∧ Solid t)
    (h1 : t.pmStart = s.pmStart) (h2 : t.pmEnd = s.pmEnd) (hl : live t = live s) :
    freeIntervals t = freeIntervals s := by
  refine gapped_unique (ht.1.gapped ht.2) (hs.1.gapped hs.2) (fun x => ?_)
  rw [ht.1.covers_iff, hs.1.covers_iff, Gap, Gap, h1, h2, hl]

theorem Inv.freeIntervals_empty {s : Pmm} (h : Inv s) (hsolid : Solid s) (hlt : s.pmStart < s.pmEnd)
    (hl : live s = ∅) : freeIntervals s = [(s.pmStart, s.pmEnd)] := by
  have hsingle : Gapped [(s.pmStart, s.pmEnd)] :=
    ⟨by simpa using hlt, List.pairwise_singleton _ _⟩
  refine gapped_unique (h.gapped hsolid) hsingle (fun x => ?_)
  rw [h.covers_iff, Gap, hl]
  simp [Covers]

/-! ## Sequences of `kfree` -/

/-- `p` is the first address of a live block. -/
def LivePtr (s : Pmm) (p : Nat) : Prop := ∃ b, (p, b) ∈ live s

/-- `kfree` of a live pointer returns, and exactly its block stops being live. -/
theorem kfree_live {s : Pmm} (h : Inv s ∧ Solid s) {a b : Nat} (hl : (a, b) ∈ live s) :
    ∃ s', kfree s a = .ok s' ∧ (Inv s' ∧ Solid s') ∧ live s' = { iv ∈ live s | iv.1 ≠ a } ∧
      s'.pmStart = s.pmStart ∧ s'.pmEnd = s.pmEnd := by
  obtain ⟨i, hi, ha, rfl, -⟩ := mem_live.mp hl
  rcases (kfree_spec h.1 hi ha).2 with ⟨-, hns⟩ | ⟨s', hok, hinv', hrel⟩
  · exact absurd h.2 hns
  · exact ⟨s', hok, ⟨hinv', hrel.solid h.2⟩, hrel.live_eq h.1 hi ha, hrel.pmStart, hrel.pmEnd⟩

/-- Freeing distinct live pointers one after the other returns, and exactly their
blocks stop being live. -/
theorem run_free {lo hi : Nat} {s : Pmm} (h : Inv s ∧ Solid s) {ps : List Nat} (hnd : ps.Nodup)
    (hps : ∀ p ∈ ps, LivePtr s p) :
    ∃ t, run (step lo hi) s (ps.map .free) = .ok t ∧ (Inv t ∧ Solid t) ∧
      live t = { iv ∈ live s | iv.1 ∉ ps } ∧ t.pmStart = s.pmStart ∧ t.pmEnd = s.pmEnd := by
  induction ps generalizing s with
  | nil => exact ⟨s, rfl, h, by simp, rfl, rfl⟩
  | cons p ps ih =>
    obtain ⟨hp, hnd⟩ := List.nodup_cons.mp hnd
    obtain ⟨b, hb⟩ := hps p (by simp)
    obtain ⟨s', hs', hinv, hlive, h1, h2⟩ := kfree_live h hb
    have hps' : ∀ q ∈ ps, LivePtr s' q := by
      intro q hq
      obtain ⟨c, hc⟩ := hps q (by simp [hq])
      refine ⟨c, ?_⟩
      rw [hlive]
      refine ⟨hc, ?_⟩
      rintro rfl
      exact hp hq
    obtain ⟨t, ht, hinv', hlive', h3, h4⟩ := ih hinv hnd hps'
    refine ⟨t, ?_, hinv', ?_, h3.trans h1, h4.trans h2⟩
    · rw [List.map_cons, run, step, hs', ok_bind]
      exact ht
    · rw [hlive', hlive]
      ext iv
      simp only [Set.mem_sep_iff, List.mem_cons, not_or, and_assoc]

/-- A pointer returned by `kalloc` can be freed at once, which restores the live
blocks. -/
theorem kalloc_kfree {s s' : Pmm} (h : Inv s ∧ Solid s) {size a : Nat} (hle : size ≤ 2 ^ 30)
    (ha : a ≠ 0) (hk : kalloc s size = .ok (a, s')) :
    ∃ t, kfree s' a = .ok t ∧ (Inv t ∧ Solid t) ∧ live t = live s ∧ t.pmStart = s.pmStart ∧
      t.pmEnd = s.pmEnd := by
  rcases Nat.eq_zero_or_pos size with rfl | hpos
  · rw [kalloc, if_pos rfl] at hk
    cases hk
    exact absurd rfl ha
  · obtain ⟨newsz, hr, ⟨herr, -⟩ | ⟨i, t, hok, -, hinv, hg⟩⟩ := kalloc_spec h.1 hpos (by omega)
    · rw [herr] at hk
      cases hk
    · rw [hok] at hk
      cases hk
      have hcut : newsz ≤ 2 ^ 30 := hr.least 30 (by norm_num) hle
      have hsolid := hg.solid h.1 hinv hr h.2 (.inl hcut)
      have hmem : interval s' i ∈ live s' := by
        rw [hg.live_eq]
        simp
      obtain ⟨u, hu, hinv', hlive', h3, h4⟩ := kfree_live ⟨hinv, hsolid⟩ hmem
      refine ⟨u, hu, hinv', ?_, h3.trans hg.pmStart, h4.trans hg.pmEnd⟩
      rw [hlive', hg.live_eq]
      ext ⟨c, d⟩
      rw [Set.mem_sep_iff, Set.mem_insert_iff]
      constructor
      · rintro ⟨heq | hm, hne⟩
        · exact absurd (congrArg Prod.fst heq) hne
        · exact hm
      · intro hm
        refine ⟨.inr hm, ?_⟩
        rintro rfl
        exact hg.fresh hinv d hm

/-! ## Reachable states -/

/-- In every state that the calls after `pmm_init` reach: no two nodes of the free
list touch, and the free intervals are the maximal gaps between the live blocks,
in ascending order. So the order in which live pointers are freed does not
matter, a `kfree` undoes the `kalloc` before it, and freeing everything leaves
the whole heap as one interval. -/
theorem run_coalesced {lo hi : Nat} (hlo : 0 < lo) (hlt : lo < hi) (hhi : hi < 2 ^ 32)
    (s₀ : Pmm) {os : List Op} (hos : ∀ o ∈ os, o.Bounded) {s : Pmm}
    (hr : run (step lo hi) s₀ (.init :: os) = .ok s) :
    ((freeNodes s).IsChain fun i j => (s.blk (.pool i)).endAddr < (s.blk (.pool j)).beginAddr) ∧
    (freeIntervals s).Pairwise (fun p q => p.2 < q.1) ∧
    (∀ p, p ∈ freeIntervals s ↔ MaxGap (fun x => lo ≤ x ∧ x < hi ∧
      ∀ iv ∈ live s, ¬(iv.1 ≤ x ∧ x < iv.2)) p.1 p.2) ∧
    (∀ ps qs : List Nat, ps.Nodup → ps.Perm qs → (∀ p ∈ ps, LivePtr s p) →
      ∃ t u, run (step lo hi) s (ps.map .free) = .ok t ∧ run (step lo hi) s (qs.map .free) = .ok u ∧
        freeIntervals t = freeIntervals u) ∧
    (∀ size a s', size ≤ 2 ^ 30 → kalloc s size = .ok (a, s') → a ≠ 0 →
      ∃ t, kfree s' a = .ok t ∧ freeIntervals t = freeIntervals s) ∧
    ∀ ps : List Nat, ps.Nodup → (∀ p, p ∈ ps ↔ LivePtr s p) →
      ∃ t, run (step lo hi) s (ps.map .free) = .ok t ∧ freeIntervals t = [(lo, hi)] := by
  rcases run_spec hlo hlt hhi s₀ hos with herr | ⟨s', hok, hinv, rfl, rfl⟩
  · rw [herr] at hr
    cases hr
  rw [hok] at hr
  cases hr
  refine ⟨?_, (hinv.1.gapped hinv.2).apart, fun p => hinv.1.mem_freeIntervals hinv.2, ?_, ?_, ?_⟩
  · obtain ⟨l, hwf, hc⟩ := hinv.1
    rw [hwf.freeNodes_eq]
    exact hc
  · intro ps qs hnd hperm hps
    obtain ⟨t, ht, hti, htl, ht1, ht2⟩ := run_free hinv hnd hps
    obtain ⟨u, hu, hui, hul, hu1, hu2⟩ := run_free hinv (hperm.nodup_iff.mp hnd)
      (fun p hp => hps p (hperm.mem_iff.mpr hp))
    refine ⟨t, u, ht, hu, Inv.freeIntervals_congr hui hti (by rw [ht1, hu1]) (by rw [ht2, hu2]) ?_⟩
    rw [htl, hul]
    ext iv
    rw [Set.mem_sep_iff, Set.mem_sep_iff, hperm.mem_iff]
  · intro size a s' hle hk ha
    obtain ⟨t, ht, hti, htl, ht1, ht2⟩ := kalloc_kfree hinv hle ha hk
    exact ⟨t, ht, Inv.freeIntervals_congr hinv hti ht1 ht2 htl⟩
  · intro ps hnd hps
    obtain ⟨t, ht, hti, htl, ht1, ht2⟩ := run_free hinv hnd (fun p hp => (hps p).mp hp)
    refine ⟨t, ht, ?_⟩
    rw [hti.1.freeIntervals_empty hti.2 (by rw [ht1, ht2]; exact hlt), ht1, ht2]
    rw [htl, Set.eq_empty_iff_forall_notMem]
    rintro ⟨a, b⟩ ⟨hm, hna⟩
    exact hna ((hps a).mpr ⟨b, hm⟩)

/-- Three blocks and a `kfree` of the middle one: two gaps, ascending and not touching, which a
`kalloc` and its `kfree` bring back. -/
theorem run_coalesced_two_gaps :
    ∃ s, run (step 1048576 2097152) .zero [.init, .alloc 100, .alloc 2000, .alloc 500,
        .free 1049600] = .ok s ∧
      freeIntervals s = [(1049600, 1051648), (1052672, 2097152)] ∧
      (freeNodes s).IsChain (fun i j =>
        (s.blk (.pool i)).endAddr < (s.blk (.pool j)).beginAddr) ∧
      ∀ a s', kalloc s 1500 = .ok (a, s') → a ≠ 0 →
        ∃ t, kfree s' a = .ok t ∧ freeIntervals t = freeIntervals s := by
  obtain ⟨s, hs, htest⟩ := exists_of_test
    (f := fun s => freeIntervals s == [(1049600, 1051648), (1052672, 2097152)])
    (x := run (step 1048576 2097152) .zero [.init, .alloc 100, .alloc 2000, .alloc 500,
      .free 1049600]) (by decide +kernel)
  obtain ⟨hchain, -, -, -, hundo, -⟩ := run_coalesced (by decide) (by decide) (by decide) .zero
    (by simp [Op.Bounded]) hs
  exact ⟨s, hs, eq_of_beq htest, hchain, fun a s' => hundo 1500 a s' (by decide)⟩

end OsWorkbench.Alloc
