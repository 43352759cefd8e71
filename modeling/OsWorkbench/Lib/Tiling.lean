import Mathlib

/-!
# Tilings by half-open intervals

Two views of a range cut into intervals `[a, b)` of a linear order.

* `Tiles`: an indexed family of intervals, some indices unused, that cuts a
  range `[lo, hi)` into pieces. Splitting one piece and merging two neighbours
  keep it.
* `Gapped`: an ascending list of intervals no two of which touch. Such a list is
  determined by the set of points it covers (`gapped_unique`), and its members
  are the maximal intervals of that set (`Gapped.mem_iff_maxGap`).
-/

namespace OsWorkbench.Tiling

variable {ι α : Type} [LinearOrder α]

/-! ## Indexed families -/

/-- The intervals of the used indices lie in `[lo, hi)`, are pairwise disjoint, and
their union is `[lo, hi)`. An interval may be empty; then it lies between the others. -/
structure Tiles (iv : ι → Option (α × α)) (lo hi : α) : Prop where
  le : ∀ {i a b}, iv i = some (a, b) → a ≤ b
  lo_le : ∀ {i a b}, iv i = some (a, b) → lo ≤ a
  le_hi : ∀ {i a b}, iv i = some (a, b) → b ≤ hi
  disjoint : ∀ {i j a b c d}, i ≠ j → iv i = some (a, b) → iv j = some (c, d) → b ≤ c ∨ d ≤ a
  cover : ∀ x, (∃ i a b, iv i = some (a, b) ∧ a ≤ x ∧ x < b) ↔ lo ≤ x ∧ x < hi

section Tiles

variable {iv iv' : ι → Option (α × α)} {lo hi a b c m : α} {i j : ι}

/-- Two used indices with the same left end are the same index, if neither interval is
empty. -/
theorem Tiles.eq_of_left (h : Tiles iv lo hi) (h1 : iv i = some (a, b)) (h2 : iv j = some (a, c))
    (hab : a < b) (hac : a < c) : i = j := by
  by_contra hne
  rcases h.disjoint hne h1 h2 with hle | hle
  · exact absurd hab (not_lt.mpr hle)
  · exact absurd hac (not_lt.mpr hle)

theorem Tiles.right_le (h : Tiles iv lo hi) (hij : i ≠ j) {d : α} (h1 : iv i = some (a, b))
    (h2 : iv j = some (c, d)) (hac : a < c) : b ≤ c := by
  rcases h.disjoint hij h1 h2 with hle | hle
  · exact hle
  · exact absurd (lt_of_lt_of_le hac (h.le h2)) (not_lt.mpr hle)

/-- A family with one used index. -/
theorem tiles_single (hle : lo ≤ hi) (h1 : iv i = some (lo, hi)) (h2 : ∀ j, j ≠ i → iv j = none) :
    Tiles iv lo hi := by
  have key : ∀ {k a b}, iv k = some (a, b) → k = i ∧ a = lo ∧ b = hi := by
    intro k a b hk
    by_cases hki : k = i
    · subst hki
      rw [h1] at hk
      cases hk
      exact ⟨rfl, rfl, rfl⟩
    · rw [h2 k hki] at hk
      cases hk
  refine ⟨?_, ?_, ?_, ?_, ?_⟩
  · intro k a b hk
    obtain ⟨_, rfl, rfl⟩ := key hk
    exact hle
  · intro k a b hk
    exact (key hk).2.1.ge
  · intro k a b hk
    exact (key hk).2.2.le
  · intro k k' a b c d hne hk hk'
    exact absurd ((key hk).1.trans (key hk').1.symm) hne
  · intro x
    constructor
    · rintro ⟨k, a, b, hk, hx⟩
      obtain ⟨_, rfl, rfl⟩ := key hk
      exact hx
    · intro hx
      exact ⟨i, lo, hi, h1, hx⟩

/-- Splitting the piece of `i` at `m`, with the right half under an unused index `j`. -/
theorem Tiles.split (h : Tiles iv lo hi) (h1 : iv i = some (a, b)) (h2 : iv j = none)
    (ham : a ≤ m) (hmb : m ≤ b) (h1' : iv' i = some (a, m)) (h2' : iv' j = some (m, b))
    (ho : ∀ k, k ≠ i → k ≠ j → iv' k = iv k) : Tiles iv' lo hi := by
  have hij : i ≠ j := by
    rintro rfl
    rw [h1] at h2
    cases h2
  -- every new piece sits inside an old one
  have key : ∀ {k c d}, iv' k = some (c, d) →
      (k = i ∧ c = a ∧ d = m) ∨ (k = j ∧ c = m ∧ d = b) ∨ (k ≠ i ∧ k ≠ j ∧ iv k = some (c, d)) := by
    intro k c d hk
    by_cases hki : k = i
    · subst hki
      rw [h1'] at hk
      cases hk
      exact .inl ⟨rfl, rfl, rfl⟩
    · by_cases hkj : k = j
      · subst hkj
        rw [h2'] at hk
        cases hk
        exact .inr (.inl ⟨rfl, rfl, rfl⟩)
      · exact .inr (.inr ⟨hki, hkj, by rw [← ho k hki hkj]; exact hk⟩)
  refine ⟨?_, ?_, ?_, ?_, ?_⟩
  · intro k c d hk
    rcases key hk with ⟨_, rfl, rfl⟩ | ⟨_, rfl, rfl⟩ | ⟨_, _, hk⟩
    · exact ham
    · exact hmb
    · exact h.le hk
  · intro k c d hk
    rcases key hk with ⟨_, rfl, rfl⟩ | ⟨_, rfl, rfl⟩ | ⟨_, _, hk⟩
    · exact h.lo_le h1
    · exact (h.lo_le h1).trans ham
    · exact h.lo_le hk
  · intro k c d hk
    rcases key hk with ⟨_, rfl, rfl⟩ | ⟨_, rfl, rfl⟩ | ⟨_, _, hk⟩
    · exact hmb.trans (h.le_hi h1)
    · exact h.le_hi h1
    · exact h.le_hi hk
  · intro k k' c d e f hne hk hk'
    rcases key hk with ⟨rfl, rfl, rfl⟩ | ⟨rfl, rfl, rfl⟩ | ⟨hki, hkj, hk⟩ <;>
      rcases key hk' with ⟨rfl, rfl, rfl⟩ | ⟨rfl, rfl, rfl⟩ | ⟨hki', hkj', hk'⟩
    · exact absurd rfl hne
    · exact .inl (le_refl _)
    · rcases h.disjoint hne h1 hk' with hle | hle
      · exact .inl (hmb.trans hle)
      · exact .inr hle
    · exact .inr (le_refl _)
    · exact absurd rfl hne
    · rcases h.disjoint (Ne.symm hki') h1 hk' with hle | hle
      · exact .inl hle
      · exact .inr (hle.trans ham)
    · rcases h.disjoint hne hk h1 with hle | hle
      · exact .inl hle
      · exact .inr (hmb.trans hle)
    · rcases h.disjoint hki hk h1 with hle | hle
      · exact .inl (hle.trans ham)
      · exact .inr hle
    · exact h.disjoint hne hk hk'
  · intro x
    rw [← h.cover x]
    constructor
    · rintro ⟨k, c, d, hk, hx⟩
      rcases key hk with ⟨rfl, rfl, rfl⟩ | ⟨rfl, rfl, rfl⟩ | ⟨_, _, hk⟩
      · exact ⟨k, c, b, h1, hx.1, lt_of_lt_of_le hx.2 hmb⟩
      · exact ⟨i, a, d, h1, ham.trans hx.1, hx.2⟩
      · exact ⟨k, c, d, hk, hx⟩
    · rintro ⟨k, c, d, hk, hx⟩
      by_cases hki : k = i
      · subst hki
        rw [h1] at hk
        cases hk
        rcases lt_or_ge x m with hxm | hxm
        · exact ⟨k, a, m, h1', hx.1, hxm⟩
        · exact ⟨j, m, b, h2', hxm, hx.2⟩
      · have hkj : k ≠ j := by
          rintro rfl
          rw [h2] at hk
          cases hk
        exact ⟨k, c, d, by rw [ho k hki hkj]; exact hk, hx⟩

/-- Merging the piece of `j` into its left neighbour `i`; the index `j` becomes unused. No
empty piece lies between the two. -/
theorem Tiles.merge (h : Tiles iv lo hi) (h1 : iv i = some (a, m)) (h2 : iv j = some (m, b))
    (hno : ∀ k, k ≠ j → iv k ≠ some (m, m)) (h1' : iv' i = some (a, b)) (h2' : iv' j = none)
    (ho : ∀ k, k ≠ i → k ≠ j → iv' k = iv k) : Tiles iv' lo hi := by
  have ham : a ≤ m := h.le h1
  have hmb : m ≤ b := h.le h2
  have key : ∀ {k c d}, iv' k = some (c, d) →
      (k = i ∧ c = a ∧ d = b) ∨ (k ≠ i ∧ k ≠ j ∧ iv k = some (c, d)) := by
    intro k c d hk
    by_cases hki : k = i
    · subst hki
      rw [h1'] at hk
      cases hk
      exact .inl ⟨rfl, rfl, rfl⟩
    · have hkj : k ≠ j := by
        rintro rfl
        rw [h2'] at hk
        cases hk
      exact .inr ⟨hki, hkj, by rw [← ho k hki hkj]; exact hk⟩
  -- a third piece lies on one side of both halves
  have side : ∀ {k c d}, k ≠ i → k ≠ j → iv k = some (c, d) → b ≤ c ∨ d ≤ a := by
    intro k c d hki hkj hk
    rcases h.disjoint (Ne.symm hkj) h2 hk with hle | hle
    · exact .inl hle
    · rcases h.disjoint (Ne.symm hki) h1 hk with hle' | hle'
      · -- otherwise the third piece would be empty, in between
        have hcm : c = m := le_antisymm ((h.le hk).trans hle) hle'
        have hdm : d = m := le_antisymm hle (hcm ▸ h.le hk)
        exact absurd (by rw [hk, hcm, hdm]) (hno k hkj)
      · exact .inr hle'
  refine ⟨?_, ?_, ?_, ?_, ?_⟩
  · intro k c d hk
    rcases key hk with ⟨_, rfl, rfl⟩ | ⟨_, _, hk⟩
    · exact ham.trans hmb
    · exact h.le hk
  · intro k c d hk
    rcases key hk with ⟨_, rfl, rfl⟩ | ⟨_, _, hk⟩
    · exact h.lo_le h1
    · exact h.lo_le hk
  · intro k c d hk
    rcases key hk with ⟨_, rfl, rfl⟩ | ⟨_, _, hk⟩
    · exact h.le_hi h2
    · exact h.le_hi hk
  · intro k k' c d e f hne hk hk'
    rcases key hk with ⟨rfl, rfl, rfl⟩ | ⟨hki, hkj, hk⟩ <;>
      rcases key hk' with ⟨rfl, rfl, rfl⟩ | ⟨hki', hkj', hk'⟩
    · exact absurd rfl hne
    · exact side hki' hkj' hk'
    · exact (side hki hkj hk).symm
    · exact h.disjoint hne hk hk'
  · intro x
    rw [← h.cover x]
    constructor
    · rintro ⟨k, c, d, hk, hx⟩
      rcases key hk with ⟨rfl, rfl, rfl⟩ | ⟨_, _, hk⟩
      · rcases lt_or_ge x m with hxm | hxm
        · exact ⟨k, c, m, h1, hx.1, hxm⟩
        · exact ⟨j, m, d, h2, hxm, hx.2⟩
      · exact ⟨k, c, d, hk, hx⟩
    · rintro ⟨k, c, d, hk, hx⟩
      by_cases hki : k = i
      · subst hki
        rw [h1] at hk
        cases hk
        exact ⟨k, a, b, h1', hx.1, lt_of_lt_of_le hx.2 hmb⟩
      · by_cases hkj : k = j
        · subst hkj
          rw [h2] at hk
          cases hk
          exact ⟨i, a, b, h1', ham.trans hx.1, hx.2⟩
        · exact ⟨k, c, d, by rw [ho k hki hkj]; exact hk, hx⟩

/-- The points of an interval. -/
def points : Option (Nat × Nat) → Finset Nat
  | some (a, b) => Finset.Ico a b
  | none => ∅

/-- The lengths of the pieces add up to the length of the range. -/
theorem Tiles.sum_card {iv : ι → Option (Nat × Nat)} {lo hi : Nat} (h : Tiles iv lo hi)
    (I : Finset ι) (hI : ∀ i, i ∉ I → iv i = none) : ∑ i ∈ I, (points (iv i)).card = hi - lo := by
  classical
  have hmem : ∀ {i x}, x ∈ points (iv i) → ∃ a b, iv i = some (a, b) ∧ a ≤ x ∧ x < b := by
    intro i x hx
    cases hiv : iv i with
    | none => simp [hiv, points] at hx
    | some p => exact ⟨p.1, p.2, rfl, by simpa [hiv, points] using hx⟩
  have hcover : I.biUnion (fun i => points (iv i)) = Finset.Ico lo hi := by
    ext x
    rw [Finset.mem_biUnion, Finset.mem_Ico, ← h.cover x]
    constructor
    · rintro ⟨i, -, hx⟩
      obtain ⟨a, b, hiv, hx⟩ := hmem hx
      exact ⟨i, a, b, hiv, hx⟩
    · rintro ⟨i, a, b, hiv, hx⟩
      refine ⟨i, ?_, by simpa [hiv, points] using hx⟩
      by_contra hi
      simp [hI i hi] at hiv
  rw [← Finset.card_biUnion, hcover, Nat.card_Ico]
  intro i _ j _ hij
  refine Finset.disjoint_left.mpr fun x hx hx' => ?_
  obtain ⟨a, b, hiv, hx⟩ := hmem hx
  obtain ⟨c, d, hiv', hx'⟩ := hmem hx'
  rcases h.disjoint hij hiv hiv' with hle | hle
  · exact absurd (hle.trans hx'.1) (not_le.mpr hx.2)
  · exact absurd (hle.trans hx.1) (not_le.mpr hx'.2)

/-- Pieces no two of which touch are at most one more than the others. -/
theorem Tiles.length_le [DecidableEq ι] (h : Tiles iv lo hi) {f g : ι → α} {l : List ι}
    (hl : ∀ i ∈ l, iv i = some (f i, g i)) (hp : ∀ i ∈ l, f i < g i)
    (hc : l.Pairwise fun i j => g i < f j) {B : Finset ι}
    (hB : ∀ {k a b}, iv k = some (a, b) → (∃ i ∈ l, f i ≤ a) → k ∈ l ∨ k ∈ B) :
    l.length ≤ B.card + 1 := by
  induction l generalizing B with
  | nil => exact Nat.zero_le _
  | cons i l ih =>
    cases l with
    | nil => exact Nat.succ_le_succ (Nat.zero_le _)
    | cons j l =>
      obtain ⟨hil, hcl⟩ := List.pairwise_cons.mp hc
      have hi := hl i (by simp)
      have hj := hl j (by simp)
      have hij : g i < f j := hil j (by simp)
      -- the piece that begins where that of `i` ends
      obtain ⟨k, a, b, hk, hak, hkb⟩ := (h.cover (g i)).mpr
        ⟨(h.lo_le hi).trans (h.le hi), hij.trans_le ((h.le hj).trans (h.le_hi hj))⟩
      have hki : k ≠ i := by
        rintro rfl
        rw [hi] at hk
        cases hk
        exact lt_irrefl _ hkb
      have ha : g i ≤ a := by
        rcases h.disjoint hki.symm hi hk with hle | hle
        · exact hle
        · exact absurd (hp i (by simp)) (not_lt.mpr (hkb.le.trans hle))
      have hkl : k ∉ j :: l := by
        intro hmem
        have hk' := hl k (by simp [hmem])
        rw [hk] at hk'
        cases hk'
        exact absurd (hil k hmem) (not_lt.mpr hak)
      have hkB : k ∈ B := by
        rcases hB hk ⟨i, by simp, (hp i (by simp)).le.trans ha⟩ with hmem | hmem
        · rcases List.mem_cons.mp hmem with rfl | hmem
          · exact absurd rfl hki
          · exact absurd hmem hkl
        · exact hmem
      have hlen := ih (fun i' hi' => hl i' (by simp [hi'])) (fun i' hi' => hp i' (by simp [hi']))
        hcl (B := B.erase k) (fun {k' a' b'} hk' ⟨i', hi', hle⟩ => by
          have hlt : g i < a' := (hil i' hi').trans_le hle
          have hk'k : k' ≠ k := by
            rintro rfl
            rw [hk] at hk'
            cases hk'
            exact absurd hlt (not_lt.mpr hak)
          rcases hB hk' ⟨i', by simp [hi'], hle⟩ with hmem | hmem
          · rcases List.mem_cons.mp hmem with rfl | hmem
            · rw [hi] at hk'
              cases hk'
              exact absurd (hp k' (by simp)) (not_lt.mpr hlt.le)
            · exact .inl hmem
          · exact .inr (Finset.mem_erase.mpr ⟨hk'k, hmem⟩))
      rw [Finset.card_erase_of_mem hkB] at hlen
      have hpos := Finset.card_pos.mpr ⟨k, hkB⟩
      simp only [List.length_cons] at hlen ⊢
      omega

end Tiles

/-! ## Ascending lists of separated intervals -/

/-- Intervals that are each separated from the next one are pairwise separated. -/
theorem pairwise_of_isChain {l : List ι} {f g : ι → α} (hp : ∀ i ∈ l, f i ≤ g i)
    (hc : l.IsChain fun i j => g i < f j) : l.Pairwise fun i j => g i < f j := by
  induction l with
  | nil => exact List.Pairwise.nil
  | cons i l ih =>
    have ih' := ih (fun k hk => hp k (by simp [hk])) hc.tail
    refine List.pairwise_cons.mpr ⟨?_, ih'⟩
    cases l with
    | nil => simp
    | cons j l =>
      have hij := (List.isChain_cons_cons.mp hc).1
      intro k hk
      rcases List.mem_cons.mp hk with rfl | hk
      · exact hij
      · exact (lt_of_lt_of_le hij (hp j (by simp))).trans ((List.pairwise_cons.mp ih').1 k hk)

/-- Some interval of the list contains `x`. -/
def Covers (l : List (α × α)) (x : α) : Prop := ∃ p ∈ l, p.1 ≤ x ∧ x < p.2

/-- The intervals are non-empty, ascending, and no two of them touch. -/
structure Gapped (l : List (α × α)) : Prop where
  proper : ∀ p ∈ l, p.1 < p.2
  apart : l.Pairwise fun p q => p.2 < q.1

/-- `[a, b)` is a maximal non-empty interval inside the set `F`. -/
def MaxGap (F : α → Prop) (a b : α) : Prop :=
  a < b ∧ (∀ x, a ≤ x → x < b → F x) ∧
    ∀ c d, c ≤ a → b ≤ d → (∀ x, c ≤ x → x < d → F x) → c = a ∧ d = b

section Gapped

variable {l l' : List (α × α)} {p q : α × α} {x : α}

theorem gapped_cons :
    Gapped (p :: l) ↔ p.1 < p.2 ∧ (∀ q ∈ l, p.2 < q.1) ∧ Gapped l := by
  constructor
  · rintro ⟨h1, h2⟩
    obtain ⟨h3, h4⟩ := List.pairwise_cons.mp h2
    exact ⟨h1 p (by simp), h3, ⟨fun q hq => h1 q (by simp [hq]), h4⟩⟩
  · rintro ⟨h1, h2, h3⟩
    refine ⟨?_, List.pairwise_cons.mpr ⟨h2, h3.apart⟩⟩
    intro q hq
    rcases List.mem_cons.mp hq with rfl | hq
    · exact h1
    · exact h3.proper q hq

theorem covers_cons : Covers (p :: l) x ↔ (p.1 ≤ x ∧ x < p.2) ∨ Covers l x := by
  simp [Covers]

/-- The points covered by the tail lie beyond the right end of the head. -/
theorem Gapped.tail_covers (h : Gapped (p :: l)) (hx : Covers l x) : p.2 < x := by
  obtain ⟨q, hq, hqx, _⟩ := hx
  exact lt_of_lt_of_le ((gapped_cons.mp h).2.1 q hq) hqx

/-- The left end of the head is the least covered point. -/
theorem Gapped.head_le (h : Gapped (p :: l)) (hx : Covers (p :: l) x) : p.1 ≤ x := by
  rcases covers_cons.mp hx with hx | hx
  · exact hx.1
  · exact ((gapped_cons.mp h).1.trans (h.tail_covers hx)).le

theorem Gapped.right_notCovers (h : Gapped l) (hp : p ∈ l) : ¬ Covers l p.2 := by
  induction l with
  | nil => cases hp
  | cons q l ih =>
    intro hc
    rcases List.mem_cons.mp hp with rfl | hp
    · rcases covers_cons.mp hc with hc | hc
      · exact absurd hc.2 (lt_irrefl _)
      · exact absurd (h.tail_covers hc) (lt_irrefl _)
    · have hq := (gapped_cons.mp h).2.1 p hp
      have hpp := h.proper p (by simp [hp])
      rcases covers_cons.mp hc with hc | hc
      · exact absurd (hq.trans hpp) (not_lt.mpr hc.2.le)
      · exact ih (gapped_cons.mp h).2.2 hp hc

/-- Left of a member, and as close to it as one likes, there is an uncovered point. -/
theorem Gapped.left_notCovers (h : Gapped l) (hp : p ∈ l) {c : α} (hc : c < p.1) :
    ∃ y, c ≤ y ∧ y < p.1 ∧ ¬ Covers l y := by
  induction l with
  | nil => cases hp
  | cons q l ih =>
    rcases List.mem_cons.mp hp with rfl | hp
    · exact ⟨c, le_refl c, hc, fun hcov => absurd (h.head_le hcov) (not_le.mpr hc)⟩
    · obtain ⟨y, hcy, hyp, hy⟩ := ih (gapped_cons.mp h).2.2 hp
      refine ⟨max y q.2, hcy.trans (le_max_left _ _), max_lt hyp ((gapped_cons.mp h).2.1 p hp), ?_⟩
      intro hcov
      rcases covers_cons.mp hcov with hcov | hcov
      · exact absurd hcov.2 (not_lt.mpr (le_max_right _ _))
      · have hlt := h.tail_covers hcov
        rcases le_total y q.2 with hle | hle
        · rw [max_eq_right hle] at hlt
          exact lt_irrefl _ hlt
        · rw [max_eq_left hle] at hcov
          exact hy hcov

/-- The members of a separated list are the maximal intervals of the covered set. -/
theorem Gapped.mem_iff_maxGap (h : Gapped l) : p ∈ l ↔ MaxGap (Covers l) p.1 p.2 := by
  constructor
  · intro hp
    refine ⟨h.proper p hp, fun x h1 h2 => ⟨p, hp, h1, h2⟩, ?_⟩
    intro c d hc hd hF
    constructor
    · by_contra hne
      obtain ⟨y, hcy, hyp, hy⟩ := h.left_notCovers hp (lt_of_le_of_ne hc hne)
      exact hy (hF y hcy (hyp.trans ((h.proper p hp).trans_le hd)))
    · by_contra hne
      exact h.right_notCovers hp
        (hF p.2 (hc.trans (h.proper p hp).le) (lt_of_le_of_ne hd (Ne.symm hne)))
  · rintro ⟨hlt, hin, hmax⟩
    obtain ⟨q, hq, hq1, hq2⟩ := hin p.1 (le_refl _) hlt
    have hb : p.2 ≤ q.2 := by
      by_contra hb
      exact h.right_notCovers hq (hin q.2 hq2.le (not_le.mp hb))
    obtain ⟨h1, h2⟩ := hmax q.1 q.2 hq1 hb (fun x hx1 hx2 => ⟨q, hq, hx1, hx2⟩)
    rw [← Prod.mk.eta (p := p), ← h1, ← h2]
    exact hq

/-- A separated list is determined by the set of points it covers. -/
theorem gapped_unique (h : Gapped l) (h' : Gapped l') (hc : ∀ x, Covers l x ↔ Covers l' x) :
    l = l' := by
  induction l generalizing l' with
  | nil =>
    cases l' with
    | nil => rfl
    | cons q l' =>
      obtain ⟨p, hp, _⟩ :=
        (hc q.1).mpr (covers_cons.mpr (.inl ⟨le_refl _, h'.proper q (by simp)⟩))
      cases hp
  | cons p l ih =>
    have hp : Covers (p :: l) p.1 := covers_cons.mpr (.inl ⟨le_refl _, h.proper p (by simp)⟩)
    cases l' with
    | nil =>
      obtain ⟨q, hq, _⟩ := (hc p.1).mp hp
      cases hq
    | cons q l' =>
      have hq : Covers (q :: l') q.1 :=
        covers_cons.mpr (.inl ⟨le_refl _, h'.proper q (by simp)⟩)
      have h1 : p.1 = q.1 :=
        le_antisymm (h.head_le ((hc _).mpr hq)) (h'.head_le ((hc _).mp hp))
      -- the right ends agree, since neither of them is covered
      have h2 : p.2 = q.2 := by
        rcases lt_trichotomy p.2 q.2 with hlt | heq | hlt
        · have :=
            (hc p.2).mpr (covers_cons.mpr (.inl ⟨by rw [← h1]; exact (h.proper p (by simp)).le,
            hlt⟩))
          exact absurd this (h.right_notCovers (by simp))
        · exact heq
        · have := (hc q.2).mp (covers_cons.mpr (.inl ⟨by rw [h1]; exact (h'.proper q (by simp)).le,
            hlt⟩))
          exact absurd this (h'.right_notCovers (by simp))
      have hpq : p = q := Prod.ext h1 h2
      subst hpq
      congr 1
      refine ih (gapped_cons.mp h).2.2 (gapped_cons.mp h').2.2 (fun x => ?_)
      constructor
      · intro hx
        rcases covers_cons.mp ((hc x).mp (covers_cons.mpr (.inr hx))) with hx' | hx'
        · exact absurd (h.tail_covers hx) (not_lt.mpr hx'.2.le)
        · exact hx'
      · intro hx
        rcases covers_cons.mp ((hc x).mpr (covers_cons.mpr (.inr hx))) with hx' | hx'
        · exact absurd (h'.tail_covers hx) (not_lt.mpr hx'.2.le)
        · exact hx'

end Gapped

end OsWorkbench.Tiling
