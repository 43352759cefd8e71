import OsWorkbench.Lib.Bytes

/-!
# Bitmaps

A buffer of `n` bytes as a set of numbers below `8 * n`. Number `k` is the bit of
byte `k / 8` with mask `0x80 >> (k % 8)`.
-/

namespace OsWorkbench.Bytes

variable {n : Nat} {m m' : Bytes n} {a k : Nat}

def bit (m : Bytes n) (k : Nat) : Bool := (m.get (k / 8)).toNat.testBit (7 - k % 8)

/-- The numbers whose bit is set. -/
def used (m : Bytes n) : Finset Nat := (Finset.range (8 * n)).filter fun k => m.bit k = true

theorem lt_of_bit (h : m.bit k = true) : k < 8 * n := by
  by_contra hk
  rw [bit, get_of_le m (by omega)] at h
  simp at h

theorem mem_used : k ∈ m.used ↔ m.bit k = true := by
  unfold used
  rw [Finset.mem_filter, Finset.mem_range]
  exact ⟨fun h => h.2, fun h => ⟨lt_of_bit h, h⟩⟩

theorem card_used_le (m : Bytes n) : m.used.card ≤ 8 * n := by
  have h := Finset.card_filter_le (Finset.range (8 * n)) fun k => m.bit k = true
  rwa [Finset.card_range] at h

/-- Fewer set bits than bits: some bit is clear. -/
theorem exists_clear (h : m.used.card < 8 * n) : ∃ k, k < 8 * n ∧ m.bit k = false := by
  by_contra hall
  push Not at hall
  have hsub : Finset.range (8 * n) ⊆ m.used := fun k hk =>
    mem_used.mpr (by simpa using hall k (Finset.mem_range.mp hk))
  have hle := Finset.card_le_card hsub
  rw [Finset.card_range] at hle
  omega

theorem card_used_insert (ha : a < 8 * n) (hclear : m.bit a = false)
    (h : ∀ k, k < 8 * n → m'.bit k = (m.bit k || decide (k = a))) :
    m'.used.card = m.used.card + 1 := by
  have hins : m'.used = insert a m.used := by
    ext k
    rw [Finset.mem_insert, mem_used, mem_used]
    constructor
    · intro hk
      rw [h k (lt_of_bit hk), Bool.or_eq_true, decide_eq_true_eq] at hk
      exact hk.symm
    · rintro (rfl | hk)
      · rw [h k ha]
        simp
      · rw [h k (lt_of_bit hk), hk, Bool.true_or]
  rw [hins, Finset.card_insert_of_notMem (by rw [mem_used, hclear]; decide)]

theorem card_used_erase (hset : m.bit a = true)
    (h : ∀ k, k < 8 * n → m'.bit k = (m.bit k && decide (k ≠ a))) :
    m'.used.card + 1 = m.used.card := by
  have hers : m'.used = m.used.erase a := by
    ext k
    rw [Finset.mem_erase, mem_used, mem_used]
    constructor
    · intro hk
      rw [h k (lt_of_bit hk), Bool.and_eq_true, decide_eq_true_eq] at hk
      exact hk.symm
    · rintro ⟨hne, hk⟩
      rw [h k (lt_of_bit hk), hk]
      simpa using hne
  rw [hers]
  exact Finset.card_erase_add_one (mem_used.mpr hset)

theorem bit_set {c : Nat} (x : UInt8) (hc : c < n) (k : Nat) :
    (m.set c x).bit k = if k / 8 = c then x.toNat.testBit (7 - k % 8) else m.bit k := by
  unfold bit
  split
  · next h => rw [h, get_set_self _ _ hc]
  · next h => rw [get_set_ne _ _ h]

/-- A map is determined by its bits. -/
theorem ext_bit (h : ∀ k, m.bit k = m'.bit k) : m = m' := by
  refine ext_get fun c _ => UInt8.toNat_inj.mp (Nat.eq_of_testBit_eq fun g => ?_)
  by_cases hg : g < 8
  · have hbit := h (c * 8 + (7 - g))
    unfold bit at hbit
    rwa [show (c * 8 + (7 - g)) / 8 = c by omega, show 7 - (c * 8 + (7 - g)) % 8 = g by omega]
      at hbit
  · have hpow : 2 ^ 8 ≤ 2 ^ g := Nat.pow_le_pow_right (by decide) (not_lt.mp hg)
    rw [Nat.testBit_lt_two_pow ((m.get c).toNat_lt.trans_le hpow),
      Nat.testBit_lt_two_pow ((m'.get c).toNat_lt.trans_le hpow)]

/-- One byte of the map is replaced by a byte that has the bit of `a` as well. -/
theorem bit_set_insert {c f : Nat} {x : UInt8} (hc : c < n) (hf : f < 8)
    (h : ∀ g, g < 8 → x.toNat.testBit (7 - g) =
      ((m.get c).toNat.testBit (7 - g) || decide (g = f))) (k : Nat) :
    (m.set c x).bit k = (m.bit k || decide (k = c * 8 + f)) := by
  rw [bit_set x hc]
  split
  · next hk =>
    rw [h _ (Nat.mod_lt _ (by decide)), bit, hk]
    congr 1
    exact decide_eq_decide.mpr (by omega)
  · next hk =>
    have : k ≠ c * 8 + f := by omega
    simp [this]

/-- One byte of the map is replaced by a byte without the bit of `a`. -/
theorem bit_set_erase {c f : Nat} {x : UInt8} (hc : c < n) (hf : f < 8)
    (h : ∀ g, g < 8 → x.toNat.testBit (7 - g) =
      ((m.get c).toNat.testBit (7 - g) && decide (g ≠ f))) (k : Nat) :
    (m.set c x).bit k = (m.bit k && decide (k ≠ c * 8 + f)) := by
  rw [bit_set x hc]
  split
  · next hk =>
    rw [h _ (Nat.mod_lt _ (by decide)), bit, hk]
    congr 1
    exact decide_eq_decide.mpr (by omega)
  · next hk =>
    have : k ≠ c * 8 + f := by omega
    simp [this]

end OsWorkbench.Bytes
