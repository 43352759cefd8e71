import Mathlib

/-!
# Exchange sort

Sorting the first `n` cells of an array: cell `i` is compared with every cell behind it and
the two are exchanged if they are out of order, for `i = 0, 1, …`. The cells keep what they
hold, in another order, and the keys are then non-decreasing.
-/

namespace OsWorkbench.Lib

variable {α κ : Type} [LinearOrder κ]

/-- The first `n` cells. -/
def cellsOf (f : Nat → α) (n : Nat) : List α := (List.range n).map f

def compareSwap (key : α → κ) (i : Nat) (f : Nat → α) (j : Nat) : Nat → α :=
  if key (f j) < key (f i) then f ∘ Equiv.swap i j else f

/-- Cell `i` against the cells behind it. -/
def exchangePass (key : α → κ) (n : Nat) (f : Nat → α) (i : Nat) : Nat → α :=
  (List.range' (i + 1) (n - (i + 1))).foldl (compareSwap key i) f

def exchangeSort (key : α → κ) (n : Nat) (f : Nat → α) : Nat → α :=
  (List.range n).foldl (exchangePass key n) f

theorem cellsOf_swap (f : Nat → α) {n i j : Nat} (hi : i < n) (hj : j < n) :
    (cellsOf (f ∘ Equiv.swap i j) n).Perm (cellsOf f n) := by
  have hmem : ∀ k, k < n ↔ Equiv.swap i j k < n := by
    intro k
    rw [Equiv.swap_apply_def]
    split_ifs with hki hkj
    · exact ⟨fun _ => hj, fun _ => hki ▸ hi⟩
    · exact ⟨fun _ => hi, fun _ => hkj ▸ hj⟩
    · exact Iff.rfl
  have hperm : ((List.range n).map (Equiv.swap i j)).Perm (List.range n) := by
    refine (List.perm_ext_iff_of_nodup (List.nodup_range.map (Equiv.swap i j).injective)
      List.nodup_range).mpr fun k => ?_
    rw [List.mem_map, List.mem_range]
    constructor
    · rintro ⟨m, hm, rfl⟩
      exact (hmem m).mp (List.mem_range.mp hm)
    · intro hk
      refine ⟨Equiv.swap i j k, List.mem_range.mpr ((hmem k).mp hk), ?_⟩
      rw [Equiv.swap_apply_self]
  have hmap := hperm.map f
  rwa [List.map_map] at hmap

/-- `g` is `f` after cell `i` was compared with the cells in front of `j`. -/
structure Passed (key : α → κ) (n i j : Nat) (f g : Nat → α) : Prop where
  perm : (cellsOf g n).Perm (cellsOf f n)
  front : ∀ a < i, g a = f a
  back : ∀ b, i ≤ b → b < n → ∃ c, i ≤ c ∧ c < n ∧ g b = f c
  least : ∀ b, i ≤ b → b < j → key (g i) ≤ key (g b)

theorem Passed.step {key : α → κ} {n i j : Nat} {f g : Nat → α} (h : Passed key n i j f g)
    (hij : i < j) (hj : j < n) : Passed key n i (j + 1) f (compareSwap key i g j) := by
  unfold compareSwap
  split
  case isTrue hlt =>
    have hswap : ∀ b, b ≠ i → b ≠ j → (g ∘ Equiv.swap i j) b = g b := fun b hbi hbj =>
      congrArg g (Equiv.swap_apply_of_ne_of_ne hbi hbj)
    have hi : (g ∘ Equiv.swap i j) i = g j := congrArg g (Equiv.swap_apply_left i j)
    have hj' : (g ∘ Equiv.swap i j) j = g i := congrArg g (Equiv.swap_apply_right i j)
    refine ⟨(cellsOf_swap g (hij.trans hj) hj).trans h.perm, fun a ha => ?_, fun b hb hbn => ?_,
      fun b hb hbj => ?_⟩
    · rw [hswap a ha.ne (ha.trans hij).ne]
      exact h.front a ha
    · rcases eq_or_ne b i with rfl | hbi
      · rw [hi]
        exact h.back j hij.le hj
      · rcases eq_or_ne b j with rfl | hbj
        · rw [hj']
          exact h.back i le_rfl (hij.trans hj)
        · rw [hswap b hbi hbj]
          exact h.back b hb hbn
    · rw [hi]
      rcases eq_or_ne b i with rfl | hbi
      · rw [hi]
      · rcases eq_or_ne b j with rfl | hbj'
        · rw [hj']
          exact hlt.le
        · rw [hswap b hbi hbj']
          have hbj'' : b < j := by omega
          exact hlt.le.trans (h.least b hb hbj'')
  case isFalse hge =>
    refine ⟨h.perm, h.front, h.back, fun b hb hbj => ?_⟩
    rcases Nat.lt_succ_iff_lt_or_eq.mp hbj with hlt | rfl
    · exact h.least b hb hlt
    · exact not_lt.mp hge

theorem exchangePass_spec (key : α → κ) (n : Nat) (f : Nat → α) {i : Nat} (hi : i < n) :
    Passed key n i n f (exchangePass key n f i) := by
  have hstart : Passed key n i (i + 1) f f :=
    ⟨.refl _, fun _ _ => rfl, fun b hb hbn => ⟨b, hb, hbn, rfl⟩, fun b hb hbi => by
      have hbi' : b = i := by omega
      rw [hbi']⟩
  have hrun : ∀ m, i + 1 + m ≤ n →
      Passed key n i (i + 1 + m) f ((List.range' (i + 1) m).foldl (compareSwap key i) f) := by
    intro m
    induction m with
    | zero => exact fun _ => hstart
    | succ m ih =>
      intro hm
      rw [List.range'_concat, List.foldl_append, Nat.one_mul]
      exact (ih (by omega)).step (by omega) (by omega)
  have hend := hrun (n - (i + 1)) (by omega)
  rwa [show i + 1 + (n - (i + 1)) = n by omega] at hend

/-- The cells in front of `i` are in their final places. -/
structure SortedTo (key : α → κ) (n i : Nat) (f g : Nat → α) : Prop where
  perm : (cellsOf g n).Perm (cellsOf f n)
  sorted : ∀ a b, a < i → a < b → b < n → key (g a) ≤ key (g b)

theorem SortedTo.step {key : α → κ} {n i : Nat} {f g : Nat → α} (h : SortedTo key n i f g)
    (hi : i < n) : SortedTo key n (i + 1) f (exchangePass key n g i) := by
  have hpass := exchangePass_spec key n g hi
  refine ⟨hpass.perm.trans h.perm, fun a b ha hab hbn => ?_⟩
  rcases Nat.lt_succ_iff_lt_or_eq.mp ha with hlt | rfl
  · rw [hpass.front a hlt]
    rcases lt_or_ge b i with hbi | hbi
    · rw [hpass.front b hbi]
      exact h.sorted a b hlt hab hbn
    · obtain ⟨c, hc, hcn, hbc⟩ := hpass.back b hbi hbn
      rw [hbc]
      exact h.sorted a c hlt (hlt.trans_le hc) hcn
  · exact hpass.least b hab.le hbn

/-- The sort keeps the contents of the cells and puts the keys in order. -/
theorem exchangeSort_spec (key : α → κ) (n : Nat) (f : Nat → α) :
    (cellsOf (exchangeSort key n f) n).Perm (cellsOf f n) ∧
      (cellsOf (exchangeSort key n f) n).Pairwise fun a b => key a ≤ key b := by
  have hrun : ∀ m ≤ n, SortedTo key n m f ((List.range m).foldl (exchangePass key n) f) := by
    intro m
    induction m with
    | zero => exact fun _ => ⟨.refl _, fun a b ha => absurd ha (Nat.not_lt_zero a)⟩
    | succ m ih =>
      intro hm
      rw [List.range_succ, List.foldl_append]
      exact (ih (Nat.le_of_succ_le hm)).step hm
  have hend := hrun n le_rfl
  refine ⟨hend.perm, ?_⟩
  rw [cellsOf, List.pairwise_map]
  refine List.pairwise_iff_getElem.mpr fun a b ha hb hab => ?_
  rw [List.length_range] at ha hb
  rw [List.getElem_range, List.getElem_range]
  exact hend.sorted a b ha hab hb

end OsWorkbench.Lib
