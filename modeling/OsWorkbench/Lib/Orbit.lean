import Mathlib

/-!
# Rings of doubly linked nodes

Nodes with a successor `f` and a predecessor `g`. On a finite set where the two are
inverse to each other every node lies on a ring; inserting a node behind another and
taking a node out do not change which of the other nodes share a ring. On top of this,
some of the nodes are heads, and the ring of every live node is to have exactly one.
-/

namespace OsWorkbench.Lib

variable {α : Type*} {f g : α → α} {R : Set α} {i j k n o : α}

/-- `j` is reached from `i` along the successors. -/
def Orbit (f : α → α) : α → α → Prop := Relation.ReflTransGen fun i j => f i = j

/-- `f` and `g` are inverse to each other on `R`. -/
structure Cycles (f g : α → α) (R : Set α) : Prop where
  next_mem : ∀ {i}, i ∈ R → f i ∈ R
  prev_mem : ∀ {i}, i ∈ R → g i ∈ R
  prev_next : ∀ {i}, i ∈ R → g (f i) = i
  next_prev : ∀ {i}, i ∈ R → f (g i) = i

theorem Orbit.refl (i : α) : Orbit f i i := Relation.ReflTransGen.refl

theorem Orbit.trans (h : Orbit f i j) (h' : Orbit f j k) : Orbit f i k :=
  Relation.ReflTransGen.trans h h'

theorem Orbit.next (h : Orbit f i j) : Orbit f i (f j) := Relation.ReflTransGen.tail h rfl

theorem orbit_iff : Orbit f i j ↔ ∃ m, f^[m] i = j := by
  constructor
  · intro h
    induction h with
    | refl => exact ⟨0, rfl⟩
    | tail _ hstep ih =>
      obtain ⟨m, rfl⟩ := ih
      exact ⟨m + 1, by rw [Function.iterate_succ_apply', hstep]⟩
  · rintro ⟨m, rfl⟩
    induction m with
    | zero => exact Orbit.refl i
    | succ m ih =>
      rw [Function.iterate_succ_apply']
      exact ih.next

/-! ## Rings -/

theorem Cycles.injOn (h : Cycles f g R) (hi : i ∈ R) (hj : j ∈ R) (he : f i = f j) : i = j := by
  rw [← h.prev_next hi, he, h.prev_next hj]

theorem Cycles.eq_prev (h : Cycles f g R) (hi : i ∈ R) (he : f i = k) : i = g k := by
  rw [← he, h.prev_next hi]

theorem Cycles.eq_next (h : Cycles f g R) (hi : i ∈ R) (he : g i = k) : i = f k := by
  rw [← he, h.next_prev hi]

theorem Cycles.mem (h : Cycles f g R) (hi : i ∈ R) (ho : Orbit f i j) : j ∈ R := by
  induction ho with
  | refl => exact hi
  | tail _ hstep ih => exact hstep ▸ h.next_mem ih

/-- The successors come back to where they started. -/
theorem Cycles.periodic (h : Cycles f g R) (hfin : R.Finite) (hi : i ∈ R) :
    ∃ m, 0 < m ∧ f^[m] i = i := by
  have : Finite R := hfin
  let F : R → R := fun x => ⟨f x, h.next_mem x.2⟩
  have hF : Function.Injective F := fun x y hxy =>
    Subtype.ext (h.injOn x.2 y.2 (congrArg Subtype.val hxy))
  obtain ⟨m, hm, hper⟩ := Function.mem_periodicPts.mp (hF.mem_periodicPts ⟨i, hi⟩)
  have hiter : ∀ m, (F^[m] ⟨i, hi⟩ : R).val = f^[m] i := by
    intro m
    induction m with
    | zero => rfl
    | succ m ih => rw [Function.iterate_succ_apply', Function.iterate_succ_apply', ← ih]
  refine ⟨m, hm, ?_⟩
  rw [← hiter, hper]

theorem Cycles.orbit_of_next (h : Cycles f g R) (hfin : R.Finite) (hi : i ∈ R) :
    Orbit f (f i) i := by
  obtain ⟨m, hm, hper⟩ := h.periodic hfin hi
  obtain ⟨m, rfl⟩ := Nat.exists_eq_succ_of_ne_zero hm.ne'
  exact orbit_iff.mpr ⟨m, by rw [← Function.iterate_succ_apply, hper]⟩

theorem Cycles.orbit_symm (h : Cycles f g R) (hfin : R.Finite) (hi : i ∈ R)
    (ho : Orbit f i j) : Orbit f j i := by
  induction ho with
  | refl => exact Orbit.refl i
  | tail hij hstep ih =>
    have hj := h.mem hi hij
    exact hstep ▸ (h.orbit_of_next hfin hj).trans ih

/-- Fewer steps than there are nodes lead to every node of the ring. -/
theorem Cycles.orbit_lt (h : Cycles f g R) {N : Nat} (hcard : ∀ s : Finset α, ↑s ⊆ R → s.card ≤ N)
    (hi : i ∈ R) (ho : Orbit f i j) : ∃ m, m < N ∧ f^[m] i = j := by
  classical
  have hex := orbit_iff.mp ho
  have hmem : ∀ m, f^[m] i ∈ R := fun m => h.mem hi (orbit_iff.mpr ⟨m, rfl⟩)
  let m := Nat.find hex
  have hm : f^[m] i = j := Nat.find_spec hex
  -- up to the first visit of `j` no node is visited twice
  have hinj : Set.InjOn (fun a => f^[a] i) ↑(Finset.range (m + 1)) := by
    have hlt : ∀ a b, a < b → b ≤ m → f^[a] i = f^[b] i → False := by
      intro a b hab hbm he
      refine Nat.find_min hex (m := m - (b - a)) (by omega) ?_
      rw [show m - (b - a) = m - b + a by omega, Function.iterate_add_apply, he,
        ← Function.iterate_add_apply, Nat.sub_add_cancel hbm]
      exact hm
    intro a ha b hb he
    rw [Finset.mem_coe, Finset.mem_range] at ha hb
    rcases lt_trichotomy a b with hab | rfl | hab
    · exact (hlt a b hab (by omega) he).elim
    · rfl
    · exact (hlt b a hab (by omega) he.symm).elim
  refine ⟨m, ?_, hm⟩
  have hc := hcard ((Finset.range (m + 1)).image fun a => f^[a] i) (by
    intro x hx
    obtain ⟨a, -, rfl⟩ := Finset.mem_image.mp (Finset.mem_coe.mp hx)
    exact hmem a)
  rw [Finset.card_image_of_injOn hinj, Finset.card_range] at hc
  omega

/-! ## Rings with a head -/

/-- On the ring of every live node there is exactly one head, and it is live. -/
structure Headed (f g : α → α) (R : Set α) (live head : α → Prop) : Prop where
  cycles : Cycles f g R
  finite : R.Finite
  mem : ∀ {i}, live i → i ∈ R
  one : ∀ {i}, live i → ∃ r, live r ∧ head r ∧ Orbit f i r ∧ ∀ j, Orbit f i j → head j → j = r

section Headed

variable {f' g' : α → α} {live live' head head' : α → Prop}

theorem Cycles.congr (h : Cycles f g R) (hf : ∀ i ∈ R, f' i = f i) (hg : ∀ i ∈ R, g' i = g i) :
    Cycles f' g' R where
  next_mem hi := hf _ hi ▸ h.next_mem hi
  prev_mem hi := hg _ hi ▸ h.prev_mem hi
  prev_next hi := by rw [hf _ hi, hg _ (h.next_mem hi), h.prev_next hi]
  next_prev hi := by rw [hg _ hi, hf _ (h.prev_mem hi), h.next_prev hi]

theorem Cycles.orbit_congr (h : Cycles f g R) (hf : ∀ i ∈ R, f' i = f i) (hi : i ∈ R) :
    Orbit f' i j ↔ Orbit f i j := by
  constructor
  · intro horb
    induction horb with
    | refl => exact Orbit.refl i
    | tail _ hstep ih => exact hstep ▸ hf _ (h.mem hi ih) ▸ ih.next
  · intro horb
    induction horb with
    | refl => exact Orbit.refl i
    | tail hib hstep ih => exact hstep ▸ hf _ (h.mem hi hib) ▸ ih.next

/-- Only what is on the rings matters, and of the heads only those on rings with a live
node. -/
theorem Headed.congr (h : Headed f g R live head) (hf : ∀ i ∈ R, f' i = f i)
    (hg : ∀ i ∈ R, g' i = g i)
    (hhead : ∀ {i j}, live i → Orbit f i j → (head' j ↔ head j)) :
    Headed f' g' R live head' where
  cycles := h.cycles.congr hf hg
  finite := h.finite
  mem := h.mem
  one hi := by
    obtain ⟨r, hr, hhr, hir, huniq⟩ := h.one hi
    refine ⟨r, hr, (hhead hi hir).mpr hhr, (h.cycles.orbit_congr hf (h.mem hi)).mpr hir,
      fun j hj hhj => ?_⟩
    have hj' := (h.cycles.orbit_congr hf (h.mem hi)).mp hj
    exact huniq j hj' ((hhead hi hj').mp hhj)

/-- What shares a ring with a live node is on a ring. -/
theorem Headed.orbit_mem (h : Headed f g R live head) (hi : live i) (hj : Orbit f i j) : j ∈ R :=
  h.cycles.mem (h.mem hi) hj

/-- Nodes may die, unless they are the head of a live node. -/
theorem Headed.shrink (h : Headed f g R live head) (hsub : ∀ {i}, live' i → live i)
    (hkeep : ∀ {i r}, live' i → head r → Orbit f i r → live' r) : Headed f g R live' head where
  cycles := h.cycles
  finite := h.finite
  mem hi := h.mem (hsub hi)
  one hi := by
    obtain ⟨r, -, hhr, hir, huniq⟩ := h.one (hsub hi)
    exact ⟨r, hkeep hi hhr hir, hhr, hir, huniq⟩

/-- Rings without live nodes are left out of account. -/
theorem Headed.forget (h : Headed f g R live head) {O : Set α}
    (hclosed : ∀ i ∈ R, i ∉ O → f i ∉ O ∧ g i ∉ O) (hlive : ∀ {i}, live i → i ∉ O) :
    Headed f g (R \ O) live head where
  cycles := {
    next_mem := fun hi => ⟨h.cycles.next_mem hi.1, (hclosed _ hi.1 hi.2).1⟩
    prev_mem := fun hi => ⟨h.cycles.prev_mem hi.1, (hclosed _ hi.1 hi.2).2⟩
    prev_next := fun hi => h.cycles.prev_next hi.1
    next_prev := fun hi => h.cycles.next_prev hi.1 }
  finite := h.finite.sdiff
  mem hi := ⟨h.mem hi, hlive hi⟩
  one := h.one

end Headed

/-! ## Inserting a node -/

variable [DecidableEq α]

/-- The successors after `n` was put behind `o`. -/
def insertNext (f : α → α) (o n : α) : α → α := Function.update (Function.update f n (f o)) o n

/-- The predecessors after `n` was put behind `o`. -/
def insertPrev (f g : α → α) (o n : α) : α → α := Function.update (Function.update g n o) (f o) n

theorem insertNext_self : insertNext f o n o = n := Function.update_self ..

theorem insertNext_new (hn : n ≠ o) : insertNext f o n n = f o := by
  rw [insertNext, Function.update_of_ne hn, Function.update_self]

theorem insertNext_other (hi : i ≠ o) (hin : i ≠ n) : insertNext f o n i = f i := by
  rw [insertNext, Function.update_of_ne hi, Function.update_of_ne hin]

theorem Cycles.insert (h : Cycles f g R) (ho : o ∈ R) (hn : n ∉ R) :
    Cycles (insertNext f o n) (insertPrev f g o n) (insert n R) := by
  have hno : n ≠ o := (ne_of_mem_of_not_mem ho hn).symm
  have hnf : n ≠ f o := (ne_of_mem_of_not_mem (h.next_mem ho) hn).symm
  have hprev_new : insertPrev f g o n n = o := by
    rw [insertPrev, Function.update_of_ne hnf, Function.update_self]
  have hprev_next : insertPrev f g o n (f o) = n := Function.update_self ..
  have hprev_other : ∀ {i}, i ≠ f o → i ≠ n → insertPrev f g o n i = g i := by
    intro i hi hin
    rw [insertPrev, Function.update_of_ne hi, Function.update_of_ne hin]
  constructor
  · rintro i (rfl | hi)
    · rw [insertNext_new hno]
      exact .inr (h.next_mem ho)
    · by_cases hio : i = o
      · rw [hio, insertNext_self]
        exact .inl rfl
      · rw [insertNext_other hio (ne_of_mem_of_not_mem hi hn)]
        exact .inr (h.next_mem hi)
  · rintro i (rfl | hi)
    · rw [hprev_new]
      exact .inr ho
    · by_cases hif : i = f o
      · rw [hif, hprev_next]
        exact .inl rfl
      · rw [hprev_other hif (ne_of_mem_of_not_mem hi hn)]
        exact .inr (h.prev_mem hi)
  · rintro i (rfl | hi)
    · rw [insertNext_new hno, hprev_next]
    · by_cases hio : i = o
      · rw [hio, insertNext_self, hprev_new]
      · rw [insertNext_other hio (ne_of_mem_of_not_mem hi hn), hprev_other
          (fun he => hio (h.injOn hi ho he)) (ne_of_mem_of_not_mem (h.next_mem hi) hn),
        h.prev_next hi]
  · rintro i (rfl | hi)
    · rw [hprev_new, insertNext_self]
    · by_cases hif : i = f o
      · rw [hif, hprev_next, insertNext_new hno]
      · have hgo : g i ≠ o := fun he => hif (he ▸ (h.next_prev hi).symm)
        rw [hprev_other hif (ne_of_mem_of_not_mem hi hn),
          insertNext_other hgo (ne_of_mem_of_not_mem (h.prev_mem hi) hn), h.next_prev hi]

theorem Cycles.orbit_insert (h : Cycles f g R) (ho : o ∈ R) (hn : n ∉ R) (hi : i ∈ R) :
    (Orbit (insertNext f o n) i j ↔ if j = n then Orbit f i o else Orbit f i j) := by
  have hno : n ≠ o := (ne_of_mem_of_not_mem ho hn).symm
  constructor
  · intro horb
    induction horb with
    | refl =>
      rw [if_neg (ne_of_mem_of_not_mem hi hn)]
      exact Orbit.refl i
    | @tail b c _ hstep ih =>
      by_cases hbn : b = n
      · rw [if_pos hbn] at ih
        rw [hbn, insertNext_new hno] at hstep
        rw [← hstep, if_neg (ne_of_mem_of_not_mem (h.next_mem ho) hn)]
        exact ih.next
      · rw [if_neg hbn] at ih
        by_cases hbo : b = o
        · rw [hbo, insertNext_self] at hstep
          rw [if_pos hstep.symm, ← hbo]
          exact ih
        · rw [insertNext_other hbo hbn] at hstep
          rw [← hstep, if_neg (ne_of_mem_of_not_mem (h.next_mem (h.mem hi ih)) hn)]
          exact ih.next
  · -- every old step is one new step, or two of them at `o`
    have hold : ∀ {c}, Orbit f i c → Orbit (insertNext f o n) i c := by
      intro c hc
      induction hc with
      | refl => exact Orbit.refl i
      | @tail b c hib hstep ih =>
        have hbn : b ≠ n := ne_of_mem_of_not_mem (h.mem hi hib) hn
        by_cases hbo : b = o
        · have h1 := ih.next
          rw [hbo, insertNext_self] at h1
          have h2 := h1.next
          rw [insertNext_new hno] at h2
          rw [← hstep, hbo]
          exact h2
        · have h1 := ih.next
          rw [insertNext_other hbo hbn] at h1
          exact hstep ▸ h1
    intro hj
    by_cases hjn : j = n
    · rw [if_pos hjn] at hj
      have h1 := (hold hj).next
      rw [insertNext_self] at h1
      exact hjn ▸ h1
    · rw [if_neg hjn] at hj
      exact hold hj

/-! ## Taking a node out -/

/-- The successors after `k` was taken out. -/
def removeNext (f g : α → α) (k : α) : α → α := Function.update f (g k) (f k)

/-- The predecessors after `k` was taken out. -/
def removePrev (f g : α → α) (k : α) : α → α := Function.update g (f k) (g k)

theorem removeNext_prev : removeNext f g k (g k) = f k := Function.update_self ..

theorem removeNext_other (hi : i ≠ g k) : removeNext f g k i = f i := Function.update_of_ne hi ..

theorem removePrev_next : removePrev f g k (f k) = g k := Function.update_self ..

theorem removePrev_other (hi : i ≠ f k) : removePrev f g k i = g i := Function.update_of_ne hi ..

theorem Cycles.remove (h : Cycles f g R) (hk : k ∈ R) :
    Cycles (removeNext f g k) (removePrev f g k) (R \ {k}) := by
  have hnext : g k ≠ k → f k ≠ k := fun hne he => hne (h.eq_prev hk he).symm
  have hprev : f k ≠ k → g k ≠ k := fun hne he => hne (h.eq_next hk he).symm
  constructor
  · rintro i ⟨hi, hik⟩
    by_cases hig : i = g k
    · rw [hig, removeNext_prev]
      exact ⟨h.next_mem hk, hnext (hig ▸ hik)⟩
    · rw [removeNext_other hig]
      exact ⟨h.next_mem hi, fun he => hig (h.eq_prev hi he)⟩
  · rintro i ⟨hi, hik⟩
    by_cases hif : i = f k
    · rw [hif, removePrev_next]
      exact ⟨h.prev_mem hk, hprev (hif ▸ hik)⟩
    · rw [removePrev_other hif]
      exact ⟨h.prev_mem hi, fun he => hif (h.eq_next hi he)⟩
  · rintro i ⟨hi, hik⟩
    by_cases hig : i = g k
    · rw [hig, removeNext_prev, removePrev_next]
    · have hne : f i ≠ f k := fun he => hik (h.injOn hi hk he)
      rw [removeNext_other hig, removePrev_other hne, h.prev_next hi]
  · rintro i ⟨hi, hik⟩
    by_cases hif : i = f k
    · rw [hif, removePrev_next, removeNext_prev]
    · have hne : g i ≠ g k := fun he => hik (by
        have := h.next_prev hi
        rw [he, h.next_prev hk] at this
        exact this.symm)
      rw [removePrev_other hif, removeNext_other hne, h.next_prev hi]

/-- The nodes other than `k` are joined as before. -/
theorem Cycles.orbit_remove (h : Cycles f g R) (hk : k ∈ R) (hi : i ∈ R) (hik : i ≠ k)
    (hjk : j ≠ k) : Orbit (removeNext f g k) i j ↔ Orbit f i j := by
  constructor
  · intro horb
    induction horb with
    | refl => exact Orbit.refl i
    | @tail b c hib hstep ih =>
      have hb : b ∈ R \ {k} := (h.remove hk).mem ⟨hi, hik⟩ hib
      have ih := ih hb.2
      by_cases hbg : b = g k
      · rw [hbg, removeNext_prev] at hstep
        have h1 := ih.next
        rw [hbg, h.next_prev hk] at h1
        exact hstep ▸ h1.next
      · rw [removeNext_other hbg] at hstep
        exact hstep ▸ ih.next
  · intro horb
    -- on the way the path may pass through `k`, right after its predecessor
    have hpath : ∀ {c}, Orbit f i c →
        (c ≠ k → Orbit (removeNext f g k) i c) ∧ (c = k → Orbit (removeNext f g k) i (g k)) := by
      intro c hc
      induction hc with
      | refl => exact ⟨fun _ => Orbit.refl i, fun he => absurd he hik⟩
      | @tail b c hib hstep ih =>
        have hb := h.mem hi hib
        by_cases hbk : b = k
        · have hk' := ih.2 hbk
          rw [hbk] at hstep
          refine ⟨fun _ => ?_, fun hck => ?_⟩
          · have h1 := hk'.next
            rw [removeNext_prev] at h1
            exact hstep ▸ h1
          · exact hk'
        · have hb' := ih.1 hbk
          refine ⟨fun hck => ?_, fun hck => ?_⟩
          · have hbg : b ≠ g k := by
              intro he
              rw [he, h.next_prev hk] at hstep
              exact hck hstep.symm
            have h1 := hb'.next
            rw [removeNext_other hbg] at h1
            exact hstep ▸ h1
          · rw [h.eq_prev hb (hstep.trans hck)] at hb'
            exact hb'
    exact (hpath horb).1 hjk

/-! ## Heads on changed rings -/

section Changed

variable {live live' head head' : α → Prop}

/-- A head on a ring of its own is added. -/
theorem Headed.single (h : Headed f g R live head) (hn : n ∉ R) (hhead : head n) :
    Headed (Function.update f n n) (Function.update g n n) (insert n R) (fun i => live i ∨ i = n)
      head := by
  have hne : ∀ i ∈ R, i ≠ n := fun i hi => ne_of_mem_of_not_mem hi hn
  have hold : Cycles (Function.update f n n) (Function.update g n n) R := h.cycles.congr
    (fun i hi => Function.update_of_ne (hne i hi) ..)
    (fun i hi => Function.update_of_ne (hne i hi) ..)
  have hself : ∀ {j}, Orbit (Function.update f n n) n j → j = n := by
    intro j hj
    induction hj with
    | refl => rfl
    | tail _ hstep ih => rw [← hstep, ih, Function.update_self]
  refine ⟨⟨?_, ?_, ?_, ?_⟩, h.finite.insert n, ?_, ?_⟩
  · rintro i (rfl | hi)
    · exact .inl (Function.update_self ..)
    · exact .inr (hold.next_mem hi)
  · rintro i (rfl | hi)
    · exact .inl (Function.update_self ..)
    · exact .inr (hold.prev_mem hi)
  · rintro i (rfl | hi)
    · rw [Function.update_self, Function.update_self]
    · exact hold.prev_next hi
  · rintro i (rfl | hi)
    · rw [Function.update_self, Function.update_self]
    · exact hold.next_prev hi
  · rintro i (hi | rfl)
    · exact .inr (h.mem hi)
    · exact .inl rfl
  · rintro i (hi | rfl)
    · obtain ⟨r, hr, hhr, hir, huniq⟩ := h.one hi
      have horb : ∀ {j}, Orbit (Function.update f n n) i j ↔ Orbit f i j :=
        h.cycles.orbit_congr (fun k hk => Function.update_of_ne (hne k hk) ..) (h.mem hi)
      exact ⟨r, .inl hr, hhr, horb.mpr hir, fun j hj => huniq j (horb.mp hj)⟩
    · exact ⟨i, .inr rfl, hhead, Orbit.refl i, fun j hj _ => hself hj⟩

/-- A node that is no head is put on the ring of a live node. -/
theorem Headed.insert (h : Headed f g R live head) (ho : live o) (hn : n ∉ R) (hhead : ¬head n) :
    Headed (insertNext f o n) (insertPrev f g o n) (insert n R) (fun i => live i ∨ i = n) head := by
  have hoR := h.mem ho
  have hno : n ≠ o := (ne_of_mem_of_not_mem hoR hn).symm
  have hcyc := h.cycles.insert hoR hn
  have hold : ∀ {i}, live i → ∃ r, (live r ∨ r = n) ∧ head r ∧ Orbit (insertNext f o n) i r ∧
      ∀ j, Orbit (insertNext f o n) i j → head j → j = r := by
    intro i hi
    obtain ⟨r, hr, hhr, hir, huniq⟩ := h.one hi
    have hrn : r ≠ n := ne_of_mem_of_not_mem (h.mem hr) hn
    refine ⟨r, .inl hr, hhr, ?_, fun j hj hhj => ?_⟩
    · rw [h.cycles.orbit_insert hoR hn (h.mem hi), if_neg hrn]
      exact hir
    · have hjn : j ≠ n := fun he => hhead (he ▸ hhj)
      rw [h.cycles.orbit_insert hoR hn (h.mem hi), if_neg hjn] at hj
      exact huniq j hj hhj
  refine ⟨hcyc, h.finite.insert n, ?_, ?_⟩
  · rintro i (hi | rfl)
    · exact .inr (h.mem hi)
    · exact .inl rfl
  · rintro i (hi | rfl)
    · exact hold hi
    · -- the new node and `o` are on one ring
      obtain ⟨r, hr, hhr, hor, huniq⟩ := hold ho
      have hfin := h.finite.insert i
      have hoi : Orbit (insertNext f o i) o i := by
        have := (Orbit.refl (f := insertNext f o i) o).next
        rwa [insertNext_self] at this
      have hio := hcyc.orbit_symm hfin (.inr hoR) hoi
      exact ⟨r, hr, hhr, hio.trans hor, fun j hj => huniq j (hoi.trans hj)⟩

/-- A node that is not live is taken out. -/
theorem Headed.remove (h : Headed f g R live head) (hk : k ∈ R) (hlive : ¬live k) :
    Headed (removeNext f g k) (removePrev f g k) (R \ {k}) live head where
  cycles := h.cycles.remove hk
  finite := h.finite.sdiff
  mem hi := ⟨h.mem hi, fun he => hlive (he ▸ hi)⟩
  one {i} hi := by
    obtain ⟨r, hr, hhr, hir, huniq⟩ := h.one hi
    have hik : i ≠ k := fun he => hlive (he ▸ hi)
    have hrk : r ≠ k := fun he => hlive (he ▸ hr)
    refine ⟨r, hr, hhr, (h.cycles.orbit_remove hk (h.mem hi) hik hrk).mpr hir, fun j hj hhj => ?_⟩
    have hjk : j ≠ k := ((h.cycles.remove hk).mem ⟨h.mem hi, hik⟩ hj).2
    exact huniq j ((h.cycles.orbit_remove hk (h.mem hi) hik hjk).mp hj) hhj

/-- A head is taken out, and another node of its ring takes its place. -/
theorem Headed.promote (h : Headed f g R live head) (hk : live k) (hhk : head k) (hkl : Orbit f k o)
    (hlo : live' o) (hdead : ¬live' k) (hsub : ∀ {i}, live' i → live i)
    (hkeep : ∀ {i r}, live' i → head r → Orbit f i r → r = k ∨ live' r)
    (hho : head' o) (hhead : ∀ i, i ≠ k → i ≠ o → (head' i ↔ head i)) :
    Headed (removeNext f g k) (removePrev f g k) (R \ {k}) live' head' where
  cycles := h.cycles.remove (h.mem hk)
  finite := h.finite.sdiff
  mem hi := ⟨h.mem (hsub hi), fun he => hdead (he ▸ hi)⟩
  one {i} hi := by
    have hkR := h.mem hk
    have hiR := h.mem (hsub hi)
    have hik : i ≠ k := fun he => hdead (he ▸ hi)
    have hok : o ≠ k := fun he => hdead (he ▸ hlo)
    have hrem : ∀ {j}, Orbit (removeNext f g k) i j → j ≠ k ∧ Orbit f i j := by
      intro j hj
      have hjk := ((h.cycles.remove hkR).mem ⟨hiR, hik⟩ hj).2
      exact ⟨hjk, (h.cycles.orbit_remove hkR hiR hik hjk).mp hj⟩
    obtain ⟨r, hr, hhr, hir, huniq⟩ := h.one (hsub hi)
    by_cases hrk : r = k
    · rw [hrk] at hir huniq
      refine ⟨o, hlo, hho, (h.cycles.orbit_remove hkR hiR hik hok).mpr (hir.trans hkl),
        fun j hj hhj => ?_⟩
      obtain ⟨hjk, hj'⟩ := hrem hj
      by_contra hjo
      exact hjk (huniq j hj' ((hhead j hjk hjo).mp hhj))
    · -- the ring is another one than that of `k`
      have hother : ∀ {j}, Orbit f i j → j ≠ o := by
        rintro j hj rfl
        exact hrk (huniq k (hj.trans (h.cycles.orbit_symm h.finite hkR hkl)) hhk).symm
      refine ⟨r, (hkeep hi hhr hir).resolve_left hrk, (hhead r hrk (hother hir)).mpr hhr,
        (h.cycles.orbit_remove hkR hiR hik hrk).mpr hir, fun j hj hhj => ?_⟩
      obtain ⟨hjk, hj'⟩ := hrem hj
      exact huniq j hj' ((hhead j hjk (hother hj')).mp hhj)

end Changed

end OsWorkbench.Lib
