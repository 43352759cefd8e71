import OsWorkbench.Kmt.Model

/-!
# Interrupts under spin locks

`pushcli` clears the interrupt flag before it reads it, so that `intena` is
always zero and `popcli` never sets the flag again. Interrupts stay off while a
lock is held, and they stay off after the last unlock as well.
-/

namespace OsWorkbench.Kmt

variable {L : Type} {m m' : Machine L} {c : Nat} {os : List (SpinCall L)}

/-! ## Balanced calls -/

/-- What a call adds to the number of locks that CPU `c` has taken and not yet
released. -/
def SpinCall.delta (c : Nat) (o : SpinCall L) : Int :=
  if o.cpu = c then if o.isLock then 1 else -1 else 0

/-- Locks minus unlocks of CPU `c`. -/
def depth (c : Nat) (os : List (SpinCall L)) : Int := (os.map (SpinCall.delta c)).sum

/-- Every prefix has at least as many locks as unlocks, and the totals are equal. -/
structure Balanced (c : Nat) (os : List (SpinCall L)) : Prop where
  nonneg : ∀ p, p <+: os → 0 ≤ depth c p
  total : depth c os = 0

@[simp] theorem depth_nil : depth c ([] : List (SpinCall L)) = 0 := rfl

theorem depth_cons (o : SpinCall L) : depth c (o :: os) = o.delta c + depth c os :=
  List.sum_cons

theorem depth_eq_zero (h : ∀ o ∈ os, o.cpu ≠ c) : depth c os = 0 := by
  induction os with
  | nil => rfl
  | cons o os ih =>
    rw [depth_cons, ih fun p hp => h p (List.mem_cons_of_mem o hp), SpinCall.delta,
      if_neg (h o List.mem_cons_self)]
    rfl

variable [DecidableEq L]

/-- `IF` is clear wherever CPU `c` holds a lock, and at the end it is what it was
at the start. -/
structure Restored (m : Machine L) (c : Nat) (os : List (SpinCall L)) (m' : Machine L) :
    Prop where
  masked : ∀ p mp, p <+: os → 0 < depth c p → run spinStep m p = .ok mp →
    (mp.cpu c).flag = false
  ncli : (m'.cpu c).ncli = 0
  flag : (m'.cpu c).flag = (m.cpu c).flag

/-! ## One call -/

/-- Interrupts are off and will not be set again by `popcli`. -/
def Off (u : Cpu) : Prop := u.flag = false ∧ u.intena = 0

theorem pushcli_spec {u v : Cpu} (h : pushcli u = .ok v) (hu : u.ncli = 0 ∨ Off u) :
    v.ncli = u.ncli + 1 ∧ Off v := by
  unfold pushcli at h
  obtain ⟨n, hn, hv⟩ := bind_eq_ok.mp h
  obtain ⟨-, rfl⟩ := int_eq_ok.mp hn
  cases hv
  by_cases h0 : u.ncli = 0
  · simp [cli, eflIf, h0, Off]
  · have hoff := hu.resolve_left h0
    simp [cli, h0, Off, hoff.2]

theorem popcli_spec {u v : Cpu} (h : popcli u = .ok v) (hu : Off u) :
    v.ncli = u.ncli - 1 ∧ Off v := by
  unfold popcli at h
  obtain ⟨n, hn, hv⟩ := bind_eq_ok.mp h
  obtain ⟨-, rfl⟩ := int_eq_ok.mp hn
  cases hv
  rw [if_neg fun hc => hc.2 hu.2]
  exact ⟨rfl, hu⟩

/-- A call of another CPU. -/
theorem spinStep_other {o : SpinCall L} (h : spinStep m o = .ok m') (ho : o.cpu ≠ c) :
    m'.cpu c = m.cpu c := by
  unfold spinStep at h
  split at h
  · obtain ⟨u, -, h⟩ := bind_eq_ok.mp h
    obtain ⟨lk, -, h⟩ := bind_eq_ok.mp h
    cases h
    exact Function.update_of_ne ho.symm _ _
  · obtain ⟨u, -, h⟩ := bind_eq_ok.mp h
    cases h
    exact Function.update_of_ne ho.symm _ _

/-- A call of CPU `c`, which releases only when it holds a lock. -/
theorem spinStep_self {o : SpinCall L} (h : spinStep m o = .ok m') (ho : o.cpu = c)
    (hoff : (m.cpu c).ncli = 0 ∨ Off (m.cpu c)) (hpos : 0 ≤ (m.cpu c).ncli + o.delta c)
    (hn : 0 ≤ (m.cpu c).ncli) :
    (m'.cpu c).ncli = (m.cpu c).ncli + o.delta c ∧ Off (m'.cpu c) := by
  subst ho
  unfold spinStep at h
  unfold SpinCall.delta at hpos ⊢
  rw [if_pos rfl] at hpos ⊢
  split at h
  · next hl =>
    obtain ⟨u, hu, h⟩ := bind_eq_ok.mp h
    obtain ⟨lk, -, h⟩ := bind_eq_ok.mp h
    cases h
    dsimp only
    rw [if_pos hl, Function.update_self]
    exact pushcli_spec hu hoff
  · next hl =>
    rw [if_neg hl] at hpos ⊢
    obtain ⟨u, hu, h⟩ := bind_eq_ok.mp h
    cases h
    have hoff' : Off (m.cpu o.cpu) := hoff.resolve_left (by omega)
    dsimp only
    rw [Function.update_self]
    exact popcli_spec hu hoff'

/-! ## Runs -/

/-- The CPU after a run: untouched, or with interrupts off for good. -/
theorem spin_run (h : run spinStep m os = .ok m') (hn : 0 ≤ (m.cpu c).ncli)
    (hoff : (m.cpu c).ncli = 0 ∨ Off (m.cpu c))
    (hpos : ∀ p, p <+: os → 0 ≤ (m.cpu c).ncli + depth c p) :
    (m'.cpu c).ncli = (m.cpu c).ncli + depth c os ∧
      ((∀ o ∈ os, o.cpu ≠ c) ∧ m'.cpu c = m.cpu c ∨
        (∃ o ∈ os, o.cpu = c) ∧ Off (m'.cpu c)) := by
  induction os generalizing m with
  | nil =>
    cases h
    exact ⟨by simp, .inl ⟨by simp, rfl⟩⟩
  | cons o os ih =>
    obtain ⟨m₁, h1, h⟩ := run_cons.mp h
    have hfirst : 0 ≤ (m.cpu c).ncli + o.delta c := by
      have := hpos [o] (by simp)
      rwa [depth_cons, depth_nil, add_zero] at this
    by_cases ho : o.cpu = c
    · obtain ⟨hn1, hoff1⟩ := spinStep_self h1 ho hoff hfirst hn
      obtain ⟨hdepth, hcase⟩ := ih h (hn1 ▸ hfirst) (.inr hoff1) fun p hp => by
        have := hpos (o :: p) (List.cons_prefix_cons.mpr ⟨rfl, hp⟩)
        rwa [depth_cons, ← add_assoc, ← hn1] at this
      refine ⟨by rw [hdepth, hn1, depth_cons, add_assoc], .inr ⟨⟨o, by simp, ho⟩, ?_⟩⟩
      rcases hcase with ⟨-, heq⟩ | ⟨-, hoff'⟩
      · rwa [heq]
      · exact hoff'
    · have heq := spinStep_other h1 ho
      have hdelta : o.delta c = 0 := if_neg ho
      obtain ⟨hdepth, hcase⟩ := ih h (heq ▸ hn) (heq ▸ hoff) fun p hp => by
        have := hpos (o :: p) (List.cons_prefix_cons.mpr ⟨rfl, hp⟩)
        rwa [depth_cons, hdelta, zero_add, ← heq] at this
      refine ⟨by rw [hdepth, heq, depth_cons, hdelta, zero_add], ?_⟩
      rcases hcase with ⟨hnone, heq'⟩ | ⟨⟨p, hp, hpc⟩, hoff'⟩
      · exact .inl ⟨List.forall_mem_cons.mpr ⟨ho, hnone⟩, heq'.trans heq⟩
      · exact .inr ⟨⟨p, List.mem_cons_of_mem o hp, hpc⟩, hoff'⟩

/-- A balanced sequence of calls restores the interrupt flag exactly when the flag
was clear at the start or CPU `c` made no call at all. -/
theorem restored_iff (h : run spinStep m os = .ok m') (hn : (m.cpu c).ncli = 0)
    (hb : Balanced c os) :
    Restored m c os m' ↔ (m.cpu c).flag = false ∨ ∀ o ∈ os, o.cpu ≠ c := by
  have hpos : ∀ p, p <+: os → 0 ≤ (m.cpu c).ncli + depth c p := fun p hp => by
    rw [hn, zero_add]
    exact hb.nonneg p hp
  obtain ⟨hdepth, hend⟩ := spin_run h hn.ge (.inl hn) hpos
  rw [hn, hb.total] at hdepth
  constructor
  · intro hr
    rcases hend with ⟨hnone, -⟩ | ⟨-, hoff⟩
    · exact .inr hnone
    · exact .inl (hr.flag.symm.trans hoff.1)
  · intro hcase
    refine ⟨fun p mp hp hdp hrun => ?_, hdepth, ?_⟩
    · have hpre := spin_run hrun hn.ge (.inl hn) fun q hq => hpos q (hq.trans hp)
      rcases hpre.2 with ⟨hnone, heq⟩ | ⟨-, hoff⟩
      · exact absurd (depth_eq_zero hnone) hdp.ne'
      · exact hoff.1
    · rcases hend with ⟨-, heq⟩ | ⟨⟨o, ho, hoc⟩, hoff⟩
      · rw [heq]
      · rw [hoff.1]
        exact (hcase.resolve_right fun hnone => hnone o ho hoc).symm

/-- Two locks of CPU 0, taken with the flag clear and released in the order they
were taken. -/
theorem restored_two_locks :
    ∃ m' : Machine Bool,
      Restored ⟨fun _ => ⟨0, 0, false⟩, fun _ => .free⟩ 0
        [⟨0, true, true⟩, ⟨0, true, false⟩, ⟨0, false, true⟩, ⟨0, false, false⟩] m' := by
  obtain ⟨m', hm'⟩ : ∃ m', run spinStep (⟨fun _ => ⟨0, 0, false⟩, fun _ => .free⟩ : Machine Bool)
      [⟨0, true, true⟩, ⟨0, true, false⟩, ⟨0, false, true⟩, ⟨0, false, false⟩] = .ok m' :=
    ⟨_, rfl⟩
  refine ⟨m', (restored_iff hm' rfl ⟨fun p hp => ?_, rfl⟩).mpr (.inl rfl)⟩
  rw [← List.mem_inits] at hp
  revert p
  decide

/-- One lock taken and released with interrupts on leaves them off. -/
theorem not_restored_one_lock :
    ∃ m' : Machine Unit,
      run spinStep ⟨fun _ => ⟨0, 0, true⟩, fun _ => .free⟩ [⟨0, true, ()⟩, ⟨0, false, ()⟩] =
          .ok m' ∧
        Balanced 0 ([⟨0, true, ()⟩, ⟨0, false, ()⟩] : List (SpinCall Unit)) ∧
        ¬Restored ⟨fun _ => ⟨0, 0, true⟩, fun _ => .free⟩ 0 [⟨0, true, ()⟩, ⟨0, false, ()⟩] m' := by
  refine ⟨_, rfl, ⟨fun p hp => ?_, rfl⟩, fun h => ?_⟩
  · rw [← List.mem_inits] at hp
    revert p
    decide
  · exact absurd h.flag (by decide)

end OsWorkbench.Kmt
