import OsWorkbench.Kmt.Model

/-!
# One task, one CPU

A task that blocks in `kmt_sem_wait` is in the queue of the semaphore before its
`_yield` trap has saved its context. A signal in between makes it `RUNNABLE`, and
a trap on another CPU then runs it a second time. As long as no signal falls into
that window, no task is current on two CPUs.
-/

namespace OsWorkbench.Kmt

variable {T S : Type} {k k' k₀ : Kernel T S}

/-! ## What one step does -/

theorem select_selectable {n idx i : Nat} (h : select k n idx = .ok i) : Selectable k i := by
  induction n generalizing idx with
  | zero => cases h
  | succ n ih =>
    unfold select at h
    dsimp only at h
    split at h
    · next hs =>
      cases h
      exact hs
    · exact ih h

/-- The selection loop goes on for ever or finds a task. -/
theorem select_error {n idx : Nat} {e : Fault} (h : select k n idx = .error e) : e = .diverges := by
  induction n generalizing idx with
  | zero =>
    cases h
    rfl
  | succ n ih =>
    unfold select at h
    dsimp only at h
    split at h
    · cases h
    · exact ih h

variable [DecidableEq T]

theorem saveCurrent_current {c : Nat} : (saveCurrent k c).current = k.current := by
  unfold saveCurrent
  split <;> rfl

theorem saveCurrent_state {c : Nat} {u : T} :
    (saveCurrent k c).state u = k.state u ∨
      (k.current c = some u ∧ k.state u = .running ∧ (saveCurrent k c).state u = .runnable) := by
  unfold saveCurrent
  split
  · exact .inl rfl
  · next t ht =>
    dsimp only
    split
    · next hrun =>
      by_cases hu : u = t
      · subst hu
        exact .inr ⟨ht, hrun, Function.update_self ..⟩
      · exact .inl (Function.update_of_ne hu ..)
    · exact .inl rfl

theorem saveCurrent_stale {c : Nat} {u : T} :
    (saveCurrent k c).stale u = true ↔ k.stale u = true ∧ k.current c ≠ some u := by
  unfold saveCurrent
  split
  · next hn => simp [hn]
  · next t ht =>
    dsimp only
    rw [ht]
    by_cases hu : u = t
    · subst hu
      simp
    · rw [Function.update_of_ne hu]
      simp [Ne.symm hu]

@[simp] theorem dispatch_current_self {c : Nat} {t : T} :
    (dispatch k c t).current c = some t := Function.update_self ..

theorem dispatch_current_ne {c d : Nat} {t : T} (h : d ≠ c) :
    (dispatch k c t).current d = k.current d := Function.update_of_ne h ..

@[simp] theorem dispatch_state_self {c : Nat} {t : T} :
    (dispatch k c t).state t = .running := Function.update_self ..

theorem dispatch_state_ne {c : Nat} {t u : T} (h : u ≠ t) :
    (dispatch k c t).state u = k.state u := Function.update_of_ne h ..

theorem dispatch_stale_ne {c : Nat} {t u : T} (h : u ≠ t) :
    (dispatch k c t).stale u = k.stale u := Function.update_of_ne h ..

/-- A trap runs a task that was selectable after the old one was put back. -/
theorem contextSaveSwitch_cases {c : Nat} (h : contextSaveSwitch k c = .ok k') :
    ∃ i t, select (saveCurrent k c) (saveCurrent k c).tasksSize (startIdx (saveCurrent k c) c) =
        .ok i ∧
      (saveCurrent k c).tasks i = some t ∧
      ((saveCurrent k c).state t = .started ∨ (saveCurrent k c).state t = .runnable) ∧
      k' = dispatch (saveCurrent k c) c t := by
  unfold contextSaveSwitch at h
  obtain ⟨i, hi, h⟩ := bind_eq_ok.mp h
  obtain ⟨t, ht, hs⟩ := select_selectable hi
  simp only [ht] at h
  cases h
  exact ⟨i, t, hi, ht, hs, rfl⟩

theorem contextSaveSwitch_error {c : Nat} {e : Fault} (h : contextSaveSwitch k c = .error e) :
    e = .diverges := by
  rcases bind_eq_error.mp h with h | ⟨i, hi, h⟩
  · exact select_error h
  · obtain ⟨t, ht, -⟩ := select_selectable hi
    rw [ht] at h
    cases h

/-- A wait leaves the states alone, or the waiting task blocks. -/
theorem semWait_cases {sem : Sem T} {st : T → TaskState} {cpu : Nat} {t : T}
    {r : Sem T × (T → TaskState)} (h : semWait sem st cpu t = .ok r) :
    (r.2 = st ∧ r.1.que = sem.que) ∨
      (r.2 = Function.update st t .yield ∧
        r.1.que = Function.update sem.que sem.tail (some t)) := by
  unfold semWait at h
  obtain ⟨lk, -, h⟩ := bind_eq_ok.mp h
  obtain ⟨v, -, h⟩ := bind_eq_ok.mp h
  dsimp only at h
  split at h
  · obtain ⟨sem', hp, h⟩ := bind_eq_ok.mp h
    obtain ⟨-, -, hp⟩ := bind_eq_ok.mp hp
    obtain ⟨-, -, hp⟩ := bind_eq_ok.mp hp
    cases hp
    cases h
    exact .inr ⟨rfl, rfl⟩
  · cases h
    exact .inl ⟨rfl, rfl⟩

/-- A signal leaves the states alone, or it wakes the first task of the queue. -/
theorem semSignal_cases {sem : Sem T} {st : T → TaskState} {cpu : Nat}
    {r : Sem T × (T → TaskState)} (h : semSignal sem st cpu = .ok r) :
    r.1.que = sem.que ∧
      (r.2 = st ∨ ∃ t, sem.value < 0 ∧ sem.que sem.head = some t ∧
        r.2 = Function.update st t .runnable) := by
  unfold semSignal at h
  obtain ⟨lk, -, h⟩ := bind_eq_ok.mp h
  obtain ⟨v, hv, h⟩ := bind_eq_ok.mp h
  have hval : sem.value + 1 = v := by
    unfold int at hv
    split at hv
    · cases hv
      rfl
    · cases hv
  dsimp only at h
  split at h
  · next hle =>
    unfold wakeup semPop at h
    dsimp only at h
    split at h
    · cases h
    · obtain ⟨p, hp, h⟩ := bind_eq_ok.mp h
      obtain ⟨-, -, hp⟩ := bind_eq_ok.mp hp
      obtain ⟨-, -, hp⟩ := bind_eq_ok.mp hp
      cases hp
      split at h
      · cases h
      · next t ht =>
        cases h
        exact ⟨rfl, .inr ⟨t, by omega, ht, rfl⟩⟩
  · cases h
    exact ⟨rfl, .inl rfl⟩

theorem yieldBy_cases {c : Nat} (h : yieldBy k c = .ok k') :
    ∃ t, k.current c = some t ∧
      contextSaveSwitch { k with asleep := Function.update k.asleep t false } c = .ok k' := by
  unfold yieldBy at h
  split at h
  · cases h
  · next t ht => exact ⟨t, ht, h⟩

/-- Creating tasks puts none of them on a CPU. -/
theorem create_current {t : T} (h : create k t = .ok k') :
    k'.current = k.current ∧ ∀ u, k'.stale u = true → k.stale u = true := by
  unfold create tasksInsert at h
  obtain ⟨-, -, h⟩ := bind_eq_ok.mp h
  cases h
  refine ⟨rfl, fun u hu => ?_⟩
  by_cases hut : u = t
  · subst hut
    simp [Function.update_self] at hu
  · simpa [Function.update_of_ne hut] using hu

section Steps

variable [DecidableEq S]

theorem waitBy_cases {c : Nat} {s : S} (h : waitBy k c s = .ok k') :
    ∃ t r, k.current c = some t ∧ semWait (k.sem s) k.state c t = .ok r ∧
      k' = { k with
        sem := Function.update k.sem s r.1
        state := r.2
        asleep := Function.update k.asleep t (decide (r.1.value < 0)) } := by
  unfold waitBy at h
  split at h
  · cases h
  · next t ht =>
    obtain ⟨r, hr, h⟩ := bind_eq_ok.mp h
    cases h
    exact ⟨t, r, ht, hr, rfl⟩

theorem signalBy_cases {c : Nat} {s : S} (h : signalBy k c s = .ok k') :
    ∃ r, semSignal (k.sem s) k.state c = .ok r ∧
      k' = { k with sem := Function.update k.sem s r.1, state := r.2 } := by
  unfold signalBy at h
  obtain ⟨r, hr, h⟩ := bind_eq_ok.mp h
  cases h
  exact ⟨r, hr, rfl⟩

end Steps

/-! ## The invariant -/

/-- No task is the current task of two CPUs. -/
def Exclusive (k : Kernel T S) : Prop :=
  ∀ c d t, c ≠ d → k.current c = some t → k.current d ≠ some t

/-- A task that a trap may select is on no CPU, and a task whose context is not up
to date is on one. -/
structure Placed (k : Kernel T S) : Prop where
  exclusive : Exclusive k
  waiting : ∀ t, k.state t = .started ∨ k.state t = .runnable → ∀ c, k.current c ≠ some t
  stale : ∀ t, k.stale t = true → ∃ c, k.current c = some t

namespace Placed

/-- The task that a trap on CPU `c` selects is on no other CPU. -/
theorem selected {c : Nat} {t : T} (h : Placed k)
    (ht : (saveCurrent k c).state t = .started ∨ (saveCurrent k c).state t = .runnable) :
    (∀ d, d ≠ c → k.current d ≠ some t) ∧ (saveCurrent k c).stale t = false := by
  by_cases hc : k.current c = some t
  · refine ⟨fun d hd => h.exclusive c d t hd.symm hc, ?_⟩
    by_contra hst
    exact (saveCurrent_stale.mp (Bool.eq_true_of_not_eq_false hst)).2 hc
  · have hstate : (saveCurrent k c).state t = k.state t :=
      saveCurrent_state.resolve_right fun h => hc h.1
    rw [hstate] at ht
    have hnone := h.waiting t ht
    refine ⟨fun d _ => hnone d, ?_⟩
    by_contra hst
    obtain ⟨d, hd⟩ := h.stale t (saveCurrent_stale.mp (Bool.eq_true_of_not_eq_false hst)).1
    exact hnone d hd

theorem trap {c : Nat} (h : Placed k) (hs : contextSaveSwitch k c = .ok k') : Placed k' := by
  obtain ⟨i, t, -, -, ht, rfl⟩ := contextSaveSwitch_cases hs
  obtain ⟨hother, -⟩ := h.selected ht
  have hcur (d : Nat) (u : T) (hu : (dispatch (saveCurrent k c) c t).current d = some u) :
      (d = c ∧ u = t) ∨ (d ≠ c ∧ k.current d = some u) := by
    by_cases hd : d = c
    · subst hd
      rw [dispatch_current_self] at hu
      exact .inl ⟨rfl, (Option.some.inj hu).symm⟩
    · rw [dispatch_current_ne hd, saveCurrent_current] at hu
      exact .inr ⟨hd, hu⟩
  refine ⟨fun a b u hab ha hb => ?_, fun u hu d hd => ?_, fun u hu => ?_⟩
  · rcases hcur a u ha with ⟨rfl, rfl⟩ | ⟨hac, ha'⟩
    · rcases hcur b u hb with ⟨rfl, -⟩ | ⟨hbc, hb'⟩
      · exact hab rfl
      · exact hother b hbc hb'
    · rcases hcur b u hb with ⟨rfl, rfl⟩ | ⟨hbc, hb'⟩
      · exact hother a hac ha'
      · exact h.exclusive a b u hab ha' hb'
  · have hut : u ≠ t := by
      rintro rfl
      simp at hu
    rw [dispatch_state_ne hut] at hu
    rcases hcur d u hd with ⟨-, rfl⟩ | ⟨hdc, hd'⟩
    · exact hut rfl
    · exact (h.selected hu).1 d hdc hd'
  · by_cases hut : u = t
    · subst hut
      exact ⟨c, dispatch_current_self⟩
    · rw [dispatch_stale_ne hut] at hu
      obtain ⟨hst, hnc⟩ := saveCurrent_stale.mp hu
      obtain ⟨d, hd⟩ := h.stale u hst
      have hdc : d ≠ c := by
        rintro rfl
        exact hnc hd
      exact ⟨d, by rw [dispatch_current_ne hdc, saveCurrent_current, hd]⟩

omit [DecidableEq T] in
theorem wake (h : Placed k) (f : T → Bool) : Placed { k with asleep := f } :=
  ⟨h.exclusive, h.waiting, h.stale⟩

/-- The task that a trap on CPU `c` selects has been saved. -/
theorem saved {c : Nat} {t : T} (h : Placed k) (hs : contextSaveSwitch k c = .ok k')
    (ht : k'.current c = some t) : (saveCurrent k c).stale t = false := by
  obtain ⟨i, u, -, -, hu, rfl⟩ := contextSaveSwitch_cases hs
  rw [dispatch_current_self] at ht
  cases ht
  exact (h.selected hu).2

omit [DecidableEq T] in
theorem of_idle (hcur : ∀ c, k.current c = none) (hstale : ∀ t, k.stale t = false) :
    Placed k where
  exclusive c d t _ hc := by simp [hcur] at hc
  waiting t _ c hc := by simp [hcur] at hc
  stale t ht := by simp [hstale] at ht

theorem of_create {ts : List T} (h : run create k ts = .ok k')
    (hcur : ∀ c, k.current c = none) (hstale : ∀ t, k.stale t = false) : Placed k' := by
  induction ts generalizing k with
  | nil =>
    cases h
    exact of_idle hcur hstale
  | cons t ts ih =>
    obtain ⟨k₁, hk₁, h⟩ := run_cons.mp h
    obtain ⟨hc, hs⟩ := create_current hk₁
    refine ih h (fun c => by rw [hc, hcur]) fun u => ?_
    by_contra hst
    simpa [hstale] using hs u (Bool.eq_true_of_not_eq_false hst)

end Placed

/-! ## Runs -/

variable [DecidableEq S]

/-- The states that are reached from `k₀` by steps that `P` allows. -/
inductive Reach (P : Kernel T S → Event T S → Prop) (k₀ : Kernel T S) : Kernel T S → Prop
  | start : Reach P k₀ k₀
  | next {k k' : Kernel T S} {e : Event T S} :
      Reach P k₀ k → P k e → step k e = .ok k' → Reach P k₀ k'

/-- The invariant rule for reachable states. -/
theorem Reach.invariant {P : Kernel T S → Event T S → Prop} {I : Kernel T S → Prop}
    (hstart : I k₀) (hstep : ∀ {k e k'}, I k → P k e → step k e = .ok k' → I k')
    (h : Reach P k₀ k) : I k := by
  induction h with
  | start => exact hstart
  | next _ hp hs ih => exact hstep ih hp hs

/-- A task that a trap on CPU `c` selects has had its context saved since it last
ran. -/
def SavedFor (k : Kernel T S) (c : Nat) (e : Event T S) : Prop :=
  ∀ k' t, step k e = .ok k' → k'.current c = some t → (saveCurrent k c).stale t = false

/-- The two parts of the claim for one state. -/
structure OneCpu (k : Kernel T S) : Prop where
  exclusive : Exclusive k
  trap : ∀ c, SavedFor k c (.trap c)
  yield : ∀ c, SavedFor k c (.yield c)

/-- The steps of traps and semaphores, as the code of the tasks takes them. -/
def SchedStep (k : Kernel T S) : Event T S → Prop
  | .create _ => False
  | .teardown _ => False
  | e => Enabled k e

/-- No signal takes a task from the queue that is still current on some CPU. -/
def OutsideWindow (k : Kernel T S) : Event T S → Prop
  | .signal _ s => ∀ t, nextWoken k s = some t → ∀ d, k.current d ≠ some t
  | _ => True

theorem Placed.step {e : Event T S} (h : Placed k) (hp : SchedStep k e ∧ OutsideWindow k e)
    (hs : Kmt.step k e = .ok k') : Placed k' := by
  cases e with
  | trap c => exact h.trap hs
  | yield c =>
    obtain ⟨t, -, hs⟩ := yieldBy_cases hs
    exact (h.wake _).trap hs
  | wait c s =>
    obtain ⟨t, r, ht, hr, rfl⟩ := waitBy_cases hs
    refine ⟨h.exclusive, fun u hu => ?_, h.stale⟩
    rcases semWait_cases hr with ⟨hst, -⟩ | ⟨hst, -⟩
    · exact h.waiting u (hst ▸ hu)
    · have hut : u ≠ t := by
        rintro rfl
        simp [hst, Function.update_self] at hu
      simp only [hst, Function.update_of_ne hut] at hu
      exact h.waiting u hu
  | signal c s =>
    obtain ⟨r, hr, rfl⟩ := signalBy_cases hs
    refine ⟨h.exclusive, fun u hu => ?_, h.stale⟩
    rcases (semSignal_cases hr).2 with hst | ⟨t, hneg, hhead, hst⟩
    · exact h.waiting u (hst ▸ hu)
    · by_cases hut : u = t
      · subst hut
        exact hp.2 u (by unfold nextWoken; rw [if_pos hneg, hhead])
      · simp only [hst, Function.update_of_ne hut] at hu
        exact h.waiting u hu
  | create t => exact hp.1.elim
  | teardown t => exact hp.1.elim

theorem Placed.oneCpu (h : Placed k) : OneCpu k := by
  refine ⟨h.exclusive, fun c k' t hs ht => h.saved hs ht, fun c k' t hs ht => ?_⟩
  obtain ⟨u, hu, hs⟩ := yieldBy_cases hs
  have hsaved := (h.wake _).saved hs ht
  unfold saveCurrent at hsaved ⊢
  simp only [hu] at hsaved ⊢
  exact hsaved

/-- In every run from a kernel with any tasks and semaphores, under traps, waits and
signals in any order, no task is on two CPUs and every task that is selected has
been saved, as long as no signal wakes a task that is still on a CPU. -/
theorem reach_oneCpu {value : S → Int} {ts : List T} (hinit : run create (boot value) ts = .ok k₀)
    (h : Reach (fun k e => SchedStep k e ∧ OutsideWindow k e) k₀ k) : OneCpu k :=
  (Reach.invariant (Placed.of_create hinit (fun _ => rfl) fun _ => rfl)
    (fun hk hp hs => Placed.step hk hp hs) h).oneCpu

/-- Three tasks and a semaphore: task 2 blocks on CPU 1 and yields, and then it is
woken and selected by CPU 0. -/
theorem reach_oneCpu_three_tasks :
    ∃ k₀ k : Kernel (Fin 3) Unit, run create (boot fun _ => 0) [0, 1, 2] = .ok k₀ ∧
      Reach (fun k e => SchedStep k e ∧ OutsideWindow k e) k₀ k ∧
      k.current 0 = some 2 ∧ OneCpu k := by
  obtain ⟨k₀, hk₀⟩ : ∃ k₀ : Kernel (Fin 3) Unit,
      run create (boot fun _ => 0) [0, 1, 2] = .ok k₀ := ⟨_, rfl⟩
  obtain ⟨k, hreach, hcur⟩ : ∃ k, Reach (fun k e => SchedStep k e ∧ OutsideWindow k e) k₀ k ∧
      k.current 0 = some 2 := by
    cases hk₀
    refine ⟨_, .next (.next (.next (.next (.next (.next .start
      (e := .trap 0) ⟨trivial, trivial⟩ rfl) (e := .trap 1) ⟨trivial, trivial⟩ rfl)
      (e := .wait 1 ()) ⟨⟨2, rfl, rfl⟩, trivial⟩ rfl)
      (e := .yield 1) ⟨⟨2, rfl, rfl⟩, trivial⟩ rfl)
      (e := .signal 0 ()) ⟨trivial, fun t ht d hd => ?_⟩ rfl)
      (e := .trap 0) ⟨trivial, trivial⟩ rfl, rfl⟩
    cases ht
    rcases d with _ | _ | d <;> cases hd
  exact ⟨k₀, k, hk₀, hreach, hcur, reach_oneCpu hk₀ hreach⟩

/-- A signal between the unlock and the `_yield` of `sleep`: the task `true` runs on
both CPUs. -/
theorem reach_two_cpus :
    ∃ k₀ k : Kernel Bool Unit, run create (boot fun _ => 0) [true, false] = .ok k₀ ∧
      Reach SchedStep k₀ k ∧ k.current 0 = some true ∧ k.current 1 = some true ∧
      ¬OneCpu k := by
  refine ⟨_, _, rfl, .next (.next (.next (.next (.next .start (e := .trap 0) trivial rfl)
    (e := .trap 1) trivial rfl) (e := .wait 1 ()) ⟨true, rfl, rfl⟩ rfl)
    (e := .signal 0 ()) trivial rfl) (e := .trap 0) trivial rfl, rfl, rfl, fun h => ?_⟩
  exact h.exclusive 0 1 true (by decide) rfl rfl

end OsWorkbench.Kmt
