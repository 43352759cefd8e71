import OsWorkbench.Lib.Ring
import OsWorkbench.Kmt.Model

/-!
# Semaphores

A semaphore refines a counter with a queue: the ring of a `sem_t` holds the
blocked tasks in the order they blocked, and the counter tells how many there
are. At most `MAX_TASK - 1` of them fit, which is when the two ends of the ring
still tell full from empty.
-/

namespace OsWorkbench.Kmt

variable {T : Type}

/-! ## The abstract semaphore -/

/-- The locked section of `kmt_sem_wait` or `kmt_sem_signal`, run on CPU `cpu`. -/
inductive SemCall (T : Type)
  | wait (cpu : Nat) (t : T)
  | signal (cpu : Nat)

/-- A counter and the tasks that wait for it, the longest-blocked one first. -/
structure Counter (T : Type) where
  value : Int
  blocked : List T

def Counter.step (a : Counter T) : SemCall T → Counter T
  | .wait _ t => ⟨a.value - 1, if a.value - 1 < 0 then a.blocked ++ [t] else a.blocked⟩
  | .signal _ => ⟨a.value + 1, a.blocked.tail⟩

/-- The abstract semaphore after the calls `h`. -/
def history (v₀ : Int) (h : List (SemCall T)) : Counter T := h.foldl Counter.step ⟨v₀, []⟩

def SemCall.isWait : SemCall T → Bool
  | .wait _ _ => true
  | .signal _ => false

def waits (h : List (SemCall T)) : Nat := h.countP SemCall.isWait

def signals (h : List (SemCall T)) : Nat := h.countP fun o => !o.isWait

/-- A blocked task takes no step until it is popped, and at most `MAX_TASK - 1`
tasks are blocked at once. -/
structure Admissible (v₀ : Int) (h : List (SemCall T)) : Prop where
  awake : ∀ p cpu t, p ++ [.wait cpu t] <+: h → t ∉ (history v₀ p).blocked
  few : ∀ p, p <+: h → (history v₀ p).blocked.length ≤ maxTask - 1

theorem history_snoc (v₀ : Int) (h : List (SemCall T)) (o : SemCall T) :
    history v₀ (h ++ [o]) = (history v₀ h).step o := by
  unfold history
  rw [List.foldl_append]
  rfl

theorem history_value (v₀ : Int) (h : List (SemCall T)) :
    (history v₀ h).value = v₀ + signals h - waits h := by
  induction h using List.reverseRecOn with
  | nil => simp [history, signals, waits]
  | append_singleton h o ih =>
    rw [history_snoc]
    cases o with
    | wait cpu t =>
      show (history v₀ h).value - 1 = _
      simp [ih, signals, waits, List.countP_append, SemCall.isWait]
      omega
    | signal cpu =>
      show (history v₀ h).value + 1 = _
      simp [ih, signals, waits, List.countP_append, SemCall.isWait]
      omega

theorem history_length {v₀ : Int} (hv : 0 ≤ v₀) (h : List (SemCall T)) :
    ((history v₀ h).blocked.length : Int) = max 0 (-(history v₀ h).value) := by
  induction h using List.reverseRecOn with
  | nil =>
    show (0 : Int) = max 0 (-v₀)
    omega
  | append_singleton h o ih =>
    rw [history_snoc]
    cases o with
    | wait cpu t =>
      show ((if (history v₀ h).value - 1 < 0 then (history v₀ h).blocked ++ [t]
        else (history v₀ h).blocked).length : Int) = max 0 (-((history v₀ h).value - 1))
      split
      · rw [List.length_append, List.length_singleton]
        omega
      · omega
    | signal cpu =>
      show ((history v₀ h).blocked.tail.length : Int) = max 0 (-((history v₀ h).value + 1))
      rw [List.length_tail]
      omega

theorem blocked_nil_iff {v₀ : Int} (hv : 0 ≤ v₀) (h : List (SemCall T)) :
    (history v₀ h).blocked = [] ↔ 0 ≤ (history v₀ h).value := by
  have hlen := history_length hv h
  rw [← List.length_eq_zero_iff]
  omega

theorem Admissible.of_snoc {v₀ : Int} {h : List (SemCall T)} {o : SemCall T}
    (ha : Admissible v₀ (h ++ [o])) : Admissible v₀ h where
  awake p cpu t hp := ha.awake p cpu t (hp.trans (List.prefix_append h [o]))
  few p hp := ha.few p (hp.trans (List.prefix_append h [o]))

theorem Admissible.nil (v₀ : Int) : Admissible v₀ ([] : List (SemCall T)) where
  awake p cpu t hp := by simp at hp
  few p hp := by
    rw [List.prefix_nil.mp hp]
    exact Nat.zero_le _

theorem Admissible.snoc {v₀ : Int} {h : List (SemCall T)} {o : SemCall T} (ha : Admissible v₀ h)
    (hawake : ∀ cpu t, o = .wait cpu t → t ∉ (history v₀ h).blocked)
    (hfew : (history v₀ (h ++ [o])).blocked.length ≤ maxTask - 1) :
    Admissible v₀ (h ++ [o]) where
  awake p cpu t hp := by
    rcases List.prefix_concat_iff.mp hp with heq | hp
    · obtain ⟨rfl, ho⟩ := List.append_inj' heq rfl
      exact hawake cpu t (List.singleton_inj.mp ho).symm
    · exact ha.awake p cpu t hp
  few p hp := by
    rcases List.prefix_concat_iff.mp hp with rfl | hp
    · exact hfew
    · exact ha.few p hp

/-! ## The representation -/

/-- The number of cells between the two ends of the ring. -/
def ringSize (sem : Sem T) : Nat := (sem.tail + maxTask - sem.head) % maxTask

/-- `que[head..tail)`. -/
def queue (sem : Sem T) : List (Option T) := ring maxTask sem.que sem.head (ringSize sem)

/-- The semaphore outside of its locked sections represents the abstract one. -/
structure Represents (sem : Sem T) (a : Counter T) : Prop where
  value : sem.value = a.value
  unlocked : sem.lk = .free
  head : sem.head < maxTask
  few : a.blocked.length < maxTask
  tail : sem.tail = (sem.head + a.blocked.length) % maxTask
  cells : ring maxTask sem.que sem.head a.blocked.length = a.blocked.map some

namespace Represents

variable {sem : Sem T} {a : Counter T}

theorem ringSize_eq (h : Represents sem a) : ringSize sem = a.blocked.length := by
  have hh := h.head
  have hf := h.few
  have ht := h.tail
  unfold ringSize
  unfold maxTask at *
  omega

theorem queue_eq (h : Represents sem a) : queue sem = a.blocked.map some := by
  unfold queue
  rw [h.ringSize_eq, h.cells]

theorem init (v₀ : Int) : Represents (semInit v₀ : Sem T) ⟨v₀, []⟩ where
  value := rfl
  unlocked := rfl
  head := (by decide : 0 < 32)
  few := (by decide : 0 < 32)
  tail := rfl
  cells := rfl

theorem acquire_ok (h : Represents sem a) (cpu : Nat) :
    sem.lk.acquire cpu = .ok ⟨true, cpu⟩ := by
  rw [h.unlocked]
  rfl

variable [DecidableEq T]

/-- The locked section of `kmt_sem_wait`. -/
theorem wait {t : T} (h : Represents sem a) (st : T → TaskState) (cpu : Nat)
    (hint : IsInt (a.value - 1)) (hfew : (a.step (.wait cpu t)).blocked.length < maxTask) :
    ∃ sem', semWait sem st cpu t =
        .ok (sem', if a.value - 1 < 0 then Function.update st t .yield else st) ∧
      Represents sem' (a.step (.wait cpu t)) := by
  unfold semWait
  rw [h.acquire_ok, ok_bind, h.value, int, if_pos hint, ok_bind]
  unfold Counter.step at hfew ⊢
  by_cases hneg : a.value - 1 < 0
  · have hlt : sem.tail < maxTask := h.tail ▸ Nat.mod_lt _ (by decide)
    dsimp only at hfew
    simp only [if_pos hneg, List.length_append, List.length_singleton] at hfew ⊢
    unfold sleep semPush
    dsimp only
    rw [check_bind rfl, inBounds_bind hlt]
    refine ⟨_, rfl, ⟨rfl, rfl, h.head, ?_, ?_, ?_⟩⟩
    · simpa using hfew
    · show (sem.tail + 1) % maxTask = (sem.head + (a.blocked ++ [t]).length) % maxTask
      rw [h.tail, Nat.mod_add_mod, List.length_append, List.length_singleton, Nat.add_assoc]
    · show ring maxTask (Function.update sem.que sem.tail (some t)) sem.head
        (a.blocked ++ [t]).length = (a.blocked ++ [t]).map some
      rw [List.length_append, List.length_singleton, h.tail, Ring.ring_push h.few, h.cells,
        List.map_append, List.map_singleton]
  · simp only [if_neg hneg]
    exact ⟨_, rfl, ⟨rfl, rfl, h.head, h.few, h.tail, h.cells⟩⟩

/-- The locked section of `kmt_sem_signal` when no task is blocked. -/
theorem signal_nil (h : Represents sem a) (st : T → TaskState) (cpu : Nat)
    (hint : IsInt (a.value + 1)) (hpos : 0 ≤ a.value) (hnil : a.blocked = []) :
    ∃ sem', semSignal sem st cpu = .ok (sem', st) ∧ Represents sem' (a.step (.signal cpu)) := by
  unfold semSignal
  rw [h.acquire_ok, ok_bind, h.value, int, if_pos hint, ok_bind]
  dsimp only
  rw [if_neg (by omega)]
  have htail := h.tail
  have hcells := h.cells
  have hfew := h.few
  rw [hnil] at htail hcells hfew
  refine ⟨_, rfl, ⟨rfl, rfl, h.head, ?_, ?_, ?_⟩⟩
  · show a.blocked.tail.length < maxTask
    rw [hnil]
    exact hfew
  · show sem.tail = (sem.head + a.blocked.tail.length) % maxTask
    rw [hnil]
    exact htail
  · show ring maxTask sem.que sem.head a.blocked.tail.length = a.blocked.tail.map some
    rw [hnil]
    exact hcells

/-- The locked section of `kmt_sem_signal` when `t` is the longest-blocked task. -/
theorem signal_cons {t : T} {q : List T} (h : Represents sem a) (st : T → TaskState) (cpu : Nat)
    (hint : IsInt (a.value + 1)) (hneg : a.value < 0) (hq : a.blocked = t :: q) :
    ∃ sem', semSignal sem st cpu = .ok (sem', Function.update st t .runnable) ∧
      Represents sem' (a.step (.signal cpu)) := by
  have htail := h.tail
  have hcells := h.cells
  have hfew := h.few
  have hhead := h.head
  rw [hq, List.length_cons] at htail hcells hfew
  rw [Ring.ring_succ hhead, List.map_cons, List.cons.injEq] at hcells
  have hne : sem.head ≠ sem.tail := by
    rw [htail]
    unfold maxTask at *
    omega
  unfold semSignal
  rw [h.acquire_ok, ok_bind, h.value, int, if_pos hint, ok_bind]
  dsimp only
  rw [if_pos (by omega)]
  unfold wakeup semPop
  dsimp only
  rw [if_neg hne, check_bind rfl, inBounds_bind hhead]
  simp only [pure_eq_ok, ok_bind, hcells.1]
  refine ⟨_, rfl, ⟨rfl, rfl, Nat.mod_lt _ (by decide), ?_, ?_, ?_⟩⟩
  · show a.blocked.tail.length < maxTask
    rw [hq, List.tail_cons]
    omega
  · show sem.tail = ((sem.head + 1) % maxTask + a.blocked.tail.length) % maxTask
    rw [hq, List.tail_cons, htail, Nat.mod_add_mod, Nat.add_assoc, Nat.add_comm 1]
  · show ring maxTask sem.que ((sem.head + 1) % maxTask) a.blocked.tail.length =
      a.blocked.tail.map some
    rw [hq, List.tail_cons]
    exact hcells.2

/-- A counter at its largest value. -/
theorem signal_overflow {st : T → TaskState} (h : Represents sem a) (cpu : Nat)
    (hint : ¬IsInt (a.value + 1)) : semSignal sem st cpu = .error .overflow := by
  unfold semSignal
  rw [h.acquire_ok, ok_bind, h.value, int, if_neg hint]
  rfl

end Represents

/-! ## The sleepers of any semaphore -/

/-- The tasks between the two ends of the ring. Of `MAX_TASK` blocked tasks the ring
keeps none. -/
structure Sleepers (sem : Sem T) (w : List T) : Prop where
  head : sem.head < maxTask
  few : w.length < maxTask
  tail : sem.tail = (sem.head + w.length) % maxTask
  cells : ring maxTask sem.que sem.head w.length = w.map some

namespace Sleepers

theorem init (v₀ : Int) : Sleepers (semInit v₀ : Sem T) [] where
  head := (by decide : 0 < maxTask)
  few := (by decide : 0 < maxTask)
  tail := rfl
  cells := rfl

variable [DecidableEq T] {sem sem' : Sem T} {st st' : T → TaskState} {cpu : Nat} {t : T}
    {w : List T}

/-- What `kmt_sem_wait` does: it counts down, and below zero the task goes to sleep. -/
theorem wait (h : Sleepers sem w) (hok : semWait sem st cpu t = .ok (sem', st')) :
    sem'.value = sem.value - 1 ∧
      ((0 ≤ sem.value - 1 ∧ st' = st ∧ Sleepers sem' w) ∨
        (sem.value - 1 < 0 ∧ st' = Function.update st t .yield ∧
          ∃ w', Sleepers sem' w' ∧ w'.Sublist (w ++ [t]))) := by
  unfold semWait at hok
  simp only [bind_eq_ok, int_eq_ok] at hok
  obtain ⟨lk, -, value, ⟨-, rfl⟩, hok⟩ := hok
  split at hok
  next hneg =>
    unfold sleep semPush at hok
    simp only [bind_eq_ok, check_eq_ok, inBounds_eq_ok] at hok
    obtain ⟨_, ⟨_, -, _, -, hok'⟩, hok⟩ := hok
    cases hok'
    cases hok
    refine ⟨rfl, .inr ⟨hneg, rfl, ?_⟩⟩
    by_cases hlt : w.length + 1 < maxTask
    · refine ⟨w ++ [t], ⟨h.head, ?_, ?_, ?_⟩, List.Sublist.refl _⟩
      · simpa using hlt
      · show (sem.tail + 1) % maxTask = (sem.head + (w ++ [t]).length) % maxTask
        rw [h.tail, Nat.mod_add_mod, List.length_append, List.length_singleton, Nat.add_assoc]
      · show ring maxTask (Function.update sem.que sem.tail (some t)) sem.head (w ++ [t]).length =
          (w ++ [t]).map some
        rw [List.length_append, List.length_singleton, h.tail, Ring.ring_push h.few, h.cells,
          List.map_append, List.map_singleton]
    · -- the ring is full, which is the same as empty
      have hfew := h.few
      have hfull : w.length + 1 = maxTask := by omega
      refine ⟨[], ⟨h.head, (by decide : 0 < maxTask), ?_, rfl⟩, List.nil_sublist _⟩
      show (sem.tail + 1) % maxTask = (sem.head + 0) % maxTask
      rw [h.tail, Nat.mod_add_mod, Nat.add_assoc, hfull, Nat.add_mod_right, Nat.add_zero]
  next hpos =>
    cases hok
    exact ⟨rfl, .inl ⟨not_lt.mp hpos, rfl, h.head, h.few, h.tail, h.cells⟩⟩

/-- What `kmt_sem_signal` does: it counts up, and up to zero a task is woken. -/
theorem signal (h : Sleepers sem w) (hok : semSignal sem st cpu = .ok (sem', st')) :
    sem'.value = sem.value + 1 ∧
      ((0 < sem.value + 1 ∧ st' = st ∧ Sleepers sem' w) ∨
        (sem.value + 1 ≤ 0 ∧ ∃ x w', w = x :: w' ∧ st' = Function.update st x .runnable ∧
          Sleepers sem' w')) := by
  unfold semSignal at hok
  simp only [bind_eq_ok, int_eq_ok] at hok
  obtain ⟨lk, -, value, ⟨-, rfl⟩, hok⟩ := hok
  split at hok
  next hneg =>
    unfold wakeup at hok
    split at hok
    · cases hok
    next hne =>
      obtain ⟨r, hpop, hok⟩ := bind_eq_ok.mp hok
      unfold semPop at hpop
      simp only [bind_eq_ok, check_eq_ok, inBounds_eq_ok, pure_eq_ok] at hpop
      obtain ⟨_, -, _, -, hpop⟩ := hpop
      cases hpop
      cases w with
      | nil =>
        refine absurd ?_ hne
        show sem.head = sem.tail
        rw [h.tail, List.length_nil, Nat.add_zero, Nat.mod_eq_of_lt h.head]
      | cons x w' =>
        have hcells := h.cells
        have htail := h.tail
        have hfew := h.few
        rw [List.length_cons] at hcells htail hfew
        rw [Ring.ring_succ h.head, List.map_cons, List.cons.injEq] at hcells
        dsimp only at hok
        rw [hcells.1] at hok
        cases hok
        refine ⟨rfl, .inr ⟨hneg, x, w', rfl, rfl, Nat.mod_lt _ (by decide), by omega, ?_, hcells.2⟩⟩
        show sem.tail = ((sem.head + 1) % maxTask + w'.length) % maxTask
        rw [htail, Nat.mod_add_mod, Nat.add_assoc, Nat.add_comm 1]
  next hpos =>
    cases hok
    exact ⟨rfl, .inl ⟨not_le.mp hpos, rfl, h.head, h.few, h.tail, h.cells⟩⟩

end Sleepers

/-! ## Runs -/

variable [DecidableEq T]

/-- The semaphore and the states of the tasks under the calls of a run. -/
def semStep (s : Sem T × (T → TaskState)) : SemCall T → Except Fault (Sem T × (T → TaskState))
  | .wait cpu t => semWait s.1 s.2 cpu t
  | .signal cpu => semSignal s.1 s.2 cpu

/-- What holds of a semaphore that was initialised with `v₀`, when the tasks had
the states `st₀`, and that has gone through the calls `h` since then. -/
structure SemCorrect (v₀ : Int) (st₀ : T → TaskState) (h : List (SemCall T))
    (s : Sem T × (T → TaskState)) : Prop where
  /-- The ring holds the blocked tasks in the order they blocked. -/
  queue : queue s.1 = (history v₀ h).blocked.map some
  once : (history v₀ h).blocked.Nodup
  /-- A blocked task has the state `YIELD`, and no other task got it. -/
  blocked : ∀ t, t ∈ (history v₀ h).blocked → s.2 t = .yield
  awake : ∀ t, t ∉ (history v₀ h).blocked → s.2 t = .yield → st₀ t = .yield
  length : ((Kmt.queue s.1).length : Int) = max 0 (-s.1.value)
  value : s.1.value = v₀ + signals h - waits h
  /-- The waits that have passed are those whose task is not blocked any more. -/
  passed : (waits h : Int) - (Kmt.queue s.1).length ≤ v₀ + signals h
  /-- A signal makes the longest-blocked task `RUNNABLE` and changes no other. -/
  wakes : ∀ cpu t q, (history v₀ h).blocked = t :: q →
    ∃ sem', semSignal s.1 s.2 cpu = .ok (sem', Function.update s.2 t .runnable) ∧
      Kmt.queue sem' = q.map some
  noHalt : ∀ cpu, semSignal s.1 s.2 cpu ≠ .error .exit

/-- The states of the tasks follow the blocked list. -/
structure StatesAgree (st₀ st : T → TaskState) (a : Counter T) : Prop where
  once : a.blocked.Nodup
  blocked : ∀ t, t ∈ a.blocked → st t = .yield
  awake : ∀ t, t ∉ a.blocked → st t = .yield → st₀ t = .yield

theorem StatesAgree.wait {st₀ st : T → TaskState} {a : Counter T} {t : T} {cpu : Nat}
    (h : StatesAgree st₀ st a) (ht : t ∉ a.blocked) :
    StatesAgree st₀ (if a.value - 1 < 0 then Function.update st t .yield else st)
      (a.step (.wait cpu t)) := by
  unfold Counter.step
  by_cases hneg : a.value - 1 < 0
  · simp only [if_pos hneg]
    refine ⟨List.nodup_append.mpr ⟨h.once, List.nodup_singleton t, ?_⟩, fun u hu => ?_,
      fun u hu hy => ?_⟩
    · intro u hu v hv
      rw [List.mem_singleton] at hv
      rintro rfl
      exact ht (hv ▸ hu)
    · by_cases hut : u = t
      · subst hut
        exact Function.update_self ..
      · rw [Function.update_of_ne hut]
        exact h.blocked u ((List.mem_append.mp hu).resolve_right (by simpa using hut))
    · have hut : u ≠ t := fun he => hu (List.mem_append_right _ (by simp [he]))
      rw [Function.update_of_ne hut] at hy
      exact h.awake u (fun hm => hu (List.mem_append_left _ hm)) hy
  · simp only [if_neg hneg]
    exact ⟨h.once, h.blocked, h.awake⟩

theorem StatesAgree.signal_cons {st₀ st : T → TaskState} {a : Counter T} {t : T} {q : List T}
    {cpu : Nat} (h : StatesAgree st₀ st a) (hq : a.blocked = t :: q) :
    StatesAgree st₀ (Function.update st t .runnable) (a.step (.signal cpu)) := by
  have honce := h.once
  rw [hq, List.nodup_cons] at honce
  have htail : (a.step (.signal cpu)).blocked = q := by
    show a.blocked.tail = q
    rw [hq, List.tail_cons]
  refine ⟨htail ▸ honce.2, fun u hu => ?_, fun u hu hy => ?_⟩
  · rw [htail] at hu
    have hut : u ≠ t := fun he => honce.1 (he ▸ hu)
    rw [Function.update_of_ne hut]
    exact h.blocked u (hq ▸ List.mem_cons_of_mem t hu)
  · by_cases hut : u = t
    · subst hut
      rw [Function.update_self] at hy
      cases hy
    · rw [Function.update_of_ne hut] at hy
      rw [htail] at hu
      refine h.awake u (fun hm => ?_) hy
      rw [hq] at hm
      exact hu ((List.mem_cons.mp hm).resolve_left hut)

/-- One more call on a semaphore that represents its history. -/
theorem semStep_spec {v₀ : Int} {st₀ : T → TaskState} {h : List (SemCall T)} {o : SemCall T}
    {s : Sem T × (T → TaskState)} (hv : 0 ≤ v₀) (ha : Admissible v₀ (h ++ [o]))
    (hint : IsInt (history v₀ h).value) (hr : Represents s.1 (history v₀ h))
    (hs : StatesAgree st₀ s.2 (history v₀ h)) :
    (semStep s o = .error .overflow ∧ 2 ^ 31 ≤ (history v₀ (h ++ [o])).value) ∨
      ∃ s', semStep s o = .ok s' ∧ IsInt (history v₀ (h ++ [o])).value ∧
        Represents s'.1 (history v₀ (h ++ [o])) ∧
        StatesAgree st₀ s'.2 (history v₀ (h ++ [o])) := by
  have hfew := ha.few _ List.prefix_rfl
  have hlen := history_length hv h
  have hlen' := history_length hv (h ++ [o])
  rw [history_snoc] at hfew hlen' ⊢
  unfold IsInt at hint
  unfold maxTask at hfew
  cases o with
  | wait cpu t =>
    have hval : ((history v₀ h).step (.wait cpu t)).value = (history v₀ h).value - 1 := rfl
    have hint' : IsInt ((history v₀ h).value - 1) := by
      unfold IsInt
      omega
    obtain ⟨sem', hok, hrep⟩ := hr.wait (t := t) s.2 cpu hint'
      (by unfold maxTask; omega)
    exact .inr ⟨_, hok, hint', hrep, hs.wait (ha.awake h cpu t List.prefix_rfl)⟩
  | signal cpu =>
    by_cases hint' : IsInt ((history v₀ h).value + 1)
    · refine .inr ?_
      cases hq : (history v₀ h).blocked with
      | nil =>
        obtain ⟨sem', hok, hrep⟩ := hr.signal_nil s.2 cpu hint'
          ((blocked_nil_iff hv h).mp hq) hq
        refine ⟨_, hok, hint', hrep, ?_⟩
        have htail : ((history v₀ h).step (.signal cpu)).blocked = (history v₀ h).blocked := by
          show (history v₀ h).blocked.tail = _
          rw [hq, List.tail_nil]
        exact ⟨htail ▸ hs.once, htail ▸ hs.blocked, htail ▸ hs.awake⟩
      | cons t q =>
        have hneg : (history v₀ h).value < 0 := by
          by_contra hge
          rw [(blocked_nil_iff hv h).mpr (not_lt.mp hge)] at hq
          cases hq
        obtain ⟨sem', hok, hrep⟩ := hr.signal_cons s.2 cpu hint' hneg hq
        exact ⟨_, hok, hint', hrep, hs.signal_cons hq⟩
    · refine .inl ⟨hr.signal_overflow cpu hint', ?_⟩
      show 2 ^ 31 ≤ (history v₀ h).value + 1
      unfold IsInt at hint'
      omega

/-- A run of admissible calls represents its history, unless the counter left the
range of `int`. -/
theorem semRun_spec {v₀ : Int} (st₀ : T → TaskState) {h : List (SemCall T)} (hv : 0 ≤ v₀)
    (hint : IsInt v₀) (ha : Admissible v₀ h) :
    (run semStep (semInit v₀, st₀) h = .error .overflow ∧
        ∃ p, p <+: h ∧ 2 ^ 31 ≤ (history v₀ p).value) ∨
      ∃ s, run semStep (semInit v₀, st₀) h = .ok s ∧ IsInt (history v₀ h).value ∧
        Represents s.1 (history v₀ h) ∧ StatesAgree st₀ s.2 (history v₀ h) := by
  induction h using List.reverseRecOn with
  | nil =>
    refine .inr ⟨_, rfl, hint, .init v₀, List.nodup_nil, fun t ht => ?_, fun t _ hy => hy⟩
    cases ht
  | append_singleton h o ih =>
    rcases ih ha.of_snoc with ⟨herr, p, hp, hbig⟩ | ⟨s, hs, hi, hr, hst⟩
    · exact .inl ⟨run_append_error herr, p, hp.trans (List.prefix_append h [o]), hbig⟩
    · rcases semStep_spec hv ha hi hr hst with ⟨herr, hbig⟩ | ⟨s', hok, hi', hr', hst'⟩
      · exact .inl ⟨by rw [run_snoc hs, herr], _, List.prefix_rfl, hbig⟩
      · exact .inr ⟨s', by rw [run_snoc hs, hok], hi', hr', hst'⟩

theorem Represents.correct {v₀ : Int} {st₀ : T → TaskState} {h : List (SemCall T)}
    {s : Sem T × (T → TaskState)} (hv : 0 ≤ v₀) (hint : IsInt (history v₀ h).value)
    (hr : Represents s.1 (history v₀ h)) (hs : StatesAgree st₀ s.2 (history v₀ h)) :
    SemCorrect v₀ st₀ h s := by
  have hlen := history_length hv h
  have hval := history_value v₀ h
  have hq : ((Kmt.queue s.1).length : Int) = max 0 (-s.1.value) := by
    rw [hr.queue_eq, List.length_map, hr.value]
    exact hlen
  have hvs := hr.value
  unfold IsInt at hint
  refine ⟨hr.queue_eq, hs.once, hs.blocked, hs.awake, hq, hr.value.trans hval, by omega,
    fun cpu t q hcons => ?_, fun cpu herr => ?_⟩
  · have hneg : (history v₀ h).value < 0 := by
      by_contra hge
      rw [(blocked_nil_iff hv h).mpr (not_lt.mp hge)] at hcons
      cases hcons
    obtain ⟨sem', hok, hrep⟩ := hr.signal_cons s.2 cpu (by unfold IsInt; omega) hneg hcons
    refine ⟨sem', hok, ?_⟩
    rw [hrep.queue_eq]
    show (history v₀ h).blocked.tail.map some = _
    rw [hcons, List.tail_cons]
  · by_cases hint' : IsInt ((history v₀ h).value + 1)
    · cases hb : (history v₀ h).blocked with
      | nil =>
        obtain ⟨sem', hok, -⟩ := hr.signal_nil s.2 cpu hint'
          ((blocked_nil_iff hv h).mp hb) hb
        rw [hok] at herr
        cases herr
      | cons t q =>
        have hneg : (history v₀ h).value < 0 := by
          by_contra hge
          rw [(blocked_nil_iff hv h).mpr (not_lt.mp hge)] at hb
          cases hb
        obtain ⟨sem', hok, -⟩ := hr.signal_cons s.2 cpu hint' hneg hb
        rw [hok] at herr
        cases herr
    · rw [hr.signal_overflow cpu hint'] at herr
      cases herr

/-- Every interleaving of the locked sections of one semaphore: it keeps the ring,
the counter and the states of the tasks in step, and it never halts. The only
other outcome is that signals drive the counter out of the range of `int`. -/
theorem semaphore_correct {v₀ : Int} {st₀ : T → TaskState} {h : List (SemCall T)} (hv : 0 ≤ v₀)
    (hint : IsInt v₀) (ha : Admissible v₀ h) :
    (run semStep (semInit v₀, st₀) h = .error .overflow ∧
        ∃ p, p <+: h ∧ 2 ^ 31 ≤ v₀ + signals p - waits p) ∨
      ∃ s, run semStep (semInit v₀, st₀) h = .ok s ∧ SemCorrect v₀ st₀ h s := by
  rcases semRun_spec st₀ hv hint ha with ⟨herr, p, hp, hbig⟩ | ⟨s, hs, hi, hr, hst⟩
  · exact .inl ⟨herr, p, hp, history_value v₀ p ▸ hbig⟩
  · exact .inr ⟨s, hs, hr.correct hv hi hst⟩

/-- One permit and three tasks: the second and the third task block, and a signal
wakes the second one. -/
theorem semaphore_correct_three_tasks :
    ∃ s, run semStep (semInit 1, fun _ : Fin 3 => TaskState.running)
        [.wait 0 0, .wait 1 1, .wait 2 2, .signal 0] = .ok s ∧
      SemCorrect 1 (fun _ => .running) [.wait 0 0, .wait 1 1, .wait 2 2, .signal 0] s := by
  have ha : Admissible 1 ([] ++ [.wait 0 0] ++ [.wait 1 1] ++ [.wait 2 2] ++ [.signal 0] :
      List (SemCall (Fin 3))) := by
    refine ((((Admissible.nil 1).snoc ?_ ?_).snoc ?_ ?_).snoc ?_ ?_).snoc ?_ ?_
    · rintro cpu t ⟨⟩
      decide
    · decide
    · rintro cpu t ⟨⟩
      decide
    · decide
    · rintro cpu t ⟨⟩
      decide
    · decide
    · rintro cpu t ⟨⟩
    · decide
  refine (semaphore_correct (by decide) (by decide) ha).resolve_left fun h => ?_
  cases h.1

/-- A signal to a semaphore that has the largest `int` as its value. -/
theorem signal_at_max_overflows :
    IsInt (2 ^ 31 - 1) ∧ Admissible (2 ^ 31 - 1) ([.signal 0] : List (SemCall (Fin 1))) ∧
      ¬∃ s, run semStep (semInit (2 ^ 31 - 1), fun _ : Fin 1 => TaskState.running) [.signal 0] =
          .ok s ∧ SemCorrect (2 ^ 31 - 1) (fun _ => .running) [.signal 0] s := by
  refine ⟨by decide, (Admissible.nil _).snoc (o := .signal 0) ?_ ?_, ?_⟩
  · rintro cpu t ⟨⟩
  · decide
  · rintro ⟨s, hs, -⟩
    cases hs

end OsWorkbench.Kmt
