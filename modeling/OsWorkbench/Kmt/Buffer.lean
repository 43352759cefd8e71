import OsWorkbench.Lib.Count
import OsWorkbench.Kmt.Semaphore

/-!
# The bounded buffer

The producers and consumers of `kernel/framework/main.c`. Each task runs through its
loop; a locked section of `kmt_sem_wait` or `kmt_sem_signal` is one step, and so is the
change of `cnt`. A task that blocks takes no step until a signal wakes it.

The invariant counts the tasks at each point of the loops: what the semaphores have
given away, and not got back, is with the tasks on their way through the loop.
-/

namespace OsWorkbench.Kmt

open Lib

/-- The semaphores of the test. -/
inductive BufferSem
  | empty
  | full
  | mutex
  deriving DecidableEq

/-- The next statement in the loop of a task. -/
inductive Point
  | waitSlot
  | waitMutex
  | count
  | signalMutex
  | signalOther
  deriving DecidableEq

structure Buffer (T : Type) where
  sem : BufferSem → Sem T
  state : T → TaskState
  point : T → Point
  cnt : Int

/-- The semaphore that a producer or a consumer waits for. -/
def slot (producer : Bool) : BufferSem := if producer then .empty else .full

/-- The semaphore that a producer or a consumer signals at the end. -/
def other (producer : Bool) : BufferSem := if producer then .full else .empty

section Model

variable {T : Type} [DecidableEq T]

/-- `create_threads`. -/
def createThreads (maxk : Int) : Buffer T where
  sem s := match s with
    | .empty => semInit maxk
    | .full => semInit 0
    | .mutex => semInit 1
  state _ := .started
  point _ := .waitSlot
  cnt := 0

def Buffer.wait (b : Buffer T) (cpu : Nat) (t : T) (s : BufferSem) (next : Point) :
    Except Fault (Buffer T) := do
  let r ← semWait (b.sem s) b.state cpu t
  return { b with
    sem := Function.update b.sem s r.1
    state := r.2
    point := Function.update b.point t next }

def Buffer.signal (b : Buffer T) (cpu : Nat) (t : T) (s : BufferSem) (next : Point) :
    Except Fault (Buffer T) := do
  let r ← semSignal (b.sem s) b.state cpu
  return { b with
    sem := Function.update b.sem s r.1
    state := r.2
    point := Function.update b.point t next }

theorem Buffer.wait_eq {b : Buffer T} {cpu : Nat} {t : T} {s : BufferSem} {next : Point}
    {sem : Sem T}
    {st : T → TaskState} (h : semWait (b.sem s) b.state cpu t = .ok (sem, st)) :
    b.wait cpu t s next = .ok { b with
      sem := Function.update b.sem s sem, state := st,
      point := Function.update b.point t next } := by
  rw [Buffer.wait, h]
  rfl

theorem Buffer.signal_eq {b : Buffer T} {cpu : Nat} {t : T} {s : BufferSem} {next : Point}
    {sem : Sem T} {st : T → TaskState} (h : semSignal (b.sem s) b.state cpu = .ok (sem, st)) :
    b.signal cpu t s next = .ok { b with
      sem := Function.update b.sem s sem, state := st,
      point := Function.update b.point t next } := by
  rw [Buffer.signal, h]
  rfl

/-- The next step of the task `t`, which is a `producer` or a `consumer`. -/
def loopStep (producer : T → Bool) (b : Buffer T) (cpu : Nat) (t : T) : Except Fault (Buffer T) :=
  match b.point t with
  | .waitSlot => b.wait cpu t (slot (producer t)) .waitMutex
  | .waitMutex => b.wait cpu t .mutex .count
  | .count => do
    let n ← int (if producer t then b.cnt + 1 else b.cnt - 1)
    return { b with cnt := n, point := Function.update b.point t .signalMutex }
  | .signalMutex => b.signal cpu t .mutex .signalOther
  | .signalOther => b.signal cpu t (other (producer t)) .waitSlot

/-- What any interleaving can reach. The scheduler changes the state of a task that is
not asleep. -/
inductive Interleaving (producer : T → Bool) (maxk : Int) : Buffer T → Prop
  | init : Interleaving producer maxk (createThreads maxk)
  | loop {b b' : Buffer T} {cpu : Nat} {t : T} : Interleaving producer maxk b →
      b.state t ≠ .yield → loopStep producer b cpu t = .ok b' → Interleaving producer maxk b'
  | sched {b : Buffer T} {t : T} {st : TaskState} : Interleaving producer maxk b →
      b.state t ≠ .yield → st ≠ .yield →
      Interleaving producer maxk { b with state := Function.update b.state t st }

/-- A task that is not asleep makes its next step on a CPU. -/
def turn (producer : T → Bool) (b : Buffer T) (o : Nat × T) : Except Fault (Buffer T) := do
  check (b.state o.2 ≠ .yield)
  loopStep producer b o.1 o.2

theorem Interleaving.turns {producer : T → Bool} {maxk : Int} {b b' : Buffer T}
    {os : List (Nat × T)} (h : Interleaving producer maxk b)
    (hrun : run (turn producer) b os = .ok b') : Interleaving producer maxk b' := by
  refine run_invariant (P := fun _ => True) (fun hs _ hok => ?_) h (fun _ _ => trivial) hrun
  obtain ⟨u, hawake, hstep⟩ := bind_eq_ok.mp hok
  exact hs.loop (check_eq_ok.mp hawake) hstep

/-- The task is between `sem_wait(&mutex)` and `sem_signal(&mutex)`. -/
def Inside (b : Buffer T) (t : T) : Prop :=
  (b.point t = .count ∨ b.point t = .signalMutex) ∧ b.state t ≠ .yield

end Model

/-! ## Counting tasks -/

/-- The task got hold of a place of its semaphore `empty`, which `cnt` does not show. -/
def Point.pending (producer : Bool) : Point → Int
  | .waitSlot => 0
  | .waitMutex => if producer then 1 else 0
  | .count => if producer then 1 else 0
  | .signalMutex => if producer then 0 else 1
  | .signalOther => if producer then 0 else 1

def Point.inMutex : Point → Int
  | .count => 1
  | .signalMutex => 1
  | _ => 0

theorem Point.pending_nonneg (producer : Bool) (p : Point) : 0 ≤ p.pending producer := by
  cases p <;> cases producer <;> decide

theorem Point.inMutex_nonneg (p : Point) : 0 ≤ p.inMutex := by
  cases p <;> decide

/-! ## The invariant -/

/-- The semaphore in whose queue a task can be when it is to go on at this point. -/
def Point.awaited (producer : Bool) : Point → Option BufferSem
  | .waitMutex => some (slot producer)
  | .count => some .mutex
  | _ => none

theorem Point.pending_of_awaited {producer : Bool} {p : Point} :
    (p.awaited producer = some .empty → p.pending producer = 1) ∧
    (p.awaited producer = some .full → p.pending (!producer) = 1) ∧
    (p.awaited producer = some .mutex → p.inMutex = 1) := by
  cases p <;> cases producer <;> decide

/-- On its way from one point to the next a task adds `d` to the semaphore `s`. -/
structure Moves (producer : Bool) (s : BufferSem) (d : Int) (p next : Point) : Prop where
  empty : next.pending producer = p.pending producer - if s = .empty then d else 0
  full : next.pending (!producer) = p.pending (!producer) - if s = .full then d else 0
  mutex : next.inMutex = p.inMutex - if s = .mutex then d else 0

section Invariant

variable {T : Type} [Fintype T] {producer : T → Bool} {maxk : Int}

/-- The semaphores represent the counters `a`; the tasks in their queues are those that
are asleep; and `cnt` and the counters fit to the points of the tasks. -/
structure Conserved (producer : T → Bool) (maxk : Int) (b : Buffer T) (a : BufferSem → Counter T) :
    Prop where
  represents : ∀ s, Represents (b.sem s) (a s)
  length : ∀ s, ((a s).blocked.length : Int) = max 0 (-(a s).value)
  once : ∀ s, (a s).blocked.Nodup
  blocked : ∀ s t, t ∈ (a s).blocked →
    b.state t = .yield ∧ (b.point t).awaited (producer t) = some s
  asleep : ∀ t, b.state t = .yield → ∃ s, t ∈ (a s).blocked
  empty : b.cnt = maxk - (a .empty).value - total (fun t => Point.pending (producer t)) b.point
  full : b.cnt = (a .full).value + total (fun t => Point.pending (!producer t)) b.point
  mutex : (a .mutex).value = 1 - total (fun _ => Point.inMutex) b.point

/-- The counters right after `create_threads`. -/
def freshCounters (maxk : Int) : BufferSem → Counter T
  | .empty => ⟨maxk, []⟩
  | .full => ⟨0, []⟩
  | .mutex => ⟨1, []⟩

namespace Conserved

theorem init (producer : T → Bool) (hk : 1 ≤ maxk) :
    Conserved producer maxk (createThreads maxk) (freshCounters maxk) where
  represents s := by
    cases s
    · exact .init maxk
    · exact .init 0
    · exact .init 1
  length s := by
    cases s
    · show (0 : Int) = max 0 (-maxk)
      omega
    · rfl
    · rfl
  once s := by cases s <;> exact List.nodup_nil
  blocked s t ht := by cases s <;> cases ht
  asleep t ht := by cases ht
  empty := by simp [createThreads, freshCounters, total, Point.pending]
  full := by simp [createThreads, freshCounters, total, Point.pending]
  mutex := by simp [createThreads, freshCounters, total, Point.inMutex]

/-- Fewer tasks are blocked than there are cells in a queue. -/
theorem length_lt (hcard : Fintype.card T < maxTask) {l : List T} (hnd : l.Nodup) :
    l.length < maxTask :=
  hnd.length_le_card.trans_lt hcard

variable [DecidableEq T] {b b' : Buffer T} {a : BufferSem → Counter T} {cpu : Nat} {t : T}
  {s : BufferSem} {next : Point} {d : Int}

/-- The tasks that wait for an item are not more than `cnt` lacks. -/
theorem cnt_nonneg (h : Conserved producer maxk b a) : 0 ≤ b.cnt := by
  have hlen := h.length .full
  have hle := length_le_total b.point (fun u p => p.pending_nonneg (!producer u))
    (h.once .full) fun u hu => Point.pending_of_awaited.2.1 (h.blocked _ _ hu).2
  have hcnt := h.full
  omega

theorem cnt_le (h : Conserved producer maxk b a) : b.cnt ≤ maxk := by
  have hlen := h.length .empty
  have hle := length_le_total b.point (fun u p => p.pending_nonneg (producer u))
    (h.once .empty) fun u hu => Point.pending_of_awaited.1 (h.blocked _ _ hu).2
  have hcnt := h.empty
  omega

/-- The mutex has one holder for all those that wait for it. -/
theorem inside_unique (h : Conserved producer maxk b a) {u : T} (ht : Inside b t)
    (hu : Inside b u) :
    t = u := by
  by_contra hne
  have hawake : ∀ {v}, Inside b v → v ∉ (a .mutex).blocked := fun hv hm =>
    hv.2 (h.blocked _ _ hm).1
  have hone : ∀ {v}, Inside b v → (b.point v).inMutex = 1 := by
    rintro v ⟨hv | hv, -⟩
    · rw [hv]
      rfl
    · rw [hv]
      rfl
  have hnd : (t :: u :: (a .mutex).blocked).Nodup := by
    refine List.nodup_cons.mpr ⟨?_, List.nodup_cons.mpr ⟨hawake hu, h.once .mutex⟩⟩
    rw [List.mem_cons, not_or]
    exact ⟨hne, hawake ht⟩
  have hle := length_le_total b.point (fun _ p => p.inMutex_nonneg) hnd (by
    intro v hv
    rcases List.mem_cons.mp hv with rfl | hv
    · exact hone ht
    · rcases List.mem_cons.mp hv with rfl | hv
      · exact hone hu
      · exact Point.pending_of_awaited.2.2 (h.blocked _ _ hv).2)
  have hlen := h.length .mutex
  have hval := h.mutex
  rw [List.length_cons, List.length_cons] at hle
  push_cast at hle
  omega

theorem value_le (h : Conserved producer maxk b a) (hk : 1 ≤ maxk)
    (hm : Moves (producer t) s d (b.point t) next) : (a s).value + d ≤ maxk := by
  have h0 := h.cnt_nonneg
  have h1 := h.cnt_le
  have hE := h.empty
  have hF := h.full
  have hM := h.mutex
  cases s with
  | empty =>
    have h2 := le_total b.point (fun u p => p.pending_nonneg (producer u)) t
    have h3 := hm.empty
    rw [if_pos rfl] at h3
    have h4 := next.pending_nonneg (producer t)
    omega
  | full =>
    have h2 := le_total b.point (fun u p => p.pending_nonneg (!producer u)) t
    have h3 := hm.full
    rw [if_pos rfl] at h3
    have h4 := next.pending_nonneg (!producer t)
    omega
  | mutex =>
    have h2 := le_total b.point (fun _ p => p.inMutex_nonneg) t
    have h3 := hm.mutex
    rw [if_pos rfl] at h3
    have h4 := next.inMutex_nonneg
    omega

/-- A step on the semaphore `s`. -/
theorem moved (h : Conserved producer maxk b a) {c : Counter T} {sem : Sem T} {st : T → TaskState}
    (hrep : Represents sem c) (hlen : (c.blocked.length : Int) = max 0 (-c.value))
    (honce : c.blocked.Nodup)
    (hblocked : ∀ s' u, u ∈ (Function.update a s c s').blocked →
      st u = .yield ∧ (Function.update b.point t next u).awaited (producer u) = some s')
    (hasleep : ∀ u, st u = .yield → ∃ s', u ∈ (Function.update a s c s').blocked)
    (hval : c.value = (a s).value + d) (hm : Moves (producer t) s d (b.point t) next) :
    Conserved producer maxk
      { b with sem := Function.update b.sem s sem, state := st
               point := Function.update b.point t next }
      (Function.update a s c) := by
  have hvalue : ∀ s',
      (Function.update a s c s').value = (a s').value + if s = s' then d else 0 := by
    intro s'
    by_cases hs : s' = s
    · subst hs
      rw [Function.update_self, if_pos rfl, hval]
    · rw [Function.update_of_ne hs, if_neg (Ne.symm hs), add_zero]
  constructor
  case represents =>
    intro s'
    dsimp only
    rcases eq_or_ne s' s with rfl | hs
    · rwa [Function.update_self, Function.update_self]
    · rw [Function.update_of_ne hs, Function.update_of_ne hs]
      exact h.represents s'
  case length =>
    intro s'
    rcases eq_or_ne s' s with rfl | hs
    · rwa [Function.update_self]
    · rw [Function.update_of_ne hs]
      exact h.length s'
  case once =>
    intro s'
    rcases eq_or_ne s' s with rfl | hs
    · rwa [Function.update_self]
    · rw [Function.update_of_ne hs]
      exact h.once s'
  case blocked => exact hblocked
  case asleep => exact hasleep
  case empty =>
    dsimp only
    rw [hvalue, total_update, hm.empty, h.empty]
    ring
  case full =>
    dsimp only
    rw [hvalue, total_update, hm.full, h.full]
    ring
  case mutex =>
    dsimp only
    rw [hvalue, total_update, hm.mutex, h.mutex]
    ring

theorem isInt (h : Conserved producer maxk b a) (hcard : Fintype.card T < maxTask)
    (hmax : IsInt maxk) (hk : 1 ≤ maxk) (hm : Moves (producer t) s d (b.point t) next)
    (hd : d = 1 ∨ d = -1) : IsInt ((a s).value + d) := by
  have hlen := h.length s
  have hfew := length_lt hcard (h.once s)
  unfold IsInt at hmax ⊢
  unfold maxTask at hfew
  rcases hd with rfl | rfl
  · have hle := h.value_le hk hm
    omega
  · have hle :=
      h.value_le hk (show Moves (producer t) s 0 (b.point t) (b.point t) from ⟨?_, ?_, ?_⟩)
    · omega
    all_goals split <;> omega

theorem wait (h : Conserved producer maxk b a) (hcard : Fintype.card T < maxTask)
    (hmax : IsInt maxk) (hk : 1 ≤ maxk) (cpu : Nat) (ht : b.state t ≠ .yield)
    (haw : next.awaited (producer t) = some s)
    (hm : Moves (producer t) s (-1) (b.point t) next) :
    ∃ b' a', b.wait cpu t s next = .ok b' ∧ Conserved producer maxk b' a' := by
  have hlen := h.length s
  have hne : ∀ {s' u}, u ∈ (a s').blocked → u ≠ t := fun hu he => ht (he ▸ (h.blocked _ _ hu).1)
  have honce : ((a s).step (.wait cpu t)).blocked.Nodup := by
    unfold Counter.step
    dsimp only
    split
    · refine (h.once s).append (List.nodup_singleton t) ?_
      rw [List.disjoint_singleton]
      exact fun hu => hne hu rfl
    · exact h.once s
  obtain ⟨sem, hok, hrep⟩ := (h.represents s).wait (t := t) b.state cpu
    (h.isInt hcard hmax hk hm (.inr rfl)) (length_lt hcard honce)
  refine ⟨_, _, Buffer.wait_eq hok, h.moved hrep ?_ honce (fun s' u hu => ?_)
    (fun u hu => ?_) rfl hm⟩
  · show (((if (a s).value - 1 < 0 then (a s).blocked ++ [t] else (a s).blocked).length :
      Nat) : Int) =
      max 0 (-((a s).value - 1))
    split
    · rw [List.length_append, List.length_singleton]
      omega
    · omega
  · have hold : u ∈ (a s').blocked → (if (a s).value - 1 < 0 then Function.update b.state t .yield
        else b.state) u = .yield ∧
        (Function.update b.point t next u).awaited (producer u) = some s' := by
      intro hu
      have hut := hne hu
      rw [Function.update_of_ne hut]
      refine ⟨?_, (h.blocked _ _ hu).2⟩
      split
      · rw [Function.update_of_ne hut]
        exact (h.blocked _ _ hu).1
      · exact (h.blocked _ _ hu).1
    rcases eq_or_ne s' s with rfl | hs
    · rw [Function.update_self] at hu
      have hu : u ∈ if (a s').value - 1 < 0 then (a s').blocked ++ [t] else (a s').blocked := hu
      split at hu
      next hneg =>
        rcases List.mem_append.mp hu with hu | hu
        · exact hold hu
        · rw [List.mem_singleton.mp hu, if_pos hneg, Function.update_self, Function.update_self]
          exact ⟨rfl, haw⟩
      · exact hold hu
    · rw [Function.update_of_ne hs] at hu
      exact hold hu
  · by_cases hut : u = t
    · refine ⟨s, ?_⟩
      rw [Function.update_self]
      show u ∈ if (a s).value - 1 < 0 then (a s).blocked ++ [t] else (a s).blocked
      split at hu
      next hneg =>
        rw [if_pos hneg, hut]
        simp
      · exact absurd (hut ▸ hu) ht
    · have hu' : b.state u = .yield := by
        split at hu
        · rwa [Function.update_of_ne hut] at hu
        · exact hu
      obtain ⟨s', hs'⟩ := h.asleep u hu'
      refine ⟨s', ?_⟩
      rcases eq_or_ne s' s with rfl | hs
      · rw [Function.update_self]
        show u ∈ if (a s').value - 1 < 0 then (a s').blocked ++ [t] else (a s').blocked
        split
        · exact List.mem_append_left _ hs'
        · exact hs'
      · rwa [Function.update_of_ne hs]

theorem signal (h : Conserved producer maxk b a) (hcard : Fintype.card T < maxTask)
    (hmax : IsInt maxk) (hk : 1 ≤ maxk) (cpu : Nat) (ht : b.state t ≠ .yield)
    (hm : Moves (producer t) s 1 (b.point t) next) :
    ∃ b' a', b.signal cpu t s next = .ok b' ∧ Conserved producer maxk b' a' := by
  have hlen := h.length s
  have hint := h.isInt hcard hmax hk hm (.inl rfl)
  have hne : ∀ {s' u}, u ∈ (a s').blocked → u ≠ t := fun hu he => ht (he ▸ (h.blocked _ _ hu).1)
  have hlen' : (((a s).step (.signal cpu)).blocked.length : Int) =
      max 0 (-((a s).step (.signal cpu)).value) := by
    show ((a s).blocked.tail.length : Int) = max 0 (-((a s).value + 1))
    rw [List.length_tail]
    omega
  have honce : ((a s).step (.signal cpu)).blocked.Nodup := (h.once s).tail
  cases hq : (a s).blocked with
  | nil =>
    have hpos : 0 ≤ (a s).value := by
      rw [hq, List.length_nil] at hlen
      omega
    obtain ⟨sem, hok, hrep⟩ := (h.represents s).signal_nil b.state cpu hint hpos hq
    have hsame : ∀ s', (Function.update a s ((a s).step (.signal cpu)) s').blocked =
        (a s').blocked := by
      intro s'
      rcases eq_or_ne s' s with rfl | hs
      · rw [Function.update_self]
        show (a s').blocked.tail = (a s').blocked
        rw [hq, List.tail_nil]
      · rw [Function.update_of_ne hs]
    refine ⟨_, _, Buffer.signal_eq hok, h.moved hrep hlen' honce (fun s' u hu => ?_)
      (fun u hu => ?_) rfl hm⟩
    · rw [hsame] at hu
      rw [Function.update_of_ne (hne hu)]
      exact h.blocked _ _ hu
    · obtain ⟨s', hs'⟩ := h.asleep u hu
      exact ⟨s', by rwa [hsame]⟩
  | cons x q =>
    have hneg : (a s).value < 0 := by
      rw [hq, List.length_cons] at hlen
      omega
    obtain ⟨sem, hok, hrep⟩ := (h.represents s).signal_cons b.state cpu hint hneg hq
    have hxq : x ∉ q := (List.nodup_cons.mp (hq ▸ h.once s)).1
    have hx := h.blocked s x (by simp [hq])
    have hnew : ((a s).step (.signal cpu)).blocked = q := by
      show (a s).blocked.tail = q
      rw [hq, List.tail_cons]
    refine ⟨_, _, Buffer.signal_eq hok, h.moved hrep hlen' honce (fun s' u hu => ?_)
      (fun u hu => ?_) rfl hm⟩
    · -- the task that is woken is in no other queue
      have hu' : u ∈ (a s').blocked ∧ u ≠ x := by
        rcases eq_or_ne s' s with rfl | hs
        · rw [Function.update_self, hnew] at hu
          exact ⟨by simp [hq, hu], fun he => hxq (he ▸ hu)⟩
        · rw [Function.update_of_ne hs] at hu
          refine ⟨hu, ?_⟩
          rintro rfl
          exact hs (Option.some.inj ((h.blocked _ _ hu).2.symm.trans hx.2))
      rw [Function.update_of_ne hu'.2, Function.update_of_ne (hne hu'.1)]
      exact h.blocked _ _ hu'.1
    · have hux : u ≠ x := by
        rintro rfl
        rw [Function.update_self] at hu
        cases hu
      rw [Function.update_of_ne hux] at hu
      obtain ⟨s', hs'⟩ := h.asleep u hu
      refine ⟨s', ?_⟩
      rcases eq_or_ne s' s with rfl | hs
      · rw [Function.update_self, hnew]
        rw [hq] at hs'
        exact (List.mem_cons.mp hs').resolve_left hux
      · rwa [Function.update_of_ne hs]

/-- `cnt` changes under the mutex. -/
theorem count (h : Conserved producer maxk b a) (hmax : IsInt maxk) (cpu : Nat)
    (ht : b.state t ≠ .yield)
    (hp : b.point t = .count) :
    ∃ b', loopStep producer b cpu t = .ok b' ∧ Conserved producer maxk b' a := by
  have h0 := h.cnt_nonneg
  have h1 := h.cnt_le
  let n := if producer t then b.cnt + 1 else b.cnt - 1
  have hE := h.empty
  have hF := h.full
  have hnew : Conserved producer maxk
      { b with cnt := n, point := Function.update b.point t .signalMutex } a := by
    refine ⟨h.represents, h.length, h.once, fun s u hu => ?_, h.asleep, ?_, ?_, ?_⟩
    · have hut : u ≠ t := fun he => ht (he ▸ (h.blocked _ _ hu).1)
      dsimp only
      rw [Function.update_of_ne hut]
      exact h.blocked _ _ hu
    · dsimp only
      rw [total_update, hp]
      cases hprod : producer t <;> simp [n, hprod, Point.pending] <;> omega
    · dsimp only
      rw [total_update, hp]
      cases hprod : producer t <;> simp [n, hprod, Point.pending] <;> omega
    · dsimp only
      rw [total_update, hp, h.mutex]
      simp [Point.inMutex]
  have hn0 := hnew.cnt_nonneg
  have hn1 := hnew.cnt_le
  have hint : IsInt n := by
    unfold IsInt at hmax ⊢
    dsimp only at hn0 hn1
    omega
  refine ⟨_, ?_, hnew⟩
  rw [loopStep, hp]
  dsimp only
  rw [int, if_pos hint]
  rfl

theorem moves_slot (r : Bool) : Moves r (slot r) (-1) .waitSlot .waitMutex := by
  cases r <;> exact ⟨by decide, by decide, by decide⟩

theorem moves_mutex (r : Bool) : Moves r .mutex (-1) .waitMutex .count := by
  cases r <;> exact ⟨by decide, by decide, by decide⟩

theorem moves_release (r : Bool) : Moves r .mutex 1 .signalMutex .signalOther := by
  cases r <;> exact ⟨by decide, by decide, by decide⟩

theorem moves_other (r : Bool) : Moves r (other r) 1 .signalOther .waitSlot := by
  cases r <;> exact ⟨by decide, by decide, by decide⟩

/-- Every step of a task that is not asleep returns and keeps the balance. -/
theorem step (h : Conserved producer maxk b a) (hcard : Fintype.card T < maxTask)
    (hmax : IsInt maxk) (hk : 1 ≤ maxk) (cpu : Nat) (ht : b.state t ≠ .yield) :
    ∃ b' a', loopStep producer b cpu t = .ok b' ∧ Conserved producer maxk b' a' := by
  cases hp : b.point t with
  | waitSlot =>
    obtain ⟨b', a', hok, h'⟩ := h.wait hcard hmax hk cpu ht rfl
      (hp ▸ moves_slot (producer t) : Moves (producer t) _ (-1) (b.point t) .waitMutex)
    exact ⟨b', a', by rw [loopStep, hp]; exact hok, h'⟩
  | waitMutex =>
    obtain ⟨b', a', hok, h'⟩ := h.wait hcard hmax hk cpu ht rfl
      (hp ▸ moves_mutex (producer t) : Moves (producer t) _ (-1) (b.point t) .count)
    exact ⟨b', a', by rw [loopStep, hp]; exact hok, h'⟩
  | count =>
    obtain ⟨b', hok, h'⟩ := h.count hmax cpu ht hp
    exact ⟨b', a, hok, h'⟩
  | signalMutex =>
    obtain ⟨b', a', hok, h'⟩ := h.signal hcard hmax hk cpu ht
      (hp ▸ moves_release (producer t))
    exact ⟨b', a', by rw [loopStep, hp]; exact hok, h'⟩
  | signalOther =>
    obtain ⟨b', a', hok, h'⟩ := h.signal hcard hmax hk cpu ht
      (hp ▸ moves_other (producer t))
    exact ⟨b', a', by rw [loopStep, hp]; exact hok, h'⟩

theorem of_interleaving (hcard : Fintype.card T < maxTask) (hmax : IsInt maxk) (hk : 1 ≤ maxk)
    (h : Interleaving producer maxk b) : ∃ a, Conserved producer maxk b a := by
  induction h with
  | init => exact ⟨_, .init producer hk⟩
  | @loop b b' cpu t _ ht hstep ih =>
    obtain ⟨a, ha⟩ := ih
    obtain ⟨b'', a', hok, h'⟩ := ha.step hcard hmax hk cpu ht
    rw [hstep] at hok
    cases hok
    exact ⟨a', h'⟩
  | @sched b t st _ ht hst ih =>
    obtain ⟨a, ha⟩ := ih
    refine ⟨a, ha.represents, ha.length, ha.once, fun s u hu => ?_, fun u hu => ha.asleep u ?_,
      ha.empty, ha.full, ha.mutex⟩
    · have hut : u ≠ t := fun he => ht (he ▸ (ha.blocked _ _ hu).1)
      dsimp only
      rw [Function.update_of_ne hut]
      exact ha.blocked _ _ hu
    · dsimp only at hu
      by_cases hut : u = t
      · rw [hut, Function.update_self] at hu
        exact absurd hu hst
      · rwa [Function.update_of_ne hut] at hu

end Conserved

variable [DecidableEq T]

/-- In every interleaving at most one task is inside the mutex, `cnt` stays between 0 and
`maxk`, the two counters do not exceed `maxk` together, and every task that is not asleep
can take its next step. -/
theorem bounded_buffer {b : Buffer T} (hcard : Fintype.card T < maxTask) (hmax : IsInt maxk)
    (hk : 1 ≤ maxk) (h : Interleaving producer maxk b) :
    (∀ t u, Inside b t → Inside b u → t = u) ∧ 0 ≤ b.cnt ∧ b.cnt ≤ maxk ∧
      (b.sem .empty).value + (b.sem .full).value ≤ maxk ∧
      ∀ cpu t, b.state t ≠ .yield → ∃ b', loopStep producer b cpu t = .ok b' := by
  obtain ⟨a, ha⟩ := Conserved.of_interleaving hcard hmax hk h
  refine ⟨fun t u => ha.inside_unique, ha.cnt_nonneg, ha.cnt_le, ?_, fun cpu t ht => ?_⟩
  · have h1 := total_nonneg b.point fun t p => p.pending_nonneg (producer t)
    have h2 := total_nonneg b.point fun t p => p.pending_nonneg (!producer t)
    have hE := ha.empty
    have hF := ha.full
    rw [(ha.represents .empty).value, (ha.represents .full).value]
    omega
  · obtain ⟨b', -, hok, -⟩ := ha.step hcard hmax hk cpu ht
    exact ⟨b', hok⟩

/-- Two producers and two consumers with `maxk = 8`: the consumer 2 finds nothing and sleeps, the
producer 1 sleeps while the producer 0 has the mutex, both of them are woken, and in the end the
producer 1 has the mutex and the consumer 3 sleeps. -/
theorem bounded_buffer_four_tasks :
    ∃ b : Buffer (Fin 4), Interleaving (fun t => decide (t < 2)) 8 b ∧ b.state 3 = .yield ∧
      b.cnt = 2 ∧ Inside b 1 ∧ (∀ t, Inside b t → t = 1) ∧
      (b.sem .empty).value + (b.sem .full).value ≤ 8 ∧
      ∃ b', loopStep (fun t => decide (t < 2)) b 0 1 = .ok b' := by
  obtain ⟨b, hrun, htest⟩ := exists_of_test (f := fun b : Buffer (Fin 4) =>
      decide (b.state 3 = .yield ∧ b.cnt = 2 ∧ b.point 1 = .signalMutex ∧ b.state 1 = .runnable))
    (x := run (turn fun t => decide (t < 2)) (createThreads 8)
      [(1, 2), (0, 0), (0, 0), (1, 1), (1, 1), (0, 0), (0, 0), (0, 0), (1, 1), (0, 3)])
    (by decide +kernel)
  obtain ⟨hasleep, hcnt, hpoint, hstate⟩ := of_decide_eq_true htest
  have hb : Interleaving (fun t : Fin 4 => decide (t < 2)) 8 b := .turns .init hrun
  have hin : Inside b 1 := ⟨.inr hpoint, by rw [hstate]; decide⟩
  obtain ⟨hone, -, -, hvalues, hnext⟩ := bounded_buffer (by decide) (by decide) (by decide) hb
  exact ⟨b, hb, hasleep, hcnt, hin, fun t ht => hone t 1 ht hin, hvalues, hnext 0 1 hin.2⟩

end Invariant

end OsWorkbench.Kmt
