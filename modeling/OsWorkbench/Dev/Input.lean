import OsWorkbench.Lib.Count
import OsWorkbench.Lib.Ring
import OsWorkbench.Kmt.Semaphore
import OsWorkbench.Dev.Model

/-!
# The queue of input events

Any number of tasks that push and pop events. The locked sections of `push_event` and
`pop_event` and those of `event_sem` are the steps; a task that blocks in
`kmt_sem_wait` takes no step until a signal wakes it. The semaphore and the queue are
out of step between the two sections of a call, and the invariant counts the tasks that
are there.
-/

namespace OsWorkbench.Dev

open Lib Kmt

/-! ## The queue -/

/-- The queue holds the events `l`. -/
structure EventQueue.Holds (q : EventQueue) (l : List InputEvent) : Prop where
  front : q.front < nevents
  few : l.length < nevents
  rear : q.rear = (q.front + l.length) % nevents
  cells : ring nevents q.events q.front l.length = l

namespace EventQueue.Holds

variable {q q' : EventQueue} {l : List InputEvent} {ev : InputEvent}

theorem rear_lt (h : q.Holds l) : q.rear < nevents := h.rear ▸ Nat.mod_lt _ (by decide)

theorem next_rear (h : q.Holds l) :
    (q.rear + 1) % nevents = (q.front + (l.length + 1)) % nevents := by
  rw [h.rear, Nat.mod_add_mod, Nat.add_assoc]

theorem push (h : q.Holds l) (ev : InputEvent) (hlt : l.length + 1 < nevents) :
    ∃ q', pushLocked q ev = .ok q' ∧ q'.Holds (l ++ [ev]) := by
  have hne : (q.front + (l.length + 1)) % nevents ≠ q.front := by
    have := Ring.add_mod_ne q.front (Nat.succ_pos l.length) hlt
    rw [Nat.add_zero, Nat.mod_eq_of_lt h.front] at this
    exact this.symm
  unfold pushLocked
  rw [inBounds_bind h.rear_lt]
  dsimp only
  rw [h.next_rear, if_neg hne]
  refine ⟨_, rfl, h.front, ?_, ?_, ?_⟩
  · rw [List.length_append, List.length_singleton]
    exact hlt
  · rw [List.length_append, List.length_singleton]
  · dsimp only
    rw [List.length_append, List.length_singleton, h.rear, Ring.ring_push h.few, h.cells]

/-- One event more than fits. -/
theorem push_full (h : q.Holds l) (heq : l.length + 1 = nevents) :
    pushLocked q ev = .error .exit := by
  unfold pushLocked
  rw [inBounds_bind h.rear_lt]
  dsimp only
  rw [h.next_rear, heq, Nat.add_mod_right, Nat.mod_eq_of_lt h.front, if_pos rfl]

theorem push_full_iff (h : q.Holds l) :
    pushLocked q ev = .error .exit ↔ l.length = nevents - 1 := by
  have hlt := h.few
  constructor
  · intro herr
    by_contra hne
    obtain ⟨q', hok, -⟩ := h.push ev (by omega)
    rw [hok] at herr
    cases herr
  · intro heq
    exact h.push_full (by omega)

theorem push_inv (h : q.Holds l) (hok : pushLocked q ev = .ok q') : q'.Holds (l ++ [ev]) := by
  have hlt := h.few
  by_cases hfull : l.length + 1 = nevents
  · rw [h.push_full hfull] at hok
    cases hok
  · obtain ⟨q'', hok', h'⟩ := h.push ev (by omega)
    rw [hok] at hok'
    cases hok'
    exact h'

theorem pop (h : q.Holds (ev :: l)) : ∃ q', popLocked q = .ok (ev, q') ∧ q'.Holds l := by
  have hlen := h.few
  have hcells := h.cells
  have hrear := h.rear
  rw [List.length_cons] at hlen hcells hrear
  rw [Ring.ring_succ h.front, List.cons.injEq] at hcells
  have hne : q.rear ≠ q.front := by
    have := Ring.add_mod_ne q.front (Nat.succ_pos l.length) hlen
    rw [Nat.add_zero, Nat.mod_eq_of_lt h.front] at this
    rw [hrear]
    exact this.symm
  unfold popLocked
  rw [if_neg hne, inBounds_bind h.front, hcells.1]
  refine ⟨_, rfl, Nat.mod_lt _ (by decide), by omega, ?_, hcells.2⟩
  dsimp only
  rw [hrear, Nat.mod_add_mod, Nat.add_assoc, Nat.add_comm 1]

end EventQueue.Holds

/-! ## Tasks -/

/-- Where a task is: outside of a call, in front of the `sem_signal` of `push_event`, or
behind the `sem_wait` of `pop_event`. -/
inductive EventPoint
  | idle
  | signal
  | pop

/-- The event queue, its semaphore and the tasks, with all events pushed and popped. -/
structure Input (T : Type) where
  queue : EventQueue
  sem : Sem T
  state : T → TaskState
  point : T → EventPoint
  pushed : List InputEvent
  popped : List InputEvent

section Model

variable {T : Type} [DecidableEq T]

/-- `input_init`, in memory with the contents `events`. -/
def Input.init (events : Nat → InputEvent) : Input T where
  queue := ⟨events, 0, 0⟩
  sem := semInit 0
  state _ := .started
  point _ := .idle
  pushed := []
  popped := []

/-- The steps of the tasks, and of the scheduler on tasks that are not asleep. -/
inductive InputStep : Input T → Input T → Prop
  | push {s : Input T} {t : T} {ev : InputEvent} {q : EventQueue} :
      s.point t = .idle → s.state t ≠ .yield → pushLocked s.queue ev = .ok q →
      InputStep s { s with
        queue := q, point := Function.update s.point t .signal, pushed := s.pushed ++ [ev] }
  | signal {s : Input T} {t : T} {cpu : Nat} {sem : Sem T} {st : T → TaskState} :
      s.point t = .signal → s.state t ≠ .yield → semSignal s.sem s.state cpu = .ok (sem, st) →
      InputStep s { s with sem := sem, state := st, point := Function.update s.point t .idle }
  | wait {s : Input T} {t : T} {cpu : Nat} {sem : Sem T} {st : T → TaskState} :
      s.point t = .idle → s.state t ≠ .yield → semWait s.sem s.state cpu t = .ok (sem, st) →
      InputStep s { s with sem := sem, state := st, point := Function.update s.point t .pop }
  | pop {s : Input T} {t : T} {ev : InputEvent} {q : EventQueue} :
      s.point t = .pop → s.state t ≠ .yield → popLocked s.queue = .ok (ev, q) →
      InputStep s { s with
        queue := q, point := Function.update s.point t .idle, popped := s.popped ++ [ev] }
  | sched {s : Input T} {t : T} {st : TaskState} : s.state t ≠ .yield → st ≠ .yield →
      InputStep s { s with state := Function.update s.state t st }

/-- The states of all interleavings. -/
inductive InputReach : Input T → Prop
  | init (events : Nat → InputEvent) : InputReach (.init events)
  | step {s s' : Input T} : InputReach s → InputStep s s' → InputReach s'

/-- The task got a token of `event_sem` and has not used it. -/
def HasToken (s : Input T) (t : T) : Prop := s.point t = .pop ∧ s.state t ≠ .yield

end Model

/-! ## The invariant -/

/-- A task in the middle of a call: the event is in the queue and the signal is to come,
or the wait is done and the event still in the queue. -/
def EventPoint.pending : EventPoint → Int
  | .idle => 0
  | .signal => 1
  | .pop => 1

theorem EventPoint.pending_nonneg (p : EventPoint) : 0 ≤ p.pending := by
  cases p <;> decide

def asleep (st : TaskState) : Int := if st = .yield then 1 else 0

theorem asleep_yield : asleep .yield = 1 := rfl

theorem asleep_of_ne {st : TaskState} (h : st ≠ .yield) : asleep st = 0 := if_neg h

section Invariant

variable {T : Type} [Fintype T]

/-- The queue holds the events `l`, and the tasks `w` are in the queue of the semaphore. -/
structure Flows (s : Input T) (l : List InputEvent) (w : List T) : Prop where
  holds : s.queue.Holds l
  history : s.pushed = s.popped ++ l
  sleepers : Sleepers s.sem w
  once : w.Nodup
  yields : ∀ t ∈ w, s.state t = .yield
  waits : ∀ t, s.state t = .yield → s.point t = .pop
  asleep : total (fun _ => asleep) s.state = max 0 (-s.sem.value)
  value : (l.length : Int) = s.sem.value + total (fun _ => EventPoint.pending) s.point

namespace Flows

theorem init (events : Nat → InputEvent) : Flows (.init events : Input T) [] [] where
  holds :=
    ⟨(by decide : 0 < nevents), (by decide : 0 < nevents), (Nat.zero_mod _).symm, Ring.ring_zero⟩
  history := rfl
  sleepers := .init 0
  once := List.nodup_nil
  yields t ht := by cases ht
  waits t ht := by cases ht
  asleep := by simp [Input.init, total, Dev.asleep, semInit]
  value := by simp [Input.init, total, EventPoint.pending, semInit]

variable [DecidableEq T] {s s' : Input T} {l : List InputEvent} {w : List T} {t : T}

theorem point_update (h : Flows s l w) (ht : s.state t ≠ .yield) (p : EventPoint) {u : T}
    (hu : s.state u = .yield) : Function.update s.point t p u = .pop := by
  have hut : u ≠ t := fun he => ht (he ▸ hu)
  rw [Function.update_of_ne hut]
  exact h.waits u hu

theorem push {ev : InputEvent} {q : EventQueue} (h : Flows s l w) (hp : s.point t = .idle)
    (ht : s.state t ≠ .yield) (hok : pushLocked s.queue ev = .ok q) :
    Flows { s with queue := q, point := Function.update s.point t .signal
                   pushed := s.pushed ++ [ev] } (l ++ [ev]) w where
  holds := h.holds.push_inv hok
  history := by rw [h.history, List.append_assoc]
  sleepers := h.sleepers
  once := h.once
  yields := h.yields
  waits u hu := h.point_update ht .signal hu
  asleep := h.asleep
  value := by
    have := h.value
    dsimp only
    rw [total_update, hp, List.length_append, List.length_singleton]
    simp only [EventPoint.pending]
    push_cast
    omega

theorem signal {cpu : Nat} {sem : Sem T} {st : T → TaskState} (h : Flows s l w)
    (hp : s.point t = .signal) (ht : s.state t ≠ .yield)
    (hok : semSignal s.sem s.state cpu = .ok (sem, st)) :
    ∃ w',
      Flows { s with sem := sem, state := st, point := Function.update s.point t .idle } l w' := by
  have hasleep := h.asleep
  have hvalue := h.value
  obtain ⟨hval, ⟨hpos, rfl, hsl⟩ | ⟨hneg, x, w', rfl, rfl, hsl⟩⟩ := h.sleepers.signal hok
  · refine ⟨w, h.holds, h.history, hsl, h.once, h.yields, fun u hu => h.point_update ht .idle hu,
      ?_, ?_⟩
    · dsimp only
      rw [hval]
      omega
    · dsimp only
      rw [total_update, hp, hval]
      simp only [EventPoint.pending]
      omega
  · obtain ⟨hxw, hnd⟩ := List.nodup_cons.mp h.once
    have hx := h.yields x (by simp)
    refine ⟨w', h.holds, h.history, hsl, hnd, fun u hu => ?_, fun u hu => ?_, ?_, ?_⟩
    · dsimp only
      rw [Function.update_of_ne (ne_of_mem_of_not_mem hu hxw)]
      exact h.yields u (by simp [hu])
    · have hux : u ≠ x := by
        rintro rfl
        dsimp only at hu
        rw [Function.update_self] at hu
        cases hu
      dsimp only at hu
      rw [Function.update_of_ne hux] at hu
      exact h.point_update ht .idle hu
    · dsimp only
      rw [total_update, hx, asleep_yield, hval, asleep_of_ne (by decide)]
      omega
    · dsimp only
      rw [total_update, hp, hval]
      simp only [EventPoint.pending]
      omega

theorem wait {cpu : Nat} {sem : Sem T} {st : T → TaskState} (h : Flows s l w)
    (hp : s.point t = .idle) (ht : s.state t ≠ .yield)
    (hok : semWait s.sem s.state cpu t = .ok (sem, st)) :
    ∃ w',
      Flows { s with sem := sem, state := st, point := Function.update s.point t .pop } l w' := by
  have hasleep := h.asleep
  have hvalue := h.value
  have htw : t ∉ w := fun hw => ht (h.yields t hw)
  obtain ⟨hval, ⟨hpos, rfl, hsl⟩ | ⟨hneg, rfl, w', hsl, hsub⟩⟩ := h.sleepers.wait hok
  · refine ⟨w, h.holds, h.history, hsl, h.once, h.yields, fun u hu => h.point_update ht .pop hu, ?_,
      ?_⟩
    · dsimp only
      rw [hval]
      omega
    · dsimp only
      rw [total_update, hp, hval]
      simp only [EventPoint.pending]
      omega
  · have hnd : (w ++ [t]).Nodup :=
      h.once.append (List.nodup_singleton t) (List.disjoint_singleton.mpr htw)
    refine ⟨w', h.holds, h.history, hsl, hnd.sublist hsub, fun u hu => ?_, fun u hu => ?_, ?_, ?_⟩
    · dsimp only
      rcases List.mem_append.mp (hsub.subset hu) with hu | hu
      · rw [Function.update_of_ne (ne_of_mem_of_not_mem hu htw)]
        exact h.yields u hu
      · rw [List.mem_singleton.mp hu, Function.update_self]
    · dsimp only at hu ⊢
      rw [Function.update_apply]
      split_ifs with hut
      · rfl
      · rw [Function.update_of_ne hut] at hu
        exact h.waits u hu
    · dsimp only
      rw [total_update, asleep_of_ne ht, asleep_yield, hval]
      omega
    · dsimp only
      rw [total_update, hp, hval]
      simp only [EventPoint.pending]
      omega

/-- The events are not fewer than the tasks that have a token for one. -/
theorem tokens_le (h : Flows s l w) {ts : List T} (hnd : ts.Nodup) (hts : ∀ t ∈ ts, HasToken s t) :
    ts.length ≤ l.length := by
  have hasleep := h.asleep
  have hvalue := h.value
  -- a task behind its wait is asleep or has a token
  have hle : (ts.length : Int) + total (fun _ => Dev.asleep) s.state ≤
      total (fun _ => EventPoint.pending) s.point := by
    have h1 : total (fun t p => EventPoint.pending p - Dev.asleep (s.state t)) s.point =
        total (fun _ => EventPoint.pending) s.point - total (fun _ => Dev.asleep) s.state := by
      simp [total, Finset.sum_sub_distrib]
    have h2 : (ts.length : Int) ≤
      total (fun t p => max 0 (EventPoint.pending p - Dev.asleep (s.state t)))
        s.point := by
      refine length_le_total _ (fun t p => le_max_left _ _) hnd fun t ht => ?_
      obtain ⟨hp, hy⟩ := hts t ht
      rw [hp, asleep_of_ne hy]
      rfl
    have h3 : total (fun t p => max 0 (EventPoint.pending p - Dev.asleep (s.state t))) s.point =
        total (fun t p => EventPoint.pending p - Dev.asleep (s.state t)) s.point := by
      refine Finset.sum_congr rfl fun t _ => max_eq_right ?_
      by_cases hy : s.state t = .yield
      · rw [hy, h.waits t hy]
        decide
      · rw [asleep_of_ne hy, sub_zero]
        exact (s.point t).pending_nonneg
    omega
  omega

theorem pop {ev : InputEvent} {q : EventQueue} (h : Flows s l w) (ht : HasToken s t)
    (hok : popLocked s.queue = .ok (ev, q)) :
    ∃ l', l = ev :: l' ∧ Flows { s with
      queue := q, point := Function.update s.point t .idle, popped := s.popped ++ [ev] } l' w := by
  cases l with
  | nil =>
    have := h.tokens_le (List.nodup_singleton t) (by simpa using ht)
    simp at this
  | cons ev' l' =>
    obtain ⟨q', hok', hq'⟩ := h.holds.pop
    rw [hok] at hok'
    cases hok'
    refine ⟨l', rfl, hq', ?_, h.sleepers, h.once, h.yields,
      fun u hu => h.point_update ht.2 .idle hu,
      h.asleep, ?_⟩
    · dsimp only
      rw [h.history, List.append_assoc, List.singleton_append]
    · have := h.value
      dsimp only
      rw [total_update, ht.1]
      rw [List.length_cons] at this
      simp only [EventPoint.pending]
      push_cast at this
      omega

theorem sched {st : TaskState} (h : Flows s l w) (ht : s.state t ≠ .yield) (hst : st ≠ .yield) :
    Flows { s with state := Function.update s.state t st } l w where
  holds := h.holds
  history := h.history
  sleepers := h.sleepers
  once := h.once
  yields u hu := by
    have hut : u ≠ t := fun he => ht (he ▸ h.yields u hu)
    dsimp only
    rw [Function.update_of_ne hut]
    exact h.yields u hu
  waits u hu := by
    dsimp only at hu
    by_cases hut : u = t
    · rw [hut, Function.update_self] at hu
      exact absurd hu hst
    · rw [Function.update_of_ne hut] at hu
      exact h.waits u hu
  asleep := by
    dsimp only
    rw [total_update, asleep_of_ne ht, asleep_of_ne hst, h.asleep]
    ring
  value := h.value

theorem of_reach (h : InputReach s) : ∃ l w, Flows s l w := by
  induction h with
  | init events => exact ⟨[], [], .init events⟩
  | step _ hstep ih =>
    obtain ⟨l, w, hf⟩ := ih
    cases hstep with
    | push hp ht hok => exact ⟨_, _, hf.push hp ht hok⟩
    | signal hp ht hok =>
      obtain ⟨w', h'⟩ := hf.signal hp ht hok
      exact ⟨l, w', h'⟩
    | wait hp ht hok =>
      obtain ⟨w', h'⟩ := hf.wait hp ht hok
      exact ⟨l, w', h'⟩
    | pop hp ht hok =>
      obtain ⟨l', -, h'⟩ := hf.pop ⟨hp, ht⟩ hok
      exact ⟨l', w, h'⟩
    | sched ht hst => exact ⟨l, w, hf.sched ht hst⟩

end Flows

variable [DecidableEq T]

/-- The number of events between `front` and `rear`. -/
def EventQueue.size (q : EventQueue) : Nat := (q.rear + nevents - q.front) % nevents

theorem EventQueue.Holds.size_eq {q : EventQueue} {l : List InputEvent} (h : q.Holds l) :
    q.size = l.length := by
  have hf := h.front
  have hl := h.few
  unfold EventQueue.size
  rw [h.rear]
  unfold nevents at *
  omega

/-- A lossless queue: in every state of every interleaving the events popped so far and
those in the queue are the events pushed; there are at least as many in the queue as
tasks with a token, so that none of these finds it empty; and a push finds it full
exactly when `NEVENTS - 1` events are in it. -/
theorem event_queue_fifo {s : Input T} (h : InputReach s) :
    s.pushed = s.popped ++ ring nevents s.queue.events s.queue.front s.queue.size ∧
      (∀ ts : List T, ts.Nodup → (∀ t ∈ ts, HasToken s t) → ts.length ≤ s.queue.size) ∧
      (∀ t, HasToken s t → ∃ ev q, popLocked s.queue = .ok (ev, q)) ∧
      ∀ ev, pushLocked s.queue ev = .error .exit ↔ s.queue.size = nevents - 1 := by
  obtain ⟨l, w, hf⟩ := Flows.of_reach h
  rw [hf.holds.size_eq, hf.holds.cells]
  refine ⟨hf.history, fun ts hnd hts => hf.tokens_le hnd hts, fun t ht => ?_,
    fun ev => hf.holds.push_full_iff⟩
  cases l with
  | nil =>
    have := hf.tokens_le (List.nodup_singleton t) (by simpa using ht)
    simp at this
  | cons ev l =>
    obtain ⟨q, hok, -⟩ := hf.holds.pop
    exact ⟨ev, q, hok⟩

/-- One task has pushed an event, and another one got the token for it. -/
theorem event_queue_fifo_one_event : ∃ s : Input (Fin 2), InputReach s ∧ HasToken s 1 ∧
    s.pushed = [⟨false, false, 97⟩] ∧ ∃ ev q, popLocked s.queue = .ok (ev, q) := by
  have h₀ : InputReach (.init fun _ => ⟨false, false, 0⟩ : Input (Fin 2)) := .init _
  have h₁ := h₀.step (@InputStep.push _ _ _ 0 ⟨false, false, 97⟩ _ rfl (by decide) rfl)
  have h₂ := h₁.step (@InputStep.signal _ _ _ 0 0 _ _ rfl (by decide) rfl)
  have h₃ := h₂.step (@InputStep.wait _ _ _ 1 0 _ _ rfl (by decide) rfl)
  exact ⟨_, h₃, ⟨rfl, by decide⟩, rfl, (event_queue_fifo h₃).2.2.1 1 ⟨rfl, by decide⟩⟩

end Invariant

end OsWorkbench.Dev
