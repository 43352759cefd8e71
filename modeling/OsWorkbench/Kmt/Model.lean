import OsWorkbench.Basic

/-!
# Kernel threads

The model of `kernel/src/kthreads.c` and `kernel/include/kthreads.h`: the
interrupt nesting of the spin locks, the semaphores and the scheduler that
`os_trap` runs. Task structures are the elements of a type `T` of pointers.

A section between `kmt_spin_lock` and `kmt_spin_unlock` of a semaphore is one
step, and so is a trap, which runs under `current_tasks_mutex`. What
`procfs_schdule` counts for `/proc` is left out, and so are names, stacks and the
contents of a context; of a context the model keeps whether it is up to date.
-/

namespace OsWorkbench.Kmt

def maxTask : Nat := 32
def maxCpu : Nat := 8
def noneCpu : Int := -1

/-! ## Spin locks -/

/-- `spinlock_t`. -/
structure Spinlock where
  locked : Bool
  cpu : Int
  deriving DecidableEq

/-- The `ncli`, the `intena` and the interrupt flag `IF` of one CPU. -/
structure Cpu where
  ncli : Int
  intena : Nat
  flag : Bool
  deriving DecidableEq

/-- `FL_IF`. -/
def flIf : Nat := 0x200

/-- `get_efl() & FL_IF`. -/
def eflIf (c : Cpu) : Nat := if c.flag then flIf else 0

def cli (c : Cpu) : Cpu := { c with flag := false }

def sti (c : Cpu) : Cpu := { c with flag := true }

def pushcli (c : Cpu) : Except Fault Cpu := do
  let c := cli c
  let c := if c.ncli = 0 then { c with intena := eflIf c } else c
  let n ← int (c.ncli + 1)
  return { c with ncli := n }

def popcli (c : Cpu) : Except Fault Cpu := do
  let n ← int (c.ncli - 1)
  let c := { c with ncli := n }
  return if c.ncli = 0 ∧ c.intena ≠ 0 then sti c else c

/-- The lock as `kmt_spin_init` leaves it, and after `kmt_spin_unlock`. -/
def Spinlock.free : Spinlock := ⟨false, noneCpu⟩

/-- The end of the loop on `_atomic_xchg`; while the lock is taken, it goes on. -/
def Spinlock.acquire (lk : Spinlock) (cpu : Nat) : Except Fault Spinlock :=
  if lk.locked then .error .diverges else .ok ⟨true, cpu⟩

/-- The CPUs and the spin locks of the machine. -/
structure Machine (L : Type) where
  cpu : Nat → Cpu
  lock : L → Spinlock

section Spin

variable {L : Type} [DecidableEq L]

def spinLock (m : Machine L) (c : Nat) (l : L) : Except Fault (Machine L) := do
  let cpu ← pushcli (m.cpu c)
  let lk ← (m.lock l).acquire c
  return { cpu := Function.update m.cpu c cpu, lock := Function.update m.lock l lk }

def spinUnlock (m : Machine L) (c : Nat) (l : L) : Except Fault (Machine L) := do
  let cpu ← popcli (m.cpu c)
  return { cpu := Function.update m.cpu c cpu, lock := Function.update m.lock l .free }

/-- A call of a lock operation by CPU `cpu`. -/
structure SpinCall (L : Type) where
  cpu : Nat
  isLock : Bool
  lock : L

def spinStep (m : Machine L) (o : SpinCall L) : Except Fault (Machine L) :=
  if o.isLock then spinLock m o.cpu o.lock else spinUnlock m o.cpu o.lock

end Spin

/-! ## Semaphores -/

inductive TaskState
  | nil
  | started
  | runnable
  | running
  | yield
  | killed
  deriving DecidableEq, Repr

/-- `sem_t`, with `none` in the cells of `que` that were never written. -/
structure Sem (T : Type) where
  value : Int
  lk : Spinlock
  que : Nat → Option T
  head : Nat
  tail : Nat

section Sem

variable {T : Type} [DecidableEq T]

def semPush (sem : Sem T) (task : T) : Except Fault (Sem T) := do
  check (sem.lk.locked = true)
  inBounds (sem.tail < maxTask)
  return { sem with
    que := Function.update sem.que sem.tail (some task)
    tail := (sem.tail + 1) % maxTask }

def semPop (sem : Sem T) : Except Fault (Option T × Sem T) := do
  check (sem.lk.locked = true)
  inBounds (sem.head < maxTask)
  return (sem.que sem.head, { sem with head := (sem.head + 1) % maxTask })

/-- `sleep` up to its `_yield`. -/
def sleep (sem : Sem T) (state : T → TaskState) (current : T) :
    Except Fault (Sem T × (T → TaskState)) := do
  let sem ← semPush sem current
  return ({ sem with lk := .free }, Function.update state current .yield)

def wakeup (sem : Sem T) (state : T → TaskState) : Except Fault (Sem T × (T → TaskState)) := do
  if sem.head = sem.tail then .error .exit
  let r ← semPop sem
  match r.1 with
  | none => .error .badAccess
  | some task => return ({ r.2 with lk := .free }, Function.update state task .runnable)

def semInit (value : Int) : Sem T where
  value := value
  lk := .free
  que _ := none
  head := 0
  tail := 0

/-- `kmt_sem_wait` by the task `current` of CPU `cpu`, up to the `_yield` of a
task that blocks. -/
def semWait (sem : Sem T) (state : T → TaskState) (cpu : Nat) (current : T) :
    Except Fault (Sem T × (T → TaskState)) := do
  let lk ← sem.lk.acquire cpu
  let value ← int (sem.value - 1)
  let sem := { sem with lk := lk, value := value }
  if value < 0 then sleep sem state current else return ({ sem with lk := .free }, state)

def semSignal (sem : Sem T) (state : T → TaskState) (cpu : Nat) :
    Except Fault (Sem T × (T → TaskState)) := do
  let lk ← sem.lk.acquire cpu
  let value ← int (sem.value + 1)
  let sem := { sem with lk := lk, value := value }
  if value ≤ 0 then wakeup sem state else return ({ sem with lk := .free }, state)

end Sem

/-! ## The scheduler -/

/-- The task table, the current task of each CPU, the fields of the tasks and the
semaphores `S` of the kernel.

`stale t` is not in the source: it is set when `t` starts to run and cleared when
its context is saved. `asleep t` is the program counter of `t` as far as `sleep`
goes: it stands between the unlock and the `_yield`. -/
structure Kernel (T S : Type) where
  tasksSize : Nat
  tasks : Nat → Option T
  current : Nat → Option T
  idx : T → Nat
  state : T → TaskState
  stale : T → Bool
  asleep : T → Bool
  sem : S → Sem T

section Sched

variable {T S : Type} [DecidableEq T] [DecidableEq S]

/-- `state == STARTED || state == RUNNABLE`. -/
def Selectable (k : Kernel T S) (i : Nat) : Prop :=
  ∃ t, k.tasks i = some t ∧ (k.state t = .started ∨ k.state t = .runnable)

instance (k : Kernel T S) (i : Nat) : Decidable (Selectable k i) :=
  match h : k.tasks i with
  | none => isFalse (by rintro ⟨t, ht, _⟩; rw [h] at ht; cases ht)
  | some t => decidable_of_iff (k.state t = .started ∨ k.state t = .runnable)
      ⟨fun hs => ⟨t, h, hs⟩, by rintro ⟨u, hu, hs⟩; rw [h] at hu; cases hu; exact hs⟩

/-- The selection loop, with `n` iterations left. It does not change what it
reads, so that a round without success is repeated for ever. -/
def select (k : Kernel T S) : Nat → Nat → Except Fault Nat
  | 0, _ => .error .diverges
  | n + 1, idx =>
    let idx := (idx + 1) % k.tasksSize
    if Selectable k idx then .ok idx else select k n idx

/-- The context of the current task is saved and the task is put back. -/
def saveCurrent (k : Kernel T S) (c : Nat) : Kernel T S :=
  match k.current c with
  | none => k
  | some t => { k with
      stale := Function.update k.stale t false
      state := if k.state t = .running then Function.update k.state t .runnable else k.state }

/-- Where the selection starts: the index of the current task, or 0. -/
def startIdx (k : Kernel T S) (c : Nat) : Nat :=
  match k.current c with
  | none => 0
  | some t => k.idx t

/-- `t` becomes the current task of CPU `c` and runs. -/
def dispatch (k : Kernel T S) (c : Nat) (t : T) : Kernel T S :=
  { k with
    current := Function.update k.current c (some t)
    state := Function.update k.state t .running
    stale := Function.update k.stale t true }

/-- `kmt_context_save_switch` on CPU `c`. -/
def contextSaveSwitch (k : Kernel T S) (c : Nat) : Except Fault (Kernel T S) := do
  let k := saveCurrent k c
  let i ← select k k.tasksSize (startIdx k c)
  match k.tasks i with
  | none => .error .badAccess
  | some t => return dispatch k c t

/-- `get_tasks_idx`: the last free index, or `tasks_size`. -/
def getTasksIdx (k : Kernel T S) : Nat :=
  (List.range k.tasksSize).foldl (fun ret i => if (k.tasks i).isNone then i else ret) k.tasksSize

def tasksInsert (k : Kernel T S) (x : T) : Except Fault (Kernel T S) := do
  let i := getTasksIdx k
  inBounds (i < maxTask)
  return { k with
    idx := Function.update k.idx x i
    tasksSize := if i = k.tasksSize then k.tasksSize + 1 else k.tasksSize
    tasks := Function.update k.tasks i (some x) }

def tasksRemove (k : Kernel T S) (x : T) : Except Fault (Kernel T S) := do
  inBounds (k.idx x < maxTask)
  return { k with tasks := Function.update k.tasks (k.idx x) none }

/-- `kmt_create`. The context of `_kcontext` starts the task at its entry. -/
def create (k : Kernel T S) (task : T) : Except Fault (Kernel T S) :=
  tasksInsert { k with
    state := Function.update k.state task .started
    stale := Function.update k.stale task false
    asleep := Function.update k.asleep task false } task

def teardown (k : Kernel T S) (task : T) : Except Fault (Kernel T S) := tasksRemove k task

/-- `kmt_create_wait` for the wait tasks `ts`. -/
def createWait (k : Kernel T S) (ts : List T) : Except Fault (Kernel T S) := run create k ts

/-- The kernel before `kmt_init`, with semaphores as `kmt_sem_init` leaves them. -/
def boot (value : S → Int) : Kernel T S where
  tasksSize := 0
  tasks _ := none
  current _ := none
  idx _ := 0
  state _ := .nil
  stale _ := false
  asleep _ := false
  sem s := semInit (value s)

/-- `kmt_sem_wait` by the current task of CPU `c`. -/
def waitBy (k : Kernel T S) (c : Nat) (s : S) : Except Fault (Kernel T S) :=
  match k.current c with
  | none => .error .badAccess
  | some t => do
    let r ← semWait (k.sem s) k.state c t
    return { k with
      sem := Function.update k.sem s r.1
      state := r.2
      asleep := Function.update k.asleep t (decide (r.1.value < 0)) }

/-- `kmt_sem_signal` on CPU `c`. -/
def signalBy (k : Kernel T S) (c : Nat) (s : S) : Except Fault (Kernel T S) := do
  let r ← semSignal (k.sem s) k.state c
  return { k with sem := Function.update k.sem s r.1, state := r.2 }

/-- `_yield` at the end of `sleep`. -/
def yieldBy (k : Kernel T S) (c : Nat) : Except Fault (Kernel T S) :=
  match k.current c with
  | none => .error .badAccess
  | some t => contextSaveSwitch { k with asleep := Function.update k.asleep t false } c

/-- The steps of the kernel. -/
inductive Event (T S : Type)
  | trap (c : Nat)
  | yield (c : Nat)
  | wait (c : Nat) (s : S)
  | signal (c : Nat) (s : S)
  | create (t : T)
  | teardown (t : T)

def step (k : Kernel T S) : Event T S → Except Fault (Kernel T S)
  | .trap c => contextSaveSwitch k c
  | .yield c => yieldBy k c
  | .wait c s => waitBy k c s
  | .signal c s => signalBy k c s
  | .create t => create k t
  | .teardown t => teardown k t

/-- The task that a signal takes from the queue of `s`. -/
def nextWoken (k : Kernel T S) (s : S) : Option T :=
  if (k.sem s).value < 0 then (k.sem s).que (k.sem s).head else none

/-- When the code of a task can take a step: a task inside `sleep` goes on with
its `_yield`, any other task does not execute that `_yield`. -/
def Enabled (k : Kernel T S) : Event T S → Prop
  | .yield c => ∃ t, k.current c = some t ∧ k.asleep t = true
  | .wait c _ => ∃ t, k.current c = some t ∧ k.asleep t = false
  | _ => True

end Sched

end OsWorkbench.Kmt
