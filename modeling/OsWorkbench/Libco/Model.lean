import OsWorkbench.Basic

/-!
# The coroutine library

The model of `libco/co.c`. `setjmp` stores a continuation: whose it is and where in the
library it was called. `longjmp` resumes a stored continuation, and that is undefined
unless the function that called `setjmp` is still active.

A step is a call of the library by the coroutine whose code runs, up to the point where code
outside the library runs again. The results of `rand` in the step are an argument; a step
that needs more of them is still inside the library. What the C program does not store is
kept beside its globals: which coroutine runs, at which continuation each of the others is
suspended, and what the latest `co_start` returned.
-/

namespace OsWorkbench.Libco

def maxCo : Nat := 128

/-- `END` and `RUNNING`. -/
inductive CoState
  | ended
  | running
  deriving DecidableEq, Repr

/-- The calls of `setjmp`: in the `co_start` of a coroutine, in `co_yield`, and in the
`co_wait` for a coroutine. -/
inductive Site
  | start (n : Nat)
  | yield
  | wait (thd : Nat)
  deriving DecidableEq, Repr

/-- A continuation: the coroutine, the number of the call it made, and the place. -/
structure Cont where
  owner : Nat
  call : Nat
  site : Site
  deriving DecidableEq, Repr

/-- `struct co`, without the stack. -/
structure Co where
  id : Nat
  state : CoState
  buf : Option Cont
  deriving DecidableEq, Repr

structure Lib where
  coRtns : Nat → Co
  /-- The index of `current` in `co_rtns`. -/
  current : Nat
  coCnt : Nat
  actCnt : Nat
  /-- The coroutine whose code runs. -/
  running : Nat
  /-- How many calls of the library each coroutine has made. -/
  calls : Nat → Nat
  /-- Where a coroutine is suspended. -/
  suspended : Nat → Option Cont
  /-- The coroutine that the latest `co_start` to return started, and the index of the handle it
  returned. -/
  started : Option (Nat × Nat)

/-- The zeroed globals after `co_init`. -/
def coInit : Lib where
  coRtns i := if i = 0 then ⟨0, .running, none⟩ else ⟨0, .ended, none⟩
  current := 0
  coCnt := 1
  actCnt := 1
  running := 0
  calls _ := 0
  suspended _ := none
  started := none

/-! ## `setjmp` and `longjmp` -/

/-- `setjmp(co_rtns[i].buf)`, called at a place by the coroutine that runs. -/
def setjmp (s : Lib) (i : Nat) (site : Site) : Lib :=
  let k : Cont := ⟨s.running, s.calls s.running, site⟩
  { s with
    coRtns := Function.update s.coRtns i { s.coRtns i with buf := some k }
    calls := Function.update s.calls s.running (s.calls s.running + 1)
    suspended := Function.update s.suspended s.running (some k) }

/-- The library returns to the code behind the call of `k`. -/
def back (s : Lib) (k : Cont) : Lib :=
  { s with
    running := k.owner
    suspended := Function.update s.suspended k.owner none
    started :=
      match k.site with
      | .start n => some (n, s.coCnt - 1)
      | _ => s.started }

/-- The code behind a `setjmp` that returns for the second time. In `co_wait` it may go on with
`switch`. -/
def proceed (s : Lib) (k : Cont) (switch : Lib → Except Fault Lib) : Except Fault Lib :=
  match k.site with
  | .wait thd => if (s.coRtns thd).state ≠ .ended then switch s else .ok (back s k)
  | _ => .ok (back s k)

/-- `longjmp`. -/
def longjmp (s : Lib) (buf : Option Cont) (switch : Lib → Except Fault Lib) : Except Fault Lib :=
  match buf with
  | none => .error .badAccess
  | some k => if s.suspended k.owner = some k then proceed s k switch else .error .badAccess

/-! ## The library -/

/-- The loop of `select_co`; `none` for its `return -1`. -/
def selectLoop (s : Lib) : List Nat → Nat → Option Nat
  | [], _ => none
  | i :: is, num =>
    if (s.coRtns i).state = .running then
      if num = 0 then some i else selectLoop s is (num - 1)
    else selectLoop s is num

/-- `select_co`, when `rand` returns `r`. -/
def selectCo (s : Lib) (r : Nat) : Except Fault (Option Nat) :=
  if s.actCnt = 0 then .error .divide
  else .ok (selectLoop s (List.range s.coCnt) (r % s.actCnt))

/-- `SWICTH_AND_JMUP`. -/
def switchAndJump : List Nat → Lib → Except Fault Lib
  | [], _ => .error .diverges
  | r :: rs, s => do
    match ← selectCo s r with
    | none => .error .badAccess
    | some m =>
      if m = (s.coRtns s.current).id then switchAndJump rs s
      else
        let s := { s with current := m }
        longjmp s (s.coRtns m).buf (switchAndJump rs)

/-- `co_start`, up to the call of the function of the new coroutine. -/
def coStart (s : Lib) : Except Fault Lib := do
  let n := s.coCnt
  inBounds (n < maxCo)
  let s := { s with coCnt := s.coCnt + 1, actCnt := s.actCnt + 1 }
  let s := setjmp s 0 (.start n)
  return { s with
    current := n
    coRtns := Function.update s.coRtns n { s.coRtns n with id := n, state := .running }
    running := n }

/-- The end of `co_start`, when the function of the coroutine has returned. The function of the
main flow does not return here: there the program ends. -/
def coEnd (s : Lib) (rs : List Nat) : Except Fault Lib :=
  if s.running = 0 then .error .exit
  else
    let s := { s with
      coRtns := Function.update s.coRtns s.current { s.coRtns s.current with state := .ended }
      actCnt := s.actCnt - 1 }
    longjmp s (s.coRtns 0).buf (switchAndJump rs)

def coYield (s : Lib) (rs : List Nat) : Except Fault Lib :=
  switchAndJump rs (setjmp s s.current .yield)

def coWait (s : Lib) (thd : Nat) (rs : List Nat) : Except Fault Lib := do
  inBounds (thd < maxCo)
  let k : Cont := ⟨s.running, s.calls s.running, .wait thd⟩
  proceed (setjmp s s.current (.wait thd)) k (switchAndJump rs)

/-- What the coroutine that runs does next. -/
inductive Event
  | start
  | yield
  | wait (thd : Nat)
  | ret
  deriving DecidableEq, Repr

/-- A step, with the results of `rand`. -/
def step (s : Lib) : Event × List Nat → Except Fault Lib
  | (.start, _) => coStart s
  | (.yield, rs) => coYield s rs
  | (.wait thd, rs) => coWait s thd rs
  | (.ret, rs) => coEnd s rs

end OsWorkbench.Libco
