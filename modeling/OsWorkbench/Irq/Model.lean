import OsWorkbench.Lib.Exchange
import OsWorkbench.Basic

/-!
# Interrupt handlers

The model of `ITEM` in `kernel/include/os.h` and of `os_on_irq` and `os_trap` in
`kernel/src/os.c`. Handlers are the elements of a type `H`, and calling one is a function
that may change a state and gives a context or `NULL`. A trap runs under
`current_tasks_mutex`, so it is one step.
-/

namespace OsWorkbench.Irq

def maxHandler : Nat := 128

/-- `_EVENT_NULL`. -/
def eventNull : Int := 0

/-- `INT32_MAX`. -/
def int32Max : Int := 2 ^ 31 - 1

/-- `struct item`. -/
structure Item (H : Type) where
  seq : Int
  event : Int
  handler : H
  deriving DecidableEq

/-- `ITEM`. -/
structure Table (H : Type) where
  size : Nat
  items : Nat → Item H

variable {H : Type}

def pushBack (t : Table H) (seq event : Int) (handler : H) : Except Fault (Table H) := do
  inBounds (t.size < maxHandler)
  return ⟨t.size + 1, Function.update t.items t.size ⟨seq, event, handler⟩⟩

/-- The exchange of two items, field by field. -/
def exchange (items : Nat → Item H) (i j : Nat) : Nat → Item H :=
  let tmpSeq := (items i).seq
  let items := Function.update items i { items i with seq := (items j).seq }
  let items := Function.update items j { items j with seq := tmpSeq }
  let tmpEvent := (items i).event
  let items := Function.update items i { items i with event := (items j).event }
  let items := Function.update items j { items j with event := tmpEvent }
  let tmpHandler := (items i).handler
  let items := Function.update items i { items i with handler := (items j).handler }
  Function.update items j { items j with handler := tmpHandler }

/-- The body of the two loops. -/
def order (i : Nat) (items : Nat → Item H) (j : Nat) : Nat → Item H :=
  if (items i).seq > (items j).seq then exchange items i j else items

def bubbleSort (t : Table H) : Table H where
  size := t.size
  items := (List.range t.size).foldl (fun items i =>
    (List.range' (i + 1) (t.size - (i + 1))).foldl (order i) items) t.items

def onIrq (t : Table H) (r : Item H) : Except Fault (Table H) := do
  let t ← pushBack t r.seq r.event r.handler
  return bubbleSort t

section Trap

variable {C σ : Type}

/-- The loop of `os_trap` over the items `is`, with `ret` so far. -/
def trapLoop (call : H → σ → Except Fault (Option C × σ)) (t : Table H) (ev : Int) :
    List Nat → Option C → σ → Except Fault (Option C × σ)
  | [], ret, s => .ok (ret, s)
  | i :: is, ret, s =>
    if (t.items i).event = eventNull ∨ (t.items i).event = ev then do
      let r ← call (t.items i).handler s
      match r.1 with
      | some next => trapLoop call t ev is (some next) r.2
      | none => trapLoop call t ev is ret r.2
    else trapLoop call t ev is ret s

/-- `os_trap` for an event and a context, both of which `call` gives to the handlers. -/
def osTrap (call : H → σ → Except Fault (Option C × σ)) (t : Table H) (ev : Int) (s : σ) :
    Except Fault (Option C × σ) :=
  trapLoop call t ev (List.range t.size) none s

end Trap

end OsWorkbench.Irq
