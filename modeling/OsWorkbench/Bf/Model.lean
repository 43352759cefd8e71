import OsWorkbench.Basic
import OsWorkbench.Lib.CString

/-!
# The compiler and the interpreter of the benchmark bf

The model of `apps/microbench/src/bf/bf.c`. `compile_bf` translates a text into
instructions whose jumps know where they go, and `execute_bf` runs them on an array of 4096
half words. The arrays `PROGRAM` and `STACK` start with anything, the input ends behind its
last byte, and the loop of `execute_bf` gets a bound, as `none` for a run that goes on.
-/

namespace OsWorkbench.Bf

def opEnd : Nat := 0
def opIncDp : Nat := 1
def opDecDp : Nat := 2
def opIncVal : Nat := 3
def opDecVal : Nat := 4
def opOut : Nat := 5
def opIn : Nat := 6
def opJmpFwd : Nat := 7
def opJmpBck : Nat := 8

def success : Nat := 0
def failure : Nat := 1

def programSize : Nat := 4096
def stackSize : Nat := 512
def dataSize : Nat := 4096

/-- `struct instruction_t`. -/
structure Instruction where
  operator : Nat
  operand : Nat

/-- `PROGRAM`, `STACK` and `SP`. -/
structure Compiler where
  program : Nat → Instruction
  stack : Nat → Nat
  sp : Nat

/-! ## Compiling -/

/-- `PROGRAM[pc].operator = op`. -/
def Compiler.setOperator (s : Compiler) (pc op : Nat) : Compiler :=
  { s with program := Function.update s.program pc { s.program pc with operator := op } }

/-- `PROGRAM[pc].operand = v`. -/
def Compiler.setOperand (s : Compiler) (pc v : Nat) : Compiler :=
  { s with program := Function.update s.program pc { s.program pc with operand := v } }

/-- `pc++` of an `unsigned short`. -/
def next (pc : Nat) : Nat := (pc + 1) % 2 ^ 16

/-- `pc--` of an `unsigned short`. -/
def prev (pc : Nat) : Nat := (pc + (2 ^ 16 - 1)) % 2 ^ 16

/-- The body of the loop of `compile_bf`. The flag says that it goes on. -/
def compileChar (c : Char) (pc : Nat) (s : Compiler) : Except Fault (Bool × Nat × Compiler) :=
  match c with
  | '>' => .ok (true, next pc, s.setOperator pc opIncDp)
  | '<' => .ok (true, next pc, s.setOperator pc opDecDp)
  | '+' => .ok (true, next pc, s.setOperator pc opIncVal)
  | '-' => .ok (true, next pc, s.setOperator pc opDecVal)
  | '.' => .ok (true, next pc, s.setOperator pc opOut)
  | ',' => .ok (true, next pc, s.setOperator pc opIn)
  | '[' =>
    let s := s.setOperator pc opJmpFwd
    if s.sp = stackSize then .ok (false, pc, s)
    else do
      inBounds (s.sp < stackSize)
      return (true, next pc, { s with stack := Function.update s.stack s.sp pc, sp := s.sp + 1 })
  | ']' =>
    if s.sp = 0 then .ok (false, pc, s)
    else do
      let s := { s with sp := s.sp - 1 }
      inBounds (s.sp < stackSize)
      let jmpPc := s.stack s.sp
      let s := (s.setOperator pc opJmpBck).setOperand pc jmpPc
      inBounds (jmpPc < programSize)
      return (true, next pc, s.setOperand jmpPc pc)
  | _ => .ok (true, next (prev pc), s)

/-- The loop of `compile_bf`. -/
def compileChars : List UInt8 → Nat → Compiler → Except Fault (Bool × Nat × Compiler)
  | [], pc, s => .ok (true, pc, s)
  | c :: cs, pc, s =>
    if programSize ≤ pc then .ok (true, pc, s)
    else do
      let r ← compileChar (.ofUInt8 c) pc s
      if r.1 then compileChars cs r.2.1 r.2.2 else return r

def compileBf (code : CStr) (s : Compiler) : Except Fault (Nat × Compiler) := do
  let r ← compileChars code.bytes 0 s
  if r.1 = false then return (failure, r.2.2)
  else if r.2.2.sp ≠ 0 ∨ r.2.1 = programSize then return (failure, r.2.2)
  else
    inBounds (r.2.1 < programSize)
    return (success, r.2.2.setOperator r.2.1 opEnd)

/-! ## Running -/

/-- `data` and `ptr` of `execute_bf`, what is left of `input`, and `output`. -/
structure Machine where
  data : Nat → UInt16
  ptr : Nat
  input : List UInt8
  output : List UInt8

/-- A `char` as an `unsigned short`. -/
def ofChar (c : UInt8) : UInt16 := if c < 128 then c.toUInt16 else 0xff00 ||| c.toUInt16

/-- The cases of the `switch` that are no jumps, for `ptr < DATA_SIZE`. -/
def Machine.incDp (m : Machine) : Machine := { m with ptr := add32 m.ptr 1 }

def Machine.decDp (m : Machine) : Machine := { m with ptr := sub32 m.ptr 1 }

/-- `data[ptr] = v`. -/
def Machine.store (m : Machine) (v : UInt16) : Machine :=
  { m with data := Function.update m.data m.ptr v }

def Machine.out (m : Machine) : Except Fault Machine := do
  inBounds (m.output.length < dataSize)
  return { m with output := m.output ++ [(m.data m.ptr).toUInt8] }

def Machine.read (m : Machine) : Except Fault Machine :=
  match m.input with
  | [] => .error .badAccess
  | c :: cs => .ok { m.store (ofChar c) with input := cs }

/-- `execute_bf` with at most `n` turns of its loop. -/
def executeBf (P : Nat → Instruction) : Nat → Nat → Machine → Option (Except Fault Machine)
  | 0, _, _ => none
  | n + 1, pc, m =>
    if programSize ≤ pc then some (.error .badAccess)
    else if (P pc).operator = opEnd ∨ dataSize ≤ m.ptr then some (.ok m)
    else if (P pc).operator = opIncDp then executeBf P n (add32 pc 1) m.incDp
    else if (P pc).operator = opDecDp then executeBf P n (add32 pc 1) m.decDp
    else if (P pc).operator = opIncVal then executeBf P n (add32 pc 1) (m.store (m.data m.ptr + 1))
    else if (P pc).operator = opDecVal then executeBf P n (add32 pc 1) (m.store (m.data m.ptr - 1))
    else if (P pc).operator = opOut then
      match m.out with
      | .ok m => executeBf P n (add32 pc 1) m
      | .error e => some (.error e)
    else if (P pc).operator = opIn then
      match m.read with
      | .ok m => executeBf P n (add32 pc 1) m
      | .error e => some (.error e)
    else if (P pc).operator = opJmpFwd then
      executeBf P n (add32 (if m.data m.ptr = 0 then (P pc).operand else pc) 1) m
    else if (P pc).operator = opJmpBck then
      executeBf P n (add32 (if m.data m.ptr ≠ 0 then (P pc).operand else pc) 1) m
    else some (.ok m)

end OsWorkbench.Bf
