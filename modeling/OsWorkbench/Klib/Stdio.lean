import OsWorkbench.Lib.CString
import OsWorkbench.Basic

/-!
# `vsprintf`

The model of `number` and `vsprintf` of `abstract-machine/libs/klib/src/stdio.c` on a machine
with a `long` of 32 bits. The format is the list of the bytes from `fmt` on, the terminator
included, and a read behind the terminator is a fault. The output is the list of the bytes
written so far; the buffer is taken to be long enough. `va_arg` reads the words of the
arguments one after the other, and whatever is behind them; `mem` gives the string at an
address.
-/

namespace OsWorkbench.Klib

/-- The size of `tmp`. -/
def tmpLength : Nat := 66

/-- The table `digit`, from `'0'` to `'f'`. -/
def digitTable : List UInt8 := [48, 49, 50, 51, 52, 53, 54, 55, 56, 57, 97, 98, 99, 100, 101, 102]

def digit (d : Nat) : UInt8 := digitTable.getD d 0

/-- The loop that writes the digits into `tmp`, the last one first. -/
def digitLoop (base : Nat) : Nat → Nat → List UInt8 → Except Fault (List UInt8)
  | 0, _, _ => .error .diverges
  | fuel + 1, num, tmp =>
    if num = 0 then .ok tmp
    else do
      inBounds (tmp.length < tmpLength)
      digitLoop base fuel (num / base) (tmp ++ [digit (num % base)])

/-- What `tmp` holds behind the loop. -/
def writeDigits (base num : Nat) : Except Fault (List UInt8) :=
  if num = 0 then .ok [48] else digitLoop base (tmpLength + 1) num []

/-- `number`, with the two bits of `flags`. A `num` from `2 ^ 31` on is negative. -/
def number (str : List UInt8) (num base : Nat) (zeropad sign : Bool) (length : Int) :
    Except Fault (List UInt8) := do
  check (base = 10 ∨ base = 16)
  let minus := sign && decide (2 ^ 31 ≤ num)
  let num := if minus then (2 ^ 32 - num) % 2 ^ 32 else num
  let tmp ← writeDigits base num
  let str := if minus then str ++ [45] else str
  let str := str ++ List.replicate (length - tmp.length).toNat (if zeropad then 48 else 32)
  return str ++ tmp.reverse

/-- `*fmt`. -/
def fetch : List UInt8 → Except Fault UInt8
  | [] => .error .badAccess
  | c :: _ => .ok c

/-- `Repeat_Mode`: the rest of the format, and the flag `ZEROPAD`. -/
def modeLoop : List UInt8 → Bool → Except Fault (List UInt8 × Bool)
  | [], _ => .error .badAccess
  | c :: fmt, zeropad => if c = 48 then modeLoop fmt true else .ok (c :: fmt, zeropad)

/-- `Repeat_Length`. -/
def lengthLoop : List UInt8 → Int → Except Fault (List UInt8 × Int)
  | [], _ => .error .badAccess
  | c :: fmt, length =>
    if 48 ≤ c ∧ c ≤ 57 then do
      let n ← int (length * 10 + (c.toNat - 48 : Int))
      lengthLoop fmt n
    else .ok (c :: fmt, length)

/-- The words that `va_arg` reads, and the strings in memory. -/
structure Args where
  word : Nat → UInt32
  mem : UInt32 → Option CStr

/-- The case `'s'`. -/
def putString (mem : UInt32 → Option CStr) (str : List UInt8) (p : UInt32) (zeropad : Bool)
    (length : Int) : Except Fault (List UInt8) :=
  match mem p with
  | none => .error .badAccess
  | some s =>
    .ok (str ++ s.bytes ++
      List.replicate (length - s.length).toNat (if zeropad then 48 else 32))

/-- One conversion, with `*fmt` the type. -/
def convert (args : Args) (str : List UInt8) (w : UInt32) (type : UInt8) (zeropad : Bool)
    (length : Int) : Except Fault (List UInt8) :=
  if type = 115 then putString args.mem str w zeropad length
  else if type = 99 then .ok (str ++ [w.toUInt8])
  else number str w.toNat (if type = 120 then 16 else 10) zeropad (decide (type = 100)) length

/-- The loop of `vsprintf`, with `k` arguments already read. -/
def formatLoop (args : Args) : Nat → List UInt8 → Nat → List UInt8 → Except Fault (List UInt8)
  | 0, _, _, _ => .error .diverges
  | fuel + 1, fmt, k, str => do
    let c ← fetch fmt
    if c = 0 then return str
    if c ≠ 37 then formatLoop args fuel fmt.tail k (str ++ [c])
    else
      let m ← modeLoop fmt.tail false
      let l ← lengthLoop m.1 0
      let type ← fetch l.1
      let str ← convert args str (args.word k) type m.2 l.2
      formatLoop args fuel l.1.tail (k + 1) str

/-- `vsprintf`: what is written in front of the terminator, and the result. -/
def vsprintf (fmt : CStr) (args : Args) : Except Fault (List UInt8 × Nat) := do
  let str ← formatLoop args (fmt.length + 2) (fmt.bytes ++ [0]) 0 []
  return (str, str.length)

end OsWorkbench.Klib
