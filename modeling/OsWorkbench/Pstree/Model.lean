import OsWorkbench.Basic
import OsWorkbench.Lib.CString

/-!
# `pstree`

The model of `pstree/pstree.c`: the lists of the children of each process, which
`insert_node` builds in nodes from `malloc`, and `dfs_print_tree`, which prints them.
Addresses are natural numbers, `NULL` is 0, and `malloc` never fails and leaves in a node
what was there before. What is read from `/proc` is the sequence of the records that are
inserted, and what is printed is a list of characters.
-/

namespace OsWorkbench.Pstree

/-- The elements of `Tree`. -/
def treeLength : Nat := 2 ^ 15

/-- The size of `child_name`. -/
def nameLength : Nat := 64

/-- The elements of `dfs_mem` and of `len_mem`. -/
def memLength : Nat := 64

structure ListNode where
  childPid : Int
  childName : CStr
  next : Nat

/-- `struct list`. -/
structure PList where
  head : Nat
  tail : Nat

/-- The nodes, the address that `malloc` returns next, and `Tree`. -/
structure State where
  node : Nat → ListNode
  brk : Nat
  tree : Nat → PList

/-- At the start, whatever is in the memory that `malloc` will return. -/
def State.init (node : Nat → ListNode) : State where
  node := node
  brk := 1
  tree := fun _ => ⟨0, 0⟩

namespace State

/-- `*p`. -/
def get (s : State) (p : Nat) : Except Fault ListNode := do
  inBounds (0 < p ∧ p < s.brk)
  return s.node p

/-- An assignment to fields of `*p`. -/
def modify (s : State) (p : Nat) (f : ListNode → ListNode) : Except Fault State := do
  inBounds (0 < p ∧ p < s.brk)
  return { s with node := Function.update s.node p (f (s.node p)) }

end State

def malloc (s : State) : Nat × State := (s.brk, { s with brk := s.brk + 1 })

/-! ## Inserting -/

/-- The comparison that `insert_node` is given. -/
abbrev Guard := State → Nat → Nat → Nat → Nat → Except Fault Bool

def guardCmp1 : Guard := fun s p q head tail =>
  if p = head ∨ q = tail then .ok false
  else do
    let a ← s.get p
    let b ← s.get q
    return decide (a.childPid > b.childPid)

def initNode (s : State) (newNode : Nat) (pid : Int) (name : CStr) : Except Fault State := do
  let s ← s.modify newNode fun n => { n with childPid := pid }
  inBounds (name.length < nameLength)
  s.modify newNode fun n => { n with childName := name }

def insertNodeDo (s : State) (prev mid succ : Nat) : Except Fault State := do
  let s ← s.modify prev fun n => { n with next := mid }
  s.modify mid fun n => { n with next := succ }

/-- The loop of `insert_node`: `p` and `p2` at its end. -/
def findPlace (cmp : Guard) (s : State) (newNode : Nat) (l : PList) :
    Nat → Nat → Nat → Except Fault (Nat × Nat)
  | 0, _, _ => .error .diverges
  | fuel + 1, p, p2 =>
    if p2 = l.tail then .ok (p, p2)
    else do
      let c ← cmp s newNode p2 l.head l.tail
      if c then
        let a ← s.get p
        let b ← s.get p2
        findPlace cmp s newNode l fuel a.next b.next
      else return (p, p2)

/-- The list of the parent gets its two ends. -/
def addEnds (s : State) (ppid : Nat) : Except Fault State :=
  if (s.tree ppid).head = 0 ∧ (s.tree ppid).tail = 0 then
    let (head, s) := malloc s
    let (tail, s) := malloc s
    { s with tree := Function.update s.tree ppid ⟨head, tail⟩ }.modify head fun n =>
      { n with next := tail }
  else .ok s

def insertNode (cmp : Guard) (s : State) (ppid pid : Int) (name : CStr) : Except Fault State := do
  let i ← index ppid treeLength
  let s ← addEnds s i
  let (newNode, s) := malloc s
  let s ← initNode s newNode pid name
  let p ← s.get (s.tree i).head
  let (p, p2) ← findPlace cmp s newNode (s.tree i) s.brk (s.tree i).head p.next
  insertNodeDo s p newNode p2

/-! ## Printing -/

/-- `dfs_mem`, `len_mem` and what was printed. -/
structure Printer where
  dfsMem : Nat → Nat
  lenMem : Nat → Nat
  out : List Char

def Printer.init : Printer := ⟨fun _ => 0, fun _ => 0, []⟩

def Printer.print (pr : Printer) (cs : List Char) : Printer := { pr with out := pr.out ++ cs }

def chars (name : CStr) : List Char := name.bytes.map fun b => Char.ofNat b.toNat

/-- `"-%s(%d)"` or `"-%s"`. -/
def label (showPids : Bool) (name : CStr) (pid : Int) : List Char :=
  if showPids then '-' :: chars name ++ '(' :: (toString pid).toList ++ [')'] else '-' :: chars name

/-- The character in column `j` of level `i`. -/
def column (pr : Printer) (maxValid : Nat) (last : Bool) (i j : Nat) : Char :=
  if pr.dfsMem i ≠ 0 ∧ j = pr.lenMem i - 1 then if last && i == maxValid then '`' else '|' else ' '

/-- The two loops that start a line in front of a child, which may be the `last` one. -/
def startLine (pr : Printer) (maxValid : Nat) (last : Bool) : Printer :=
  pr.print ('\n' :: (List.range (maxValid + 1)).flatMap fun i =>
    (List.range (pr.lenMem i)).map fun j => column pr maxValid last i j)

/-- `dfs_mem` and `max_valid` before a child is printed, and whether another one follows. -/
def enterChild (pr : Printer) (depth : Nat) (more : Bool) : Printer × Nat :=
  if more then ({ pr with dfsMem := Function.update pr.dfsMem depth 1 }, depth)
  else
    let pr := { pr with dfsMem := Function.update pr.dfsMem depth 0 }
    (pr, (List.range depth).foldl (fun maxValid i => if pr.dfsMem depth ≠ 0 then i else maxValid) 0)

/-- The loop of `dfs_print_tree` over the children from `x` on; `visit` prints one of them. -/
def printChildren (s : State) (visit : ListNode → Nat → Printer → Except Fault Printer)
    (tail depth : Nat) : Nat → Nat → Printer → Except Fault Printer
  | 0, _, _ => .error .diverges
  | fuel + 1, x, pr =>
    if x = tail then .ok pr
    else do
      let n ← s.get x
      let more := decide (n.next ≠ tail)
      let (pr, maxValid) := enterChild pr depth more
      let pr ← visit n maxValid pr
      if more then
        let n' ← s.get n.next
        printChildren s visit tail depth fuel n.next
          (startLine pr maxValid (decide (n'.next = tail)))
      else printChildren s visit tail depth fuel n.next pr

/-- Every call is one level deeper, and there are `memLength` levels. The `max_valid` that a
call is given is assigned before it is read. -/
def dfsPrintTree (s : State) (showPids : Bool) :
    Nat → Int → CStr → Nat → Nat → Printer → Except Fault Printer
  | 0, _, _, _, _, _ => .error .diverges
  | fuel + 1, root, name, depth, _, pr => do
    inBounds (depth < memLength)
    let cs := label showPids name root
    let pr := { pr.print cs with lenMem := Function.update pr.lenMem depth cs.length }
    let r ← index root treeLength
    if (s.tree r).head = 0 then return pr
    let h ← s.get (s.tree r).head
    printChildren s (fun n maxValid pr =>
      dfsPrintTree s showPids fuel n.childPid n.childName (depth + 1) maxValid pr)
      (s.tree r).tail depth s.brk h.next pr

/-- The loop of `print_tree` that looks for the process 1. -/
def findInit (s : State) (tail : Nat) : Nat → Nat → Except Fault Nat
  | 0, _ => .error .diverges
  | fuel + 1, x =>
    if x = tail then .ok x
    else do
      let n ← s.get x
      if n.childPid = 1 then return x
      findInit s tail fuel n.next

/-- `print_tree` without its first line and the last line break. -/
def printTree (s : State) (showPids : Bool) : Except Fault Printer := do
  let h ← s.get (s.tree 0).head
  let x ← findInit s (s.tree 0).tail s.brk h.next
  let n ← s.get x
  check (n.childPid = 1)
  dfsPrintTree s showPids (memLength + 1) 1 n.childName 0 0 .init

end OsWorkbench.Pstree
