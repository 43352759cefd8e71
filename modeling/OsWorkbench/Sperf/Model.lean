import OsWorkbench.Lib.CString
import OsWorkbench.Basic

/-!
# The profile of system calls

The model of the list in `sperf/sperf.c`: a pool of nodes, two more nodes at the ends, and
one node for each name, with the time spent under it. Times are taken in an ordered group
in place of `double`. What `syscall_print` shows is left out; it changes nothing.
-/

namespace OsWorkbench.Sperf

/-- `POOL_SIZE`. -/
def poolSize : Nat := 1024

/-- The size of the field `name`. -/
def nameLength : Nat := 1024

/-- The values of a `size_t`. -/
@[irreducible] def sizeMax : Nat := 2 ^ 64

/-- A `list_node *`. `head` and `tail` are `&special[0]` and `&special[1]`. -/
inductive Ptr
  | null
  | head
  | tail
  | pool (i : Nat)
  deriving DecidableEq, Repr

/-- A pointer to a node. -/
def Ptr.Valid : Ptr → Prop
  | .null => False
  | .pool i => i < poolSize
  | _ => True

instance : (p : Ptr) → Decidable p.Valid
  | .null => .isFalse id
  | .head => .isTrue trivial
  | .tail => .isTrue trivial
  | .pool i => inferInstanceAs (Decidable (i < poolSize))

structure ListNode (K : Type) where
  id : Nat
  name : CStr
  time : K
  prev : Ptr
  next : Ptr

/-! ## Assignments -/

section Assign

variable {K : Type}

def setPrev (q : Ptr) (n : ListNode K) : ListNode K := { n with prev := q }

def setNext (q : Ptr) (n : ListNode K) : ListNode K := { n with next := q }

def setId (id : Nat) (n : ListNode K) : ListNode K := { n with id := id }

def setName (name : CStr) (n : ListNode K) : ListNode K := { n with name := name }

def setTime (time : K) (n : ListNode K) : ListNode K := { n with time := time }

def addTime [Add K] (time : K) (n : ListNode K) : ListNode K := { n with time := n.time + time }

end Assign

/-- The nodes and the list `syscall`. -/
structure State (K : Type) where
  node : Ptr → ListNode K
  listSize : Nat
  totalTime : K

variable {K : Type}

namespace State

def load (s : State K) (p : Ptr) : Except Fault (ListNode K) := do
  inBounds p.Valid
  return s.node p

/-- An assignment to fields of `*p`. -/
def store (s : State K) (p : Ptr) (f : ListNode K → ListNode K) : Except Fault (State K) := do
  inBounds p.Valid
  return { s with node := Function.update s.node p (f (s.node p)) }

end State

/-! ## The list -/

/-- `syscall_check`: the loop, with the count so far. -/
def checkFrom (s : State K) : Nat → Ptr → Nat → Except Fault Nat
  | 0, _, _ => .error .diverges
  | fuel + 1, node, cnt =>
    if node = .tail then .ok cnt
    else do
      let n ← s.load node
      let next ← s.load n.next
      check (next.prev = node)
      let prev ← s.load n.prev
      check (prev.next = node)
      checkFrom s fuel n.next (cnt + 1)

def syscallCheck (s : State K) : Except Fault Unit := do
  let head ← s.load .head
  let cnt ← checkFrom s (poolSize + 1) head.next 0
  check (cnt = s.listSize)

variable [LinearOrder K]

def syscallCmp (s : State K) (a b : Ptr) : Except Fault Bool :=
  if a = .head ∨ b = .tail then .ok true
  else do
    check (a ≠ .tail)
    check (b ≠ .head)
    let a ← s.load a
    let b ← s.load b
    return decide (a.time ≥ b.time)

/-- The loop of `syscall_insert_do`: `temp` at its end. -/
def findPlace (s : State K) (node : Ptr) : Nat → Ptr → Except Fault Ptr
  | 0, _ => .error .diverges
  | fuel + 1, temp => do
    let left ← syscallCmp s temp node
    let t ← s.load temp
    let both ← if left then syscallCmp s node t.next else .ok false
    if both then return temp else findPlace s node fuel t.next

variable [AddCommGroup K]

/-- At the start, whatever is in the nodes. -/
def syscallInit (node : Ptr → ListNode K) : State K where
  node := Function.update
    (Function.update node .head { node .head with prev := .null, next := .tail })
    .tail { node .tail with prev := .head, next := .null }
  listSize := 0
  totalTime := 0

def insertDo (s : State K) (node : Ptr) : Except Fault (State K) := do
  check (node ≠ .tail)
  let temp ← findPlace s node (poolSize + 1) .head
  check (temp ≠ .tail)
  let s ← s.store node (setPrev temp)
  let t ← s.load temp
  let s ← s.store node (setNext t.next)
  let t ← s.load temp
  let s ← s.store t.next (setPrev node)
  let s ← s.store temp (setNext node)
  let n ← s.load node
  let s := { s with
    listSize := (s.listSize + 1) % sizeMax
    totalTime := s.totalTime + n.time }
  syscallCheck s
  return s

def deleteDo (s : State K) (node : Ptr) : Except Fault (State K) := do
  let n ← s.load node
  let s ← s.store n.prev (setNext n.next)
  let n ← s.load node
  let s ← s.store n.next (setPrev n.prev)
  let s ← s.store node (setPrev .null)
  let s ← s.store node (setNext .null)
  let n ← s.load node
  let s := { s with
    listSize := (s.listSize + sizeMax - 1) % sizeMax
    totalTime := s.totalTime - n.time }
  syscallCheck s
  return s

/-- The loop of `syscall_insert`: the node of the name, or the tail. -/
def findName (s : State K) (name : CStr) : Nat → Ptr → Except Fault Ptr
  | 0, _ => .error .diverges
  | fuel + 1, node =>
    if node = .tail then .ok node
    else do
      let n ← s.load node
      if name ≠ n.name then findName s name fuel n.next else return node

/-- What `syscall_insert` writes into the node of a new name. -/
def newNode (s : State K) (index : Nat) (name : CStr) (time : K) : Except Fault (State K) := do
  let s ← s.store (.pool index) (setId index)
  inBounds (name.length < nameLength)
  let s ← s.store (.pool index) (setName name)
  s.store (.pool index) (setTime time)

/-- The two branches of `syscall_insert`, for the node that the loop found. -/
def record (s : State K) (node : Ptr) (name : CStr) (time : K) : Except Fault (State K) :=
  if node ≠ .tail then do
    let n ← s.load node
    check (name = n.name)
    let s ← deleteDo s node
    let s ← s.store node (addTime time)
    insertDo s node
  else do
    let index := s.listSize
    let s ← newNode s index name time
    insertDo s (.pool index)

def syscallInsert (s : State K) (name : CStr) (time : K) : Except Fault (State K) := do
  let head ← s.load .head
  let node ← findName s name (poolSize + 1) head.next
  let s ← record s node name time
  syscallCheck s
  return s

end OsWorkbench.Sperf
