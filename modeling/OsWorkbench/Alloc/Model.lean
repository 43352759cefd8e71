import OsWorkbench.Basic

/-!
# The physical memory allocator

The model of `kernel/src/alloc.c`: a pool of block descriptors, the free list
threaded through it, and the entry points `pmm_init`, `kalloc` and `kfree`. The
lock `memoplk` is held over each entry point, so an entry point is one step.

Loops over the free list get one unit of fuel per descriptor and one for the
tail; a list that reaches its tail never needs more. The doubling loop of
`free_find` gets one unit per bit of a machine word.
-/

namespace OsWorkbench.Alloc

def poolSize : Nat := 4096

inductive BlockState
  | unused
  | unallocated
  | allocated
  deriving DecidableEq, Repr

/-- A `mem_block_t *`. `head` and `tail` are `&special[0]` and `&special[1]`,
where `free.head` and `free.tail` point from `free_init` on. -/
inductive Ptr
  | null
  | head
  | tail
  | pool (i : Nat)
  deriving DecidableEq, Repr

/-- `mem_block_t`, with `begin` and `end` renamed. -/
structure MemBlock where
  id : Nat
  state : BlockState
  size : Nat
  beginAddr : Nat
  endAddr : Nat
  prev : Ptr
  next : Ptr
  deriving DecidableEq, Repr

/-- The globals of the allocator, and the two counters of `procfs.c` it updates. -/
structure Pmm where
  blk : Ptr → MemBlock
  listSize : Nat
  pmStart : Nat
  pmEnd : Nat
  memTotal : Nat
  memUsed : Nat

/-- Reading `*p`. -/
def Pmm.load (s : Pmm) (p : Ptr) : Except Fault MemBlock :=
  if p = .null then .error .badAccess else .ok (s.blk p)

/-- Writing fields of `*p`. -/
def Pmm.store (s : Pmm) (p : Ptr) (f : MemBlock → MemBlock) : Except Fault Pmm :=
  if p = .null then .error .badAccess
  else .ok { s with blk := Function.update s.blk p (f (s.blk p)) }

/-! ## The pool -/

/-- The scan `for (i = 0; i < POOL_SIZE; i++)` for the first descriptor that
satisfies `p`, and the assertion that there is one. -/
def findBlock (s : Pmm) (p : MemBlock → Bool) : Except Fault Nat :=
  match (List.range' 0 poolSize).find? fun i => p (s.blk (.pool i)) with
  | some i => .ok i
  | none => .error .assertion

def getUnusedBlock (s : Pmm) : Except Fault Nat :=
  findBlock s fun b => b.state == .unused

def findAllocatedBlock (s : Pmm) (beginAddr : Nat) : Except Fault Nat :=
  findBlock s fun b => b.state == .allocated && b.beginAddr == beginAddr

/-! ## The free list -/

def freeInit (s : Pmm) (beginAddr endAddr : Nat) : Pmm :=
  { s with
    blk := fun p =>
      match p with
      | .null => s.blk .null
      | .head => { s.blk .head with prev := .null, next := .pool 0 }
      | .tail => { s.blk .tail with prev := .pool 0, next := .null }
      | .pool i =>
        if i = 0 then
          { id := 0, state := .unallocated, size := sub32 endAddr beginAddr,
            beginAddr := beginAddr, endAddr := endAddr, prev := .head, next := .tail }
        else if i < poolSize then { s.blk (.pool i) with id := i, state := .unused }
        else s.blk (.pool i)
    listSize := 1 }

def listFuel : Nat := poolSize + 1

def freeCheckLoop (s : Pmm) : Nat → Ptr → Nat → Except Fault Nat
  | 0, _, _ => .error .diverges
  | fuel + 1, block, cnt =>
    if block = .tail then .ok cnt
    else do
      let b ← s.load block
      check ((← s.load b.next).prev = block)
      check ((← s.load b.prev).next = block)
      freeCheckLoop s fuel b.next (cnt + 1)

def freeCheck (s : Pmm) : Except Fault Unit := do
  let head ← s.load .head
  let cnt ← freeCheckLoop s listFuel head.next 0
  check (cnt = s.listSize)

def freeCut (s : Pmm) (block : Ptr) (size : Nat) : Except Fault Pmm := do
  let newid ← getUnusedBlock s
  let newblock := Ptr.pool newid
  let b ← s.load block
  check (b.state = .unallocated)
  check ((s.blk newblock).id = newid)
  check ((s.blk newblock).state = .unused)
  let s ← s.store newblock fun n => { n with prev := block, next := b.next }
  let s ← s.store b.next fun n => { n with prev := newblock }
  let s ← s.store block fun n => { n with next := newblock }
  let b ← s.load block
  let s ← s.store newblock fun n =>
    { n with beginAddr := add32 b.beginAddr size, endAddr := b.endAddr, size := sub32 b.size size }
  let s ← s.store block fun n => { n with endAddr := add32 b.beginAddr size, size := size }
  let s ← s.store newblock fun n => { n with state := .unallocated }
  return { s with listSize := s.listSize + 1 }

def freeAdjcent (s : Pmm) (p q : Ptr) : Except Fault Bool :=
  if p = .head ∨ q = .tail then .ok false
  else do
    check (p ≠ .tail)
    check (q ≠ .head)
    return (← s.load p).endAddr == (← s.load q).beginAddr

def freeMerge (s : Pmm) (former latter : Ptr) : Except Fault Pmm := do
  check ((← freeAdjcent s former latter) = true)
  check (former ≠ .head)
  check (latter ≠ .tail)
  check ((← s.load former).state = .unallocated)
  let l ← s.load latter
  check (l.state = .unallocated)
  -- delete latter
  let s ← s.store former fun b => { b with next := l.next }
  let s ← s.store l.next fun b => { b with prev := former }
  let s ← s.store latter fun b => { b with prev := .null, next := .null }
  -- resize the former
  let f ← s.load former
  let l ← s.load latter
  check (sub32 l.endAddr f.beginAddr = add32 f.size l.size)
  let s ← s.store former fun b =>
    { b with endAddr := l.endAddr, size := sub32 l.endAddr f.beginAddr }
  -- set the latter UNUSED
  let s ← s.store latter fun b => { b with state := .unused }
  let s := { s with listSize := s.listSize - 1 }
  freeCheck s
  return s

def freeCmp (s : Pmm) (p q : Ptr) : Except Fault Bool :=
  if p = .head ∨ q = .tail then .ok true
  else do
    check (p ≠ .tail)
    check (q ≠ .head)
    let p ← s.load p
    let q ← s.load q
    check (p.beginAddr ≠ q.beginAddr)
    return decide (p.beginAddr < q.beginAddr)

/-- `free_cmp(former, block) && free_cmp(block, latter)`. -/
def freeFits (s : Pmm) (former block latter : Ptr) : Except Fault Bool := do
  if ← freeCmp s former block then freeCmp s block latter else return false

def freeInsertLoop (s : Pmm) (block : Ptr) : Nat → Ptr → Ptr → Except Fault (Ptr × Ptr)
  | 0, _, _ => .error .diverges
  | fuel + 1, former, latter => do
    if ← freeFits s former block latter then return (former, latter)
    else
      check (latter ≠ .tail)
      freeInsertLoop s block fuel (← s.load former).next (← s.load latter).next

/-- The linking part of `free_insert`. -/
def freeLink (s : Pmm) (former block latter : Ptr) : Except Fault Pmm := do
  let s ← s.store block fun b => { b with prev := former, next := latter }
  let s ← s.store former fun b => { b with next := block }
  let s ← s.store latter fun b => { b with prev := block }
  let s ← s.store block fun b => { b with state := .unallocated }
  return { s with listSize := s.listSize + 1 }

/-- `if (free_adjcent(p, q)) free_merge(p, q)`. -/
def freeTryMerge (s : Pmm) (p q : Ptr) : Except Fault Pmm := do
  if ← freeAdjcent s p q then freeMerge s p q else return s

def freeInsert (s : Pmm) (block : Ptr) : Except Fault Pmm := do
  check ((← s.load block).state = .allocated)
  let (former, latter) ← freeInsertLoop s block listFuel .head (← s.load .head).next
  check ((← freeFits s former block latter) = true)
  let s ← freeLink s former block latter
  -- don't change their order
  let s ← freeTryMerge s block latter
  let s ← freeTryMerge s former block
  freeCheck s
  return s

def freeDelete (s : Pmm) (block : Ptr) : Except Fault Pmm := do
  check (block ≠ .head)
  check (block ≠ .tail)
  let b ← s.load block
  check (b.state = .unallocated)
  let s ← s.store b.prev fun n => { n with next := b.next }
  let s ← s.store b.next fun n => { n with prev := b.prev }
  let s ← s.store block fun n => { n with prev := .null, next := .null, state := .allocated }
  return { s with listSize := s.listSize - 1 }

/-- `while (newsz < size) newsz <<= 1`. -/
def newszLoop (size : Nat) : Nat → Nat → Except Fault Nat
  | 0, _ => .error .diverges
  | fuel + 1, newsz =>
    if newsz < size then newszLoop size fuel (newsz * 2 % 2 ^ 32) else .ok newsz

def freeFindLoop (s : Pmm) (newsz : Nat) : Nat → Ptr → Except Fault Ptr
  | 0, _ => .error .diverges
  | fuel + 1, block =>
    if block = .tail then .ok block
    else do
      let b ← s.load block
      if b.size < newsz then
        check (b.state = .unallocated)
        freeFindLoop s newsz fuel b.next
      else return block

def freeFind (s : Pmm) (size : Nat) : Except Fault (Ptr × Pmm) := do
  let newsz ← newszLoop size 32 1024
  let block ← freeFindLoop s newsz listFuel (← s.load .head).next
  check (block ≠ .tail)
  let b ← s.load block
  check (newsz ≤ b.size)
  let s ← if 2 * newsz % 2 ^ 32 ≤ b.size then freeCut s block newsz else pure s
  let s ← freeDelete s block
  return (block, s)

/-! ## Entry points -/

/-- `procfs_mem_trace(size, 0)` and `procfs_mem_trace(size, 1)`. -/
def memTracePlus (s : Pmm) (size : Nat) : Pmm :=
  { s with memUsed := (s.memUsed + size) % 2 ^ 64 }

def memTraceMinus (s : Pmm) (size : Nat) : Pmm :=
  { s with memUsed := (s.memUsed + 2 ^ 64 - size) % 2 ^ 64 }

/-- `pmm_init`, with `_heap = RANGE(heapStart, heapEnd)`. -/
def pmmInit (s : Pmm) (heapStart heapEnd : Nat) : Pmm :=
  freeInit { s with pmStart := heapStart, pmEnd := heapEnd, memTotal := sub32 heapEnd heapStart }
    heapStart heapEnd

/-- The returned address is `0` for `NULL`. -/
def kalloc (s : Pmm) (size : Nat) : Except Fault (Nat × Pmm) :=
  if size = 0 then .ok (0, s)
  else do
    let (block, s) ← freeFind s size
    let b ← s.load block
    let s := memTracePlus s b.size
    freeCheck s
    check (b.beginAddr ≠ 0)
    return (b.beginAddr, s)

def kfree (s : Pmm) (ptr : Nat) : Except Fault Pmm := do
  let idx ← findAllocatedBlock s ptr
  let s := memTraceMinus s (s.blk (.pool idx)).size
  freeInsert s (.pool idx)

/-- A call of the allocator's interface. -/
inductive Op
  | init
  | alloc (size : Nat)
  | free (ptr : Nat)
  deriving DecidableEq, Repr

/-- One call, on a machine whose heap is `[heapStart, heapEnd)`. -/
def step (heapStart heapEnd : Nat) (s : Pmm) : Op → Except Fault Pmm
  | .init => .ok (pmmInit s heapStart heapEnd)
  | .alloc size => do
    let (_, s) ← kalloc s size
    return s
  | .free ptr => kfree s ptr

/-! ## Reading the state -/

def freeWalk (s : Pmm) : Nat → Ptr → List Nat
  | fuel + 1, .pool i => i :: freeWalk s fuel (s.blk (.pool i)).next
  | _, _ => []

/-- The pool indices met when walking `next` from `free.head`. -/
def freeNodes (s : Pmm) : List Nat := freeWalk s listFuel (s.blk .head).next

/-- The interval `[begin, end)` of a descriptor. -/
def interval (s : Pmm) (i : Nat) : Nat × Nat :=
  ((s.blk (.pool i)).beginAddr, (s.blk (.pool i)).endAddr)

/-- The intervals of the free list, in list order. -/
def freeIntervals (s : Pmm) : List (Nat × Nat) := (freeNodes s).map (interval s)

end OsWorkbench.Alloc
