import OsWorkbench.Basic

/-!
# Address spaces

The model of `abstract-machine/am/src/x86/qemu/vme.c`: the page tables of the kernel and of
the protected address spaces. Memory holds words of 32 bits at the addresses that are a
multiple of four, and the pointers to page tables are the physical addresses of pages. The
functions `pgalloc_usr` and `pgfree_usr`, which the caller of `vme_init` hands over, are
parameters; they keep their books outside of the pages they have given away. The context
of a user process and the registers that `percpu_initpg` sets are left out.

`translate` is not in the source: it is how the processor walks through the tables.
-/

namespace OsWorkbench.Vme

def pgSize : Nat := 4096

/-- The number of entries of a page directory and of a page table. -/
def nrEntries : Nat := 1024

def pteP : Nat := 1
def pteW : Nat := 2
def pteU : Nat := 4

def protNone : Nat := 1
def protWrite : Nat := 4

def pdx (va : Nat) : Nat := va / 2 ^ 22 % 1024

def ptx (va : Nat) : Nat := va / 2 ^ 12 % 1024

/-- `pte & ~0xfff`. -/
def pteAddr (pte : Nat) : Nat := pte / pgSize * pgSize

/-- The address of entry `i` of the table at `page`. -/
def entry (page i : Nat) : Nat := page + 4 * i

/-! ## Memory -/

abbrev Mem := Nat → Nat

/-- `pgalloc_usr` and `pgfree_usr`, over what they keep in `σ`. -/
structure Allocator (σ : Type) where
  pgalloc : σ → Option (Nat × σ)
  pgfree : Nat → σ → σ

/-- `_Area`. -/
structure Area where
  start : Nat
  stop : Nat
  deriving DecidableEq, Repr

def Area.Contains (a : Area) (ptr : Nat) : Prop := a.start ≤ ptr ∧ ptr < a.stop

instance (a : Area) (ptr : Nat) : Decidable (a.Contains ptr) :=
  inferInstanceAs (Decidable (_ ∧ _))

def kernelArea : Area := ⟨0, 0x20000000⟩
def uvmArea : Area := ⟨0x40000000, 0x80000000⟩
def mmapArea : Area := ⟨0xf0000000, 0⟩

/-- `struct vm_area`. -/
structure VmArea where
  area : Area
  physical : Bool

def areas : List VmArea := [⟨kernelArea, true⟩, ⟨uvmArea, false⟩, ⟨mmapArea, true⟩]

/-- `_AddressSpace`. -/
structure AddressSpace where
  pgsize : Nat
  area : Area
  ptr : Nat
  deriving DecidableEq, Repr

/-- What the functions work on: the memory, the books of the allocator, and `kpt`. -/
structure State (σ : Type) where
  mem : Mem
  heap : σ
  kpt : Nat

variable {σ : Type}

def State.write (s : State σ) (a v : Nat) : State σ := { s with mem := Function.update s.mem a v }

@[irreducible] def zeroPage (page : Nat) (mem : Mem) : Mem :=
  (List.range nrEntries).foldl (fun mem i => Function.update mem (entry page i) 0) mem

def pgalloc (A : Allocator σ) (s : State σ) : Except Fault (Nat × State σ) :=
  match A.pgalloc s.heap with
  | none => .error .exit
  | some (ret, heap) => .ok (ret, { s with mem := zeroPage ret s.mem, heap := heap })

def pgfree (A : Allocator σ) (ptr : Nat) (s : State σ) : State σ :=
  { s with heap := A.pgfree ptr s.heap }

/-! ## The tables of the kernel -/

/-- The body of the inner loop of `vme_init`. -/
def mapPhysical (A : Allocator σ) (pa : Nat) (s : State σ) : Except Fault (State σ) := do
  let pde := s.mem (entry s.kpt (pdx pa))
  if pde &&& pteP = 0 then
    let r ← pgalloc A s
    let s := r.2.write (entry r.2.kpt (pdx pa)) (pteP ||| pteW ||| r.1)
    return s.write (entry r.1 (ptx pa)) (pteP ||| pteW ||| pa)
  else
    return s.write (entry (pteAddr pde) (ptx pa)) (pteP ||| pteW ||| pa)

/-- The inner loop of `vme_init`, with the iterations that are left. -/
def mapPhysicalLoop (A : Allocator σ) (stop : Nat) : Nat → Nat → State σ → Except Fault (State σ)
  | 0, _, _ => .error .diverges
  | n + 1, pa, s =>
    if pa = stop then .ok s
    else mapPhysical A pa s >>= mapPhysicalLoop A stop n (add32 pa pgSize)

/-- More than the number of pages that there are. -/
@[irreducible] def loopBound : Nat := 2 ^ 20 + 1

def mapAreas (A : Allocator σ) : List VmArea → State σ → Except Fault (State σ)
  | [], s => .ok s
  | seg :: rest, s => do
    let s ← if seg.physical then mapPhysicalLoop A seg.area.stop loopBound seg.area.start s
      else .ok s
    mapAreas A rest s

/-- `vme_init` on memory with the contents `mem`. -/
def vmeInit (A : Allocator σ) (mem : Mem) (heap : σ) : Except Fault (State σ) := do
  let r ← pgalloc A ⟨mem, heap, 0⟩
  mapAreas A areas { r.2 with kpt := r.1 }

/-! ## Protected address spaces -/

/-- The loop of `protect`. -/
@[irreducible] def copyPage (src dst : Nat) (mem : Mem) : Mem :=
  (List.range nrEntries).foldl
    (fun mem i => Function.update mem (entry dst i) (mem (entry src i))) mem

def protect (A : Allocator σ) (s : State σ) : Except Fault (AddressSpace × State σ) := do
  let r ← pgalloc A s
  let s := { r.2 with mem := copyPage r.2.kpt r.1 r.2.mem }
  return (⟨pgSize, uvmArea, r.1⟩, s)

/-- The loop of `unprotect` over the `n` directory entries from `d` on. -/
def freeTables (A : Allocator σ) (upt : Nat) : Nat → Nat → State σ → State σ
  | 0, _, s => s
  | n + 1, va, s =>
    let pde := s.mem (entry upt (pdx va))
    let s := if pde &&& pteP = 0 then s else pgfree A (pteAddr pde) s
    freeTables A upt n (va + 2 ^ 22) s

def unprotect (A : Allocator σ) (p : AddressSpace) (s : State σ) : State σ :=
  pgfree A p.ptr (freeTables A p.ptr ((uvmArea.stop - uvmArea.start) / 2 ^ 22) uvmArea.start s)

/-- The entry of the page directory for `va`, with a new table where there was none. -/
def preparePde (A : Allocator σ) (upt va : Nat) (s : State σ) : Except Fault (State σ) := do
  if s.mem (entry upt (pdx va)) &&& pteP = 0 then
    let r ← pgalloc A s
    return r.2.write (entry upt (pdx va)) (pteP ||| pteW ||| pteU ||| r.1)
  else
    return s

/-- `map`: the result is 0, or 1 for an address outside of the area. -/
def map (A : Allocator σ) (p : AddressSpace) (va pa prot : Nat) (s : State σ) :
    Except Fault (Nat × State σ) := do
  if prot &&& protNone ≠ 0 ∧ prot ≠ protNone then .error .exit
  if va ≠ va / pgSize * pgSize ∨ pa ≠ pa / pgSize * pgSize then .error .exit
  if ¬uvmArea.Contains va then return (1, s)
  let s ← preparePde A p.ptr va s
  let pte := entry (pteAddr (s.mem (entry p.ptr (pdx va)))) (ptx va)
  if prot &&& protNone ≠ 0 then
    return (0, s.write pte 0)
  else
    return (0, s.write pte (pteP ||| (if prot &&& protWrite ≠ 0 then pteW else 0) ||| pteU ||| pa))

/-! ## What the processor sees -/

/-- Where an address leads, and who may do what there. -/
structure Access where
  pa : Nat
  writable : Bool
  user : Bool
  deriving DecidableEq, Repr

/-- The walk through the tables of the directory in `cr3`. -/
def translate (mem : Mem) (cr3 va : Nat) : Option Access :=
  let pde := mem (entry (pteAddr cr3) (pdx va))
  let pte := mem (entry (pteAddr pde) (ptx va))
  if pde &&& pteP = 0 ∨ pte &&& pteP = 0 then none
  else some ⟨pteAddr pte + va % pgSize, pde &&& pte &&& pteW ≠ 0, pde &&& pte &&& pteU ≠ 0⟩

/-! ## Runs -/

/-- A page that was mapped. -/
structure Frame where
  pa : Nat
  writable : Bool
  deriving DecidableEq, Repr

/-- The state, the address spaces in use, and for the directory and the number of a page
what `map` was last told about it. -/
structure World (σ : Type) where
  state : State σ
  live : List AddressSpace
  mapping : Nat → Nat → Option Frame

def World.start (s : State σ) : World σ := ⟨s, [], fun _ _ => none⟩

inductive Call
  | protect
  | map (p : AddressSpace) (va pa prot : Nat)
  | unprotect (p : AddressSpace)

/-- The address space that a call is about. -/
def Call.space : Call → Option AddressSpace
  | .protect => none
  | .map p _ _ _ => some p
  | .unprotect p => some p

/-- What the caller owes: words of 32 bits, and address spaces that are in use. -/
def Call.Proper (w : World σ) : Call → Prop
  | .protect => True
  | .map p va pa _ => p ∈ w.live ∧ va < 2 ^ 32 ∧ pa < 2 ^ 32
  | .unprotect p => p ∈ w.live

def frameFor (pa prot : Nat) : Option Frame :=
  if prot &&& protNone ≠ 0 then none else some ⟨pa, prot &&& protWrite ≠ 0⟩

def step (A : Allocator σ) (w : World σ) : Call → Except Fault (World σ)
  | .protect => do
    let r ← protect A w.state
    return ⟨r.2, r.1 :: w.live, Function.update w.mapping r.1.ptr fun _ => none⟩
  | .map p va pa prot => do
    let r ← map A p va pa prot w.state
    return { w with
      state := r.2
      mapping := if r.1 = 0 then
          Function.update w.mapping p.ptr
            (Function.update (w.mapping p.ptr) (va / pgSize) (frameFor pa prot))
        else w.mapping }
  | .unprotect p => return { w with state := unprotect A p w.state, live := w.live.erase p }

/-- The states that calls of `protect`, `map` and `unprotect` reach from `w`. -/
inductive Reach (A : Allocator σ) (w : World σ) : World σ → Prop
  | start : Reach A w w
  | call {v v' : World σ} (c : Call) : Reach A w v → c.Proper v → step A v c = .ok v' →
      Reach A w v'

end OsWorkbench.Vme
