import OsWorkbench.Ext2.Model

/-!
# The virtual file system

The model of `kernel/src/fs/vfs.c` over the two ext2 volumes and over
`kernel/src/fs/procfs.c`. An access to `vinodes` outside of `[0, MAX_VINODE)` is a
fault. The empty path makes `lookup_auto` access the byte in front of `tmppath`,
which is a field of the state. Open files and what `printf` shows are left out.
-/

namespace OsWorkbench.Vfs

open Ext2 (has wrAble rdAble typeFile typeDir)

def maxVinode : Nat := 1024
def maxPathLength : Nat := 256
def maxNameLength : Nat := 32
def tmppathLength : Nat := 1024
def vfsRoot : Int := 0
def ext2Root : UInt32 := 1

def typeLink : UInt32 := 0x40
def mntAble : UInt32 := 0x100
def unmntAble : UInt32 := 0x200
def alloced : UInt32 := 0x8000

/-- The values of `fs_type`. -/
inductive FsType
  | vfs
  | ext2fs
  | procfs
  | tty
  deriving DecidableEq

/-- The elements of `filesys` that `vfs_init` fills. -/
inductive Filesys
  | procfs
  | ramdisk (k : Fin 2)
  deriving DecidableEq

/-- `vinode_t`. -/
structure Vinode where
  path : CStr
  name : CStr
  dot : Int
  ddot : Int
  next : Int
  child : Int
  mode : UInt32
  linkcnt : Int
  ridx : UInt32
  fsType : FsType
  fs : Option Filesys
  prevLink : Int
  nextLink : Int
  deriving DecidableEq

/-- The array `vinodes`. -/
abbrev Vinodes := Nat → Vinode

/-- The globals of `vfs.c`, the volumes, and the number of processes in `/proc`. -/
structure State where
  vinodes : Vinodes
  disks : Fin 2 → Ext2.Fs
  totalProc : Nat
  tmppath : Nat → UInt8
  /-- The byte in front of `tmppath`. -/
  before : UInt8

/-- The string at `tmppath + offset`. -/
def State.str (s : State) (offset : Nat) : CStr :=
  CStr.ofBuf (fun i => s.tmppath (offset + i)) (tmppathLength - offset)

/-! ## Vinodes -/

namespace Vinodes

/-- `vinodes[i]`. -/
def get (V : Vinodes) (i : Int) : Except Fault Vinode := do
  let n ← index i maxVinode
  return V n

/-- An assignment to fields of `vinodes[i]`. -/
def modify (V : Vinodes) (i : Int) (f : Vinode → Vinode) : Except Fault Vinodes := do
  let n ← index i maxVinode
  return Function.update V n (f (V n))

end Vinodes

def vinodesAlloc (V : Vinodes) : Int × Vinodes :=
  match (List.range maxVinode).find? fun i => (V i).mode == 0 with
  | some i => (i, Function.update V i { V i with mode := (V i).mode ||| alloced })
  | none => (-1, V)

def vinodesFree (V : Vinodes) (idx : Int) : Except Fault Vinodes :=
  V.modify idx fun v => { v with mode := 0 }

def addLink (V : Vinodes) (oidx nidx : Int) : Except Fault Vinodes := do
  let o ← V.get oidx
  let V ← V.modify nidx fun v => { v with nextLink := o.nextLink, prevLink := oidx }
  let V ← V.modify oidx fun v => { v with nextLink := nidx }
  V.modify o.nextLink fun v => { v with prevLink := nidx }

def removeLink (V : Vinodes) (idx : Int) : Except Fault Vinodes := do
  let v ← V.get idx
  let V ← V.modify v.prevLink fun p => { p with nextLink := v.nextLink }
  V.modify v.nextLink fun n => { n with prevLink := v.prevLink }

def deleteVinode (V : Vinodes) (idx : Int) : Except Fault Vinodes := do
  let V ← vinodesFree V idx
  removeLink V idx

/-- `strcpy` of `t` into an array of `n` characters. -/
def charArray (n : Nat) (t : CStr) : Except Fault CStr := do
  inBounds (t.length < n)
  return t

/-! ## Path resolution -/

/-- The character `'/'`. -/
def slash : UInt8 := 47

def firstItemLen (path : List UInt8) : Nat := (path.takeWhile fun c => c != slash).length

/-- `strncmp(name, path, len) == 0 && name[len] == '\0'`, where `path` has no
terminator in its first `len` characters. -/
def itemMatch (name : CStr) (path : List UInt8) (len : Nat) : Bool := name.bytes == path.take len

/-- The loop over the children from `k` on, up to one whose name passes the test. -/
def findChild (V : Vinodes) (test : CStr → Bool) : Nat → Int → Except Fault Int
  | 0, _ => .error .diverges
  | fuel + 1, k =>
    if k = -1 then .ok (-1)
    else do
      let v ← V.get k
      if test v.name then return k
      else findChild V test fuel v.next

/-- The loop `while (vinodes[next].mode & TYPE_LINK) next = vinodes[next].next_link`. -/
def followLink (V : Vinodes) : Nat → Int → Except Fault Int
  | 0, _ => .error .diverges
  | fuel + 1, next => do
    let v ← V.get next
    if has v.mode typeLink then followLink V fuel v.nextLink
    else return next

/-- `lookup_cur`: the flag, the vinode and the offset. Every call drops at least one
character of the path. -/
def lookupCur (V : Vinodes) : Nat → List UInt8 → Int → Nat → Except Fault (Bool × Int × Nat)
  | _, [], cur, offset => .ok (true, cur, offset)
  | 0, _ :: _, _, _ => .error .diverges
  | fuel + 1, path, cur, offset => do
    let len := firstItemLen path
    let v ← V.get cur
    let k ← findChild V (fun name => itemMatch name path len) (maxVinode + 1) v.child
    if k = -1 then return (false, cur, offset)
    let next ← followLink V maxVinode k
    let skip := len + if path[len]? = some slash then 1 else 0
    lookupCur V fuel (path.drop skip) next (offset + skip)

/-- Both calls `path[0] == '/' ? lookup_root(path, ..) : lookup_cur(path, .., VFS_ROOT, ..)`
of `lookup_auto`, with the offset set to 1. -/
def lookup (s : State) : Except Fault (Bool × Int × Nat) :=
  let path := (s.str 0).bytes
  if path.head? = some slash then lookupCur s.vinodes path.length (path.drop 1) vfsRoot 1
  else lookupCur s.vinodes path.length path vfsRoot 1

/-- `if (path[len - 1] == '/') path[len - 1] = '\0'`, at `path == tmppath`. -/
def stripSlash (s : State) : State :=
  let len := (s.str 0).length
  if len = 0 then { s with before := if s.before = slash then 0 else s.before }
  else if s.tmppath (len - 1) = slash then
    { s with tmppath := Function.update s.tmppath (len - 1) 0 }
  else s

/-- `procfs_readdir`. The process of number `k - 4` has index `k`. -/
def procfsReaddir (totalProc kth : Nat) : Option Ext2.Entry :=
  if kth = 0 ∨ totalProc < kth then none
  else
    let k := kth - 1
    match k with
    | 0 => some ⟨.lit ".", .ofNat k, typeDir⟩
    | 1 => some ⟨.lit "..", .ofNat k, typeDir⟩
    | 2 => some ⟨.lit "cpuinfo", .ofNat k, typeFile ||| rdAble⟩
    | 3 => some ⟨.lit "meminfo", .ofNat k, typeFile ||| rdAble⟩
    | n + 4 => some ⟨.lit (toString n), .ofNat k, typeFile ||| rdAble⟩

def readdir (s : State) (fs : Filesys) (ridx : UInt32) (kth : Nat) :
    Except Fault (Option Ext2.Entry × State) :=
  match fs with
  | .procfs => .ok (procfsReaddir s.totalProc kth, s)
  | .ramdisk k => do
    let (e, d) ← Ext2.readdir (s.disks k) ridx kth
    return (e, { s with disks := Function.update s.disks k d })

/-- The locals `oidx`, `dot`, `ddot` and `next` of `lookup_auto`. -/
structure Cursor where
  oidx : Int := -1
  dot : Int := -1
  ddot : Int := -1
  next : Int := -1

/-- The branch of `lookup_auto` for the entry `"."`. -/
def enterDot (V : Vinodes) (idx nidx : Int) (c : Cursor) : Except Fault (Cursor × Vinodes) := do
  check (c.oidx = -1)
  let V ← V.modify idx fun v => { v with child := nidx }
  let d ← V.get idx
  let V ← V.modify nidx fun v => { v with
    name := .lit ".", path := d.path, dot := -1, ddot := -1, next := -1, child := idx
    prevLink := nidx, nextLink := nidx, linkcnt := 1, mode := typeLink }
  let V ← addLink V idx nidx
  return ({ c with dot := nidx }, V)

/-- The branch of `lookup_auto` for the entry `".."`. -/
def enterDdot (V : Vinodes) (idx nidx : Int) (c : Cursor) : Except Fault (Cursor × Vinodes) := do
  let o ← V.get c.oidx
  check (o.next = -1)
  let V ← V.modify c.oidx fun v => { v with next := nidx, ddot := nidx }
  let d ← V.get idx
  let dot ← V.get d.dot
  let par ← V.get dot.child
  let ddot ← V.get d.ddot
  let V ← V.modify nidx fun v => { v with
    name := .lit "..", path := par.path, dot := c.oidx, ddot := -1, next := -1, child := ddot.child
    prevLink := nidx, nextLink := nidx, linkcnt := 1, mode := typeLink }
  let V ← addLink V dot.child nidx
  return ({ c with ddot := nidx }, V)

/-- The branch of `lookup_auto` for every other entry. -/
def enterOther (V : Vinodes) (idx nidx : Int) (c : Cursor) (e : Ext2.Entry) :
    Except Fault (Cursor × Vinodes) := do
  check (c.dot ≠ -1 ∧ c.ddot ≠ -1)
  let o ← V.get c.oidx
  check (o.next = -1)
  let V ← V.modify c.oidx fun v => { v with next := nidx }
  let d ← V.get idx
  let path := d.path.append e.name
  let path ← charArray maxPathLength
    (if has e.mode typeDir then path.append (.lit "/") else path)
  let V ← V.modify nidx fun v => { v with
    name := e.name, path := path, dot := c.dot, ddot := c.ddot, next := -1, child := -1
    prevLink := nidx, nextLink := nidx, linkcnt := 1, mode := e.mode }
  return (c, V)

/-- The branches of `lookup_auto` on the name of an entry. -/
def enterEntry (V : Vinodes) (idx nidx : Int) (c : Cursor) (e : Ext2.Entry) :
    Except Fault (Cursor × Vinodes) :=
  if e.name = .lit "." then enterDot V idx nidx c
  else if e.name = .lit ".." then enterDdot V idx nidx c
  else enterOther V idx nidx c e

/-- One round of the loop of `lookup_auto` that populates the directory `idx`. The
item looked for is the first of `path`. -/
def enter (V : Vinodes) (idx : Int) (path : List UInt8) (c : Cursor) (e : Ext2.Entry) :
    Except Fault (Cursor × Vinodes) := do
  let (nidx, V) := vinodesAlloc V
  check (nidx ≠ -1)
  let (c, V) ← enterEntry V idx nidx c e
  let d ← V.get idx
  let V ← V.modify nidx fun v => { v with ridx := e.ridx, fsType := d.fsType, fs := d.fs }
  let c := { c with oidx := nidx }
  if itemMatch e.name path (firstItemLen path) then
    check (c.next = -1)
    return ({ c with next := nidx }, V)
  else return (c, V)

/-- The loop of `lookup_auto` that populates the directory `idx` from its entry
`kth + 1` on. Every round takes a vinode. -/
def populate (idx : Int) (path : List UInt8) :
    Nat → Nat → Cursor → State → Except Fault (Cursor × State)
  | 0, _, _, _ => .error .diverges
  | fuel + 1, kth, c, s => do
    let d ← s.vinodes.get idx
    match d.fs with
    | none => .error .badAccess
    | some fs =>
      let (e, s) ← readdir s fs d.ridx (kth + 1)
      match e with
      | none => return (c, s)
      | some e =>
        let (c, V) ← enter s.vinodes idx path c e
        populate idx path fuel (kth + 1) c { s with vinodes := V }

/-- `lookup_auto(tmppath)`. The offset grows from call to call. -/
def lookupAutoLoop : Nat → State → Except Fault (Int × State)
  | 0, _ => .error .diverges
  | fuel + 1, s => do
    let s := stripSlash s
    let (flag, idx, offset) ← lookup s
    if flag then return (idx, s)
    let d ← s.vinodes.get idx
    if d.fs = none then return (-1, s)
    if d.child ≠ -1 then return (-1, s)
    let (c, s) ← populate idx (s.str offset).bytes (maxVinode + 1) 0 {} s
    if c.next = -1 then return (-1, s)
    let (_, _, noffset) ← lookup s
    check (offset < noffset)
    lookupAutoLoop fuel s

def lookupAuto (s : State) : Except Fault (Int × State) := lookupAutoLoop (tmppathLength + 2) s

/-! ## Building and removing vinodes -/

def buildDot (V : Vinodes) (cur dot ddot : Int) (fsType : FsType) (fs : Option Filesys) :
    Except Fault Vinodes := do
  let c ← V.get cur
  let V ← V.modify dot fun v => { v with
    name := .lit ".", path := c.path, dot := -1, ddot := ddot, next := ddot, child := cur
    prevLink := dot, nextLink := dot, linkcnt := 1, mode := typeLink }
  let V ← addLink V cur dot
  V.modify dot fun v => { v with fsType := fsType, fs := fs }

def buildDdot (V : Vinodes) (parent dot ddot : Int) (fsType : FsType) (fs : Option Filesys) :
    Except Fault Vinodes := do
  let p ← V.get parent
  let V ← V.modify ddot fun v => { v with
    name := .lit "..", path := p.path, dot := dot, ddot := -1, next := -1, child := parent
    prevLink := ddot, nextLink := ddot, linkcnt := 1, mode := typeLink }
  let V ← addLink V parent ddot
  V.modify ddot fun v => { v with fsType := fsType, fs := fs }

def buildRoot (V : Vinodes) : Except Fault (Int × Vinodes) := do
  let (idx, V) := vinodesAlloc V
  let (dot, V) := vinodesAlloc V
  let (ddot, V) := vinodesAlloc V
  check (idx = vfsRoot)
  let V ← V.modify idx fun v => { v with
    name := .lit "/", path := .lit "/", ridx := 0xffffffff, dot := -1, ddot := -1, next := -1
    child := dot, prevLink := idx, nextLink := idx, linkcnt := 1, mode := typeDir
    fsType := .vfs, fs := none }
  let V ← buildDot V idx dot ddot .vfs none
  let V ← buildDdot V idx dot ddot .vfs none
  return (idx, V)

/-- The loop of `append_dir` and `append_file` to the last child, which looks for
`"."` on the way: `k`, `dot` and `ddot`. -/
def lastChild (V : Vinodes) : Nat → Int → Int → Int → Except Fault (Int × Int × Int)
  | 0, _, _, _ => .error .diverges
  | fuel + 1, k, dot, ddot => do
    let v ← V.get k
    if v.next = -1 then return (k, dot, ddot)
    else if v.name = .lit "." then lastChild V fuel v.next k v.next
    else lastChild V fuel v.next dot ddot

/-- `append_dir` and `append_file`, which differ in what ends the path. -/
def appendNode (ending : CStr) (V : Vinodes) (par : Int) (name : CStr) (mode : UInt32)
    (fsType : FsType) (fs : Option Filesys) : Except Fault (Int × Vinodes) := do
  let (nidx, V) := vinodesAlloc V
  let p ← V.get par
  check (p.child ≠ -1)
  let (k, dot, ddot) ← lastChild V maxVinode p.child (-1) (-1)
  check (dot ≠ -1 ∧ ddot ≠ -1)
  let V ← V.modify k fun v => { v with next := nidx }
  let d ← V.get dot
  let name ← charArray maxNameLength name
  let path ← charArray maxPathLength ((d.path.append name).append ending)
  let V ← V.modify nidx fun v => { v with
    name := name, path := path, dot := dot, ddot := ddot, next := -1, child := -1
    prevLink := nidx, nextLink := nidx, linkcnt := 1, mode := mode, fsType := fsType, fs := fs }
  return (nidx, V)

def appendDir := appendNode (.lit "/")

def appendFile := appendNode (.lit "")

def prepareDir (V : Vinodes) (idx par : Int) (fsType : FsType) (fs : Option Filesys) :
    Except Fault Vinodes := do
  let (dot, V) := vinodesAlloc V
  let (ddot, V) := vinodesAlloc V
  let d ← V.get idx
  check (d.child = -1)
  let V ← V.modify idx fun v => { v with child := dot }
  let V ← buildDot V idx dot ddot fsType fs
  buildDdot V par dot ddot fsType fs

/-- The loop `for (; vinodes[pre].next != idx;) pre = vinodes[pre].next`. -/
def findPrev (V : Vinodes) (idx : Int) : Nat → Int → Except Fault Int
  | 0, _ => .error .diverges
  | fuel + 1, pre => do
    let v ← V.get pre
    if v.next = idx then return pre else findPrev V idx fuel v.next

/-- The loop of `remove_dir` over the children from `k` on. -/
def deleteChildren : Nat → Int → Vinodes → Except Fault Vinodes
  | 0, _, _ => .error .diverges
  | fuel + 1, k, V =>
    if k = -1 then .ok V
    else do
      let V ← deleteVinode V k
      let v ← V.get k
      deleteChildren fuel v.next V

def removeDir (V : Vinodes) (idx par : Int) : Except Fault Vinodes := do
  let p ← V.get par
  let pre ← findPrev V idx maxVinode p.child
  let d ← V.get idx
  let V ← V.modify pre fun v => { v with next := d.next }
  let d ← V.get idx
  let V ← deleteChildren (maxVinode + 1) d.child V
  deleteVinode V idx

/-! ## Calls -/

def strcpyTmp (s : State) (path : CStr) : Except Fault State := do
  inBounds (path.length < tmppathLength)
  return { s with tmppath := strcpy s.tmppath path }

/-- `tmppath[offset] = '\0'`. -/
def cutTmp (s : State) (offset : Nat) : State :=
  { s with tmppath := Function.update s.tmppath offset 0 }

/-- `last_item_len`. Without a slash it runs off the front of the string. -/
def lastItemLen (path : CStr) : Except Fault Nat := do
  inBounds (slash ∈ path.bytes)
  return (path.bytes.reverse.takeWhile fun c => c != slash).length

/-- The index of the last slash, or 0. -/
def vfsHelpGetpathlen (path : CStr) : Nat :=
  path.length - 1 - (path.bytes.reverse.takeWhile fun c => c != slash).length

def vfsAccess (s : State) (path : CStr) (mode : UInt32) : Except Fault (Nat × State) := do
  let s ← strcpyTmp s path
  let (idx, s) ← lookupAuto s
  if idx = -1 then return (1, s)
  let v ← s.vinodes.get idx
  return (if v.mode &&& mode ≠ mode then 1 else 0, s)

/-- The `switch` of `vfs_mount`. -/
def mountRidx (V : Vinodes) (file nidx : Int) : Except Fault Vinodes := do
  let f ← V.get file
  if f.fsType = .ext2fs then V.modify nidx fun v => { v with ridx := ext2Root } else return V

def vfsMount (s : State) (filename dirname : CStr) : Except Fault (Nat × State) := do
  let (r, s) ← vfsAccess s filename (typeFile ||| mntAble)
  if r ≠ 0 then return (1, s)
  let (r, s) ← vfsAccess s dirname typeDir
  if r = 0 then return (2, s)
  let s ← strcpyTmp s filename
  let (file, s) ← lookupAuto s
  let s ← strcpyTmp s dirname
  let n ← lastItemLen dirname
  let offset := dirname.length - n - 1
  let s := cutTmp s offset
  let (par, s) ← lookupAuto s
  let f ← s.vinodes.get file
  let (nidx, V) ← appendDir s.vinodes par (s.str (offset + 1)) (typeDir ||| unmntAble) f.fsType f.fs
  let V ← V.modify file fun v => { v with mode := v.mode &&& ~~~mntAble }
  let V ← V.modify nidx fun v => { v with linkcnt := file }
  let V ← mountRidx V file nidx
  return (0, { s with vinodes := V })

def vfsUnmount (s : State) (path : CStr) : Except Fault (Nat × State) := do
  let (r, s) ← vfsAccess s path (typeDir ||| unmntAble)
  if r ≠ 0 then return (1, s)
  let s ← strcpyTmp s path
  let (idx, s) ← lookupAuto s
  let n ← lastItemLen path
  let s := cutTmp s (path.length - n - 1)
  let (par, s) ← lookupAuto s
  let d ← s.vinodes.get idx
  let V ← s.vinodes.modify d.linkcnt fun v => { v with mode := v.mode ||| mntAble }
  let V ← removeDir V idx par
  return (0, { s with vinodes := V })

def vfsCreate (s : State) (path : CStr) : Except Fault (Nat × State) := do
  let offset := vfsHelpGetpathlen path
  if path.length = offset then return (1, s)
  let s ← strcpyTmp s path
  let s := cutTmp s offset
  let (idx, s) ← lookupAuto s
  let d ← s.vinodes.get idx
  match d.fsType, d.fs with
  | .ext2fs, some (.ramdisk k) =>
    let (ridx, disk) ← Ext2.create (s.disks k) d.ridx (s.str (offset + 1)) typeDir
    let (nidx, V) ← appendDir s.vinodes idx (s.str (offset + 1)) typeDir d.fsType d.fs
    let V ← prepareDir V nidx idx d.fsType d.fs
    let V ← V.modify nidx fun v => { v with ridx := ridx }
    return (0, { s with disks := Function.update s.disks k disk, vinodes := V })
  | .ext2fs, _ => .error .badAccess
  | _, _ => return (2, s)

def vfsRemove (s : State) (path : CStr) : Except Fault (Nat × State) := do
  let offset := vfsHelpGetpathlen path
  if path.length = offset then return (1, s)
  let s ← strcpyTmp s path
  let (nidx, s) ← lookupAuto s
  let s := cutTmp s offset
  let (idx, s) ← lookupAuto s
  let name := s.str (offset + 1)
  let mode := if 46 ∈ name.bytes then typeFile else typeDir
  let d ← s.vinodes.get idx
  match d.fsType, d.fs with
  | .ext2fs, some (.ramdisk k) =>
    let (r, disk) ← Ext2.remove (s.disks k) d.ridx name mode
    let s := { s with disks := Function.update s.disks k disk }
    if r ≠ 0 then return (3, s)
    let V ← removeDir s.vinodes nidx idx
    return (0, { s with vinodes := V })
  | .ext2fs, _ => .error .badAccess
  | _, _ => return (2, s)

/-- The path of a link to a file has no slash at its end. -/
def linkPath (V : Vinodes) (oidx nidx : Int) : Except Fault Vinodes := do
  let o ← V.get oidx
  if has o.mode typeFile then V.modify nidx fun v => { v with path := v.path.dropLast }
  else return V

def vfsLink (s : State) (oldpath newpath : CStr) : Except Fault (Nat × State) := do
  let s ← strcpyTmp s oldpath
  let (oidx, s) ← lookupAuto s
  if oidx = -1 then return (1, s)
  let s ← strcpyTmp s newpath
  let (nidx, s) ← lookupAuto s
  if nidx ≠ -1 then return (2, s)
  let n ← lastItemLen newpath
  let offset := newpath.length - n - 1
  let s := cutTmp s offset
  let (par, s) ← lookupAuto s
  let (nidx, V) ← appendDir s.vinodes par (s.str (offset + 1)) typeLink .vfs none
  let V ← linkPath V oidx nidx
  let V ← addLink V oidx nidx
  return (0, { s with vinodes := V })

def vfsUnlink (s : State) (path : CStr) : Except Fault (Nat × State) := do
  let s ← strcpyTmp s path
  let n ← lastItemLen path
  let offset := path.length - n - 1
  let s := cutTmp s offset
  let (par, s) ← lookupAuto s
  let p ← s.vinodes.get par
  let name := s.str (offset + 1)
  let k ← findChild s.vinodes (fun t => t == name) (maxVinode + 1) p.child
  if k = -1 then return (1, s)
  let v ← s.vinodes.get k
  check (v.name ≠ .lit ".")
  check (v.name ≠ .lit "..")
  if has v.mode typeLink then
    let V ← removeLink s.vinodes k
    let V ← removeDir V k par
    return (0, { s with vinodes := V })
  else if v.prevLink ≠ k then
    let V ← s.vinodes.modify v.prevLink fun l => { l with
      mode := v.mode, ridx := v.ridx, fs := v.fs, fsType := v.fsType }
    let V ← removeLink V k
    let V ← removeDir V k par
    return (0, { s with vinodes := V })
  else
    let (_, s) ← vfsRemove s path
    return (0, s)

/-- The calls. -/
inductive Call
  | access (path : CStr) (mode : UInt32)
  | mount (filename dirname : CStr)
  | unmount (path : CStr)
  | create (path : CStr)
  | remove (path : CStr)
  | link (oldpath newpath : CStr)
  | unlink (path : CStr)

/-- The result of a call and the state after it. -/
def call (s : State) : Call → Except Fault (Nat × State)
  | .access path mode => vfsAccess s path mode
  | .mount filename dirname => vfsMount s filename dirname
  | .unmount path => vfsUnmount s path
  | .create path => vfsCreate s path
  | .remove path => vfsRemove s path
  | .link oldpath newpath => vfsLink s oldpath newpath
  | .unlink path => vfsUnlink s path

def step (s : State) (c : Call) : Except Fault State := do
  let (_, s) ← call s c
  return s

/-! ## Initialisation -/

def Vinode.zero : Vinode where
  path := .lit ""
  name := .lit ""
  dot := 0
  ddot := 0
  next := 0
  child := 0
  mode := 0
  linkcnt := 0
  ridx := 0
  fsType := .vfs
  fs := none
  prevLink := 0
  nextLink := 0

/-- The part of `vfs_init` that builds `/`, `/dev`, `/mnt` and `/proc`. -/
def buildTree : Except Fault Vinodes := do
  let (root, V) ← buildRoot fun _ => .zero
  let (dev, V) ← appendDir V root (.lit "dev") typeDir .vfs none
  let (mnt, V) ← appendDir V root (.lit "mnt") typeDir .vfs none
  let V ← prepareDir V dev root .vfs none
  let V ← prepareDir V mnt root .vfs none
  let (_, V) ← appendDir V root (.lit "proc") typeDir .procfs (some .procfs)
  let (_, V) ← appendFile V dev (.lit "ramdisk0") (typeFile ||| mntAble) .ext2fs (some (.ramdisk 0))
  let (_, V) ← appendFile V dev (.lit "ramdisk1") (typeFile ||| mntAble) .ext2fs (some (.ramdisk 1))
  let (_, V) ← appendFile V dev (.lit "tty1") (typeFile ||| wrAble) .tty none
  let (_, V) ← appendFile V dev (.lit "tty2") (typeFile ||| wrAble) .tty none
  let (_, V) ← appendFile V dev (.lit "tty3") (typeFile ||| wrAble) .tty none
  let (_, V) ← appendFile V dev (.lit "tty4") (typeFile ||| wrAble) .tty none
  return V

/-- `vfs_init` on the two ram disks, with `totalProc` processes in `/proc`. -/
def vfsInit (dev : Fin 2 → Ext2.Device) (totalProc : Nat) (before : UInt8) :
    Except Fault State := do
  let disk0 ← Ext2.init (dev 0) (.lit "ramdisk0")
  let disk1 ← Ext2.init (dev 1) (.lit "ramdisk1")
  let V ← buildTree
  let s : State := {
    vinodes := V
    disks := fun k => if k = 0 then disk0 else disk1
    totalProc := totalProc
    tmppath := fun _ => 0
    before := before }
  let (_, s) ← vfsMount s (.lit "/dev/ramdisk0") (.lit "/R0")
  let (_, s) ← vfsMount s (.lit "/dev/ramdisk1") (.lit "/mnt/R1")
  return s

/-- The states that `vfs_init` and calls after it lead to. -/
def Reachable (s : State) : Prop :=
  ∃ dev totalProc before s₀ calls, vfsInit dev totalProc before = .ok s₀ ∧
    run step s₀ calls = .ok s

end OsWorkbench.Vfs
