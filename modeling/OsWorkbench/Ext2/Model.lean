import OsWorkbench.Basic
import OsWorkbench.Lib.Bytes

/-!
# The ext2 file system

The model of `kernel/src/fs/ext2fs.c` over the ram disk of
`devices/ramdisk/ramdisk.c`. The object `ext2_t` is a record with one field for
each buffer; a block number or an inode number is a `uint32_t`. The super block
and the table of open files are read by no function here and left out, and what
`printf` shows is not part of the state.
-/

namespace OsWorkbench.Ext2

def blkSize : Nat := 512
def gdtStart : UInt32 := 1 * 512
def blkBitmap : UInt32 := 2 * 512
def indBitmap : UInt32 := 3 * 512
def indtStart : UInt32 := 4 * 512
def dataBlock : UInt32 := (4 + 512) * 512
def ext2NBlocks : Nat := 12
def inodeTableCount : Nat := 4096
def dataBlockCount : Nat := 4096
def indSize : UInt32 := 64
def dirSize : Nat := 32
def dirAmut : Nat := 16
def rdSize : Nat := 4 * 2 ^ 20
def maxNameLength : Nat := 32

def wrAble : UInt32 := 0x02
def rdAble : UInt32 := 0x04
def typeFile : UInt32 := 0x10
def typeDir : UInt32 := 0x20

/-- `mode & flag`, as a condition. -/
def has (mode flag : UInt32) : Bool := mode &&& flag != 0

/-- A data block, also as the array `dir` of 16 entries. -/
abbrev Block := Bytes 512

/-- `struct group_desc`. -/
structure GroupDesc where
  volumeName : Bytes 16
  blockBitmap : UInt16
  inodeBitmap : UInt16
  inodeTable : UInt16
  freeBlocksCount : UInt16
  freeInodesCount : UInt16
  usedDirsCount : UInt16
  pad : Bytes 4

/-- `struct inode`. -/
structure Inode where
  mode : UInt32
  blocks : UInt32
  size : UInt32
  block : Fin 12 → UInt32
  pad : UInt32

/-- The memory `[start, end)` of a ram disk. -/
structure Device where
  size : Nat
  data : Nat → UInt8

/-- `ext2_t`. -/
structure Fs where
  gdt : GroupDesc
  ind : Inode
  dir : Block
  blockbitmapbuf : Block
  inodebitmapbuf : Block
  datablockbuf : Block
  lastAllocBlock : UInt32
  lastAllocInode : UInt32
  currentDir : UInt32
  dev : Device

/-! ## Layout of the structures -/

namespace Inode

def zero : Inode := ⟨0, 0, 0, fun _ => 0, 0⟩

/-- `block[i]` for `i < EXT2_N_BLOCKS`. -/
def blk (v : Inode) (i : Nat) : UInt32 := if h : i < 12 then v.block ⟨i, h⟩ else 0

def setBlk (v : Inode) (i : Nat) (b : UInt32) : Inode :=
  { v with block := fun k => if k.val = i then b else v.block k }

/-- The inode as an array of sixteen words. -/
def word (v : Inode) : Nat → UInt32
  | 0 => v.mode
  | 1 => v.blocks
  | 2 => v.size
  | i + 3 => if h : i < 12 then v.block ⟨i, h⟩ else v.pad

def encode (v : Inode) : Bytes 64 := fun k => byteOf (v.word (k.val / 4)).toNat (k.val % 4)

def decode (b : Bytes 64) : Inode where
  mode := b.get32 0
  blocks := b.get32 4
  size := b.get32 8
  block i := b.get32 (12 + 4 * i.val)
  pad := b.get32 60

end Inode

namespace GroupDesc

def zero : GroupDesc := ⟨.zero, 0, 0, 0, 0, 0, 0, .zero⟩

/-- The six `uint16_t` fields, in order. -/
def half (g : GroupDesc) : Nat → UInt16
  | 0 => g.blockBitmap
  | 1 => g.inodeBitmap
  | 2 => g.inodeTable
  | 3 => g.freeBlocksCount
  | 4 => g.freeInodesCount
  | _ => g.usedDirsCount

def encode (g : GroupDesc) : Bytes 32 := fun k =>
  if k.val < 16 then g.volumeName.get k.val
  else if k.val < 28 then byteOf (g.half ((k.val - 16) / 2)).toNat (k.val % 2)
  else g.pad.get (k.val - 28)

def decode (b : Bytes 32) : GroupDesc where
  volumeName i := b.get i.val
  blockBitmap := b.get16 16
  inodeBitmap := b.get16 18
  inodeTable := b.get16 20
  freeBlocksCount := b.get16 22
  freeInodesCount := b.get16 24
  usedDirsCount := b.get16 26
  pad i := b.get (28 + i.val)

end GroupDesc

/-! The fields of `dir[j]`. A name that does not fit into `name[16]` goes on in
`par` and in the entry after it. -/

def dirInode (b : Block) (j : Nat) : UInt32 := b.get32 (dirSize * j)
def dirMode (b : Block) (j : Nat) : UInt32 := b.get32 (dirSize * j + 4)
def dirName (b : Block) (j : Nat) : CStr := b.str (dirSize * j + 12)

def setDirInode (b : Block) (j : Nat) (v : UInt32) : Block := b.put32 (dirSize * j) v
def setDirMode (b : Block) (j : Nat) (v : UInt32) : Block := b.put32 (dirSize * j + 4) v
def setDirNameLen (b : Block) (j : Nat) (v : UInt32) : Block := b.put32 (dirSize * j + 8) v

/-- `strcpy(dir[j].name, name)`. -/
def strcpyName (b : Block) (j : Nat) (name : CStr) : Except Fault Block := do
  inBounds (dirSize * j + 12 + name.length < blkSize)
  return b.putStr (dirSize * j + 12) name

/-- `!strcmp(dir[j].name, name)`. It leaves the array `dir` when the entry has no
terminator up to the end of the array and all of its bytes agree with `name`. -/
def strcmpName (b : Block) (j : Nat) (name : CStr) : Except Fault Bool := do
  inBounds (dirSize * j + 12 + (dirName b j).length < blkSize ∨
    ¬(dirName b j).bytes.isPrefixOf name.bytes)
  return dirName b j == name

/-! ## The ram disk -/

def rdRead {n : Nat} (dev : Device) (offset : UInt32) : Except Fault (Bytes n) := do
  inBounds (offset.toNat + n ≤ dev.size)
  return load dev.data offset.toNat

def rdWrite {n : Nat} (dev : Device) (offset : UInt32) (buf : Bytes n) : Except Fault Device := do
  inBounds (offset.toNat + n ≤ dev.size)
  return { dev with data := store dev.data offset.toNat buf }

def indOffset (i : UInt32) : UInt32 := indtStart + (i - 1) * indSize

def blkOffset (i : UInt32) : UInt32 := dataBlock + i * 512

def rdGd (s : Fs) : Except Fault Fs := do
  let b ← rdRead s.dev gdtStart
  return { s with gdt := .decode b }

def wrGd (s : Fs) : Except Fault Fs := do
  let dev ← rdWrite s.dev gdtStart s.gdt.encode
  return { s with dev := dev }

def rdInd (s : Fs) (i : UInt32) : Except Fault Fs := do
  let b ← rdRead s.dev (indOffset i)
  return { s with ind := .decode b }

def wrInd (s : Fs) (i : UInt32) : Except Fault Fs := do
  let dev ← rdWrite s.dev (indOffset i) s.ind.encode
  return { s with dev := dev }

def rdDir (s : Fs) (i : UInt32) : Except Fault Fs := do
  let b ← rdRead s.dev (blkOffset i)
  return { s with dir := b }

def wrDir (s : Fs) (i : UInt32) : Except Fault Fs := do
  let dev ← rdWrite s.dev (blkOffset i) s.dir
  return { s with dev := dev }

def rdBlockbitmap (s : Fs) : Except Fault Fs := do
  let b ← rdRead s.dev blkBitmap
  return { s with blockbitmapbuf := b }

def wrBlockbitmap (s : Fs) : Except Fault Fs := do
  let dev ← rdWrite s.dev blkBitmap s.blockbitmapbuf
  return { s with dev := dev }

def rdInodebitmap (s : Fs) : Except Fault Fs := do
  let b ← rdRead s.dev indBitmap
  return { s with inodebitmapbuf := b }

def wrInodebitmap (s : Fs) : Except Fault Fs := do
  let dev ← rdWrite s.dev indBitmap s.inodebitmapbuf
  return { s with dev := dev }

def rdDatablock (s : Fs) (i : UInt32) : Except Fault Fs := do
  let b ← rdRead s.dev (blkOffset i)
  return { s with datablockbuf := b }

def wrDatablock (s : Fs) (i : UInt32) : Except Fault Fs := do
  let dev ← rdWrite s.dev (blkOffset i) s.datablockbuf
  return { s with dev := dev }

/-! ## The bitmap allocators -/

/-- The loop `while (buf[cur] == 0xff)`. It does not end when all bytes are `0xff`. -/
def scanByte (buf : Block) : Nat → Nat → Except Fault Nat
  | 0, _ => .error .diverges
  | n + 1, cur => do
    inBounds (cur < blkSize)
    if buf.get cur = 0xff then scanByte buf n (if cur = blkSize - 1 then 0 else cur + 1)
    else return cur

/-- The loop `while (buf[cur] & con)`, which halves `con` and counts in `flag`. -/
def scanBit (x : UInt8) : Nat → Nat → Nat → Nat × Nat
  | 0, con, flag => (con, flag)
  | n + 1, con, flag =>
    if x.toNat &&& con ≠ 0 then scanBit x n (con / 2) (flag + 1) else (con, flag)

/-- Both loops of an allocator and the update of the byte they find: the bitmap
and the number of the bit. -/
def takeBit (buf : Block) (cur : Nat) : Except Fault (Block × Nat) := do
  let cur ← scanByte buf blkSize cur
  let bit := scanBit (buf.get cur) 8 0x80 0
  return (buf.set cur (UInt8.ofNat ((buf.get cur).toNat + bit.1)), cur * 8 + bit.2)

def allocBlock (s : Fs) : Except Fault (UInt32 × Fs) := do
  if s.gdt.freeBlocksCount = 0 then return (0xffffffff, s)
  let s ← rdBlockbitmap s
  let r ← takeBit s.blockbitmapbuf (s.lastAllocBlock / 8).toNat
  let s := { s with blockbitmapbuf := r.1, lastAllocBlock := .ofNat r.2 }
  let s ← wrBlockbitmap s
  let s := { s with gdt.freeBlocksCount := s.gdt.freeBlocksCount - 1 }
  let s ← wrGd s
  return (s.lastAllocBlock, s)

def allocInode (s : Fs) : Except Fault (UInt32 × Fs) := do
  if s.gdt.freeInodesCount = 0 then return (0xffffffff, s)
  let s ← rdInodebitmap s
  let r ← takeBit s.inodebitmapbuf ((s.lastAllocInode - 1) / 8).toNat
  let s := { s with inodebitmapbuf := r.1, lastAllocInode := .ofNat (r.2 + 1) }
  let s ← wrInodebitmap s
  let s := { s with gdt.freeInodesCount := s.gdt.freeInodesCount - 1 }
  let s ← wrGd s
  return (s.lastAllocInode, s)

/-- The masks of the `switch` in `ext2_remove_block` and `ext2_remove_inode`. -/
def clearMask : Nat → UInt8
  | 0 => 127
  | 1 => 191
  | 2 => 223
  | 3 => 239
  | 4 => 247
  | 5 => 251
  | 6 => 253
  | _ => 254

/-- `buf[num / 8] &= mask`. -/
def dropBit (buf : Block) (num : UInt32) : Except Fault Block := do
  let tmp := (num / 8).toNat
  inBounds (tmp < blkSize)
  return buf.set tmp (buf.get tmp &&& clearMask (num % 8).toNat)

def removeBlock (s : Fs) (delNum : UInt32) : Except Fault Fs := do
  let s ← rdBlockbitmap s
  let buf ← dropBit s.blockbitmapbuf delNum
  let s ← wrBlockbitmap { s with blockbitmapbuf := buf }
  wrGd { s with gdt.freeBlocksCount := s.gdt.freeBlocksCount + 1 }

def removeInode (s : Fs) (delNum : UInt32) : Except Fault Fs := do
  let s ← rdInodebitmap s
  let buf ← dropBit s.inodebitmapbuf (delNum - 1)
  let s ← wrInodebitmap { s with inodebitmapbuf := buf }
  wrGd { s with gdt.freeInodesCount := s.gdt.freeInodesCount + 1 }

/-! ## Reading -/

/-- `sprintf(buf + p, "%c", c)`: the byte and a terminator. -/
def sprintfChar (buf : Nat → UInt8) (p : Nat) (c : UInt8) : Nat → UInt8 :=
  Function.update (Function.update buf p c) (p + 1) 0

/-- The inner loop of `ext2_read`, with `n` iterations left. The flag says that
the function returned. -/
def readBytes (b : Block) (size len : Nat) (offset : UInt64) (firstOffset : Nat) :
    Nat → Nat → Nat → (Nat → UInt8) → Except Fault (Bool × Nat × (Nat → UInt8))
  | 0, _, ret, buf => .ok (false, ret, buf)
  | n + 1, j, ret, buf =>
    if ret = len ∨ (ret + offset.toNat) % 2 ^ 64 = size then .ok (true, ret, buf)
    else do
      inBounds (j + firstOffset < blkSize)
      readBytes b size len offset firstOffset n (j + 1) (ret + 1)
        (sprintfChar buf ret (b.get (j + firstOffset)))

/-- The outer loop of `ext2_read`, with `n` blocks left. -/
def readBlocks (len : Nat) (offset : UInt64) (skipBlocks firstOffset : Nat) :
    Nat → Nat → Nat → (Nat → UInt8) → Fs → Except Fault (Nat × (Nat → UInt8) × Fs)
  | 0, _, ret, buf, s => .ok (ret, buf, s)
  | n + 1, i, ret, buf, s => do
    inBounds (i < ext2NBlocks)
    let s ← rdDatablock s (s.ind.blk i)
    let r ← readBytes s.datablockbuf s.ind.size.toNat len offset
      (if i = skipBlocks then firstOffset else 0)
      (sub32 s.ind.size.toNat (i * blkSize % 2 ^ 32)) 0 ret buf
    if r.1 then return (r.2.1, r.2.2, s)
    else readBlocks len offset skipBlocks firstOffset n (i + 1) r.2.1 r.2.2 s

/-- `ext2_read`. The `int` values `skip_blocks` and `i` are only used as the
`uint32_t` they convert to, and the model keeps that number. -/
def read (s : Fs) (ridx : UInt32) (offset : UInt64) (buf : Nat → UInt8) (len : UInt32) :
    Except Fault (Nat × (Nat → UInt8) × Fs) := do
  let skipBlocks := offset.toNat / blkSize % 2 ^ 32
  let firstOffset := sub32 (offset.toNat % 2 ^ 32) (skipBlocks * blkSize % 2 ^ 32)
  let s ← rdInd s ridx
  readBlocks len.toNat offset skipBlocks firstOffset (s.ind.blocks.toNat - skipBlocks)
    skipBlocks 0 buf s

/-! ## Writing -/

/-- The loop `while (ind.blocks < need_blocks)`, with `n` iterations left. -/
def growBlocks : Nat → Fs → Except Fault Fs
  | 0, s => .ok s
  | n + 1, s => do
    let r ← allocBlock s
    let ind := r.2.ind
    inBounds (ind.blocks.toNat < ext2NBlocks)
    growBlocks n { r.2 with
      ind := { ind.setBlk ind.blocks.toNat r.1 with blocks := ind.blocks + 1 } }

/-- The loop `while (ind.blocks > need_blocks)`, with `n` iterations left. -/
def shrinkBlocks : Nat → Fs → Except Fault Fs
  | 0, s => .ok s
  | n + 1, s => do
    let s := { s with ind.blocks := s.ind.blocks - 1 }
    inBounds (s.ind.blocks.toNat < ext2NBlocks)
    let s ← removeBlock s (s.ind.blk s.ind.blocks.toNat)
    shrinkBlocks n s

/-- The loop `for (; ret < len && k < BLK_SIZE; k++, ret++)`, with at most `n`
iterations left. -/
def copyBlock (buf : Nat → UInt8) (len : Nat) : Nat → Nat → Nat → Block → Nat × Block
  | 0, _, ret, b => (ret, b)
  | n + 1, k, ret, b =>
    if ret < len ∧ k < blkSize then copyBlock buf len n (k + 1) (ret + 1) (b.set k (buf ret))
    else (ret, b)

/-- The loop `for (int k = 0; k < len - ret; k++, ret++)` of the last block, with
at most `n` iterations left. -/
def copyTail (buf : Nat → UInt8) (len : Nat) :
    Nat → Nat → Nat → Block → Except Fault (Nat × Block)
  | 0, _, ret, b => .ok (ret, b)
  | n + 1, k, ret, b =>
    if k < len - ret then do
      inBounds (k < blkSize)
      copyTail buf len n (k + 1) (ret + 1) (b.set k (buf ret))
    else .ok (ret, b)

/-- The loop over the blocks of `ext2_write`, with `i` iterations left. -/
def writeBlocks (buf : Nat → UInt8) (len : Nat) (skipBlocks needBlocks : Int) (firstOffset : Nat) :
    Nat → Int → Nat → Fs → Except Fault (Nat × Fs)
  | 0, _, ret, s => .ok (ret, s)
  | i + 1, n, ret, s => do
    inBounds (0 ≤ n ∧ n < ext2NBlocks)
    let b := s.ind.blk n.toNat
    let s ← rdDatablock s b
    let r ←
      if n = skipBlocks then .ok (copyBlock buf len blkSize firstOffset ret s.datablockbuf)
      else if n ≠ needBlocks - 1 then .ok (copyBlock buf len blkSize 0 ret s.datablockbuf)
      else copyTail buf len (len - ret) 0 ret s.datablockbuf
    let s ← wrDatablock { s with datablockbuf := r.2 } b
    writeBlocks buf len skipBlocks needBlocks firstOffset i (n + 1) r.1 s

def write (s : Fs) (ridx : UInt32) (offset : UInt64) (buf : Nat → UInt8) (len : UInt32) :
    Except Fault (Nat × Fs) := do
  let skipBlocks := toInt (offset.toNat / blkSize)
  let firstOffset := sub32 (offset.toNat % 2 ^ 32) (offset.toNat / blkSize * blkSize % 2 ^ 32)
  let need := (len.toNat + offset.toNat + (blkSize - 1)) % 2 ^ 64 / blkSize % 2 ^ 32
  let s ← rdInd s ridx
  if has s.ind.mode wrAble = false then return (0, s)
  let s ← if s.ind.blocks.toNat ≤ need then growBlocks (need - s.ind.blocks.toNat) s
    else shrinkBlocks (s.ind.blocks.toNat - need) s
  let needBlocks := toInt need
  let r ← writeBlocks buf len.toNat skipBlocks needBlocks firstOffset
    (needBlocks - skipBlocks).toNat skipBlocks 0 s
  let s ← wrInd { r.2 with ind.size := .ofNat (offset.toNat + len.toNat) } ridx
  return (r.1, s)

/-! ## Directories -/

/-- What `ext2_readdir` stores in a vinode. -/
structure Entry where
  name : CStr
  ridx : UInt32
  mode : UInt32
  deriving DecidableEq

/-- The loop over the entries of one block: the counter and the slot it stops at. -/
def readdirScan (b : Block) (kth : Nat) : List Nat → Nat → Nat × Option Nat
  | [], cnt => (cnt, none)
  | k :: ks, cnt =>
    if dirInode b k = 0 then readdirScan b kth ks cnt
    else if cnt + 1 = kth then (cnt + 1, some k)
    else readdirScan b kth ks (cnt + 1)

/-- The loop over the blocks of `ext2_readdir`, with `n` blocks left. -/
def readdirBlocks (kth : Nat) : Nat → Nat → Nat → Fs → Except Fault (Option Entry × Fs)
  | 0, _, _, s => .ok (none, s)
  | n + 1, i, cnt, s => do
    inBounds (i < ext2NBlocks)
    let s ← rdDir s (s.ind.blk i)
    let r := readdirScan s.dir kth (List.range dirAmut) cnt
    match r.2 with
    | some k =>
      let name := dirName s.dir k
      inBounds (dirSize * k + 12 + name.length < blkSize ∧ name.length < maxNameLength)
      return (some ⟨name, dirInode s.dir k, dirMode s.dir k⟩, s)
    | none => readdirBlocks kth n (i + 1) r.1 s

/-- `ext2_readdir`, with `none` for the result 0. -/
def readdir (s : Fs) (ridx : UInt32) (kth : Nat) : Except Fault (Option Entry × Fs) := do
  let s ← rdInd s ridx
  readdirBlocks kth s.ind.blocks.toNat 0 0 s

/-- `for (int k = from; k < DIR_AMUT; k++) dir[k].inode = 0`. -/
def clearFrom (b : Block) (k : Nat) : Block :=
  (List.range' k (dirAmut - k)).foldl (fun b k => setDirInode b k 0) b

def indPrepare (s : Fs) (idx par mode : UInt32) : Except Fault Fs := do
  let s ← rdInd s idx
  if has mode typeDir then
    let s := { s with ind.size := .ofNat (2 * dirSize), ind.blocks := 1 }
    let r ← allocBlock s
    let s := { r.2 with ind := r.2.ind.setBlk 0 r.1 }
    let dir := setDirInode (setDirInode s.dir 0 idx) 1 par
    let dir := setDirMode (setDirMode dir 1 typeDir) 0 typeDir
    let dir := clearFrom dir 2
    let dir ← strcpyName dir 0 (.lit ".")
    let dir ← strcpyName dir 1 (.lit "..")
    let s ← wrDir { s with dir := dir } (s.ind.blk 0)
    wrInd { s with ind.mode := mode } idx
  else if has mode typeFile then
    wrInd { s with ind.size := 0, ind.blocks := 0, ind.mode := mode } idx
  else .error .assertion

/-- The search of `ext2_create` for an entry without inode, with `n` blocks left.
When it finds none, `dir[DIR_AMUT]` is accessed next. -/
def findFree : Nat → Nat → Fs → Except Fault ((Nat × Nat) × Fs)
  | 0, _, _ => .error .badAccess
  | n + 1, i, s => do
    inBounds (i < ext2NBlocks)
    let s ← rdDir s (s.ind.blk i)
    match (List.range dirAmut).find? fun j => dirInode s.dir j = 0 with
    | some j => return ((i, j), s)
    | none => findFree n (i + 1) s

/-- The entry that `ext2_create` writes to `dir[j]`. -/
def fillEntry (b : Block) (j : Nat) (idx : UInt32) (name : CStr) (mode : UInt32) :
    Except Fault Block :=
  strcpyName (setDirNameLen (setDirMode (setDirInode b j idx) j mode) j (.ofNat name.length))
    j name

/-- The branch of `ext2_create` for a directory with a free entry. -/
def enterFree (s : Fs) (name : CStr) (mode : UInt32) : Except Fault (UInt32 × Fs) := do
  let (ij, s) ← findFree s.ind.blocks.toNat 0 s
  let (idx, s) ← allocInode s
  let dir ← fillEntry s.dir ij.2 idx name mode
  let s ← wrDir { s with dir := dir } (s.ind.blk ij.1)
  return (idx, s)

/-- The branch of `ext2_create` for a full directory, which gets a block more. -/
def enterNew (s : Fs) (name : CStr) (mode : UInt32) : Except Fault (UInt32 × Fs) := do
  let (b, s) ← allocBlock s
  let n := s.ind.blocks.toNat
  inBounds (n < ext2NBlocks)
  let s ← rdDir { s with ind := { s.ind.setBlk n b with blocks := s.ind.blocks + 1 } } b
  let (idx, s) ← allocInode s
  let dir ← fillEntry s.dir 0 idx name mode
  let s ← wrDir { s with dir := clearFrom dir 1 } (s.ind.blk n)
  return (idx, s)

def create (s : Fs) (ridx : UInt32) (name : CStr) (mode : UInt32) :
    Except Fault (UInt32 × Fs) := do
  let s ← rdInd s ridx
  check (s.ind.size < 4096)
  let (idx, s) ←
    if s.ind.size ≠ s.ind.blocks * 512 then enterFree s name mode else enterNew s name mode
  let s ← wrInd { s with ind.size := s.ind.size + .ofNat dirSize } ridx
  let s ← indPrepare s idx ridx mode
  return (idx, s)

/-- The loop of `ext2_remove` over the entries of one block. -/
def findName (b : Block) (name : CStr) : List Nat → Except Fault (Option Nat)
  | [] => .ok none
  | j :: js => do
    if ← strcmpName b j name then return some j
    else findName b name js

/-- The search of `ext2_remove`, with `n` blocks left. An entry whose inode field
is `-1` does not end it. -/
def searchName (name : CStr) : Nat → Nat → Fs → Except Fault (Option (Nat × Nat) × Fs)
  | 0, _, s => .ok (none, s)
  | n + 1, i, s => do
    inBounds (i < ext2NBlocks)
    let s ← rdDir s (s.ind.blk i)
    match ← findName s.dir name (List.range dirAmut) with
    | some j =>
      if dirInode s.dir j = 0xffffffff then searchName name n (i + 1) s
      else return (some (i, j), s)
    | none => searchName name n (i + 1) s

/-- The loop of `ext2_remove` that frees the blocks of a file, from block `m` on. -/
def freeBlocks : Nat → Nat → Fs → Except Fault Fs
  | 0, _, s => .ok s
  | n + 1, m, s => do
    inBounds (m < ext2NBlocks)
    let s ← removeBlock s (s.ind.blk m)
    freeBlocks n (m + 1) { s with ind := s.ind.setBlk m 0 }

/-- The part of `ext2_remove` that both branches end with: the inode is written
back and freed, the entry is cleared and the directory shrinks. -/
def dropEntry (s : Fs) (ridx : UInt32) (i j : Nat) : Except Fault (Nat × Fs) := do
  let s ← wrInd s (dirInode s.dir j)
  let s ← removeInode s (dirInode s.dir j)
  inBounds (i < ext2NBlocks)
  let s ← wrDir { s with dir := setDirInode s.dir j 0 } (s.ind.blk i)
  let s ← rdInd s ridx
  let s ← wrInd { s with ind.size := s.ind.size - .ofNat dirSize } ridx
  return (0, s)

def remove (s : Fs) (ridx : UInt32) (name : CStr) (mode : UInt32) :
    Except Fault (Nat × Fs) := do
  let s ← rdInd s ridx
  let (found, s) ← searchName name s.ind.blocks.toNat 0 s
  match found with
  | none => return (1, s)
  | some (i, j) =>
    let s ← rdInd s (dirInode s.dir j)
    if has mode typeDir then
      if s.ind.size = .ofNat (2 * dirSize) then
        check (s.ind.blocks = 1)
        let s := { s with ind.size := 0, ind.blocks := 0 }
        let s ← removeBlock s (s.ind.blk 0)
        dropEntry s ridx i j
      else return (1, s)
    else
      let s ← freeBlocks s.ind.blocks.toNat 0 s
      dropEntry s ridx i j

/-! ## Formatting -/

def helloStr : CStr := .lit
  "#include <iostream> \nusing namespace std;\nint main()\x7b\n  cout << \"hello, world!\" << endl;\n  return 0;\n\x7d\n"

def labelStr : CStr := .lit "This is a label!\n"

/-- The object after the `memset` of `ext2_init`. -/
def blank (dev : Device) : Fs where
  gdt := .zero
  ind := .zero
  dir := .zero
  blockbitmapbuf := .zero
  inodebitmapbuf := .zero
  datablockbuf := .zero
  lastAllocBlock := 0
  lastAllocInode := 0
  currentDir := 0
  dev := dev

/-- The part of `ext2_init` that makes the root directory. -/
def initRoot (dev : Device) : Except Fault Fs := do
  let s := { blank dev with lastAllocInode := 1, lastAllocBlock := 0 }
  let s ← rdInd s 1
  let s ← rdDir s 0
  let s ← rdGd s
  let s ← wrGd { s with gdt := { s.gdt with
    blockBitmap := 2 * 512
    inodeBitmap := 3 * 512
    inodeTable := 4 * 512
    freeBlocksCount := .ofNat dataBlockCount
    freeInodesCount := .ofNat inodeTableCount
    usedDirsCount := 0 } }
  let s ← rdBlockbitmap s
  let s ← rdInodebitmap s
  let s := { s with
    ind.mode := typeDir ||| rdAble ||| wrAble
    ind.blocks := 0
    ind.size := .ofNat (2 * dirSize) }
  let (b, s) ← allocBlock s
  let s := { s with ind := { s.ind.setBlk 0 b with blocks := s.ind.blocks + 1 } }
  let (c, s) ← allocInode s
  let s := { s with currentDir := c }
  let s ← wrInd s s.currentDir
  let dir := setDirInode (setDirInode s.dir 1 s.currentDir) 0 s.currentDir
  let dir := setDirNameLen (setDirNameLen dir 1 0) 0 0
  let dir ← strcpyName dir 0 (.lit ".")
  let dir ← strcpyName dir 1 (.lit "..")
  wrDir { s with dir := dir } (s.ind.blk 0)

/-- `ext2_init`, which also makes the files `hello.cpp` and `<name>.txt`. -/
def init (dev : Device) (name : CStr) : Except Fault Fs := do
  let s ← initRoot dev
  let fileMode := typeFile ||| rdAble ||| wrAble
  let (helloCpp, s) ← create s s.currentDir (.lit "hello.cpp") fileMode
  let (_, s) ← write s helloCpp 0 helloStr.get (.ofNat helloStr.length)
  inBounds (name.length + 4 < 4096)
  let (label, s) ← create s s.currentDir (name.append (.lit ".txt")) fileMode
  let (_, s) ← write s label 0 labelStr.get (.ofNat labelStr.length)
  return s

end OsWorkbench.Ext2
