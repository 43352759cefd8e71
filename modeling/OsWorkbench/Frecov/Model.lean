import OsWorkbench.Lib.CString
import OsWorkbench.Basic

/-!
# The names that `frecov` finds

The model of the first half of `frecov/frecov.c`: how the names, positions and sizes of files
are read from the entries of a directory. The image is the list of its bytes, and a read
outside is a fault. An `int` wraps around where the C code does arithmetic with it. A file
name stands for its bytes up to the terminator.
-/

namespace OsWorkbench.Frecov

/-- Arithmetic on an `int`. -/
def wrap (v : Int) : Int := v.bmod (2 ^ 32)

/-- The conversion to `unsigned int`. -/
def unsigned (v : Int) : Nat := (v % 2 ^ 32).toNat

/-- The byte at `p`. -/
def byte (img : List UInt8) (p : Int) : Except Fault UInt8 := do
  let k ← index p img.length
  return img.getD k 0

/-- The loop of `read_num`, with the bytes from `i - 1` on still to be read. -/
def readNumLoop (img : List UInt8) (p : Int) : Nat → Int → Except Fault Int
  | 0, ret => .ok ret
  | i + 1, ret => do
    let b ← byte img (p + i)
    readNumLoop img p i (wrap (wrap (ret * 2 ^ 8) + b.toNat))

def readNum (img : List UInt8) (p : Int) (len : Nat) : Except Fault Int :=
  readNumLoop img p len 0

/-- The loop of `read_unicode`, which copies every other byte; `k` is the offset in `dest`. -/
def readUnicode (img : List UInt8) (src : Int) :
    Nat → Nat → (Nat → UInt8) → Except Fault (Nat → UInt8)
  | 0, _, dest => .ok dest
  | len + 1, k, dest => do
    let c ← byte img src
    readUnicode img (src + 2) len (k + 1) (Function.update dest k c)

/-- A file name that starts with the terminator. -/
def noName : CStr := ⟨[], List.not_mem_nil⟩

/-- `struct myFILE`. -/
structure MyFile where
  filename : CStr
  position : Int
  filesize : Int
  nextSector : Int
  visited : Bool

/-- The length of `file`. -/
def fileLength : Nat := 1024

/-- The number of rows of `buf`. -/
def bufRows : Nat := 64

/-- The length of a row of `buf`, and of a file name. -/
def nameLength : Nat := 256

/-- The variables of the scan. -/
structure Scan where
  file : Nat → MyFile
  totFile : Int
  buf : Nat → Nat → UInt8
  top : Nat
  sectorVisit : Nat → Bool

/-- The state in which the program starts. -/
def Scan.start : Scan where
  file _ := ⟨noName, 0, 0, 0, false⟩
  totFile := 0
  buf _ _ := 0
  top := 0
  sectorVisit _ := false

def isValid (key : Int) : Bool := decide (0x01 ≤ key ∧ key ≤ 0x1f ∨ 0x41 ≤ key ∧ key ≤ 0x5f)

/-- The condition under which an entry is a piece of a long name. -/
def longEntry (img : List UInt8) (p : Int) : Except Fault Bool := do
  let attr ← byte img (p + 0x0b)
  if attr = 0x0f then do
    let type ← byte img (p + 0x0c)
    if type = 0x00 then do
      let key ← readNum img p 1
      return isValid key
    else return false
  else return false

/-- A piece is put on the stack. -/
def pushPiece (img : List UInt8) (p : Int) (s : Scan) : Except Fault Scan := do
  inBounds (s.top < bufRows)
  let row ← readUnicode img (p + 0x01) 5 0 (s.buf s.top)
  let row ← readUnicode img (p + 0x0e) 6 5 row
  let row ← readUnicode img (p + 0x1c) 2 11 row
  return { s with buf := Function.update s.buf s.top row, top := s.top + 1 }

/-- The string in a row of `buf`. -/
def rowString (row : Nat → UInt8) : Except Fault CStr := do
  inBounds (∃ i < nameLength, row i = 0)
  return CStr.ofBuf row nameLength

def strcat (dest src : CStr) : Except Fault CStr := do
  inBounds (dest.length + src.length < nameLength)
  return dest.append src

/-- The loop `while(top)`. -/
def popPieces (buf : Nat → Nat → UInt8) : Nat → CStr → Except Fault CStr
  | 0, name => .ok name
  | top + 1, name => do
    inBounds (top < bufRows)
    let piece ← rowString (buf top)
    let name ← strcat name piece
    popPieces buf top name

/-- `file->filesize / fat32.sector_size` -/
def sectors (filesize sectorSize : Int) : Except Fault Int :=
  if sectorSize = 0 then .error .divide else .ok (wrap (filesize.tdiv sectorSize))

/-- The short entry behind the pieces of a name. -/
def closeName (img : List UInt8) (sectorSize p : Int) (f : Int) (s : Scan) :
    Except Fault Scan := do
  let i ← index f fileLength
  let name ← popPieces s.buf s.top (s.file i).filename
  let high ← readNum img (p + 0x14) 2
  let low ← readNum img (p + 0x1a) 2
  let position := wrap (wrap (high * 2 ^ 16) + low)
  let filesize ← readNum img (p + 0x1c) 4
  let n ← sectors filesize sectorSize
  let nextSector := wrap (wrap (position + n) + 1)
  let found : MyFile := ⟨name, position, filesize, nextSector, (s.file i).visited⟩
  if 0xffff < unsigned nextSector then
    return { s with
      file := Function.update s.file i { found with filename := noName }
      totFile := s.totFile - 1
      top := 0 }
  else return { s with file := Function.update s.file i found, top := 0 }

/-- `read_name_position_do`, with the index of `file` in `file`. -/
def readNamePositionDo (img : List UInt8) (sectorSize p f : Int) (s : Scan) :
    Except Fault Scan := do
  let long ← longEntry img p
  if long then pushPiece img p s
  else if s.top ≠ 0 then closeName img sectorSize p f s
  else return { s with totFile := s.totFile - 1 }

def readNamePosition (img : List UInt8) (sectorSize p : Int) (s : Scan) : Except Fault Scan :=
  if s.top = 0 then
    readNamePositionDo img sectorSize p s.totFile { s with totFile := s.totFile + 1 }
  else readNamePositionDo img sectorSize p (s.totFile - 1) s

/-- `n` entries, the first one at `p`. -/
def readEntries (img : List UInt8) (sectorSize : Int) : Nat → Int → Scan → Except Fault Scan
  | 0, _, s => .ok s
  | n + 1, p, s => do
    let s ← readNamePosition img sectorSize p s
    readEntries img sectorSize n (p + 0x20) s

end OsWorkbench.Frecov
