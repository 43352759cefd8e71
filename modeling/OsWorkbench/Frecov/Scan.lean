import OsWorkbench.Lib.Traced
import OsWorkbench.Frecov.Model

/-!
# The scan of an image

The model of the second half of `frecov/frecov.c`, from the boot sector to the loops of `main`
that look for names. An event stands for a decision that depends on the image: which sector is
looked up, which entry is read in which state and what state that leaves, and in which state
the latest file is looked at.
-/

namespace OsWorkbench.Frecov

inductive Visit
  | lookup (idx : Int)
  | entry (p : Int) (s : Scan)
  | read (s : Scan)
  | latest (s : Scan)

/-- The size of the mapping. -/
def imageSize : Nat := 2 ^ 26

/-- The fields of `struct FAT32` that the scan uses. -/
structure Fat32 where
  sectorSize : Int
  fatAmount : Int
  sectorAmount : Int
  fatSize : Int
  deriving DecidableEq

/-- `sector_amount`, which stands in one of two places. -/
def readSectorAmount (img : List UInt8) : Except Fault Int := do
  let n ← readNum img 0x13 2
  if n = 0 then readNum img 0x20 4 else return n

def readFat32Info (img : List UInt8) : Except Fault Fat32 := do
  let sectorSize ← readNum img 0x0b 2
  let fatAmount ← readNum img 0x10 1
  let sectorAmount ← readSectorAmount img
  let fatSize ← readNum img 0x24 4
  return ⟨sectorSize, fatAmount, sectorAmount, fatSize⟩

/-- `strncmp` with a string without NUL is 0. -/
def matchesAt (img : List UInt8) : List UInt8 → Int → Except Fault Bool
  | [], _ => .ok true
  | c :: cs, p => do
    let b ← byte img p
    if b = c then matchesAt img cs (p + 1) else return false

/-- The first bytes of a file allocation table. -/
def fatSignature : List UInt8 := [0xf8, 0xff, 0xff, 0x0f]

/-- The loop over `fat_begin`. -/
def findFat (img : List UInt8) (sectorSize : Int) : Nat → Int → Except Fault Int
  | 0, _ => .error .diverges
  | fuel + 1, fatBegin => do
    let found ← matchesAt img fatSignature fatBegin
    if found then return fatBegin else findFat img sectorSize fuel (wrap (fatBegin + sectorSize))

/-- The number of times the loop `for(int i = 0; i < fat32.sector_size; i += 0x20)` runs. -/
def entriesPerSector (sectorSize : Int) : Nat := ((sectorSize + 0x1f) / 0x20).toNat

/-- The loop over the entries of a sector. -/
def readSector (img : List UInt8) (sectorSize : Int) :
    Nat → Int → Scan → Traced Fault Visit Scan
  | 0, _, s => return s
  | n + 1, p, s => do
    .emit (.entry p s)
    let s ← .lift (readNamePosition img sectorSize p s)
    .emit (.read s)
    readSector img sectorSize n (p + 0x20) s

/-- The length of `sector_visit`. -/
def visitLength : Nat := 2 ^ 16 - 1

/-- The index into `sector_visit`. -/
def visitIndex (idx : Int) : Nat := (idx % 2 ^ 16).toNat

def setVisit (s : Scan) (k : Nat) : Scan :=
  { s with sectorVisit := Function.update s.sectorVisit k true }

/-- The sector that is read. -/
def searchSector (img : List UInt8) (sectorSize offset : Int) (s : Scan) :
    Traced Fault Visit (Int × Scan) := do
  let t ← readSector img sectorSize (entriesPerSector sectorSize) offset s
  return (wrap (t.totFile - s.totFile), t)

/-- `search_bmp_name_position`, with what it returns. -/
def searchBmpNamePosition (img : List UInt8) (sectorSize offset idx : Int) (s : Scan) :
    Traced Fault Visit (Int × Scan) :=
  if 512 ≤ s.totFile then return (0, s)
  else do
    .emit (.lookup idx)
    let k ← .lift (index (visitIndex idx) visitLength)
    if s.sectorVisit k then return (0, s)
    else searchSector img sectorSize offset (setVisit s k)

/-- `actual_tot_file` -/
def actualTotFile (s : Scan) : Int := if s.top = 0 then s.totFile - 1 else s.totFile - 2

def setVisited (s : Scan) (i : Nat) : Scan :=
  { s with file := Function.update s.file i { s.file i with visited := true } }

/-- `deep_search_bmp_name_position`. -/
def deepSearchBmpNamePosition (img : List UInt8) (sectorSize offset : Int) (s : Scan) :
    Traced Fault Visit (Int × Scan) := do
  .emit (.latest s)
  let i ← .lift (index (actualTotFile s) fileLength)
  if (s.file i).visited then return (0, s)
  else
    let next := (s.file i).nextSector
    if unsigned next ≤ 0xffff then
      searchBmpNamePosition img sectorSize (wrap (offset + wrap (wrap (next - 2) * sectorSize)))
        next (setVisited s i)
    else return (0, setVisited s i)

/-- The loop `while(deep_search_bmp_name_position(...))`. -/
def deepLoop (img : List UInt8) (sectorSize offset : Int) :
    Nat → Scan → Traced Fault Visit Scan
  | 0, _ => .lift (.error .diverges)
  | fuel + 1, s => do
    let r ← deepSearchBmpNamePosition img sectorSize offset s
    if r.1 ≠ 0 then deepLoop img sectorSize offset fuel r.2 else return r.2

/-- The last loop of the scan, over all sectors. -/
def sectorLoop (img : List UInt8) (f : Fat32) (dataStart : Int) :
    Nat → Int → Scan → Traced Fault Visit Scan
  | 0, _, _ => .lift (.error .diverges)
  | fuel + 1, i, s =>
    let sector := wrap (dataStart + wrap (i - 2))
    if sector < f.sectorAmount then do
      let r ← searchBmpNamePosition img f.sectorSize (wrap (sector * f.sectorSize)) i s
      sectorLoop img f dataStart fuel (wrap (i + 1)) r.2
    else return s

/-- More than the number of `int`s. -/
@[irreducible] def loopBound : Nat := 2 ^ 32 + 1

/-- The scan of `main`, behind the search for the file allocation table. -/
def searchAll (img : List UInt8) (f : Fat32) (fatBegin : Int) : Traced Fault Visit Scan := do
  let fatTotSize := wrap (wrap (f.fatAmount * f.fatSize) * f.sectorSize)
  let dataStart ← .lift (sectors (wrap (fatBegin + fatTotSize)) f.sectorSize)
  let first ← searchBmpNamePosition img f.sectorSize (wrap (wrap (dataStart + 1) * f.sectorSize)) 3
    .start
  let s ← deepLoop img f.sectorSize (wrap (fatBegin + fatTotSize)) (visitLength + 2) first.2
  sectorLoop img f dataStart loopBound 4 s

/-- The scan of `main`. -/
def scan (img : List UInt8) : Traced Fault Visit Scan := do
  let f ← .lift (readFat32Info img)
  let fatBegin ← .lift (findFat img f.sectorSize (img.length + 1) 0)
  searchAll img f fatBegin

end OsWorkbench.Frecov
