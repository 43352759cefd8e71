import OsWorkbench.Basic
import OsWorkbench.Lib.CString

/-!
# The key-value store

The model of `libkvdb/kvdb.c`. A process holds a `kvdb_t` and the global buffers;
the disk maps file names to files. The mutex is held over `kvdb_put` and
`kvdb_get`, so each of them is one step. `fopen` succeeds, and a `char` array
whose only reader is `strcmp`, `strcpy` or `printf` is the C string it holds.
-/

namespace OsWorkbench.Kvdb

def keyLength : Nat := 256
def filenameLength : Nat := 256
def itemsSize : Nat := 256
def datasSize : Nat := 12 * 1024
def dataLength : Nat := 4 * 1024
def maxLength : Nat := 32 * 1024 * 1024

/-- The number of rows of `vec`, `readbuf` and `writebuf`. -/
def rows : Nat := maxLength / dataLength

/-- `node_t`. -/
structure Node where
  data : Nat → UInt8
  used : Int
  next : Int

/-- `item_t`. -/
structure Item where
  head : Int
  size : Int
  key : CStr

/-- `kvdb_t` without its mutex. -/
structure Db where
  filename : Nat → UInt8
  copyname : Nat → UInt8
  logname : Nat → UInt8
  size : Int
  items : Nat → Item
  datas : Nat → Node

/-- A `kvdb_t` of zeros. -/
def Db.zero : Db where
  filename _ := 0
  copyname _ := 0
  logname _ := 0
  size := 0
  items _ := ⟨0, 0, CStr.ofBytes []⟩
  datas _ := ⟨fun _ => 0, 0, 0⟩

/-- A process: the object `*db` and the globals of `kvdb.c` that outlive a call. -/
structure Proc where
  db : Db
  readbuf : Nat → UInt8
  writebuf : Nat → UInt8
  value : CStr

/-- A new process, with its globals zero. -/
def Proc.zero : Proc where
  db := .zero
  readbuf _ := 0
  writebuf _ := 0
  value := CStr.ofBytes []

/-- A file: the image of a `kvdb_t`, or text. A file just truncated is empty text. -/
inductive File
  | image (db : Db)
  | text (bs : List UInt8)

abbrev Disk := CStr → Option File

/-- `(size + DATA_LENGTH - 1) / DATA_LENGTH`. Of the size of an item `kvdb_alloc`
has made sure that the sum is an `int`. -/
def blocks (size : Int) : Int := (size + dataLength - 1).tdiv dataLength

/-! ## Blocks and items -/

def kvdbGetUnusedIdx (db : Db) (k : Int) : Int :=
  if k < 0 then -1
  else
    match (List.range' k.toNat (datasSize - k.toNat)).find? fun i => (db.datas i).used == 0 with
    | some i => i
    | none => -1

/-- The first loop of `kvdb_alloc`; `none` for its `return 1`. -/
def kvdbAllocLoop (db : Db) : Nat → Int → List Int → Except Fault (Option (List Int))
  | 0, _, vec => .ok (some vec)
  | n + 1, k, vec =>
    let k := kvdbGetUnusedIdx db (k + 1)
    if k = -1 then .ok none
    else do
      inBounds (vec.length < rows)
      kvdbAllocLoop db n k (vec ++ [k])

/-- The second loop of `kvdb_alloc`, where `vec[need]` is `-1`. -/
def kvdbChain (datas : Nat → Node) : List Int → Nat → Node
  | [] => datas
  | x :: vec =>
    kvdbChain (Function.update datas x.toNat
      { datas x.toNat with used := 1, next := vec.headD (-1) }) vec

def kvdbAlloc (db : Db) (size : Int) (key : CStr) : Except Fault (Int × Db) := do
  let _ ← int (size + dataLength)
  let need := blocks size
  match ← kvdbAllocLoop db need.toNat (-1) [] with
  | none => return (1, db)
  | some vec =>
    if (vec.length : Int) ≠ need then return (1, db)
    inBounds (vec.length < rows)
    let i ← index db.size itemsSize
    inBounds (key.length < keyLength)
    return (0, { db with
      datas := kvdbChain db.datas vec
      items := Function.update db.items i ⟨vec.headD (-1), size, key⟩
      size := db.size + 1 })

def kvdbFreeLoop (datas : Nat → Node) : Nat → Int → Except Fault ((Nat → Node) × Int)
  | 0, x => .ok (datas, x)
  | n + 1, x => do
    let i ← index x datasSize
    kvdbFreeLoop (Function.update datas i { datas i with used := 0 }) n (datas i).next

def kvdbFree (db : Db) (itemIdx : Int) : Except Fault (Int × Db) := do
  let i ← index itemIdx itemsSize
  let (datas, x) ← kvdbFreeLoop db.datas (blocks (db.items i).size).toNat (db.items i).head
  let db := { db with datas := datas }
  if x ≠ -1 then return (1, db)
  let last ← index (db.size - 1) itemsSize
  return (0, { db with
    items := Function.update db.items i (db.items last)
    size := db.size - 1 })

def kvdbReadLoop (datas : Nat → Node) :
    Nat → Nat → Int → (Nat → UInt8) → Except Fault ((Nat → UInt8) × Int)
  | 0, _, x, readbuf => .ok (readbuf, x)
  | n + 1, cnt, x, readbuf => do
    inBounds (cnt < rows)
    let i ← index x datasSize
    kvdbReadLoop datas n (cnt + 1) (datas i).next
      (strncpy readbuf (dataLength * cnt) (datas i).data dataLength)

def kvdbRead (p : Proc) (itemIdx : Int) : Except Fault (Int × Proc) := do
  let i ← index itemIdx itemsSize
  let (readbuf, x) ← kvdbReadLoop p.db.datas (blocks (p.db.items i).size).toNat 0
    (p.db.items i).head p.readbuf
  let p := { p with readbuf := readbuf }
  if x ≠ -1 then return (1, p)
  return (0, p)

def kvdbWriteLoop (writebuf : Nat → UInt8) :
    Nat → Nat → Int → (Nat → Node) → Except Fault ((Nat → Node) × Int)
  | 0, _, x, datas => .ok (datas, x)
  | n + 1, cnt, x, datas => do
    inBounds (cnt < rows)
    let i ← index x datasSize
    let row := fun j => writebuf (dataLength * cnt + j)
    kvdbWriteLoop writebuf n (cnt + 1) (datas i).next
      (Function.update datas i { datas i with data := strncpy (datas i).data 0 row dataLength })

def kvdbWrite (p : Proc) (itemIdx : Int) : Except Fault (Int × Proc) := do
  let i ← index itemIdx itemsSize
  let (datas, x) ← kvdbWriteLoop p.writebuf (blocks (p.db.items i).size).toNat 0
    (p.db.items i).head p.db.datas
  let p := { p with db := { p.db with datas := datas } }
  if x ≠ -1 then return (1, p)
  return (0, p)

def kvdbSearchKey (db : Db) (key : CStr) : Int :=
  match (List.range' 0 db.size.toNat).find? fun i => (db.items i).key == key with
  | some i => i
  | none => -1

/-- `if (item_idx >= 0) kvdb_free(db, item_idx)`. -/
def freeIfFound (db : Db) (itemIdx : Int) : Except Fault Db := do
  if 0 ≤ itemIdx then
    let (_, db) ← kvdbFree db itemIdx
    return db
  else return db

/-- `strcpy((char *)writebuf, value)`. -/
def copyToWritebuf (p : Proc) (value : CStr) : Except Fault Proc := do
  inBounds (value.length < maxLength)
  return { p with writebuf := strcpy p.writebuf value }

/-! ## The log -/

def kvdbPutRedo (p : Proc) (key value : CStr) : Except Fault Proc := do
  let itemIdx := kvdbSearchKey p.db key
  let db ← freeIfFound p.db itemIdx
  let (r, db) ← kvdbAlloc db (toInt value.length) key
  if r ≠ 0 then throw .exit
  let p ← copyToWritebuf { p with db := db } value
  let (r, p) ← kvdbWrite p (p.db.size - 1)
  if r ≠ 0 then throw .exit
  return p

def kvdbGetRedo (p : Proc) (key : CStr) : Except Fault Proc := do
  let itemIdx := kvdbSearchKey p.db key
  if itemIdx = -1 then return p
  let (r, db) ← kvdbFree p.db itemIdx
  if r ≠ 0 then throw .exit
  return { p with db := db }

/-- `fscanf(lp, "%3s %s ", operation, key)`: the two words and the rest of the
stream, or nothing unless both conversions succeed. -/
def scanRecord (bs : List UInt8) : Option (List UInt8 × List UInt8 × List UInt8) :=
  let bs := skipSpace bs
  let operation := scanWord (bs.take 3)
  if operation = [] then none
  else
    let bs := skipSpace (bs.drop operation.length)
    let key := scanWord bs
    if key = [] then none else some (operation, key, skipSpace (bs.drop key.length))

/-- `fgets(value, MAX_LENGTH, lp)`: at the end of the file `value` keeps its
contents. -/
def readValue (value : CStr) (bs : List UInt8) : CStr × List UInt8 :=
  match fgets maxLength bs with
  | some (line, rest) => (CStr.ofBytes line, rest)
  | none => (value, bs)

/-- `"put"` and `"get"`. -/
def verbPut : List UInt8 := [112, 117, 116]
def verbGet : List UInt8 := [103, 101, 116]

/-- The loop of `redo_operation`. Every round reads at least two bytes. -/
def redoLoop : Nat → Proc → List UInt8 → Except Fault Proc
  | 0, _, _ => .error .diverges
  | fuel + 1, p, bs =>
    match scanRecord bs with
    | none => .ok p
    | some (operation, key, rest) => do
      inBounds (key.length < keyLength)
      if (CStr.ofBytes operation).bytes = verbPut then
        let (value, rest) := readValue p.value rest
        inBounds (0 < value.length)
        let p := { p with value := value.dropLast }
        let p ← kvdbPutRedo p (CStr.ofBytes key) p.value
        redoLoop fuel p rest
      else if (CStr.ofBytes operation).bytes = verbGet then
        let p ← kvdbGetRedo p (CStr.ofBytes key)
        redoLoop fuel p rest
      else throw .exit

def redoOperation (p : Proc) (bs : List UInt8) : Except Fault Proc := redoLoop (bs.length + 1) p bs

/-- `fprintf(lp, "put %s %s\n", key, value)`. -/
def putRecord (key value : CStr) : List UInt8 :=
  verbPut ++ [32] ++ key.bytes ++ [32] ++ value.bytes ++ [10]

/-- `fprintf(lp, "get %s \n", key)`. -/
def getRecord (key : CStr) : List UInt8 := verbGet ++ [32] ++ key.bytes ++ [32, 10]

/-! ## Files -/

def Disk.write (d : Disk) (name : CStr) (f : File) : Disk := Function.update d name (some f)

def Disk.unlink (d : Disk) (name : CStr) : Disk := Function.update d name none

/-- The text of a file; an image is never read as text. -/
def Disk.textOf (d : Disk) (name : CStr) : List UInt8 :=
  match d name with
  | some (.text bs) => bs
  | _ => []

/-- `fopen(name, "at")`, one `fprintf` and `fclose`. -/
def Disk.append (d : Disk) (name : CStr) (bs : List UInt8) : Disk :=
  d.write name (.text (d.textOf name ++ bs))

/-- `fread(db, sizeof(kvdb_t), 1, fp)`; a file without a whole image leaves the
object as it was. -/
def Disk.readImage (d : Disk) (name : CStr) (db : Db) : Db :=
  match d name with
  | some (.image db') => db'
  | _ => db

/-- The string in one of the name arrays. -/
def nameOf (buf : Nat → UInt8) : CStr := CStr.ofBuf buf filenameLength

/-- `strcat(buf, ext)` on a name array. -/
def appendExt (buf : Nat → UInt8) (ext : CStr) : Except Fault (Nat → UInt8) := do
  let n := (nameOf buf).length
  inBounds (n + ext.length < filenameLength)
  return fun p => if n ≤ p ∧ p ≤ n + ext.length then ext.get (p - n) else buf p

/-- The first lines of `kvdb_open`: the three names. -/
def kvdbNames (db : Db) (filename : CStr) : Except Fault Db := do
  let len := filename.length
  inBounds (3 ≤ len ∧ len ≤ filenameLength)
  let copyname ← appendExt (strncpy db.copyname 0 filename.get (len - 3)) (CStr.lit ".dbc")
  let logname ← appendExt (strncpy db.logname 0 filename.get (len - 3)) (CStr.lit ".log")
  return { db with
    filename := strncpy db.filename 0 filename.get len
    copyname := copyname
    logname := logname }

def kvdbOpen (p : Proc) (d : Disk) (filename : CStr) : Except Fault (Int × Proc × Disk) := do
  let db ← kvdbNames p.db filename
  let file := nameOf db.filename
  let copy := nameOf db.copyname
  let log := nameOf db.logname
  if (d copy).isSome ∧ (d log).isSome then
    -- recover
    let d := d.write file (.text [])
    let p := { p with db := d.readImage copy db }
    let p ← redoOperation p (d.textOf log)
    let d := d.write file (.image p.db)
    -- the names of the object are now those of the image
    let d := d.write (nameOf p.db.logname) (.text [])
    return (0, p, d)
  else if (d file).isSome then
    -- open
    let p := { p with db := d.readImage file db }
    let d := (d.write copy (.image p.db)).write log (.text [])
    return (0, p, d)
  else
    -- create
    let d := ((d.write file (.image db)).write copy (.image db)).write log (.text [])
    return (0, { p with db := db }, d)

def kvdbClose (p : Proc) (d : Disk) : Int × Proc × Disk :=
  let d := d.write (nameOf p.db.filename) (.image p.db)
  (0, p, (d.unlink (nameOf p.db.copyname)).unlink (nameOf p.db.logname))

/-! ## Calls -/

def kvdbPut (p : Proc) (d : Disk) (key value : CStr) : Except Fault (Int × Proc × Disk) := do
  let itemIdx := kvdbSearchKey p.db key
  let db ← freeIfFound p.db itemIdx
  let (r, db) ← kvdbAlloc db (toInt value.length) key
  let p := { p with db := db }
  if r ≠ 0 then return (1, p, d)
  let p ← copyToWritebuf p value
  let (r, p) ← kvdbWrite p (p.db.size - 1)
  if r ≠ 0 then return (1, p, d)
  return (0, p, d.append (nameOf p.db.logname) (putRecord key value))

/-- The result is `false` for `NULL` and `true` for `(char *)readbuf`. -/
def kvdbGet (p : Proc) (d : Disk) (key : CStr) : Except Fault (Bool × Proc × Disk) := do
  let itemIdx := kvdbSearchKey p.db key
  if itemIdx = -1 then return (false, p, d)
  let (r, p) ← kvdbRead p itemIdx
  if r ≠ 0 then return (false, p, d)
  let (r, db) ← kvdbFree p.db itemIdx
  let p := { p with db := db }
  if r ≠ 0 then return (false, p, d)
  return (true, p, d.append (nameOf p.db.logname) (getRecord key))

/-- The string that the pointer returned by `kvdb_get` denotes. -/
def Proc.str (p : Proc) : CStr := CStr.ofBuf p.readbuf maxLength

end OsWorkbench.Kvdb
