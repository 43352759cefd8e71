import OsWorkbench.Kvdb.Ops

/-!
# File names, and the three ways to open a database
-/

namespace OsWorkbench.Kvdb

/-! ## Names -/

def copyName (f : CStr) : CStr := (f.take (f.length - 3)).append (.lit ".dbc")

def logName (f : CStr) : CStr := (f.take (f.length - 3)).append (.lit ".log")

/-- A file name that fits, with its extension replaced, into the name arrays. -/
def ValidName (f : CStr) : Prop := 3 ≤ f.length ∧ f.length + 1 < filenameLength

/-- The name arrays hold the names derived from `f`. -/
structure Named (db : Db) (f : CStr) : Prop where
  filename : nameOf db.filename = f
  copyname : nameOf db.copyname = copyName f
  logname : nameOf db.logname = logName f

theorem SameNames.named {db db' : Db} {f : CStr} (h : SameNames db db') (hn : Named db f) :
    Named db' f :=
  ⟨by rw [h.filename]; exact hn.filename, by rw [h.copyname]; exact hn.copyname,
    by rw [h.logname]; exact hn.logname⟩

theorem nameOf_eq_iff {buf : Nat → UInt8} {s : CStr} (h : s.length < filenameLength) :
    nameOf buf = s ↔ (∀ i, i < s.length → buf i = s.get i) ∧ buf s.length = 0 :=
  CStr.ofBuf_eq_iff h

/-- `strncpy` of a prefix writes no terminator: the array holds the prefix iff one
was there. -/
theorem nameOf_strncpy_iff {buf : Nat → UInt8} {f : CStr} {n : Nat} (hn : n ≤ f.length)
    (hlt : n < filenameLength) : nameOf (strncpy buf 0 f.get n) = f.take n ↔ buf n = 0 := by
  have hcopy := strncpy_get buf 0 f 0 n
  simp only [Nat.zero_add, Nat.zero_le, true_and, Nat.sub_zero] at hcopy
  have hlen := CStr.length_take hn
  rw [hcopy, nameOf_eq_iff (by omega), hlen, if_neg (lt_irrefl n), and_iff_right_iff_imp]
  intro _ i hi
  rw [CStr.get_take hi]
  exact if_pos hi

theorem appendExt_ok {buf : Nat → UInt8} {s : CStr} (ext : CStr) (hs : nameOf buf = s)
    (h : s.length + ext.length < filenameLength) :
    ∃ buf', appendExt buf ext = .ok buf' ∧ nameOf buf' = s.append ext := by
  have hb := (nameOf_eq_iff (by omega)).mp hs
  refine ⟨fun p => if s.length ≤ p ∧ p ≤ s.length + ext.length then ext.get (p - s.length)
    else buf p, ?_, ?_⟩
  · unfold appendExt
    rw [hs]
    simp only
    rw [inBounds_bind h, pure_eq_ok]
  · rw [nameOf_eq_iff (by rw [CStr.length_append]; exact h), CStr.length_append]
    refine ⟨fun i hi => ?_, ?_⟩
    · rw [CStr.get_append]
      by_cases hlt : i < s.length
      · rw [if_neg (by omega), if_pos hlt, hb.1 i hlt]
      · rw [if_pos (by omega), if_neg hlt]
    · rw [if_pos (by omega), CStr.get_eq_zero]
      omega

/-- What an `appendExt` that stays in bounds leaves behind. -/
theorem nameOf_appendExt {buf buf' : Nat → UInt8} {ext : CStr} (h : appendExt buf ext = .ok buf') :
    nameOf buf' = (nameOf buf).append ext := by
  obtain ⟨_, hlt, -⟩ := bind_eq_ok.mp h
  obtain ⟨buf'', hok, hname⟩ := appendExt_ok ext rfl (inBounds_eq_ok.mp hlt)
  rw [h] at hok
  cases hok
  exact hname

theorem take_length (f : CStr) : f.take f.length = f := CStr.ext List.take_length

/-- The bytes of the name arrays that `kvdb_open` does not write end the names. -/
structure Terminated (db : Db) (f : CStr) : Prop where
  filename : db.filename f.length = 0
  copyname : db.copyname (f.length - 3) = 0
  logname : db.logname (f.length - 3) = 0

/-- The names that `kvdb_open` derives over bytes that end them. -/
theorem kvdbNames_ok {db : Db} {f : CStr} (hf : ValidName f) (h : Terminated db f) :
    ∃ db', kvdbNames db f = .ok db' ∧ Named db' f ∧ db'.size = db.size ∧ db'.datas = db.datas := by
  obtain ⟨h3, hlen⟩ := hf
  have hpre : (f.take (f.length - 3)).length = f.length - 3 := CStr.length_take (by omega)
  have hdbc : (CStr.lit ".dbc").length = 4 := by decide
  have hlog : (CStr.lit ".log").length = 4 := by decide
  obtain ⟨copyname, hc, hcn⟩ := appendExt_ok (.lit ".dbc")
    ((nameOf_strncpy_iff (f := f) (by omega) (by omega)).mpr h.copyname) (by omega)
  obtain ⟨logname, hl, hln⟩ := appendExt_ok (.lit ".log")
    ((nameOf_strncpy_iff (f := f) (by omega) (by omega)).mpr h.logname) (by omega)
  refine ⟨{ db with
    filename := strncpy db.filename 0 f.get f.length, copyname := copyname, logname := logname },
    ?_, ⟨?_, hcn, hln⟩, rfl, rfl⟩
  · unfold kvdbNames
    rw [inBounds_bind (by omega), hc, ok_bind, hl, ok_bind, pure_eq_ok]
  · have hname := (nameOf_strncpy_iff (le_refl f.length) (by omega)).mpr h.filename
    rwa [take_length] at hname

/-- The names come out right over no other bytes. -/
theorem terminated_of_named {db db' : Db} {f : CStr} (hf : ValidName f)
    (h : kvdbNames db f = .ok db') (hn : Named db' f) :
    Terminated db f ∧ db'.size = db.size ∧ db'.datas = db.datas := by
  obtain ⟨h3, hlen⟩ := hf
  obtain ⟨_, -, h⟩ := bind_eq_ok.mp h
  obtain ⟨copyname, hc, h⟩ := bind_eq_ok.mp h
  obtain ⟨logname, hl, h⟩ := bind_eq_ok.mp h
  cases h
  have hprefix : ∀ {buf buf' : Nat → UInt8} {ext : CStr},
      appendExt (strncpy buf 0 f.get (f.length - 3)) ext = .ok buf' →
      nameOf buf' = (f.take (f.length - 3)).append ext → buf (f.length - 3) = 0 := by
    intro buf buf' ext happ hname
    rw [nameOf_appendExt happ] at hname
    have hcut := List.append_cancel_right (congrArg CStr.bytes hname)
    exact (nameOf_strncpy_iff (by omega) (by omega)).mp (CStr.ext hcut)
  refine ⟨⟨?_, hprefix hc hn.copyname, hprefix hl hn.logname⟩, rfl, rfl⟩
  refine (nameOf_strncpy_iff (le_refl f.length) (by omega)).mp ?_
  rw [take_length]
  exact hn.filename

/-- The names that `kvdb_open` derives in a zeroed `kvdb_t`. -/
theorem kvdbNames_zero {f : CStr} (hf : ValidName f) :
    ∃ db, kvdbNames .zero f = .ok db ∧ Named db f ∧ db.size = 0 ∧ db.datas = Db.zero.datas :=
  kvdbNames_ok hf ⟨rfl, rfl, rfl⟩

theorem length_copyName {f : CStr} (hf : ValidName f) : (copyName f).length = f.length + 1 := by
  have hlit : (CStr.lit ".dbc").length = 4 := by decide
  have := hf.1
  rw [copyName, CStr.length_append, CStr.length_take (by omega), hlit]
  omega

theorem length_logName {f : CStr} (hf : ValidName f) : (logName f).length = f.length + 1 := by
  have hlit : (CStr.lit ".log").length = 4 := by decide
  have := hf.1
  rw [logName, CStr.length_append, CStr.length_take (by omega), hlit]
  omega

theorem copyName_ne {f : CStr} (hf : ValidName f) : copyName f ≠ f := by
  intro h
  have := length_copyName hf
  rw [h] at this
  omega

theorem logName_ne {f : CStr} (hf : ValidName f) : logName f ≠ f := by
  intro h
  have := length_logName hf
  rw [h] at this
  omega

theorem copyName_ne_logName (f : CStr) : copyName f ≠ logName f := by
  intro h
  have := List.append_cancel_left (congrArg CStr.bytes h)
  revert this
  decide

/-! ## Opening -/

@[simp] theorem write_self (d : Disk) (n : CStr) (x : File) : d.write n x n = some x :=
  Function.update_self ..

theorem write_of_ne (d : Disk) {n n' : CStr} (x : File) (h : n' ≠ n) : d.write n x n' = d n' :=
  Function.update_of_ne h ..

theorem write_comm (d : Disk) {n n' : CStr} (h : n ≠ n') (x y : File) :
    (d.write n x).write n' y = (d.write n' y).write n x :=
  Function.update_comm h ..

@[simp] theorem write_write (d : Disk) (n : CStr) (x y : File) :
    (d.write n x).write n y = d.write n y :=
  Function.update_idem ..

/-- The disk after a complete `kvdb_open`: the copy holds the snapshot that the
empty log is relative to. -/
structure Opened (d : Disk) (f : CStr) (snapshot : Db) : Prop where
  copy : d (copyName f) = some (.image snapshot)
  log : d (logName f) = some (.text [])
  file : (d f).isSome

/-- The create path: the object as it stands is written to both files. -/
theorem kvdbOpen_names {p : Proc} {f : CStr} {d : Disk} {db : Db} (hdb : kvdbNames p.db f = .ok db)
    (hn : Named db f) (hcopy : d (copyName f) = none) (hfile : d f = none) :
    kvdbOpen p d f = .ok (0, { p with db := db },
      ((d.write f (.image db)).write (copyName f) (.image db)).write (logName f) (.text [])) := by
  unfold kvdbOpen
  rw [hdb, ok_bind]
  simp only
  rw [hn.filename, hn.copyname, hn.logname, hcopy, hfile, if_neg (by simp), if_neg (by simp),
    pure_eq_ok]

theorem kvdbOpen_create {f : CStr} (hf : ValidName f) {d : Disk} (hcopy : d (copyName f) = none)
    (hfile : d f = none) :
    ∃ p d', kvdbOpen .zero d f = .ok (0, p, d') ∧ Named p.db f ∧ p.db.size = 0 ∧
      p.db.datas = Db.zero.datas ∧ Opened d' f p.db := by
  obtain ⟨db, hdb, hn, hs, hdatas⟩ := kvdbNames_zero hf
  refine ⟨{ Proc.zero with db := db },
    ((d.write f (.image db)).write (copyName f) (.image db)).write (logName f) (.text []),
    kvdbOpen_names hdb hn hcopy hfile, hn, hs, hdatas, ?_⟩
  constructor
  · rw [write_of_ne _ _ (copyName_ne_logName f), write_self]
  · rw [write_self]
  · rw [write_of_ne _ _ (logName_ne hf).symm, write_of_ne _ _ (copyName_ne hf).symm, write_self]
    rfl

theorem kvdbOpen_open {f : CStr} (hf : ValidName f) {d : Disk} {db : Db}
    (hleft : ¬((d (copyName f)).isSome ∧ (d (logName f)).isSome)) (hfile : d f = some (.image db)) :
    ∃ p d', kvdbOpen .zero d f = .ok (0, p, d') ∧ p.db = db ∧ Opened d' f db := by
  obtain ⟨db₀, hdb₀, hn, -, -⟩ := kvdbNames_zero hf
  have hread : d.readImage f db₀ = db := by
    rw [Disk.readImage, hfile]
  refine ⟨{ Proc.zero with db := db },
    (d.write (copyName f) (.image db)).write (logName f) (.text []), ?_, rfl, ?_⟩
  · simp only [kvdbOpen, Proc.zero]
    rw [hdb₀, ok_bind, hn.filename, hn.copyname, hn.logname, if_neg hleft, hread, hfile,
      if_pos (by simp), pure_eq_ok]
  · constructor
    · rw [write_of_ne _ _ (copyName_ne_logName f), write_self]
    · rw [write_self]
    · rw [write_of_ne _ _ (logName_ne hf).symm, write_of_ne _ _ (copyName_ne hf).symm, hfile]
      rfl

theorem kvdbOpen_recover {f : CStr} (hf : ValidName f) {d : Disk} {db : Db} {bs : List UInt8}
    (hcopy : d (copyName f) = some (.image db)) (hlog : d (logName f) = some (.text bs)) {p : Proc}
    (hredo : redoOperation { Proc.zero with db := db } bs = .ok p) (hp : Named p.db f) :
    ∃ d', kvdbOpen .zero d f = .ok (0, p, d') ∧ Opened d' f db := by
  obtain ⟨db₀, hdb₀, hn, -, -⟩ := kvdbNames_zero hf
  have hread : (d.write f (.text [])).readImage (copyName f) db₀ = db := by
    rw [Disk.readImage, write_of_ne _ _ (copyName_ne hf), hcopy]
  have htext : (d.write f (.text [])).textOf (logName f) = bs := by
    rw [Disk.textOf, write_of_ne _ _ (logName_ne hf), hlog]
  refine ⟨((d.write f (.text [])).write f (.image p.db)).write (logName f) (.text []), ?_, ?_⟩
  · simp only [kvdbOpen, Proc.zero] at hredo ⊢
    rw [hdb₀, ok_bind, hn.filename, hn.copyname, hn.logname, hcopy, hlog, hread, htext,
      if_pos (by simp), hredo, ok_bind, hp.logname, pure_eq_ok]
  · constructor
    · rw [write_of_ne _ _ (copyName_ne_logName f), write_of_ne _ _ (copyName_ne hf),
        write_of_ne _ _ (copyName_ne hf), hcopy]
    · rw [write_self]
    · rw [write_of_ne _ _ (logName_ne hf).symm, write_self]
      rfl

theorem kvdbClose_files {f : CStr} (hf : ValidName f) {p : Proc} (hp : Named p.db f) (d : Disk) :
    (kvdbClose p d).2.2 (copyName f) = none ∧ (kvdbClose p d).2.2 f = some (.image p.db) := by
  simp only [kvdbClose, Disk.unlink, hp.filename, hp.copyname, hp.logname]
  constructor
  · rw [Function.update_of_ne (copyName_ne_logName f), Function.update_self]
  · rw [Function.update_of_ne (logName_ne hf).symm, Function.update_of_ne (copyName_ne hf).symm,
      write_self]

end OsWorkbench.Kvdb
