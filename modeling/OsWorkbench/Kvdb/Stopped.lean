import OsWorkbench.Kvdb.Recovery

/-!
# Opens that are stopped half way

`kvdb_open` as the sequence of its steps on the files, of which a stopped process has made
only the first ones. The open path creates the log before it fills the copy: a process
that is stopped between the two leaves an empty copy beside a log, which the next open
takes for a crash. It truncates the `.db` file and recovers from the empty copy.
-/

namespace OsWorkbench.Kvdb

/-! ## The steps of `kvdb_open` -/

/-- A step on the files. `reopenLog` is the `fopen` that follows a recovery: its name is
in the object just read. -/
inductive FileStep
  | fopenRead (name : CStr)
  | fopenWrite (name : CStr)
  | fread (name : CStr)
  | redo (name : CStr)
  | fwrite (name : CStr)
  | fclose (name : CStr)
  | reopenLog

def FileStep.exec (s : Proc × Disk) : FileStep → Except Fault (Proc × Disk)
  | fopenRead _ => .ok s
  | fopenWrite name => .ok (s.1, s.2.write name (.text []))
  | fread name => .ok ({ s.1 with db := s.2.readImage name s.1.db }, s.2)
  | redo name => do
    let p ← redoOperation s.1 (s.2.textOf name)
    return (p, s.2)
  | fwrite name => .ok (s.1, s.2.write name (.image s.1.db))
  | fclose _ => .ok s
  | reopenLog => .ok (s.1, s.2.write (nameOf s.1.db.logname) (.text []))

def recoverSteps (file copy log : CStr) : List FileStep :=
  [.fopenWrite file, .fopenRead copy, .fopenRead log, .fread copy, .redo log, .fwrite file,
    .fclose log, .fclose copy, .fclose file, .reopenLog, .fclose log]

def openSteps (file copy log : CStr) : List FileStep :=
  [.fopenRead file, .fopenWrite copy, .fopenWrite log, .fread file, .fwrite copy,
    .fclose log, .fclose copy, .fclose file]

def createSteps (file copy log : CStr) : List FileStep :=
  [.fopenWrite file, .fopenWrite copy, .fopenWrite log, .fwrite file, .fwrite copy,
    .fclose log, .fclose copy, .fclose file]

/-- The steps of the path that the two tests with `access` choose. -/
def kvdbOpenSteps (d : Disk) (file copy log : CStr) : List FileStep :=
  if (d copy).isSome ∧ (d log).isSome then recoverSteps file copy log
  else if (d file).isSome then openSteps file copy log
  else createSteps file copy log

/-- A new process stops after `n` steps of `kvdb_open`. -/
def kvdbOpenStopped (f : CStr) (d : Disk) (n : Nat) : Except Fault Disk := do
  let db ← kvdbNames Db.zero f
  let file := nameOf db.filename
  let copy := nameOf db.copyname
  let log := nameOf db.logname
  let s ← run FileStep.exec ({ Proc.zero with db := db }, d)
    ((kvdbOpenSteps d file copy log).take n)
  return s.2

/-- All the steps together are `kvdb_open`. -/
theorem kvdbOpen_steps {f : CStr} (hf : ValidName f) {db : Db} (hdb : kvdbNames .zero f = .ok db)
    (hn : Named db f) (d : Disk) :
    kvdbOpen .zero d f = (do
      let s ← run FileStep.exec ({ Proc.zero with db := db }, d)
        (kvdbOpenSteps d f (copyName f) (logName f))
      return (0, s.1, s.2)) := by
  have hread : ((d.write (copyName f) (.text [])).write (logName f) (.text [])).readImage f db =
      d.readImage f db := by
    rw [Disk.readImage, Disk.readImage, write_of_ne _ _ (logName_ne hf).symm,
      write_of_ne _ _ (copyName_ne hf).symm]
  simp only [kvdbOpen, Proc.zero, kvdbOpenSteps]
  rw [hdb, ok_bind, hn.filename, hn.copyname, hn.logname]
  split_ifs
  · simp only [recoverSteps, run, FileStep.exec, ok_bind, pure_eq_ok]
    cases redoOperation _ _ <;> rfl
  · simp only [openSteps, run, FileStep.exec, ok_bind, pure_eq_ok]
    rw [hread, write_comm _ (copyName_ne_logName f).symm, write_write]
  · simp only [createSteps, run, FileStep.exec, ok_bind, pure_eq_ok]
    rw [write_comm _ (logName_ne hf) (.text []), write_comm _ (copyName_ne hf) (.text []),
      write_write,
      write_comm _ (copyName_ne_logName f).symm, write_write]

/-! ## The files after a stop -/

/-- What stopped opens leave: no log yet, a copy that is filled, or a log beside an empty
copy. -/
inductive Halt
  | intact
  | filled
  | blank

/-- The files of a database with the image `db`. -/
def Halted (f : CStr) (db : Db) (d : Disk) : Halt → Prop
  | .intact => d f = some (.image db) ∧ d (logName f) = none
  | .filled => d (copyName f) = some (.image db) ∧ d (logName f) = some (.text [])
  | .blank => d (copyName f) = some (.text []) ∧ d (logName f) = some (.text [])

/-- A stop after `n` steps: the third one creates the log, the fifth one fills the copy. -/
def afterStop : Halt → Nat → Halt
  | .intact, n => if n < 3 then .intact else if n < 5 then .blank else .filled
  | .filled, _ => .filled
  | .blank, _ => .blank

/-- The map that the next open gets, of a database with the map `m`. -/
def Halt.kept (m : Store) : Halt → Store
  | .blank => []
  | _ => m

/-- The first open that created the log had also filled the copy. -/
def Filled : List Nat → Prop
  | [] => True
  | n :: ns => if n < 3 then Filled ns else 5 ≤ n

theorem foldl_filled (ns : List Nat) : ns.foldl afterStop .filled = .filled := by
  induction ns with
  | nil => rfl
  | cons n ns ih => exact ih

theorem foldl_blank (ns : List Nat) : ns.foldl afterStop .blank = .blank := by
  induction ns with
  | nil => rfl
  | cons n ns ih => exact ih

theorem foldl_intact (ns : List Nat) : ns.foldl afterStop .intact = .blank ↔ ¬Filled ns := by
  induction ns with
  | nil => simp [Filled]
  | cons n ns ih =>
    rw [List.foldl_cons, afterStop, Filled]
    split_ifs with h3 h5
    · exact ih
    · rw [foldl_blank]
      exact iff_of_true rfl (not_le.mpr h5)
    · rw [foldl_filled]
      simpa using h5

section Stop

variable {f : CStr} {db : Db} {d : Disk}

/-- The files and the object while a recovery goes on from a copy with the contents `x`. -/
structure Recovering (f : CStr) (x : File) (s : Proc × Disk) : Prop where
  named : Named s.1.db f
  copy : s.2 (copyName f) = some x
  log : s.2 (logName f) = some (.text [])

theorem Recovering.exec (hf : ValidName f) {x : File} (hx : ∀ db, x = .image db → Named db f)
    {s : Proc × Disk} (h : Recovering f x s) {o : FileStep}
    (ho : o ∈ recoverSteps f (copyName f) (logName f)) :
    ∃ s', o.exec s = .ok s' ∧ Recovering f x s' := by
  have hwrite : ∀ y, Recovering f x (s.1, s.2.write f y) := fun y =>
    ⟨h.named, (write_of_ne _ _ (copyName_ne hf)).trans h.copy,
      (write_of_ne _ _ (logName_ne hf)).trans h.log⟩
  simp only [recoverSteps, List.mem_cons, List.not_mem_nil, or_false] at ho
  rcases ho with rfl | rfl | rfl | rfl | rfl | rfl | rfl | rfl | rfl | rfl | rfl
  · exact ⟨_, rfl, hwrite _⟩
  · exact ⟨_, rfl, h⟩
  · exact ⟨_, rfl, h⟩
  · refine ⟨_, rfl, ?_, h.copy, h.log⟩
    dsimp only
    rw [Disk.readImage, h.copy]
    cases x with
    | image db => exact hx db rfl
    | text bs => exact h.named
  · refine ⟨s, ?_, h⟩
    rw [FileStep.exec, Disk.textOf, h.log]
    rfl
  · exact ⟨_, rfl, hwrite _⟩
  · exact ⟨_, rfl, h⟩
  · exact ⟨_, rfl, h⟩
  · exact ⟨_, rfl, h⟩
  · refine ⟨_, rfl, h.named, ?_, ?_⟩
    · dsimp only
      rw [h.named.logname, write_of_ne _ _ (copyName_ne_logName f)]
      exact h.copy
    · dsimp only
      rw [h.named.logname, write_self]
  · exact ⟨_, rfl, h⟩

/-- A recovery that is stopped leaves the copy and the log as they were. -/
theorem kvdbOpenStopped_recover (hf : ValidName f) {x : File}
    (hx : ∀ db, x = .image db → Named db f) (hcopy : d (copyName f) = some x)
    (hlog : d (logName f) = some (.text [])) (n : Nat) :
    ∃ d', kvdbOpenStopped f d n = .ok d' ∧ d' (copyName f) = some x ∧
      d' (logName f) = some (.text []) := by
  obtain ⟨db₀, hdb₀, hn, -, -⟩ := kvdbNames_zero hf
  have h₀ : Recovering f x ({ Proc.zero with db := db₀ }, d) := ⟨hn, hcopy, hlog⟩
  obtain ⟨s, hs, h⟩ := run_total (fun h ho => h.exec hf hx ho) h₀
    fun o ho => List.take_subset n (recoverSteps f (copyName f) (logName f)) ho
  refine ⟨s.2, ?_, h.copy, h.log⟩
  unfold kvdbOpenStopped
  rw [hdb₀, ok_bind]
  dsimp only
  rw [hn.filename, hn.copyname, hn.logname, kvdbOpenSteps,
    if_pos (by rw [hcopy, hlog]; exact ⟨rfl, rfl⟩),
    hs, ok_bind, pure_eq_ok]

theorem run_fclose (s : Proc × Disk) (names : List CStr) :
    run FileStep.exec s (names.map .fclose) = .ok s := by
  induction names with
  | nil => rfl
  | cons name names ih => exact ih

/-- The files after `n` steps of the open path. -/
theorem run_openSteps (hf : ValidName f) (p : Proc) (hfile : d f = some (.image db)) (n : Nat) :
    ∃ s, run FileStep.exec (p, d) ((openSteps f (copyName f) (logName f)).take n) = .ok s ∧
      s.2 f = some (.image db) ∧
      s.2 (logName f) = (if n < 3 then d (logName f) else some (.text [])) ∧
      (3 ≤ n → s.2 (copyName f) = some (if n < 5 then .text [] else .image db)) := by
  have hcl := copyName_ne_logName f
  -- the files before the copy is filled
  let d₂ := d.write (copyName f) (.text [])
  let d₃ := d₂.write (logName f) (.text [])
  have hfile₂ : d₂ f = some (.image db) := (write_of_ne _ _ (copyName_ne hf).symm).trans hfile
  have hfile₃ : d₃ f = some (.image db) := (write_of_ne _ _ (logName_ne hf).symm).trans hfile₂
  have hcopy₃ : d₃ (copyName f) = some (.text []) := (write_of_ne _ _ hcl).trans (write_self ..)
  have hlog₃ : d₃ (logName f) = some (.text []) := write_self ..
  match n with
  | 0 => exact ⟨_, rfl, hfile, rfl, fun h => absurd h (by decide)⟩
  | 1 => exact ⟨_, rfl, hfile, rfl, fun h => absurd h (by decide)⟩
  | 2 => exact ⟨_, rfl, hfile₂, write_of_ne _ _ hcl.symm, fun h => absurd h (by decide)⟩
  | 3 => exact ⟨_, rfl, hfile₃, hlog₃, fun _ => hcopy₃⟩
  | 4 => exact ⟨_, rfl, hfile₃, hlog₃, fun _ => hcopy₃⟩
  | n + 5 =>
    let p₄ : Proc := { p with db := d₃.readImage f p.db }
    have hp₄ : p₄.db = db := by
      show d₃.readImage f p.db = db
      rw [Disk.readImage, hfile₃]
    refine ⟨(p₄, d₃.write (copyName f) (.image p₄.db)), ?_, ?_, ?_, fun _ => ?_⟩
    · have hclose := run_fclose (p₄, d₃.write (copyName f) (.image p₄.db))
        ([logName f, copyName f, f].take n)
      rw [List.map_take] at hclose
      exact hclose
    · exact (write_of_ne _ _ (copyName_ne hf).symm).trans hfile₃
    · rw [if_neg (by omega)]
      exact (write_of_ne _ _ hcl.symm).trans hlog₃
    · rw [if_neg (by omega), hp₄]
      exact write_self ..

/-- An open that is stopped takes the files from one halt to the next. -/
theorem Halted.stop (hf : ValidName f) (hn : Named db f) {h : Halt} (hd : Halted f db d h)
    (n : Nat) :
    ∃ d', kvdbOpenStopped f d n = .ok d' ∧ Halted f db d' (afterStop h n) := by
  cases h with
  | intact =>
    obtain ⟨hfile, hlog⟩ := hd
    obtain ⟨db₀, hdb₀, hn₀, -, -⟩ := kvdbNames_zero hf
    obtain ⟨s, hs, hsf, hsl, hsc⟩ := run_openSteps hf { Proc.zero with db := db₀ } hfile n
    refine ⟨s.2, ?_, ?_⟩
    · unfold kvdbOpenStopped
      rw [hdb₀, ok_bind]
      dsimp only
      rw [hn₀.filename, hn₀.copyname, hn₀.logname, kvdbOpenSteps, if_neg (by simp [hlog]),
        if_pos (by simp [hfile]), hs, ok_bind, pure_eq_ok]
    · rw [afterStop]
      split_ifs with h3 h5
      · rw [if_pos h3, hlog] at hsl
        exact ⟨hsf, hsl⟩
      · have hcopy := hsc (not_lt.mp h3)
        rw [if_neg h3] at hsl
        rw [if_pos h5] at hcopy
        exact ⟨hcopy, hsl⟩
      · have hcopy := hsc (not_lt.mp h3)
        rw [if_neg h3] at hsl
        rw [if_neg h5] at hcopy
        exact ⟨hcopy, hsl⟩
  | filled => exact kvdbOpenStopped_recover hf (fun db' h => by cases h; exact hn) hd.1 hd.2 n
  | blank => exact kvdbOpenStopped_recover hf (fun db' h => by cases h) hd.1 hd.2 n

theorem Halted.stops (hf : ValidName f) (hn : Named db f) {h : Halt} (hd : Halted f db d h)
    (ns : List Nat) :
    ∃ d', run (kvdbOpenStopped f) d ns = .ok d' ∧ Halted f db d' (ns.foldl afterStop h) := by
  induction ns generalizing d h with
  | nil => exact ⟨d, rfl, hd⟩
  | cons n ns ih =>
    obtain ⟨d₁, h₁, hd₁⟩ := hd.stop hf hn n
    obtain ⟨d₂, h₂, hd₂⟩ := ih hd₁
    exact ⟨d₂, run_cons.mpr ⟨d₁, h₁, h₂⟩, hd₂⟩

/-- A complete open gets the map, unless the log is beside an empty copy. -/
theorem Halted.open (hf : ValidName f) (hn : Named db f) {m : Store} (hrep : Repr db m) {h : Halt}
    (hd : Halted f db d h) :
    ∃ p d', kvdbOpen .zero d f = .ok (0, p, d') ∧
      Repr p.db (h.kept m) := by
  cases h with
  | intact =>
    obtain ⟨p, d', hopen, rfl, -⟩ := kvdbOpen_open hf (by simp [hd.2]) hd.1
    exact ⟨p, d', hopen, hrep⟩
  | filled =>
    obtain ⟨d', hopen, -⟩ := kvdbOpen_recover hf hd.1 hd.2 rfl hn
    exact ⟨_, d', hopen, hrep⟩
  | blank =>
    obtain ⟨db₀, hdb₀, hn₀, hsize, hdatas⟩ := kvdbNames_zero hf
    have hread : (d.write f (.text [])).readImage (copyName f) db₀ = db₀ := by
      rw [Disk.readImage, write_of_ne _ _ (copyName_ne hf), hd.1]
    have htext : (d.write f (.text [])).textOf (logName f) = [] := by
      rw [Disk.textOf, write_of_ne _ _ (logName_ne hf), hd.2]
    refine ⟨{ Proc.zero with db := db₀ },
      ((d.write f (.text [])).write f (.image db₀)).write (logName f)
      (.text []), ?_, repr_empty hsize fun i _ => by rw [hdatas]; rfl⟩
    simp only [kvdbOpen, Proc.zero]
    rw [hdb₀, ok_bind, hn₀.filename, hn₀.copyname, hn₀.logname, hd.1, hd.2, hread, htext,
      if_pos (by simp), redoOperation, redoLoop_nil, ok_bind, hn₀.logname, pure_eq_ok]

end Stop

/-- The map after some stopped opens and a complete one is that of the `.db` file iff it is
empty or the first open that created the log had also filled the copy. -/
theorem stopped_opens_iff {f : CStr} (hf : ValidName f) {d : Disk} {db : Db} {m : Store}
    (hfile : d f = some (.image db)) (hlog : d (logName f) = none)
    (hn : Named db f) (hrep : Repr db m) (stops : List Nat) :
    ∃ d₁ p d₂, run (kvdbOpenStopped f) d stops = .ok d₁ ∧ kvdbOpen .zero d₁ f = .ok (0, p, d₂) ∧
      ((∀ k, logical p.db k = m.lookup k) ↔ m = [] ∨ Filled stops) := by
  have hd : Halted f db d .intact := ⟨hfile, hlog⟩
  obtain ⟨d₁, hstops, hd₁⟩ := hd.stops hf hn stops
  obtain ⟨p, d₂, hopen, hp⟩ := hd₁.open hf hn hrep
  refine ⟨d₁, p, d₂, hstops, hopen, ?_⟩
  by_cases hblank : stops.foldl afterStop .intact = .blank
  · rw [hblank] at hp
    have hnot := (foldl_intact stops).mp hblank
    constructor
    · intro hmap
      refine .inl (List.eq_nil_iff_forall_not_mem.mpr fun b hb => ?_)
      have hb' := (lookup_eq_some hrep.nodup).mpr hb
      rw [← hmap, hp.logical_eq] at hb'
      cases hb'
    · rintro (rfl | hfilled) k
      · exact hp.logical_eq k
      · exact absurd hfilled hnot
  · have hfilled := not_not.mp ((foldl_intact stops).not.mp hblank)
    refine iff_of_true (fun k => ?_) (.inr hfilled)
    cases hh : stops.foldl afterStop .intact with
    | blank => exact absurd hh hblank
    | intact =>
      rw [hh] at hp
      exact hp.logical_eq k
    | filled =>
      rw [hh] at hp
      exact hp.logical_eq k

/-- One binding; a first open is stopped before the log is there, a second one after the
copy was filled. -/
theorem stopped_opens_filled :
    ∃ d db, d (CStr.lit "a.db") = some (.image db) ∧ Repr db [(.lit "a", .lit "1")] ∧
      ∃ d₁ p d₂, run (kvdbOpenStopped (.lit "a.db")) d [2, 5] = .ok d₁ ∧
        kvdbOpen .zero d₁ (.lit "a.db") = .ok (0, p, d₂) ∧
        ∀ k, logical p.db k = List.lookup k [(.lit "a", .lit "1")] := by
  have hf : ValidName (.lit "a.db") := ⟨by decide, by decide⟩
  obtain ⟨p, d, -, hn, hs, hu, -⟩ := kvdbOpen_create (d := fun _ => none) hf rfl rfl
  have hrep : Repr p.db [] := repr_empty hs fun i _ => by rw [hu]; rfl
  obtain ⟨p', -, hrep', hnames, -⟩ := hrep.put d (show (CStr.lit "a").length < keyLength by decide)
    (show need (.lit "1") < rows by decide) ⟨by decide, by decide⟩
  let d₀ : Disk := Disk.write (fun _ => none) (.lit "a.db") (.image p'.db)
  have hfile : d₀ (.lit "a.db") = some (.image p'.db) := write_self ..
  have hlog : d₀ (logName (.lit "a.db")) = none := write_of_ne _ _ (logName_ne hf)
  obtain ⟨d₁, q, d₂, hstops, hopen, hmap⟩ :=
    stopped_opens_iff hf hfile hlog (hnames.named hn) hrep' [2, 5]
  exact ⟨d₀, p'.db, hfile, hrep', d₁, q, d₂, hstops, hopen, hmap.mpr (.inr (by simp [Filled]))⟩

/-- A session that stores one binding. -/
def oneBinding : List Session := [⟨[.put (.lit "a") (.lit "1")], .close⟩]

/-- After `oneBinding` an open is stopped when it has created the log. The next one finds
no binding. -/
theorem stopped_open_loses :
    ∃ d₁ p₁ d₂ d₃ p d₄, runSessions (.lit "a.db") (fun _ => none) oneBinding = .ok ([.ret 0], d₁) ∧
      d₁ (copyName (.lit "a.db")) = none ∧ d₁ (logName (.lit "a.db")) = none ∧
      kvdbOpen .zero d₁ (.lit "a.db") = .ok (0, p₁, d₂) ∧
      logical p₁.db (.lit "a") = some (.lit "1") ∧
      run (kvdbOpenStopped (.lit "a.db")) d₁ [3] = .ok d₃ ∧
      kvdbOpen .zero d₃ (.lit "a.db") = .ok (0, p, d₄) ∧ logical p.db (.lit "a") = none := by
  have heval : (do
      let x ← runSessions (.lit "a.db") (fun _ => none) oneBinding
      let y ← kvdbOpen .zero x.2 (.lit "a.db")
      let d ← run (kvdbOpenStopped (.lit "a.db")) x.2 [3]
      let z ← kvdbOpen .zero d (.lit "a.db")
      pure ((x.1, (x.2 (copyName (.lit "a.db"))).isNone, (x.2 (logName (.lit "a.db"))).isNone),
        (y.1, logical y.2.1.db (.lit "a")), z.1, logical z.2.1.db (.lit "a")) :
      Except Fault ((List Out × Bool × Bool) × (Int × Option CStr) × Int × Option CStr)).toOption =
        some (([.ret 0], true, true), (0, some (.lit "1")), 0, none) := by
    decide +kernel
  obtain ⟨⟨outs, d₁⟩, hr, h⟩ := bind_eq_ok.mp (toOption_eq_some.mp heval)
  obtain ⟨⟨r, p₁, d₂⟩, hopen, h⟩ := bind_eq_ok.mp h
  obtain ⟨d₃, hstop, h⟩ := bind_eq_ok.mp h
  obtain ⟨⟨r', p, d₄⟩, hopen', h⟩ := bind_eq_ok.mp h
  simp only [pure_eq_ok, Except.ok.injEq, Prod.mk.injEq, Option.isNone_iff_eq_none] at h
  obtain ⟨⟨rfl, hcopy, hlog⟩, ⟨rfl, hone⟩, rfl, hnone⟩ := h
  exact ⟨d₁, p₁, d₂, d₃, p, d₄, hr, hcopy, hlog, hopen, hone, hstop, hopen', hnone⟩

end OsWorkbench.Kvdb
