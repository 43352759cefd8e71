import OsWorkbench.Vfs.Failing

/-!
# Open files

The table `files` of `kernel/src/fs/vfs.c`. `vinode_open` claims a slot by its reference
count, and `vfs_close` does nothing, so that a slot is never free again: a sequence of calls
is served as long as it opens no more than `MAX_FILE` files in all, however few of them are
open at a time.
-/

namespace OsWorkbench.Vfs

open Ext2 (typeDir)

def maxFile : Nat := 32

/-- `file_t`. -/
structure File where
  refcnt : Int
  vinodeIdx : Int
  offset : UInt64

/-- `procfs_read` and `tty_write`, which work on the processes and the terminals `E`. -/
structure Drivers (E : Type) where
  procfsRead : E → UInt32 → UInt64 → (Nat → UInt8) → Except Fault (Int × (Nat → UInt8))
  ttyWrite : E → CStr → UInt64 → (Nat → UInt8) → Nat → Except Fault (Int × E)

/-- The file system with the array `files`. -/
structure Table (E : Type) where
  vfs : State
  env : E
  files : Nat → File

section Model

variable {E : Type}

/-! ## The calls -/

/-- `files_alloc`, with `none` for -1. -/
def filesAlloc (files : Nat → File) : Option Nat :=
  (List.range maxFile).find? fun i => (files i).refcnt == 0

def vinodeOpen (files : Nat → File) (idx : Int) : Int × (Nat → File) :=
  match filesAlloc files with
  | none => (-1, files)
  | some fd => (fd, Function.update files fd ⟨(files fd).refcnt + 1, idx, 0⟩)

def vfsOpen (t : Table E) (path : CStr) (mode : UInt32) : Except Fault (Int × Table E) := do
  let (r, s) ← vfsAccess t.vfs path mode
  if r ≠ 0 then return (-1, { t with vfs := s })
  let (idx, s) ← lookupAuto s
  let opened := vinodeOpen t.files idx
  return (opened.1, { t with vfs := s, files := opened.2 })

/-- `files[fd].offset += ret`. -/
def Table.advance (t : Table E) (fd : Nat) (ret : Int) : Table E :=
  let f := t.files fd
  { t with files := Function.update t.files fd { f with offset := f.offset + .ofInt ret } }

def vfsRead (D : Drivers E) (t : Table E) (fd : Int) (buf : Nat → UInt8) (nbyte : Nat) :
    Except Fault (Int × (Nat → UInt8) × Table E) := do
  if fd < 0 then return (0, buf, t)
  check (nbyte ≤ 1024)
  let n ← index fd maxFile
  let v ← t.vfs.vinodes.get (t.files n).vinodeIdx
  match v.fsType, v.fs with
  | .ext2fs, some (.ramdisk k) =>
    let (r, buf, d) ← Ext2.read (t.vfs.disks k) v.ridx (t.files n).offset buf (.ofNat nbyte)
    let t := { t with vfs := { t.vfs with disks := Function.update t.vfs.disks k d } }
    return (toInt r, buf, t.advance n (toInt r))
  | .ext2fs, _ => .error .badAccess
  | .procfs, _ =>
    let (r, buf) ← D.procfsRead t.env v.ridx (t.files n).offset buf
    return (r, buf, t.advance n r)
  | _, _ => return (0, buf, t)

def vfsWrite (D : Drivers E) (t : Table E) (fd : Int) (buf : Nat → UInt8) (nbyte : Nat) :
    Except Fault (Int × Table E) := do
  if fd < 0 then return (0, t)
  check (nbyte ≤ 1024)
  let n ← index fd maxFile
  let v ← t.vfs.vinodes.get (t.files n).vinodeIdx
  match v.fsType, v.fs with
  | .ext2fs, some (.ramdisk k) =>
    let (r, d) ← Ext2.write (t.vfs.disks k) v.ridx (t.files n).offset buf (.ofNat nbyte)
    let t := { t with vfs := { t.vfs with disks := Function.update t.vfs.disks k d } }
    return (toInt r, t.advance n (toInt r))
  | .ext2fs, _ => .error .badAccess
  | .tty, _ =>
    let (r, env) ← D.ttyWrite t.env v.name (t.files n).offset buf nbyte
    let t := { t with env := env }
    return (r, t.advance n r)
  | _, _ => return (0, t)

def vfsClose (t : Table E) (_fd : Int) : Int × Table E := (0, t)

inductive FileCall
  | open (path : CStr) (mode : UInt32)
  | read (fd : Int) (buf : Nat → UInt8) (nbyte : Nat)
  | write (fd : Int) (buf : Nat → UInt8) (nbyte : Nat)
  | close (fd : Int)

/-- The result of a call and the table after it. -/
def fileCall (D : Drivers E) (t : Table E) : FileCall → Except Fault (Int × Table E)
  | .open path mode => vfsOpen t path mode
  | .read fd buf nbyte => do
    let (r, _, t) ← vfsRead D t fd buf nbyte
    return (r, t)
  | .write fd buf nbyte => vfsWrite D t fd buf nbyte
  | .close fd => return vfsClose t fd

/-! ## Sequences of calls -/

/-- One call of a sequence, with the descriptors that were open before it. -/
structure Served (E : Type) where
  before : Table E
  opened : List Int
  call : FileCall
  ret : Int
  after : Table E

/-- The descriptors that are open after a call that returned `ret`. -/
def openAfter (opened : List Int) (ret : Int) : FileCall → List Int
  | .open _ _ => if ret = -1 then opened else ret :: opened
  | .close fd => opened.erase fd
  | _ => opened

/-- What the calls did, one after the other. -/
def serve (D : Drivers E) : Table E → List Int → List FileCall → Except Fault (List (Served E))
  | _, _, [] => .ok []
  | t, opened, c :: cs => do
    let r ← fileCall D t c
    let rest ← serve D r.2 (openAfter opened r.1 c) cs
    return ⟨t, opened, c, r.1, r.2⟩ :: rest

/-- `vfs_access` allows the path. -/
def accessible (t : Table E) (path : CStr) (mode : UInt32) : Bool :=
  match vfsAccess t.vfs path mode with
  | .ok r => r.1 == 0
  | .error _ => false

/-- The call opens a path that is accessible. -/
def Served.opens (e : Served E) : Bool :=
  match e.call with
  | .open path mode => accessible e.before path mode
  | _ => false

/-- The vinode that `vfs_open` looks up. -/
def openedVinode (t : Table E) (path : CStr) (mode : UInt32) : Except Fault Int := do
  let r ← vfsAccess t.vfs path mode
  let r ← lookupAuto r.2
  return r.1

/-- What the call ought to do. -/
def Served.Right (e : Served E) : Prop :=
  match e.call with
  | .open path mode => accessible e.before path mode = true →
    e.ret ≠ -1 ∧ e.ret ∉ e.opened ∧ ∃ n idx, e.ret = Int.ofNat n ∧
      openedVinode e.before path mode = .ok idx ∧ (e.after.files n).vinodeIdx = idx ∧
      (e.after.files n).offset = 0
  | .read fd _ _ =>
    ∀ n : Nat, Int.ofNat n ≠ fd → (e.after.files n).offset = (e.before.files n).offset
  | .write fd _ _ =>
    ∀ n : Nat, Int.ofNat n ≠ fd → (e.after.files n).offset = (e.before.files n).offset
  | .close _ => True

/-- At most `MAX_FILE` descriptors are open at any time. -/
def Moderate (es : List (Served E)) : Prop :=
  ∀ e ∈ es, e.opens = true → e.opened.length < maxFile

/-! ## The slots -/

/-- The slots that are in use. -/
def claimed (files : Nat → File) : Finset Nat :=
  (Finset.range maxFile).filter fun i => (files i).refcnt ≠ 0

theorem mem_claimed {files : Nat → File} {i : Nat} :
    i ∈ claimed files ↔ i < maxFile ∧ (files i).refcnt ≠ 0 := by
  simp [claimed]

theorem card_claimed_le (files : Nat → File) : (claimed files).card ≤ maxFile := by
  have h := Finset.card_filter_le (Finset.range maxFile) fun i => (files i).refcnt ≠ 0
  rwa [Finset.card_range] at h

theorem filesAlloc_some {files : Nat → File} {i : Nat} (h : filesAlloc files = some i) :
    i < maxFile ∧ (files i).refcnt = 0 := by
  have hmem := List.mem_of_find?_eq_some h
  have hzero := List.find?_some h
  exact ⟨List.mem_range.mp hmem, by simpa using hzero⟩

theorem filesAlloc_eq_none {files : Nat → File} :
    filesAlloc files = none ↔ (claimed files).card = maxFile := by
  have hrange := Finset.card_range maxFile
  constructor
  · intro h
    have hall := List.find?_eq_none.mp h
    have heq : claimed files = Finset.range maxFile := by
      ext i
      rw [mem_claimed, Finset.mem_range]
      exact ⟨fun hi => hi.1, fun hi => ⟨hi, by simpa using hall i (List.mem_range.mpr hi)⟩⟩
    rw [heq, hrange]
  · intro h
    have heq : claimed files = Finset.range maxFile :=
      Finset.eq_of_subset_of_card_le (Finset.filter_subset ..) (by rw [hrange, h])
    refine List.find?_eq_none.mpr fun i hi => ?_
    have hmem : i ∈ claimed files := by
      rw [heq]
      exact Finset.mem_range.mpr (List.mem_range.mp hi)
    simpa using (mem_claimed.mp hmem).2

theorem claimed_update {files : Nat → File} {i : Nat} (hi : i < maxFile)
    (hzero : (files i).refcnt = 0) (idx : Int) :
    claimed (Function.update files i ⟨(files i).refcnt + 1, idx, 0⟩) =
      insert i (claimed files) := by
  ext j
  rw [Finset.mem_insert, mem_claimed, mem_claimed]
  by_cases hj : j = i
  · subst hj
    rw [Function.update_self, hzero]
    simp [hi]
  · rw [Function.update_of_ne hj]
    simp [hj]

/-- The slots of the other descriptors, and what is claimed, are left alone. -/
structure LeavesOthers (t t' : Table E) (fd : Int) : Prop where
  claimed : claimed t'.files = claimed t.files
  offset : ∀ n : Nat, Int.ofNat n ≠ fd → (t'.files n).offset = (t.files n).offset

theorem LeavesOthers.of_eq {t t' : Table E} {fd : Int} (h : t'.files = t.files) :
    LeavesOthers t t' fd := by
  constructor
  · rw [h]
  · intro n _
    rw [h]

theorem advance_leavesOthers {t t' : Table E} {fd r : Int} {n : Nat}
    (hn : index fd maxFile = .ok n) (h : t'.files = (t.advance n r).files) :
    LeavesOthers t t' fd := by
  have hfd : fd = n := by
    unfold index at hn
    split_ifs at hn with hle
    cases hn
    exact (Int.toNat_of_nonneg hle.1).symm
  constructor
  · ext j
    rw [mem_claimed, mem_claimed, h, Table.advance]
    by_cases hj : j = n
    · subst hj
      simp
    · simp [Function.update_of_ne hj]
  · intro j hj
    rw [h, Table.advance]
    have hne : j ≠ n := by
      rintro rfl
      exact hj hfd.symm
    simp [Function.update_of_ne hne]

section Steps

variable {D : Drivers E} {t t' : Table E} {fd r : Int} {buf buf' : Nat → UInt8} {nbyte : Nat}

theorem vfsRead_leavesOthers (h : vfsRead D t fd buf nbyte = .ok (r, buf', t')) :
    LeavesOthers t t' fd := by
  unfold vfsRead at h
  split_ifs at h with hneg
  · cases h
    exact .of_eq rfl
  · obtain ⟨_, -, h⟩ := bind_eq_ok.mp h
    obtain ⟨n, hn, h⟩ := bind_eq_ok.mp h
    obtain ⟨v, -, h⟩ := bind_eq_ok.mp h
    split at h
    · obtain ⟨x, -, h⟩ := bind_eq_ok.mp h
      have heq := congrArg (fun y => y.2.2.files) (Except.ok.inj h)
      exact advance_leavesOthers (r := toInt x.1) hn heq.symm
    · cases h
    · obtain ⟨x, -, h⟩ := bind_eq_ok.mp h
      have heq := congrArg (fun y => y.2.2.files) (Except.ok.inj h)
      exact advance_leavesOthers (r := x.1) hn heq.symm
    · cases h
      exact .of_eq rfl

theorem vfsWrite_leavesOthers (h : vfsWrite D t fd buf nbyte = .ok (r, t')) :
    LeavesOthers t t' fd := by
  unfold vfsWrite at h
  split_ifs at h with hneg
  · cases h
    exact .of_eq rfl
  · obtain ⟨_, -, h⟩ := bind_eq_ok.mp h
    obtain ⟨n, hn, h⟩ := bind_eq_ok.mp h
    obtain ⟨v, -, h⟩ := bind_eq_ok.mp h
    split at h
    · obtain ⟨x, -, h⟩ := bind_eq_ok.mp h
      have heq := congrArg (fun y => y.2.files) (Except.ok.inj h)
      exact advance_leavesOthers (r := toInt x.1) hn heq.symm
    · cases h
    · obtain ⟨x, -, h⟩ := bind_eq_ok.mp h
      have heq := congrArg (fun y => y.2.files) (Except.ok.inj h)
      exact advance_leavesOthers (r := x.1) hn heq.symm
    · cases h
      exact .of_eq rfl

theorem accessible_iff {path : CStr} {mode : UInt32} :
    accessible t path mode = true ↔ ∃ s, vfsAccess t.vfs path mode = .ok (0, s) := by
  unfold accessible
  constructor
  · intro h
    split at h
    next x hx =>
      refine ⟨x.2, ?_⟩
      rw [hx, ← beq_iff_eq.mp h]
    · cases h
  · rintro ⟨s, hs⟩
    rw [hs]
    rfl

/-- An open of an accessible path goes to the table, with the vinode that was looked up. -/
theorem vfsOpen_accessible {path : CStr} {mode : UInt32} (ha : accessible t path mode = true)
    (h : vfsOpen t path mode = .ok (r, t')) :
    ∃ idx, openedVinode t path mode = .ok idx ∧ vinodeOpen t.files idx = (r, t'.files) := by
  obtain ⟨s, hs⟩ := accessible_iff.mp ha
  rw [vfsOpen, hs, ok_bind] at h
  obtain ⟨x, hx, h⟩ := bind_eq_ok.mp h
  refine ⟨x.1, bind_eq_ok.mpr ⟨_, hs, bind_eq_ok.mpr ⟨x, hx, rfl⟩⟩, ?_⟩
  have heq := Prod.mk.inj (Except.ok.inj h)
  rw [← heq.1, ← heq.2]

theorem vfsOpen_refused {path : CStr} {mode : UInt32} (ha : ¬accessible t path mode = true)
    (h : vfsOpen t path mode = .ok (r, t')) : r = -1 ∧ t'.files = t.files := by
  obtain ⟨⟨i, s⟩, hs, h⟩ := bind_eq_ok.mp h
  have hne : i ≠ 0 := by
    rintro rfl
    exact ha (accessible_iff.mpr ⟨s, hs⟩)
  dsimp only at h
  rw [if_pos hne] at h
  have heq := Prod.mk.inj (Except.ok.inj h)
  rw [← heq.1, ← heq.2]
  exact ⟨rfl, rfl⟩

end Steps

/-! ## Sequences -/

variable {D : Drivers E}

/-- The descriptors that are open have slots. -/
def Slotted (t : Table E) (opened : List Int) : Prop :=
  ∀ fd ∈ opened, ∃ n : Nat, fd = Int.ofNat n ∧ n ∈ claimed t.files

/-- A sequence is served as long as there are slots for all the files that it opens. -/
theorem right_iff_slots {t : Table E} {opened : List Int} {cs : List FileCall}
    {es : List (Served E)}
    (hslot : Slotted t opened) (h : serve D t opened cs = .ok es) :
    (∀ e ∈ es, e.Right) ↔ (claimed t.files).card + (es.filter Served.opens).length ≤ maxFile := by
  induction cs generalizing t opened es with
  | nil =>
    cases h
    simpa using card_claimed_le t.files
  | cons c cs ih =>
    obtain ⟨⟨r, t'⟩, hcall, h⟩ := bind_eq_ok.mp h
    obtain ⟨rest, hrest, h⟩ := bind_eq_ok.mp h
    cases h
    rw [List.forall_mem_cons]
    -- a call that claims nothing
    have hkeep : ∀ {e : Served E}, e.Right → e.opens = false →
        claimed t'.files = claimed t.files → Slotted t' (openAfter opened r c) →
        ((e.Right ∧ ∀ e ∈ rest, e.Right) ↔
          (claimed t.files).card + ((e :: rest).filter Served.opens).length ≤ maxFile) := by
      intro e hright hopens hclaimed hslot'
      rw [List.filter_cons_of_neg (by simp [hopens]), ← hclaimed, ← ih hslot' hrest]
      exact and_iff_right hright
    have hothers : ∀ {fd : Int}, LeavesOthers t t' fd → Slotted t' opened := by
      intro fd hl g hg
      rw [hl.claimed]
      exact hslot g hg
    cases c with
    | «open» path mode =>
      by_cases ha : accessible t path mode = true
      · obtain ⟨idx, hidx, hopen⟩ := vfsOpen_accessible ha hcall
        rw [List.filter_cons_of_pos (by exact ha), List.length_cons]
        cases halloc : filesAlloc t.files with
        | none =>
          -- all slots are claimed: the call returns -1
          rw [vinodeOpen, halloc] at hopen
          have hret : r = -1 := (Prod.mk.inj hopen).1.symm
          have hfull := filesAlloc_eq_none.mp halloc
          constructor
          · rintro ⟨hright, -⟩
            exact absurd hret (hright ha).1
          · intro hle
            omega
        | some n =>
          rw [vinodeOpen, halloc] at hopen
          obtain ⟨hret, hfiles⟩ := Prod.mk.inj hopen
          obtain ⟨hn, hzero⟩ := filesAlloc_some halloc
          have hclaimed := claimed_update hn hzero idx
          rw [hfiles] at hclaimed
          have hne : r ≠ -1 := by omega
          have hnot : n ∉ claimed t.files := fun hmem => (mem_claimed.mp hmem).2 hzero
          have hslot' : Slotted t' (openAfter opened r (.open path mode)) := by
            rw [openAfter, if_neg hne]
            intro fd hfd
            rw [hclaimed]
            rcases List.mem_cons.mp hfd with rfl | hfd
            · exact ⟨n, hret.symm, Finset.mem_insert_self ..⟩
            · obtain ⟨m, hm, hmem⟩ := hslot fd hfd
              exact ⟨m, hm, Finset.mem_insert_of_mem hmem⟩
          have hih := ih hslot' hrest
          rw [hclaimed, Finset.card_insert_of_notMem hnot] at hih
          rw [show (claimed t.files).card + ((rest.filter Served.opens).length + 1) =
            (claimed t.files).card + 1 + (rest.filter Served.opens).length by omega, ← hih]
          refine and_iff_right fun _ => ⟨hne, fun hmem => ?_, n, idx, hret.symm, hidx, ?_, ?_⟩
          · obtain ⟨m, hm, hclaim⟩ := hslot r hmem
            rw [← hret] at hm
            exact hnot (Int.ofNat.inj hm ▸ hclaim)
          · show (t'.files n).vinodeIdx = idx
            rw [← hfiles, Function.update_self]
          · show (t'.files n).offset = 0
            rw [← hfiles, Function.update_self]
      · obtain ⟨hret, hfiles⟩ := vfsOpen_refused ha hcall
        refine hkeep (fun h => absurd h ha) (eq_false_of_ne_true ha) (by rw [hfiles]) ?_
        rw [openAfter, if_pos hret]
        exact hothers (LeavesOthers.of_eq hfiles : LeavesOthers t t' 0)
    | read fd buf nbyte =>
      obtain ⟨⟨r', buf', t''⟩, hread, hcall⟩ := bind_eq_ok.mp hcall
      cases hcall
      have hl := vfsRead_leavesOthers hread
      exact hkeep hl.offset rfl hl.claimed (hothers hl)
    | write fd buf nbyte =>
      have hl := vfsWrite_leavesOthers hcall
      exact hkeep hl.offset rfl hl.claimed (hothers hl)
    | close fd =>
      cases hcall
      exact hkeep trivial rfl rfl fun g hg => hslot g (List.mem_of_mem_erase hg)

/-- The table at boot. -/
def Boot (t : Table E) : Prop := ∀ n, (t.files n).refcnt = 0

/-- From boot on, a sequence of calls is served as it should be exactly if it opens accessible
paths no more than `MAX_FILE` times in all. -/
theorem right_iff {t : Table E} {cs : List FileCall} {es : List (Served E)} (hb : Boot t)
    (h : serve D t [] cs = .ok es) :
    (∀ e ∈ es, e.Right) ↔ (es.filter Served.opens).length ≤ maxFile := by
  have hempty : claimed t.files = ∅ := by
    ext i
    simp [mem_claimed, hb i]
  have hiff := right_iff_slots (fun _ hfd => absurd hfd (List.not_mem_nil)) h
  rwa [hempty, Finset.card_empty, Nat.zero_add] at hiff

end Model

/-! ## Opening and closing the root -/

/-- The state after `vfs_init`, with nothing in `files`. -/
def bootTable (s : State) : Table Unit := ⟨s, (), fun _ => ⟨0, 0, 0⟩⟩

/-- Every descriptor is closed before the next call of `vfs_open`. -/
def openClose (n : Nat) : List FileCall :=
  (List.range n).flatMap fun i => [.open (.lit "/") typeDir, .close i]

/-- Neither `/proc` nor the terminals are read or written. -/
def noDrivers : Drivers Unit where
  procfsRead _ _ _ buf := .ok (0, buf)
  ttyWrite _ _ _ _ n := .ok (n, ())

theorem boot_bootTable (s : State) : Boot (bootTable s) := fun _ => rfl

/-- What the calls do right after `vfs_init`. -/
def serveBoot (n : Nat) : Except Fault (State × List (Served Unit)) := do
  let s ← vfsInit (fun _ => Ext2.Device.zero Ext2.rdSize) 4 0
  let es ← serve noDrivers (bootTable s) [] (openClose n)
  return (s, es)

theorem right_iff_openClose : ∃ s es, Reachable s ∧
    serve noDrivers (bootTable s) [] (openClose 32) = .ok es ∧ ∀ e ∈ es, e.Right := by
  obtain ⟨⟨s, es⟩, hrun, htest⟩ := exists_of_test (x := serveBoot 32)
    (f := fun x => decide ((x.2.filter Served.opens).length ≤ maxFile)) (by decide +kernel)
  obtain ⟨s', hs, hrun⟩ := bind_eq_ok.mp hrun
  obtain ⟨es', hes, hrun⟩ := bind_eq_ok.mp hrun
  cases hrun
  exact ⟨s, es, ⟨_, 4, 0, s, [], hs, rfl⟩, hes,
    (right_iff (boot_bootTable s) hes).mpr (of_decide_eq_true htest)⟩

/-- The thirty-third call of `vfs_open` returns -1, although no descriptor is open. -/
theorem openClose_33_not_right : ∃ s es, Reachable s ∧
    serve noDrivers (bootTable s) [] (openClose 33) = .ok es ∧ Moderate es ∧
    ¬∀ e ∈ es, e.Right := by
  obtain ⟨⟨s, es⟩, hrun, htest⟩ := exists_of_test (x := serveBoot 33)
    (f := fun x => decide (maxFile < (x.2.filter Served.opens).length) &&
      x.2.all fun e => e.opened.length < maxFile) (by decide +kernel)
  obtain ⟨s', hs, hrun⟩ := bind_eq_ok.mp hrun
  obtain ⟨es', hes, hrun⟩ := bind_eq_ok.mp hrun
  cases hrun
  rw [Bool.and_eq_true, List.all_eq_true] at htest
  refine ⟨s, es, ⟨_, 4, 0, s, [], hs, rfl⟩, hes, fun e he _ => of_decide_eq_true (htest.2 e he),
    fun hright => ?_⟩
  have hle := (right_iff_slots (fun _ hfd => absurd hfd (List.not_mem_nil)) hes).mp hright
  have hmany : maxFile < (es.filter Served.opens).length := of_decide_eq_true htest.1
  omega

end OsWorkbench.Vfs
