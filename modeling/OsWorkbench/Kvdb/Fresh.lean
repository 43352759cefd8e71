import OsWorkbench.Kvdb.Refine

/-!
# A new database over old memory

`main` takes `*db` from `malloc`, and the create path of `kvdb_open` writes nothing
into it but the bytes of the three names, without their terminators. The item count
and the flags of the blocks stay what the memory held. Two new databases with the
same name are empty and behave alike iff both lie over memory that already says so:
no items, no used blocks, and a terminator behind what is copied of each name.
-/

namespace OsWorkbench.Kvdb

/-- `kvdb_open` returns `0` and leaves the empty map, all blocks unused, and the names
derived from `f`; the files it writes encode the empty map. -/
structure OpensEmpty (p : Proc) (d : Disk) (f : CStr) (p' : Proc) (d' : Disk) : Prop where
  returns : kvdbOpen p d f = .ok (0, p', d')
  empty : Repr p'.db []
  unused : ∀ i, i < datasSize → (p'.db.datas i).used = 0
  named : Named p'.db f
  file : ∃ db, d' f = some (.image db) ∧ Repr db []
  copy : ∃ db, d' (copyName f) = some (.image db) ∧ Repr db []

/-- What calls show: their results, the map they leave, and the disk apart from the
two images. -/
def observed (f : CStr) (x : List Out × Proc × Disk) : List Out × (CStr → Option CStr) × Disk :=
  (x.1, logical x.2.1.db, fun n => if n = f ∨ n = copyName f then none else x.2.2 n)

/-- Opening `f` with `db` and with `db'` as the contents of the object: both times a
new database, and the same from then on. -/
def OpensAlike (p : Proc) (d : Disk) (f : CStr) (db db' : Db) : Prop :=
  ∃ q e q' e', OpensEmpty { p with db := db } d f q e ∧ OpensEmpty { p with db := db' } d f q' e' ∧
    ∀ os, (calls q e os).map (observed f) = (calls q' e' os).map (observed f)

/-- What `kvdb_open` takes for granted of the memory. -/
structure Blank (db : Db) (f : CStr) : Prop extends Terminated db f where
  size : db.size = 0
  unused : ∀ i, i < datasSize → (db.datas i).used = 0

/-! ## Opening -/

theorem Repr.size {db : Db} {m : Store} (h : Repr db m) : db.size = m.length := by
  obtain ⟨E, hE, hp⟩ := h
  rw [hE.size, ← hp.length_eq, storeOf, List.length_map]

theorem image_of_text {d : Disk} {n n' : CStr} {bs : List UInt8} {db : Db}
    (h : d.write n (.text bs) n' = some (.image db)) : d n' = some (.image db) := by
  by_cases hn : n' = n
  · subst hn
    rw [write_self] at h
    cases h
  · rwa [write_of_ne d _ hn] at h

theorem of_write_of_none {d : Disk} {n n' : CStr} {x y : File} (hn' : d n' = none)
    (h : d.write n x n' = some y) : n' = n := by
  by_contra hne
  rw [write_of_ne d _ hne, hn'] at h
  cases h

section Open

variable {p p' : Proc} {d d' : Disk} {f : CStr}

theorem opensEmpty_of_blank (hf : ValidName f) (hfile : d f = none) (hcopy : d (copyName f) = none)
    (h : Blank p.db f) : ∃ p' d', OpensEmpty p d f p' d' ∧ p'.readbuf = p.readbuf ∧
      ∀ n, n ≠ f → n ≠ copyName f → d' n = (d.write (logName f) (.text [])) n := by
  obtain ⟨db, hdb, hn, hs, hdatas⟩ := kvdbNames_ok hf h.toTerminated
  have hunused : ∀ i, i < datasSize → (db.datas i).used = 0 := by
    rw [hdatas]
    exact h.unused
  have hempty : Repr db [] := repr_empty (hs.trans h.size) hunused
  refine ⟨_, _, ⟨kvdbOpen_names hdb hn hcopy hfile, hempty, hunused, hn, ⟨db, ?_, hempty⟩,
    ⟨db, ?_, hempty⟩⟩, rfl, fun n hne hne' => ?_⟩
  · rw [write_of_ne _ _ (logName_ne hf).symm, write_of_ne _ _ (copyName_ne hf).symm, write_self]
  · rw [write_of_ne _ _ (copyName_ne_logName f), write_self]
  · by_cases hlog : n = logName f
    · rw [hlog, write_self, write_self]
    · rw [write_of_ne _ _ hlog, write_of_ne _ _ hne', write_of_ne _ _ hne, write_of_ne _ _ hlog]

/-- Only the create path writes two images. -/
theorem blank_of_opensEmpty (hf : ValidName f) (hfile : d f = none) (hcopy : d (copyName f) = none)
    (h : OpensEmpty p d f p' d') : Blank p.db f := by
  obtain ⟨db, hdb, hopen⟩ := bind_eq_ok.mp h.returns
  obtain ⟨_, himage, -⟩ := h.file
  obtain ⟨_, himage', -⟩ := h.copy
  simp only at hopen
  split_ifs at hopen with hleft hexists
  · obtain ⟨q, -, hopen⟩ := bind_eq_ok.mp hopen
    cases hopen
    rw [write_write] at himage himage'
    have hone := of_write_of_none hfile (image_of_text himage)
    have hone' := of_write_of_none hcopy (image_of_text himage')
    exact absurd (hone'.trans hone.symm) (copyName_ne hf)
  · cases hopen
    have hone := of_write_of_none hfile (image_of_text himage)
    have hone' := of_write_of_none hcopy (image_of_text himage')
    exact absurd (hone'.trans hone.symm) (copyName_ne hf)
  · cases hopen
    obtain ⟨hterm, hsize, hdatas⟩ := terminated_of_named hf hdb h.named
    refine ⟨hterm, hsize.symm.trans h.empty.size, ?_⟩
    rw [← hdatas]
    exact h.unused

end Open

/-! ## Two databases with one map -/

/-- The result of `kvdb_alloc` depends on how many blocks are unused, not on which. -/
theorem kvdbAlloc_alike {db db' : Db} {size : Int} {key : CStr}
    (hu : (unused db'.datas 0).length = (unused db.datas 0).length) (hs : db'.size = db.size) :
    (kvdbAlloc db' size key).map Prod.fst = (kvdbAlloc db size key).map Prod.fst := by
  simp only [kvdbAlloc]
  cases hint : int (size + dataLength) with
  | error e => rfl
  | ok w =>
    simp only [ok_bind, kvdbAllocLoop_start, hu]
    by_cases hrow : min (blocks size).toNat (unused db.datas 0).length ≤ rows
    · rw [if_pos hrow, if_pos hrow, ok_bind, ok_bind]
      by_cases hle : (blocks size).toNat ≤ (unused db.datas 0).length
      · rw [if_pos hle, if_pos hle]
        simp only [List.length_map, List.length_take, hu, hs]
        split_ifs
        · rfl
        · cases inBounds (min (blocks size).toNat (unused db.datas 0).length < rows) with
          | error e => rfl
          | ok _ =>
            rw [ok_bind, ok_bind]
            cases index db.size itemsSize with
            | error e => rfl
            | ok i =>
              rw [ok_bind, ok_bind]
              cases inBounds (key.length < keyLength) <;> rfl
      · rw [if_neg hle, if_neg hle]
        rfl
    · rw [if_neg hrow, if_neg hrow]
      rfl

/-- A `kvdb_put` is decided by its `kvdb_alloc`. -/
theorem kvdbPut_alike {p p' : Proc} {m : Store} (h : Repr p.db m) (h' : Repr p'.db m) (d d' : Disk)
    (k v : CStr) :
    (∃ e, kvdbPut p d k v = .error e ∧ kvdbPut p' d' k v = .error e) ∨
    (∃ db db', kvdbPut p d k v = .ok (1, { p with db := db }, d) ∧
      kvdbPut p' d' k v = .ok (1, { p' with db := db' }, d') ∧ Repr db (del k m) ∧
      Repr db' (del k m) ∧ SameNames p.db db ∧ SameNames p'.db db') ∨
    k.length < keyLength ∧ need v < rows ∧ Fits (ins k v m) := by
  obtain ⟨db, hfree, hrep, hnames⟩ := h.freeIfFound k
  obtain ⟨db', hfree', hrep', hnames'⟩ := h'.freeIfFound k
  have hunused := hrep.length_unused
  have hunused' := hrep'.length_unused
  have halike : (kvdbAlloc db' (toInt v.length) k).map Prod.fst =
      (kvdbAlloc db (toInt v.length) k).map Prod.fst :=
    kvdbAlloc_alike (by omega) (hrep'.size.trans hrep.size.symm)
  simp only [kvdbPut]
  rw [hfree, hfree', ok_bind, ok_bind]
  cases halloc : kvdbAlloc db (toInt v.length) k with
  | error e =>
    cases halloc' : kvdbAlloc db' (toInt v.length) k with
    | error e' =>
      rw [halloc, halloc'] at halike
      cases halike
      exact .inl ⟨e, rfl, rfl⟩
    | ok x =>
      rw [halloc, halloc'] at halike
      cases halike
  | ok x =>
    cases halloc' : kvdbAlloc db' (toInt v.length) k with
    | error e' =>
      rw [halloc, halloc'] at halike
      cases halike
    | ok x' =>
      rw [halloc, halloc'] at halike
      obtain ⟨r, db₁⟩ := x
      obtain ⟨r', db₁'⟩ := x'
      obtain rfl : r' = r := Except.ok.inj halike
      rw [ok_bind, ok_bind]
      rcases kvdbAlloc_code halloc with rfl | rfl
      · simp only [ne_eq, not_true_eq_false, if_false]
        by_cases hmax : v.length < maxLength
        · rw [toInt_length hmax.le] at halloc
          exact .inr (.inr (hrep.alloc_inv halloc))
        · refine .inl ⟨.badAccess, ?_, ?_⟩
          · rw [copyToWritebuf, inBounds_neg hmax, error_bind, error_bind]
          · rw [copyToWritebuf, inBounds_neg hmax, error_bind, error_bind]
      · obtain ⟨rfl, -⟩ := kvdbAlloc_one_iff.mp halloc
        obtain ⟨rfl, -⟩ := kvdbAlloc_one_iff.mp halloc'
        exact .inr (.inl ⟨db₁, db₁', rfl, rfl, hrep, hrep', hnames, hnames'⟩)

/-- Two runs that have come to the same map. -/
structure Twin (f : CStr) (p p' : Proc) (d d' : Disk) (m : Store) : Prop where
  left : Repr p.db m
  right : Repr p'.db m
  named : Named p.db f
  named' : Named p'.db f
  readbuf : p'.readbuf = p.readbuf
  disk : ∀ n, n ≠ f → n ≠ copyName f → d' n = d n

theorem append_eq {f n : CStr} {d d' : Disk} (hf : ValidName f) (bs : List UInt8)
    (h : ∀ n, n ≠ f → n ≠ copyName f → d' n = d n) (hn : n ≠ f) (hn' : n ≠ copyName f) :
    d'.append (logName f) bs n = d.append (logName f) bs n := by
  have htext : d'.textOf (logName f) = d.textOf (logName f) := by
    unfold Disk.textOf
    rw [h _ (logName_ne hf) (copyName_ne_logName f).symm]
  unfold Disk.append
  rw [htext]
  by_cases hlog : n = logName f
  · rw [hlog, write_self, write_self]
  · rw [write_of_ne _ _ hlog, write_of_ne _ _ hlog, h n hn hn']

section Calls

variable {p p' : Proc} {d d' : Disk} {f : CStr} {m : Store}

/-- One call returns the same in both runs, or stops both. -/
theorem Twin.call (hf : ValidName f) (h : Twin f p p' d d' m) (o : Op) :
    (∃ e, call p d o = .error e ∧ call p' d' o = .error e) ∨
    ∃ out q e q' e' m', call p d o = .ok (out, q, e) ∧ call p' d' o = .ok (out, q', e') ∧
      Twin f q q' e e' m' := by
  cases o with
  | put k v =>
    rcases kvdbPut_alike h.left h.right d d' k v with ⟨e, herr, herr'⟩ |
      ⟨db, db', hput, hput', hrep, hrep', hnames, hnames'⟩ | ⟨hk, hr, hfits⟩
    · exact .inl ⟨e, bind_eq_error.mpr (.inl herr), bind_eq_error.mpr (.inl herr')⟩
    · refine .inr ⟨.ret 1, _, d, _, d', del k m, bind_eq_ok.mpr ⟨_, hput, rfl⟩,
        bind_eq_ok.mpr ⟨_, hput', rfl⟩, ⟨hrep, hrep', hnames.named h.named, hnames'.named h.named',
          h.readbuf, h.disk⟩⟩
    · obtain ⟨q, hput, hrep, hnames, hbuf, -⟩ := h.left.put d hk hr hfits
      obtain ⟨q', hput', hrep', hnames', hbuf', -⟩ := h.right.put d' hk hr hfits
      rw [h.named.logname] at hput
      rw [h.named'.logname] at hput'
      exact .inr ⟨.ret 0, q, _, q', _, ins k v m, bind_eq_ok.mpr ⟨_, hput, rfl⟩,
        bind_eq_ok.mpr ⟨_, hput', rfl⟩, hrep, hrep', hnames.named h.named, hnames'.named h.named',
        by rw [hbuf, hbuf', h.readbuf], fun n => append_eq hf _ h.disk⟩
  | get k =>
    cases hlook : m.lookup k with
    | none =>
      have hget := h.left.get_none d hlook
      have hget' := h.right.get_none d' hlook
      exact .inr ⟨.str none, p, d, p', d', m, bind_eq_ok.mpr ⟨_, hget, rfl⟩,
        bind_eq_ok.mpr ⟨_, hget', rfl⟩, h⟩
    | some v =>
      obtain ⟨-, q, hget, hrep, hnames, hbuf, -⟩ := h.left.get_some d hlook
      obtain ⟨-, q', hget', hrep', hnames', hbuf', -⟩ := h.right.get_some d' hlook
      rw [h.named.logname] at hget
      rw [h.named'.logname] at hget'
      have hsame : q'.readbuf = q.readbuf := by rw [hbuf, hbuf', h.readbuf]
      have hstr : q'.str = q.str := by rw [Proc.str, hsame, Proc.str]
      exact .inr ⟨.str (some q.str), q, _, q', _, del k m, bind_eq_ok.mpr ⟨_, hget, rfl⟩,
        bind_eq_ok.mpr ⟨_, hget', by rw [← hstr]; rfl⟩, hrep, hrep', hnames.named h.named,
        hnames'.named h.named',
        hsame, fun n => append_eq hf _ h.disk⟩

/-- So do sequences of calls. -/
theorem Twin.calls (hf : ValidName f) (h : Twin f p p' d d' m) (os : List Op) :
    (calls p d os).map (observed f) = (calls p' d' os).map (observed f) := by
  induction os generalizing p p' d d' m with
  | nil =>
    refine congrArg Except.ok (Prod.ext rfl (Prod.ext ?_ ?_))
    · funext k
      exact (h.left.logical_eq k).trans (h.right.logical_eq k).symm
    · funext n
      by_cases hn : n = f ∨ n = copyName f
      · exact (if_pos hn).trans (if_pos hn).symm
      · obtain ⟨hn₁, hn₂⟩ := not_or.mp hn
        exact (if_neg hn).trans ((h.disk n hn₁ hn₂).symm.trans (if_neg hn).symm)
  | cons o os ih =>
    simp only [Kvdb.calls]
    rcases h.call hf o with ⟨e, herr, herr'⟩ | ⟨out, q, e, q', e', m', hcall, hcall', htwin⟩
    · rw [herr, herr']
    · have hih := ih htwin
      rw [hcall, hcall', ok_bind, ok_bind]
      cases hrest : Kvdb.calls q e os with
      | error e₁ =>
        cases hrest' : Kvdb.calls q' e' os with
        | error e₂ =>
          rw [hrest, hrest'] at hih
          exact hih
        | ok x =>
          rw [hrest, hrest'] at hih
          cases hih
      | ok x =>
        cases hrest' : Kvdb.calls q' e' os with
        | error e₂ =>
          rw [hrest, hrest'] at hih
          cases hih
        | ok x' =>
          rw [hrest, hrest'] at hih
          have hobs : observed f x = observed f x' := Except.ok.inj hih
          have hfst : (observed f x).1 = (observed f x').1 := congrArg Prod.fst hobs
          have hsnd : (observed f x).2 = (observed f x').2 := congrArg Prod.snd hobs
          exact congrArg Except.ok (Prod.ext (congrArg (out :: ·) hfst) hsnd)

end Calls

/-! ## Any two contents -/

theorem validName_of_append {f g : CStr} (hext : f = g.append (.lit ".db"))
    (hlen : f.length < filenameLength - 4) : ValidName f := by
  have hlit : (CStr.lit ".db").length = 3 := by decide
  have hsum := CStr.length_append g (.lit ".db")
  rw [← hext, hlit] at hsum
  unfold filenameLength at hlen
  exact ⟨by omega, by unfold filenameLength; omega⟩

/-- A new database is the same over two memories iff both are blank. -/
theorem opensAlike_iff {f g : CStr} (hext : f = g.append (.lit ".db"))
    (hlen : f.length < filenameLength - 4) (p : Proc) {d : Disk} (hfile : d f = none)
    (hcopy : d (copyName f) = none) (db db' : Db) :
    OpensAlike p d f db db' ↔ Blank db f ∧ Blank db' f := by
  have hf := validName_of_append hext hlen
  constructor
  · rintro ⟨q, e, q', e', hopen, hopen', -⟩
    exact ⟨blank_of_opensEmpty hf hfile hcopy hopen, blank_of_opensEmpty hf hfile hcopy hopen'⟩
  · rintro ⟨hblank, hblank'⟩
    obtain ⟨q, e, hopen, hbuf, hdisk⟩ := opensEmpty_of_blank (p := { p with db := db }) hf hfile
      hcopy hblank
    obtain ⟨q', e', hopen', hbuf', hdisk'⟩ := opensEmpty_of_blank (p := { p with db := db' }) hf
      hfile hcopy hblank'
    refine ⟨q, e, q', e', hopen, hopen', fun os => Twin.calls hf ⟨hopen.empty, hopen'.empty,
      hopen.named, hopen'.named, hbuf'.trans hbuf.symm, fun n hn hn' => ?_⟩ os⟩
    rw [hdisk n hn hn', hdisk' n hn hn']

/-- Memory that is not zero but blank for `a.db`. -/
def usedMemory : Db where
  filename i := if i = 4 then 0 else 120
  copyname i := if i = 1 then 0 else 120
  logname i := if i = 1 then 0 else 120
  size := 0
  items _ := ⟨7, 7, .lit "x"⟩
  datas _ := ⟨fun _ => 120, 0, 7⟩

theorem opensAlike_usedMemory :
    OpensAlike .zero (fun _ => none) (.lit "a.db") .zero usedMemory :=
  (opensAlike_iff (g := .lit "a") (by decide) (by decide) .zero rfl rfl .zero usedMemory).mpr
    ⟨⟨⟨rfl, rfl, rfl⟩, rfl, fun _ _ => rfl⟩, ⟨⟨rfl, rfl, rfl⟩, rfl, fun _ _ => rfl⟩⟩

/-- Memory with a one where the item count lies: the new database has an item. -/
theorem size_one_not_opensAlike :
    ¬OpensAlike .zero (fun _ => none) (.lit "a.db") .zero { Db.zero with size := 1 } := by
  rintro ⟨q, e, q', e', -, hopen, -⟩
  have hblank := blank_of_opensEmpty ⟨by decide, by decide⟩ rfl rfl hopen
  exact absurd hblank.size (by decide)

end OsWorkbench.Kvdb
