import OsWorkbench.Kvdb.Log

/-!
# A log that was cut short

A crash during an append leaves a prefix of the log. `redo_operation` has no way
to tell a torn record from a complete one: it redoes the operation that the
remaining bytes spell. `cut` says which one that is.
-/

namespace OsWorkbench.Kvdb

/-- How `redo_operation` reads the first bytes of a record. -/
inductive Torn
  | nothing
  | reads (o : Op)
  /-- `value[strlen(value) - 1]` with an empty `value`. -/
  | overrun

/-- The first `n` bytes of the record of `o`, read when `value` still holds the
value of the last `put` before it. -/
def tornRecord (value : CStr) (o : Op) (n : Nat) : Torn :=
  if n ≤ 4 then .nothing
  else
    match o with
    | .get k => .reads (.get (k.take (n - 4)))
    | .put k v =>
      if n ≤ 5 + k.length then
        -- `fgets` is at the end of the file and leaves `value` as it is
        if value.length = 0 then .overrun else .reads (.put (k.take (n - 4)) value.dropLast)
      else .reads (.put k (v.take (n - 5 - k.length)).dropLast)

/-- The operations whose records are complete in the first `n` bytes of the log,
and the reading of what follows them. -/
def cut (value : CStr) : List Op → Nat → List Op × Torn
  | [], _ => ([], .nothing)
  | o :: os, n =>
    if (record o).length ≤ n then
      (o :: (cut (valueAfter value o) os (n - (record o).length)).1,
        (cut (valueAfter value o) os (n - (record o).length)).2)
    else ([], tornRecord value o n)

/-- The torn record spells no operation, or one that happens to lead to a map that
the operations `os` pass through. -/
def Harmless (m : Store) (os : List Op) : List Op × Torn → Prop
  | (_, .nothing) => True
  | (done, .reads o) => ∃ j, j ≤ os.length ∧
    ∀ k, (eval (evals m done).2 o).2.lookup k = (evals m (os.take j)).2.lookup k
  | (_, .overrun) => False

/-- Keys and values are non-empty and without blanks. -/
def Plain : Op → Prop
  | .put k v => Word k ∧ Word v
  | .get k => Word k

theorem Plain.loggable {o : Op} (h : Plain o) : Loggable o := by
  cases o with
  | put k v => exact ⟨h.1, h.2.line⟩
  | get k => exact h

/-! ## Reading the torn record -/

def redoOne (p : Proc) : Op → Except Fault Proc
  | .put k v => kvdbPutRedo { p with value := v } k v
  | .get k => kvdbGetRedo p k

/-- What `redo_operation` does when only the torn record is left. -/
def redoTorn (p : Proc) : Torn → Except Fault Proc
  | .nothing => .ok p
  | .reads o => redoOne p o
  | .overrun => .error .badAccess

theorem bind_redoLoop_nil (x : Except Fault Proc) (fuel : Nat) :
    (x >>= fun p => redoLoop (fuel + 1) p []) = x := by
  cases x <;> rfl

theorem Word.take {k : CStr} (h : Word k) {n : Nat} (hn : 0 < n) : Word (k.take n) := by
  refine ⟨?_, fun c hc => h.2 c (List.mem_of_mem_take hc)⟩
  rw [CStr.bytes_take, Ne, List.take_eq_nil_iff]
  exact fun h0 => h0.elim (Nat.ne_of_gt hn) h.1

theorem take_length_le (k : CStr) (n : Nat) : (k.take n).length ≤ k.length := by
  unfold CStr.length
  rw [CStr.bytes_take]
  exact List.length_take_le' n _

theorem scanRecord_short (verb : List UInt8) (hv : verb = verbPut ∨ verb = verbGet) {n : Nat}
    (hn : n ≤ 4) : scanRecord ((verb ++ [32]).take n) = none := by
  have h : n = 0 ∨ n = 1 ∨ n = 2 ∨ n = 3 ∨ n = 4 := by omega
  rcases hv with rfl | rfl <;> rcases h with rfl | rfl | rfl | rfl | rfl <;> decide +kernel

/-- The bytes of `(verb ++ 32 :: bs).take n`, cut behind or in front of the blank. -/
theorem take_verb {verb bs : List UInt8} (hv : verb.length = 3) (n : Nat) :
    (verb ++ 32 :: bs).take n =
      if n ≤ 4 then (verb ++ [32]).take n else verb ++ 32 :: bs.take (n - 4) := by
  have hsplit : verb ++ 32 :: bs = (verb ++ [32]) ++ bs := by simp
  have hlen : (verb ++ [32]).length = 4 := by simp [hv]
  rw [hsplit, List.take_append, hlen]
  split
  · next hn => rw [Nat.sub_eq_zero_of_le hn, List.take_zero, List.append_nil]
  · next hn =>
    rw [List.take_of_length_le (by omega)]
    simp

theorem redoLoop_torn_get {p : Proc} {k : CStr} (hk : Word k) (hlen : k.length < keyLength)
    {n : Nat} (hn : 4 < n) (hlt : n < (getRecord k).length) (fuel : Nat) :
    redoLoop (fuel + 2) p ((getRecord k).take n) = kvdbGetRedo p (k.take (n - 4)) := by
  have hrec : getRecord k = verbGet ++ 32 :: (k.bytes ++ [32, 10]) := by simp [getRecord]
  have hl : (getRecord k).length = k.bytes.length + 6 := by simp [getRecord, verbGet]
  rw [hrec, take_verb rfl, if_neg (by omega), List.take_append]
  have htail : [32, 10].take (n - 4 - k.bytes.length) = ([] : List UInt8) ∨
      [32, 10].take (n - 4 - k.bytes.length) = ([32] : List UInt8) := by
    have h : n - 4 - k.bytes.length = 0 ∨ n - 4 - k.bytes.length = 1 := by omega
    rcases h with h | h <;> simp [h]
  have hw := hk.take (n := n - 4) (by omega)
  have hwlen : (k.take (n - 4)).length < keyLength := (take_length_le k _).trans_lt hlen
  rcases htail with htail | htail
  · rw [htail, ← CStr.bytes_take, redoLoop_get hw hwlen atBlank_nil]
    exact bind_redoLoop_nil _ _
  · rw [htail, ← CStr.bytes_take, redoLoop_get hw hwlen (atBlank_space _)]
    exact bind_redoLoop_nil _ _

/-- A `put` cut before its value takes the value of the `put` before it. -/
theorem redoLoop_torn_key {p : Proc} {k v : CStr} (hk : Word k) (hlen : k.length < keyLength)
    {n : Nat} (hn : 4 < n) (hlt : n ≤ 5 + k.length) (fuel : Nat) :
    redoLoop (fuel + 2) p ((putRecord k v).take n) =
      redoTorn p (if p.value.length = 0 then .overrun
        else .reads (.put (k.take (n - 4)) p.value.dropLast)) := by
  have hrec : putRecord k v = verbPut ++ 32 :: (k.bytes ++ (32 :: (v.bytes ++ [10]))) := by
    simp [putRecord]
  have hlt' : n ≤ 5 + k.bytes.length := hlt
  obtain ⟨tail, htail, hblank, hskip⟩ : ∃ tail : List UInt8,
      (k.bytes ++ (32 :: (v.bytes ++ [10]))).take (n - 4) = (k.take (n - 4)).bytes ++ tail ∧
      AtBlank tail ∧ skipSpace tail = [] := by
    rw [List.take_append]
    have h : n - 4 - k.bytes.length = 0 ∨ n - 4 - k.bytes.length = 1 := by omega
    rcases h with h | h
    · exact ⟨[], by simp [h], atBlank_nil, rfl⟩
    · exact ⟨[32], by simp [h], atBlank_space _, rfl⟩
  have hw := hk.take (n := n - 4) (by omega)
  have hwlen : (k.take (n - 4)).length < keyLength := (take_length_le k _).trans_lt hlen
  have hread : readValue p.value (skipSpace tail) = (p.value, []) := by
    rw [hskip, readValue, fgets_nil]
  rw [hrec, take_verb rfl, if_neg (by omega), htail]
  by_cases h0 : p.value.length = 0
  · rw [if_pos h0, redoLoop, scanRecord_eq rfl verbPut_word hw.1 hw.2 hblank]
    simp only
    rw [inBounds_bind (p := (k.take (n - 4)).bytes.length < keyLength) hwlen,
      if_pos ofBytes_verbPut, hread, h0]
    rfl
  · rw [if_neg h0, redoLoop_put hw hwlen hblank hread (Nat.pos_of_ne_zero h0)]
    exact bind_redoLoop_nil _ _

/-- A `put` cut inside its value loses one more byte. -/
theorem redoLoop_torn_value {p : Proc} {k v : CStr} (hk : Word k) (hv : Word v)
    (hlen : k.length < keyLength) (hr : need v < rows) {n : Nat} (hn : 5 + k.length < n)
    (hlt : n < (putRecord k v).length) (fuel : Nat) :
    redoLoop (fuel + 2) p ((putRecord k v).take n) =
      redoOne p (.put k (v.take (n - 5 - k.length)).dropLast) := by
  have hrec : putRecord k v = verbPut ++ 32 :: (k.bytes ++ (32 :: (v.bytes ++ [10]))) := by
    simp [putRecord]
  have hl : (putRecord k v).length = k.bytes.length + v.bytes.length + 6 := by
    simp [putRecord, verbPut]
    omega
  have hn' : 5 + k.bytes.length < n := hn
  have hw := hv.take (n := n - 5 - k.length) (by omega)
  have hwl := hw.line
  have hcut : (k.bytes ++ (32 :: (v.bytes ++ [10]))).take (n - 4) =
      k.bytes ++ 32 :: (v.take (n - 5 - k.length)).bytes := by
    have h1 : n - 4 - k.bytes.length = n - 5 - k.length + 1 := by
      change n - 4 - k.bytes.length = n - 5 - k.bytes.length + 1
      omega
    have h2 : n - 5 - k.length - v.bytes.length = 0 := by
      change n - 5 - k.bytes.length - v.bytes.length = 0
      omega
    rw [List.take_append, List.take_of_length_le (by omega), h1, List.take_succ_cons,
      List.take_append, h2, List.take_zero, List.append_nil, CStr.bytes_take]
  have hmax : (v.take (n - 5 - k.length)).bytes.length < maxLength := by
    have hvmax : v.length < maxLength := by
      have := need_lt_rows.mp hr
      unfold maxLength dataLength at *
      omega
    exact (take_length_le v _).trans_lt hvmax
  have hread : readValue p.value (skipSpace (32 :: (v.take (n - 5 - k.length)).bytes)) =
      (v.take (n - 5 - k.length), []) := by
    rw [skipSpace_cons rfl, skipSpace_of_atWord hwl.2.1, readValue, fgets_eof hwl.2.2 hw.1 hmax]
    simp only [CStr.ofBytes_bytes]
  have hpos : 0 < (v.take (n - 5 - k.length)).length := List.length_pos_iff.mpr hw.1
  rw [hrec, take_verb rfl, if_neg (by omega), hcut,
    redoLoop_put hk hlen (atBlank_space _) hread hpos]
  exact bind_redoLoop_nil _ _

/-- The operation's key and value are within the bounds of the database. -/
def Op.Bounded : Op → Prop
  | .put k v => k.length < keyLength ∧ need v < rows
  | .get k => k.length < keyLength

theorem redoLoop_torn {p : Proc} {o : Op} (ho : Plain o) (hb : o.Bounded) {n : Nat}
    (hlt : n < (record o).length) (fuel : Nat) :
    redoLoop (fuel + 2) p ((record o).take n) = redoTorn p (tornRecord p.value o n) := by
  unfold tornRecord
  by_cases hn : n ≤ 4
  · rw [if_pos hn]
    have hshort : scanRecord ((record o).take n) = none := by
      cases o with
      | put k v =>
        have hrec : record (.put k v) =
            verbPut ++ 32 :: (k.bytes ++ (32 :: (v.bytes ++ [10]))) := by
          simp [record, putRecord]
        rw [hrec, take_verb rfl, if_pos hn]
        exact scanRecord_short _ (.inl rfl) hn
      | get k =>
        have hrec : record (.get k) = verbGet ++ 32 :: (k.bytes ++ [32, 10]) := by
          simp [record, getRecord]
        rw [hrec, take_verb rfl, if_pos hn]
        exact scanRecord_short _ (.inr rfl) hn
    rw [redoLoop, hshort]
    rfl
  · rw [if_neg hn]
    cases o with
    | put k v =>
      by_cases hk : n ≤ 5 + k.length
      · simp only [if_pos hk]
        exact redoLoop_torn_key ho.1 hb.1 (by omega) hk fuel
      · simp only [if_neg hk]
        exact redoLoop_torn_value ho.1 ho.2 hb.1 hb.2 (by omega) hlt fuel
    | get k => exact redoLoop_torn_get ho hb (by omega) hlt fuel

/-! ## Reading the cut log -/

theorem Feasible.bounded {m : Store} {os : List Op} (h : Feasible m os) : ∀ o ∈ os, o.Bounded := by
  induction os generalizing m with
  | nil => simp
  | cons o os ih =>
    cases o with
    | put k v => exact List.forall_mem_cons.mpr ⟨⟨h.1, h.2.1⟩, ih h.2.2.2⟩
    | get k => exact List.forall_mem_cons.mpr ⟨h.1, ih h.2.2⟩

theorem Feasible.take {m : Store} {os : List Op} (h : Feasible m os) (j : Nat) :
    Feasible m (os.take j) := by
  induction os generalizing m j with
  | nil => simpa using h
  | cons o os ih =>
    cases j with
    | zero => trivial
    | succ j =>
      cases o with
      | put k v => exact ⟨h.1, h.2.1, h.2.2.1, ih h.2.2.2 j⟩
      | get k => exact ⟨h.1, h.2.1, ih h.2.2 j⟩

/-- The first bytes of the log are the complete records and a part of the next one. -/
theorem cut_spec (value : CStr) {os : List Op} {n : Nat} (hn : n ≤ (text os).length) :
    (cut value os n).1 <+: os ∧ ∃ tail, (text os).take n = text (cut value os n).1 ++ tail ∧
      (tail = [] ∧ (cut value os n).2 = .nothing ∨
        ∃ o i, o ∈ os ∧ i < (record o).length ∧ tail = (record o).take i ∧
          (cut value os n).2 = tornRecord ((cut value os n).1.foldl valueAfter value) o i) := by
  induction os generalizing value n with
  | nil => exact ⟨List.prefix_refl _, [], by simp [text, cut], .inl ⟨rfl, rfl⟩⟩
  | cons o os ih =>
    rw [text_cons, List.length_append] at hn
    rw [cut, text_cons, List.take_append]
    by_cases hlen : (record o).length ≤ n
    · obtain ⟨hpre, tail, htail, hcase⟩ := ih (valueAfter value o)
        (n := n - (record o).length) (by omega)
      rw [if_pos hlen, List.take_of_length_le hlen, htail]
      refine ⟨List.prefix_cons_inj o |>.mpr hpre, tail, ?_, ?_⟩
      · rw [text_cons, List.append_assoc]
      · rcases hcase with h | ⟨o', i, ho', hi, ht, hc⟩
        · exact .inl h
        · exact .inr ⟨o', i, by simp [ho'], hi, ht, hc⟩
    · rw [if_neg hlen]
      refine ⟨List.nil_prefix, (record o).take n, ?_, .inr ⟨o, n, by simp, by omega, rfl, rfl⟩⟩
      rw [Nat.sub_eq_zero_of_le (by omega), List.take_zero, List.append_nil]
      rfl

theorem Repr.redoOne_inv {p p' : Proc} {m : Store} (h : Repr p.db m) {o : Op}
    (hr : redoOne p o = .ok p') : Repr p'.db (eval m o).2 := by
  cases o with
  | put k v =>
    have h' : Repr ({ p with value := v } : Proc).db m := h
    obtain ⟨hk, hv, hf⟩ := h'.putRedo_inv hr
    obtain ⟨p₁, hp₁, hrep, -⟩ := h'.putRedo hk hv hf
    rw [redoOne, hp₁] at hr
    cases hr
    exact hrep
  | get k =>
    obtain ⟨p₁, hp₁, hrep, -⟩ := h.getRedo k
    rw [redoOne, hp₁] at hr
    cases hr
    exact hrep

/-- An operation can be redone when some database has the map it leads to. -/
theorem Repr.redoOne_of {p : Proc} {m : Store} (h : Repr p.db m) {db : Db} {m' : Store}
    (h' : Repr db m') {o : Op} (hl : ∀ k, (eval m o).2.lookup k = m'.lookup k) :
    ∃ p', redoOne p o = .ok p' ∧ Repr p'.db (eval m o).2 := by
  cases o with
  | put k v =>
    have hp : (ins k v m).Perm m' := perm_of_lookup (nodup_ins h.nodup) h'.nodup hl
    have hk : m'.lookup k = some v := by
      rw [← hl k]
      exact lookup_ins_self
    have hv := (h'.get_some (p := { Proc.zero with db := db }) (fun _ => none) hk).1
    have h₀ : Repr ({ p with value := v } : Proc).db m := h
    obtain ⟨p₁, hp₁, hrep, -⟩ := h₀.putRedo (h'.key_lt hk) hv (h'.fits.perm hp.symm)
    exact ⟨p₁, hp₁, hrep⟩
  | get k =>
    obtain ⟨p₁, hp₁, hrep, -⟩ := h.getRedo k
    exact ⟨p₁, hp₁, hrep⟩

/-- The torn record is redone into a map of the history iff it is harmless. -/
theorem redoTorn_iff {p q : Proc} {m : Store} {os done : List Op} (h : Repr q.db m)
    (hf : Feasible m os) (hl : ∀ o ∈ os, Loggable o) (hdone : done <+: os)
    (hp : Repr p.db (evals m done).2) (t : Torn) :
    (∃ p' j, redoTorn p t = .ok p' ∧ j ≤ os.length ∧
      ∀ k, logical p'.db k = (evals m (os.take j)).2.lookup k) ↔ Harmless m os (done, t) := by
  cases t with
  | nothing =>
    refine ⟨fun _ => trivial, fun _ => ⟨p, done.length, rfl, hdone.length_le, ?_⟩⟩
    rw [← List.prefix_iff_eq_take.mp hdone]
    exact hp.logical_eq
  | overrun =>
    constructor
    · rintro ⟨_, _, hr, _⟩
      cases hr
    · exact False.elim
  | reads o =>
    constructor
    · rintro ⟨p', j, hr, hj, hmap⟩
      refine ⟨j, hj, fun k => ?_⟩
      rw [← hmap k, (hp.redoOne_inv hr).logical_eq]
    · rintro ⟨j, hj, hmap⟩
      obtain ⟨q', -, hrep, -⟩ := redoOperation_text h (hf.take j)
        (fun o ho => hl o (List.mem_of_mem_take ho))
      obtain ⟨p', hp', hrep'⟩ := hp.redoOne_of hrep hmap
      exact ⟨p', j, hp', hj, fun k => by rw [hrep'.logical_eq, hmap k]⟩

/-- Redoing a prefix of the log that a sequence of plain calls wrote gives the map
of a prefix of the calls iff the record it ends in is harmless. -/
theorem torn_log_iff {p p' : Proc} {m : Store} (h : Repr p.db m) {d d' : Disk} {os : List Op}
    {outs : List Out} (hc : calls p d os = .ok (outs, p', d')) (ho : ∀ o ∈ outs, o.Logged)
    (hlog : d (nameOf p.db.logname) = some (.text [])) (hp : ∀ o ∈ os, Plain o) {q : Proc}
    (hq : q.db = p.db) {bs L : List UInt8} (hbs : d' (nameOf p.db.logname) = some (.text bs))
    (hL : L <+: bs) :
    (∃ q' j, redoOperation q L = .ok q' ∧ j ≤ os.length ∧
      ∀ k, logical q'.db k = (evals m (os.take j)).2.lookup k) ↔
      Harmless m os (cut q.value os L.length) := by
  obtain ⟨hf, -, -, hlog', -⟩ := calls_logged h hc ho hlog
  rw [hlog'] at hbs
  cases hbs
  rw [List.nil_append] at hL
  have hL' := List.prefix_iff_eq_take.mp hL
  have hl : ∀ o ∈ os, Loggable o := fun o ho => (hp o ho).loggable
  have hq' : Repr q.db m := by rw [hq]; exact h
  obtain ⟨hdone, tail, htail, hcase⟩ := cut_spec q.value hL.length_le
  rw [← hL'] at htail
  generalize cut q.value os L.length = c at hdone htail hcase ⊢
  obtain ⟨done, t⟩ := c
  simp only at hdone htail hcase
  have hfd : Feasible m done := by
    rw [List.prefix_iff_eq_take.mp hdone]
    exact hf.take _
  have hld : ∀ o ∈ done, Loggable o := fun o ho => hl o (hdone.subset ho)
  have hlen : L.length = (text done).length + tail.length := by rw [htail, List.length_append]
  have hle := length_le_text done
  have hatWord : AtWord tail := by
    rcases hcase with ⟨rfl, -⟩ | ⟨o, i, -, -, rfl, -⟩
    · exact atWord_nil
    · intro c hc
      cases i with
      | zero => cases hc
      | succ i => cases o <;> cases hc <;> rfl
  obtain ⟨q₁, hq₁, hrep, -, hval⟩ := redoLoop_text hq' hfd hld hatWord
    (L.length - done.length - tail.length + tail.length + 1)
  have hredo : redoOperation q L =
      redoLoop (L.length - done.length - tail.length + tail.length + 1) q₁ tail := by
    rw [← hq₁, redoOperation, ← htail]
    congr 1
    omega
  have htorn : redoOperation q L = redoTorn q₁ t := by
    rw [hredo]
    rcases hcase with ⟨rfl, rfl⟩ | ⟨o, i, ho, hi, rfl, rfl⟩
    · exact redoLoop_nil q₁ _
    · cases i with
      | zero => exact redoLoop_nil q₁ _
      | succ i =>
        have hpos : ((record o).take (i + 1)).length = i + 1 := by
          rw [List.length_take, min_eq_left (by omega)]
        rw [hpos, ← Nat.add_assoc, redoLoop_torn (hp o ho) (hf.bounded o ho) hi, hval]
  rw [htorn]
  exact redoTorn_iff hq' hf hl hdone hrep t

theorem torn_log_boundary :
    ∃ p d p' d' bs, kvdbOpen .zero (fun _ => none) (.lit "a.db") = .ok (0, p, d) ∧
      calls p d [.put (.lit "a") (.lit "x")] = .ok ([.ret 0], p', d') ∧
      d' (nameOf p.db.logname) = some (.text bs) ∧
      ∃ q' j, redoOperation { Proc.zero with db := p.db } (bs.take 4) = .ok q' ∧ j ≤ 1 ∧
        ∀ k, logical q'.db k =
          (evals [] (([.put (.lit "a") (.lit "x")] : List Op).take j)).2.lookup k := by
  have hname : ValidName (.lit "a.db") := ⟨by decide, by decide⟩
  obtain ⟨p, d, hopen, hn, hs, hu, hd⟩ := kvdbOpen_create (d := fun _ => none) hname rfl rfl
  have hrep : Repr p.db [] := repr_empty hs fun i _ => by rw [hu]; rfl
  obtain ⟨p', hput, -⟩ := hrep.put d (k := .lit "a") (v := .lit "x") (by decide) (by decide)
    ⟨by decide, by decide⟩
  have hcalls : calls p d [.put (.lit "a") (.lit "x")] = .ok ([.ret 0], p',
      d.append (nameOf p.db.logname) (putRecord (.lit "a") (.lit "x"))) := by
    rw [calls, call, hput]
    rfl
  have hlog : d (nameOf p.db.logname) = some (.text []) := by
    rw [hn.logname]
    exact hd.log
  have hbs := append_self hlog (putRecord (.lit "a") (.lit "x"))
  refine ⟨p, d, p', _, _, hopen, hcalls, hbs, ?_⟩
  refine (torn_log_iff (q := { Proc.zero with db := p.db }) hrep hcalls (by simp [Out.Logged]) hlog
    (by
      simp only [List.mem_singleton, forall_eq]
      exact ⟨⟨by decide, by decide +kernel⟩, by decide, by decide +kernel⟩) rfl hbs
    (List.take_prefix 4 _)).mpr ?_
  exact trivial

/-- With the last byte of the log missing, the value loses its last byte, which
gives the map of no prefix of the calls. -/
theorem torn_value :
    ∃ p d p' d' q', kvdbOpen .zero (fun _ => none) (.lit "a.db") = .ok (0, p, d) ∧
      calls p d [.put (.lit "a") (.lit "xy")] = .ok ([.ret 0], p', d') ∧
      redoOperation { Proc.zero with db := p.db } (d'.textOf (nameOf p'.db.logname)).dropLast =
        .ok q' ∧ logical q'.db (.lit "a") = some (.lit "x") ∧
      ∀ j, ¬∀ k, logical q'.db k =
        (evals [] (([.put (.lit "a") (.lit "xy")] : List Op).take j)).2.lookup k := by
  have heval : (do
      let x ← kvdbOpen .zero (fun _ => none) (.lit "a.db")
      let y ← calls x.2.1 x.2.2 [.put (.lit "a") (.lit "xy")]
      let q' ← redoOperation { Proc.zero with db := x.2.1.db }
        (y.2.2.textOf (nameOf y.2.1.db.logname)).dropLast
      pure (x.1, y.1, logical q'.db (.lit "a")) :
      Except Fault (Int × List Out × Option CStr)).toOption =
        some (0, [.ret 0], some (.lit "x")) := by
    decide +kernel
  obtain ⟨⟨r, p, d⟩, hopen, h⟩ := bind_eq_ok.mp (toOption_eq_some.mp heval)
  obtain ⟨⟨outs, p', d'⟩, hcalls, h⟩ := bind_eq_ok.mp h
  obtain ⟨q', hredo, h⟩ := bind_eq_ok.mp h
  simp only [pure_eq_ok, Except.ok.injEq, Prod.mk.injEq] at h
  obtain ⟨rfl, rfl, h1⟩ := h
  refine ⟨p, d, p', d', q', hopen, hcalls, hredo, h1, fun j hj => ?_⟩
  have hmap := hj (.lit "a")
  rw [h1] at hmap
  cases j with
  | zero => cases hmap
  | succ j =>
    rw [List.take_succ_cons, List.take_nil] at hmap
    revert hmap
    decide

end OsWorkbench.Kvdb
