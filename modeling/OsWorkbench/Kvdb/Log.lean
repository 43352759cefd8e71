import OsWorkbench.Kvdb.Refine

/-!
# The redo log

What `redo_operation` makes of the text that `kvdb_put` and `kvdb_get` append to
the log.
-/

namespace OsWorkbench.Kvdb

/-! ## Redoing one operation -/

theorem kvdbPut_of_redo {p p' : Proc} {k v : CStr} (h : kvdbPutRedo p k v = .ok p') (d : Disk) :
    kvdbPut p d k v = .ok (0, p', d.append (nameOf p'.db.logname) (putRecord k v)) := by
  simp only [kvdbPutRedo] at h
  obtain ⟨db₁, h₁, h⟩ := bind_eq_ok.mp h
  obtain ⟨⟨r, db₂⟩, h₂, h⟩ := bind_eq_ok.mp h
  simp only at h
  by_cases hr : r = 0
  · subst hr
    rw [if_neg (by simp)] at h
    obtain ⟨p₃, h₃, h⟩ := bind_eq_ok.mp h
    obtain ⟨⟨r', p₄⟩, h₄, h⟩ := bind_eq_ok.mp h
    simp only at h
    by_cases hr' : r' = 0
    · subst hr'
      rw [if_neg (by simp)] at h
      cases h
      simp only [kvdbPut]
      rw [h₁, ok_bind, h₂, ok_bind]
      simp only [ne_eq, not_true_eq_false, if_false]
      rw [h₃, ok_bind, h₄, ok_bind]
      simp only [not_true_eq_false, if_false, pure_eq_ok]
    · rw [if_pos hr'] at h
      cases h
  · rw [if_pos hr] at h
    cases h

theorem kvdbPutRedo_of_put {p p' : Proc} {d d' : Disk} {k v : CStr}
    (h : kvdbPut p d k v = .ok (0, p', d')) : kvdbPutRedo p k v = .ok p' := by
  simp only [kvdbPut] at h
  obtain ⟨db₁, h₁, h⟩ := bind_eq_ok.mp h
  obtain ⟨⟨r, db₂⟩, h₂, h⟩ := bind_eq_ok.mp h
  simp only at h
  by_cases hr : r = 0
  · subst hr
    rw [if_neg (by simp)] at h
    obtain ⟨p₃, h₃, h⟩ := bind_eq_ok.mp h
    obtain ⟨⟨r', p₄⟩, h₄, h⟩ := bind_eq_ok.mp h
    simp only at h
    by_cases hr' : r' = 0
    · subst hr'
      rw [if_neg (by simp)] at h
      cases h
      simp only [kvdbPutRedo]
      rw [h₁, ok_bind, h₂, ok_bind]
      simp only [ne_eq, not_true_eq_false, if_false]
      rw [h₃, ok_bind, h₄, ok_bind]
      simp only [not_true_eq_false, if_false, pure_eq_ok]
    · rw [if_pos hr'] at h
      cases h
  · rw [if_pos hr] at h
    cases h

theorem Repr.putRedo {p : Proc} {m : Store} (h : Repr p.db m) {k v : CStr}
    (hk : k.length < keyLength) (hr : need v < rows) (hf : Fits (ins k v m)) :
    ∃ p', kvdbPutRedo p k v = .ok p' ∧ Repr p'.db (ins k v m) ∧ SameNames p.db p'.db ∧
      p'.value = p.value := by
  obtain ⟨p', hput, hrep, hn, -, hv⟩ := h.put (fun _ => none) hk hr hf
  exact ⟨p', kvdbPutRedo_of_put hput, hrep, hn, hv⟩

theorem Repr.putRedo_inv {p p' : Proc} {m : Store} (h : Repr p.db m) {k v : CStr}
    (hput : kvdbPutRedo p k v = .ok p') :
    k.length < keyLength ∧ need v < rows ∧ Fits (ins k v m) :=
  h.put_inv (kvdbPut_of_redo hput fun _ => none)

theorem Repr.getRedo {p : Proc} {m : Store} (h : Repr p.db m) (k : CStr) :
    ∃ p', kvdbGetRedo p k = .ok p' ∧ Repr p'.db (del k m) ∧ SameNames p.db p'.db ∧
      p'.value = p.value := by
  cases hk : m.lookup k with
  | none =>
    refine ⟨p, ?_, by rw [del_of_lookup_none hk]; exact h, ⟨rfl, rfl, rfl⟩, rfl⟩
    obtain ⟨E, hE, hp⟩ := h
    have hfresh : ∀ e ∈ E, e.key ≠ k := fun e he =>
      lookup_eq_none.mp hk _ (hp.mem_iff.mp (List.mem_map.mpr ⟨e, he, rfl⟩))
    simp only [kvdbGetRedo]
    rw [hE.search_none hfresh, if_pos rfl, pure_eq_ok]
  | some v =>
    have hnd := h.nodup
    obtain ⟨E, hE, hp⟩ := h
    obtain ⟨e, he, heq⟩ := List.mem_map.mp (hp.mem_iff.mpr ((lookup_eq_some hnd).mp hk))
    cases heq
    obtain ⟨A, B, rfl⟩ := List.append_of_mem he
    obtain ⟨db', E', hfree, hp', hrep, hnames⟩ := hE.free
    refine ⟨{ p with db := db' }, ?_, ⟨E', hrep, ?_⟩, hnames, rfl⟩
    · simp only [kvdbGetRedo]
      rw [hE.search_some (n := A.length) (by simp), if_neg (by omega), hfree, ok_bind]
      simp only [ne_eq, not_true_eq_false, if_false, pure_eq_ok]
    · refine (storeOf_perm hp').trans ?_
      rw [← del_storeOf hE.keys]
      exact del_perm hp

/-! ## Reading one record -/

/-- A string that `%s` reads back. -/
def Word (s : CStr) : Prop := s.bytes ≠ [] ∧ ∀ c ∈ s.bytes, isSpace c = false

/-- A string that the blank of the format and `fgets` read back. -/
def Line (s : CStr) : Prop := s.bytes ≠ [] ∧ AtWord s.bytes ∧ 10 ∉ s.bytes

theorem Word.line {s : CStr} (h : Word s) : Line s := by
  refine ⟨h.1, ?_, fun h10 => ?_⟩
  · have hw : AtWord (s.bytes ++ []) := atWord_append h.1 h.2
    rwa [List.append_nil] at hw
  · exact absurd (h.2 10 h10) (by decide)

theorem scanRecord_eq {verb key tail : List UInt8} (hv : verb.length = 3)
    (hvs : ∀ c ∈ verb, isSpace c = false) (hk : key ≠ []) (hks : ∀ c ∈ key, isSpace c = false)
    (ht : AtBlank tail) :
    scanRecord (verb ++ 32 :: (key ++ tail)) = some (verb, key, skipSpace tail) := by
  have hne : verb ≠ [] := by
    rintro rfl
    simp at hv
  have hstart : skipSpace (verb ++ 32 :: (key ++ tail)) = verb ++ 32 :: (key ++ tail) :=
    skipSpace_of_atWord (atWord_append hne hvs)
  have hop : scanWord ((verb ++ 32 :: (key ++ tail)).take 3) = verb := by
    rw [List.take_left' hv]
    have hw : scanWord (verb ++ []) = verb := scanWord_append hvs atBlank_nil
    rwa [List.append_nil] at hw
  have hmid : skipSpace ((verb ++ 32 :: (key ++ tail)).drop 3) = key ++ tail := by
    rw [List.drop_left' hv, skipSpace_cons rfl, skipSpace_of_atWord (atWord_append hk hks)]
  unfold scanRecord
  simp only [hstart, hop, hv, hmid, if_neg hne, scanWord_append hks ht, if_neg hk,
    List.drop_left]

theorem verbPut_word : ∀ c ∈ verbPut, isSpace c = false := by decide +kernel

theorem verbGet_word : ∀ c ∈ verbGet, isSpace c = false := by decide +kernel

theorem ofBytes_verbPut : (CStr.ofBytes verbPut).bytes = verbPut := by decide

theorem ofBytes_verbGet : (CStr.ofBytes verbGet).bytes = verbGet := by decide

/-- A round of `redo_operation` that reads a `put`: the bytes `tail` after the key
give the value `s`, whose last byte is dropped. -/
theorem redoLoop_put {p : Proc} {fuel : Nat} {k s : CStr} (hk : Word k)
    (hlen : k.length < keyLength) {tail rest : List UInt8} (ht : AtBlank tail)
    (hs : readValue p.value (skipSpace tail) = (s, rest)) (hpos : 0 < s.length) :
    redoLoop (fuel + 1) p (verbPut ++ 32 :: (k.bytes ++ tail)) =
      kvdbPutRedo { p with value := s.dropLast } k s.dropLast >>= fun p =>
        redoLoop fuel p rest := by
  rw [redoLoop, scanRecord_eq rfl verbPut_word hk.1 hk.2 ht]
  simp only
  rw [inBounds_bind (p := k.bytes.length < keyLength) hlen, if_pos ofBytes_verbPut,
    CStr.ofBytes_bytes, hs, inBounds_bind hpos]

theorem redoLoop_get {p : Proc} {fuel : Nat} {k : CStr} (hk : Word k)
    (hlen : k.length < keyLength) {tail : List UInt8} (ht : AtBlank tail) :
    redoLoop (fuel + 1) p (verbGet ++ 32 :: (k.bytes ++ tail)) =
      kvdbGetRedo p k >>= fun p => redoLoop fuel p (skipSpace tail) := by
  have hne : ¬(CStr.ofBytes verbGet).bytes = verbPut := by decide
  rw [redoLoop, scanRecord_eq rfl verbGet_word hk.1 hk.2 ht]
  simp only
  rw [inBounds_bind (p := k.bytes.length < keyLength) hlen, if_neg hne, if_pos ofBytes_verbGet,
    CStr.ofBytes_bytes]

theorem redoLoop_nil (p : Proc) (fuel : Nat) : redoLoop (fuel + 1) p [] = .ok p := rfl

theorem putRecord_append (k v : CStr) (bs : List UInt8) :
    putRecord k v ++ bs = verbPut ++ 32 :: (k.bytes ++ (32 :: (v.bytes ++ 10 :: bs))) := by
  simp [putRecord]

theorem getRecord_append (k : CStr) (bs : List UInt8) :
    getRecord k ++ bs = verbGet ++ 32 :: (k.bytes ++ (32 :: 10 :: bs)) := by
  simp [getRecord]

theorem atBlank_space (bs : List UInt8) : AtBlank (32 :: bs) := by
  intro c hc
  cases hc
  rfl

theorem dropLast_ofBytes_line {v : CStr} : (CStr.ofBytes (v.bytes ++ [10])).dropLast = v := by
  have hnul : (0 : UInt8) ∉ v.bytes ++ [10] := by
    intro h
    rcases List.mem_append.mp h with h | h
    · exact v.noNul h
    · simp at h
  refine CStr.ext ?_
  rw [CStr.bytes_dropLast, CStr.bytes_ofBytes_of_noNul hnul, List.dropLast_concat]

/-- A complete `put` record is redone as it was written. -/
theorem redoLoop_putRecord {p : Proc} {fuel : Nat} {k v : CStr} (hk : Word k) (hv : Line v)
    (hlen : k.length < keyLength) (hr : need v < rows) (bs : List UInt8) :
    redoLoop (fuel + 1) p (putRecord k v ++ bs) =
      kvdbPutRedo { p with value := v } k v >>= fun p => redoLoop fuel p bs := by
  obtain ⟨hv0, hv1, hv2⟩ := hv
  have hmax : v.bytes.length + 1 < maxLength := by
    have := need_lt_rows.mp hr
    unfold CStr.length at this
    unfold maxLength dataLength at *
    omega
  have hskip : skipSpace (32 :: (v.bytes ++ 10 :: bs)) = v.bytes ++ 10 :: bs := by
    rw [skipSpace_cons rfl]
    refine skipSpace_of_atWord fun c hc => hv1 c ?_
    rwa [List.head?_append_of_ne_nil _ hv0] at hc
  have hread : readValue p.value (skipSpace (32 :: (v.bytes ++ 10 :: bs))) =
      (CStr.ofBytes (v.bytes ++ [10]), bs) := by
    rw [hskip, readValue, fgets_line hv2 hmax]
  have hdrop := dropLast_ofBytes_line (v := v)
  have hpos : 0 < (CStr.ofBytes (v.bytes ++ [10])).length := by
    by_contra h0
    have hnil : (CStr.ofBytes (v.bytes ++ [10])).bytes = [] :=
      List.eq_nil_of_length_eq_zero (Nat.eq_zero_of_not_pos h0)
    rw [← hdrop, CStr.bytes_dropLast, hnil] at hv0
    exact hv0 rfl
  rw [putRecord_append, redoLoop_put hk hlen (atBlank_space _) hread hpos, hdrop]

/-- A complete `get` record is redone as it was written. -/
theorem redoLoop_getRecord {p : Proc} {fuel : Nat} {k : CStr} (hk : Word k)
    (hlen : k.length < keyLength) {bs : List UInt8} (hbs : AtWord bs) :
    redoLoop (fuel + 1) p (getRecord k ++ bs) =
      kvdbGetRedo p k >>= fun p => redoLoop fuel p bs := by
  rw [getRecord_append, redoLoop_get hk hlen (atBlank_space _), skipSpace_cons rfl,
    skipSpace_cons rfl, skipSpace_of_atWord hbs]

/-! ## The text of a sequence of calls -/

def record : Op → List UInt8
  | .put k v => putRecord k v
  | .get k => getRecord k

def text (os : List Op) : List UInt8 := os.flatMap record

theorem text_cons (o : Op) (os : List Op) : text (o :: os) = record o ++ text os :=
  List.flatMap_cons

/-- The call did what it was asked to do, and appended its record. -/
def Out.Logged : Out → Prop
  | .ret r => r = 0
  | .str s => s.isSome

/-- Every operation of the sequence can be carried out on the map. -/
def Feasible : Store → List Op → Prop
  | _, [] => True
  | m, .put k v :: os =>
    k.length < keyLength ∧ need v < rows ∧ Fits (ins k v m) ∧ Feasible (ins k v m) os
  | m, .get k :: os => k.length < keyLength ∧ (m.lookup k).isSome ∧ Feasible (del k m) os

theorem append_self {d : Disk} {n : CStr} {t : List UInt8} (h : d n = some (.text t))
    (bs : List UInt8) : d.append n bs n = some (.text (t ++ bs)) := by
  rw [Disk.append, write_self, Disk.textOf, h]

theorem append_of_ne (d : Disk) {n n' : CStr} (bs : List UInt8) (h : n' ≠ n) :
    d.append n bs n' = d n' :=
  write_of_ne d _ h

theorem Repr.key_lt {db : Db} {m : Store} (h : Repr db m) {k v : CStr}
    (hk : m.lookup k = some v) : k.length < keyLength := by
  have hnd := h.nodup
  obtain ⟨E, hE, hp⟩ := h
  obtain ⟨e, he, heq⟩ := List.mem_map.mp (hp.mem_iff.mpr ((lookup_eq_some hnd).mp hk))
  cases heq
  exact hE.toBlocks.key_lt e he

theorem feasible_cons {m : Store} {o : Op} {os : List Op} :
    Feasible m (o :: os) ↔ Feasible m [o] ∧ Feasible (eval m o).2 os := by
  cases o <;> simp [Feasible, eval, and_assoc]

theorem feasible_append {m : Store} {os ps : List Op} :
    Feasible m (os ++ ps) ↔ Feasible m os ∧ Feasible (evals m os).2 ps := by
  induction os generalizing m with
  | nil => simp [Feasible, evals]
  | cons o os ih =>
    rw [List.cons_append, feasible_cons, ih, @feasible_cons m o os, evals, and_assoc]

/-- A call that was logged. -/
theorem Repr.call_logged {p p' : Proc} {m : Store} (h : Repr p.db m) {d d' : Disk} {o : Op}
    {out : Out}
    (hc : Kvdb.call p d o = .ok (out, p', d')) (ho : out.Logged) :
    Feasible m [o] ∧ Repr p'.db (eval m o).2 ∧ SameNames p.db p'.db ∧
      d' = d.append (nameOf p.db.logname) (record o) := by
  cases o with
  | put k v =>
    obtain ⟨⟨r, p₃, d₃⟩, hput, hret⟩ := bind_eq_ok.mp hc
    cases hret
    obtain rfl : r = 0 := ho
    obtain ⟨hk, hr, hf⟩ := h.put_inv hput
    obtain ⟨p₄, hput', hrep, hn, -, -⟩ := h.put d hk hr hf
    rw [hput] at hput'
    cases hput'
    exact ⟨⟨hk, hr, hf, trivial⟩, hrep, hn, rfl⟩
  | get k =>
    obtain ⟨⟨r, p₃, d₃⟩, hget, hret⟩ := bind_eq_ok.mp hc
    cases hret
    cases hk : m.lookup k with
    | none =>
      rw [h.get_none d hk] at hget
      cases hget
      cases ho
    | some v =>
      obtain ⟨-, p₄, hget', hrep, hn, -, -⟩ := h.get_some d hk
      rw [hget] at hget'
      cases hget'
      exact ⟨⟨h.key_lt hk, by rw [hk]; rfl, trivial⟩, hrep, hn, rfl⟩

/-- A `kvdb_get` that was not logged did nothing. -/
theorem Repr.get_unlogged {p p' : Proc} {m : Store} (h : Repr p.db m) {d d' : Disk} {k : CStr}
    {out : Out} (hc : Kvdb.call p d (.get k) = .ok (out, p', d')) (ho : ¬out.Logged) :
    m.lookup k = none ∧ p' = p ∧ d' = d := by
  obtain ⟨⟨r, p₁, d₁⟩, hget, hret⟩ := bind_eq_ok.mp hc
  cases hret
  cases hk : m.lookup k with
  | none =>
    rw [h.get_none d hk] at hget
    cases hget
    exact ⟨rfl, rfl, rfl⟩
  | some v =>
    obtain ⟨-, p₂, hget', -⟩ := h.get_some d hk
    rw [hget] at hget'
    cases hget'
    exact absurd rfl ho

/-- What the disk and the database are after calls that were all logged. -/
theorem calls_logged {p p' : Proc} {m : Store} (h : Repr p.db m) {d d' : Disk} {os : List Op}
    {outs : List Out} (hc : calls p d os = .ok (outs, p', d')) (ho : ∀ o ∈ outs, o.Logged)
    {t : List UInt8} (hlog : d (nameOf p.db.logname) = some (.text t)) :
    Feasible m os ∧ Repr p'.db (evals m os).2 ∧ SameNames p.db p'.db ∧
      d' (nameOf p.db.logname) = some (.text (t ++ text os)) ∧
      ∀ n, n ≠ nameOf p.db.logname → d' n = d n := by
  induction os generalizing p m d outs t with
  | nil =>
    cases hc
    exact ⟨trivial, h, ⟨rfl, rfl, rfl⟩, by simpa [text] using hlog, fun _ _ => rfl⟩
  | cons o os ih =>
    obtain ⟨⟨out, p₁, d₁⟩, hcall, hc⟩ := bind_eq_ok.mp hc
    obtain ⟨⟨outs', p₂, d₂⟩, hcs, hret⟩ := bind_eq_ok.mp hc
    cases hret
    obtain ⟨hf, hrep, hn, rfl⟩ := h.call_logged hcall (ho out (by simp))
    have hname := congrArg nameOf hn.logname
    have hlog₁ := append_self hlog (record o)
    rw [← hname] at hcs hlog₁ ⊢
    obtain ⟨h1, h2, h3, h4, h5⟩ := ih hrep hcs (fun o ho' => ho o (by simp [ho'])) hlog₁
    refine ⟨feasible_cons.mpr ⟨hf, h1⟩, h2, hn.trans h3, ?_, fun n hne => ?_⟩
    · rw [h4, text_cons, ← List.append_assoc]
    · rw [h5 n hne, append_of_ne _ _ hne]

/-- The record of the operation can be read back. -/
def Loggable : Op → Prop
  | .put k v => Word k ∧ Line v
  | .get k => Word k

/-- What `value` holds after the operation was redone. -/
def valueAfter (value : CStr) : Op → CStr
  | .put _ v => v
  | .get _ => value

theorem atWord_text (os : List Op) {tail : List UInt8} (ht : AtWord tail) :
    AtWord (text os ++ tail) := by
  cases os with
  | nil => exact ht
  | cons o os =>
    intro c hc
    cases o <;> cases hc <;> rfl

/-- The rounds of `redo_operation` over complete records redo the operations one
by one and stop in front of what follows the records. -/
theorem redoLoop_text {p : Proc} {m : Store} (h : Repr p.db m) {os : List Op}
    (hf : Feasible m os) (hl : ∀ o ∈ os, Loggable o) {tail : List UInt8} (ht : AtWord tail)
    (fuel : Nat) :
    ∃ p', redoLoop (os.length + fuel) p (text os ++ tail) = redoLoop fuel p' tail ∧
      Repr p'.db (evals m os).2 ∧ SameNames p.db p'.db ∧
      p'.value = os.foldl valueAfter p.value := by
  induction os generalizing p m with
  | nil => exact ⟨p, by simp [text], h, ⟨rfl, rfl, rfl⟩, rfl⟩
  | cons o os ih =>
    have hl' : ∀ o ∈ os, Loggable o := fun o ho => hl o (by simp [ho])
    have htext : text (o :: os) ++ tail = record o ++ (text os ++ tail) := by
      rw [text_cons, List.append_assoc]
    have hfuel : (o :: os).length + fuel = os.length + fuel + 1 := by
      rw [List.length_cons]
      omega
    rw [htext, hfuel]
    cases o with
    | put k v =>
      obtain ⟨hk, hr, hfit, hf⟩ := hf
      obtain ⟨hkw, hvl⟩ := hl _ (List.mem_cons_self ..)
      have h' : Repr ({ p with value := v } : Proc).db m := h
      obtain ⟨p₁, hput, hrep, hn, hv⟩ := h'.putRedo hk hr hfit
      obtain ⟨p', hp', hrep', hn', hv'⟩ := ih hrep hf hl'
      refine ⟨p', ?_, hrep', hn.trans hn', by rw [hv', hv]; rfl⟩
      rw [record, redoLoop_putRecord hkw hvl hk hr, hput, ok_bind, hp']
    | get k =>
      obtain ⟨hk, -, hf⟩ := hf
      obtain ⟨p₁, hget, hrep, hn, hv⟩ := h.getRedo k
      obtain ⟨p', hp', hrep', hn', hv'⟩ := ih hrep hf hl'
      refine ⟨p', ?_, hrep', hn.trans hn', by rw [hv', hv]; rfl⟩
      rw [record, redoLoop_getRecord (hl _ (List.mem_cons_self ..)) hk (atWord_text os ht), hget,
        ok_bind, hp']

theorem length_le_text (os : List Op) : os.length ≤ (text os).length := by
  induction os with
  | nil => exact Nat.le_refl 0
  | cons o os ih =>
    have hpos : 1 ≤ (record o).length := by
      cases o <;> simp only [record, putRecord, getRecord, List.length_append,
        List.length_cons] <;> omega
    rw [text_cons, List.length_append, List.length_cons]
    omega

theorem redoOperation_text {p : Proc} {m : Store} (h : Repr p.db m) {os : List Op}
    (hf : Feasible m os) (hl : ∀ o ∈ os, Loggable o) :
    ∃ p', redoOperation p (text os) = .ok p' ∧ Repr p'.db (evals m os).2 ∧
      SameNames p.db p'.db := by
  have hlen := length_le_text os
  obtain ⟨p', hp', hrep, hn, -⟩ := redoLoop_text h hf hl atWord_nil
    ((text os).length - os.length + 1)
  refine ⟨p', ?_, hrep, hn⟩
  rw [List.append_nil, redoLoop_nil] at hp'
  rw [redoOperation, ← hp']
  congr 1
  omega

/-- Replaying what a sequence of logged calls appended to the log, on the state in
front of the calls, gives the map after the calls, provided that every record can
be read back. -/
theorem redo_log {p p' : Proc} {m : Store} (h : Repr p.db m) {d d' : Disk} {os : List Op}
    {outs : List Out} (hc : calls p d os = .ok (outs, p', d')) (ho : ∀ o ∈ outs, o.Logged)
    {t : List UInt8} (hlog : d (nameOf p.db.logname) = some (.text t))
    (hl : ∀ o ∈ os, Loggable o) {q : Proc} (hq : q.db = p.db) :
    ∃ bs q', d' (nameOf p.db.logname) = some (.text (t ++ bs)) ∧ redoOperation q bs = .ok q' ∧
      ∀ k, logical q'.db k = logical p'.db k := by
  obtain ⟨hf, hrep, -, hlog', -⟩ := calls_logged h hc ho hlog
  obtain ⟨q', hq', hrep', -⟩ := redoOperation_text (p := q) (by rw [hq]; exact h) hf hl
  exact ⟨text os, q', hlog', hq', fun k => by rw [hrep'.logical_eq, hrep.logical_eq]⟩

theorem redo_log_put :
    ∃ p d p' d' bs q', kvdbOpen .zero (fun _ => none) (.lit "a.db") = .ok (0, p, d) ∧
      calls p d [.put (.lit "a") (.lit "x y")] = .ok ([.ret 0], p', d') ∧
      d' (nameOf p.db.logname) = some (.text ([] ++ bs)) ∧
      redoOperation { Proc.zero with db := p.db } bs = .ok q' ∧
      ∀ k, logical q'.db k = logical p'.db k := by
  have hname : ValidName (.lit "a.db") := ⟨by decide, by decide⟩
  obtain ⟨p, d, hopen, hn, hs, hu, hd⟩ := kvdbOpen_create (d := fun _ => none) hname rfl rfl
  have hrep : Repr p.db [] := repr_empty hs fun i _ => by rw [hu]; rfl
  obtain ⟨p', hput, -⟩ := hrep.put d (k := .lit "a") (v := .lit "x y") (by decide) (by decide)
    ⟨by decide, by decide⟩
  have hcalls : calls p d [.put (.lit "a") (.lit "x y")] = .ok ([.ret 0], p',
      d.append (nameOf p.db.logname) (putRecord (.lit "a") (.lit "x y"))) := by
    rw [calls, call, hput]
    rfl
  obtain ⟨bs, q', h1, h2, h3⟩ := redo_log (q := { Proc.zero with db := p.db }) hrep hcalls
    (by simp [Out.Logged]) (by rw [hn.logname]; exact hd.log) (by
      simp only [List.mem_singleton, forall_eq]
      exact ⟨⟨by decide, by decide +kernel⟩, by decide, fun c hc => by cases hc; rfl,
        by decide⟩) rfl
  exact ⟨p, d, p', _, bs, q', hopen, hcalls, h1, h2, h3⟩

/-- A value with a leading blank is accepted and logged, and is redone without the
blank. -/
theorem redo_leading_blank :
    ∃ p d p' d' q', kvdbOpen .zero (fun _ => none) (.lit "a.db") = .ok (0, p, d) ∧
      calls p d [.put (.lit "a") (.lit " x")] = .ok ([.ret 0], p', d') ∧
      redoOperation { Proc.zero with db := p.db } (d'.textOf (nameOf p'.db.logname)) = .ok q' ∧
      logical q'.db (.lit "a") ≠ logical p'.db (.lit "a") := by
  have heval : (do
      let x ← kvdbOpen .zero (fun _ => none) (.lit "a.db")
      let y ← calls x.2.1 x.2.2 [.put (.lit "a") (.lit " x")]
      let q' ← redoOperation { Proc.zero with db := x.2.1.db }
        (y.2.2.textOf (nameOf y.2.1.db.logname))
      pure (x.1, y.1, logical q'.db (.lit "a"), logical y.2.1.db (.lit "a")) :
      Except Fault (Int × List Out × Option CStr × Option CStr)).toOption =
        some (0, [.ret 0], some (.lit "x"), some (.lit " x")) := by
    decide +kernel
  obtain ⟨⟨r, p, d⟩, hopen, h⟩ := bind_eq_ok.mp (toOption_eq_some.mp heval)
  obtain ⟨⟨outs, p', d'⟩, hcalls, h⟩ := bind_eq_ok.mp h
  obtain ⟨q', hredo, h⟩ := bind_eq_ok.mp h
  simp only [pure_eq_ok, Except.ok.injEq, Prod.mk.injEq] at h
  obtain ⟨rfl, rfl, h1, h2⟩ := h
  refine ⟨p, d, p', d', q', hopen, hcalls, hredo, ?_⟩
  rw [h1, h2]
  decide

end OsWorkbench.Kvdb
