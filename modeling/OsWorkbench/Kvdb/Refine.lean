import OsWorkbench.Kvdb.Store
import OsWorkbench.Kvdb.Files

/-!
# The store against a finite map

Sequences of `kvdb_put` and `kvdb_get` compared with a finite map whose `get`
takes the binding out. They agree as long as no value overruns `vec` and no `get`
meets, behind a value that ends on a block boundary, what an earlier and longer
`get` left in `readbuf`.
-/

namespace OsWorkbench.Kvdb

inductive Op
  | put (k v : CStr)
  | get (k : CStr)
  deriving DecidableEq

/-- What a call returns: the code of `kvdb_put`, or the string of `kvdb_get`. -/
inductive Out
  | ret (r : Int)
  | str (s : Option CStr)
  deriving DecidableEq

def call (p : Proc) (d : Disk) : Op → Except Fault (Out × Proc × Disk)
  | .put k v => do
    let (r, p, d) ← kvdbPut p d k v
    return (.ret r, p, d)
  | .get k => do
    let (r, p, d) ← kvdbGet p d k
    return (.str (if r then some p.str else none), p, d)

def calls : Proc → Disk → List Op → Except Fault (List Out × Proc × Disk)
  | p, d, [] => .ok ([], p, d)
  | p, d, o :: os => do
    let (out, p, d) ← call p d o
    let (outs, p, d) ← calls p d os
    return (out :: outs, p, d)

/-- The same call on a finite map. -/
def eval (m : Store) : Op → Out × Store
  | .put k v => (.ret 0, ins k v m)
  | .get k => (.str (m.lookup k), del k m)

def evals : Store → List Op → List Out × Store
  | m, [] => ([], m)
  | m, o :: os => ((eval m o).1 :: (evals (eval m o).2 os).1, (evals (eval m o).2 os).2)

/-- The calls return what the finite map returns, and leave the database with its
bindings. -/
def Refines (p : Proc) (d : Disk) (m : Store) (os : List Op) : Prop :=
  ∃ p' d', calls p d os = .ok ((evals m os).1, p', d') ∧
    ∀ k, logical p'.db k = (evals m os).2.lookup k

/-- Keys and values are within their bounds, and the map has room at every step. -/
def Allowed : Store → List Op → Prop
  | _, [] => True
  | m, .put k v :: os =>
    k.length < keyLength ∧ v.length < maxLength - 1 ∧ Fits (ins k v m) ∧ Allowed (ins k v m) os
  | m, .get k :: os => k.length < keyLength ∧ Allowed (del k m) os

/-- No value is longer than `MAX_LENGTH - DATA_LENGTH`, and no `get` takes a value
that ends on a block boundary where `readbuf` is not zero: initially, or since a
`get` took a longer value. `taken` is the longest value taken so far. -/
def Clean (readbuf : Nat → UInt8) : Nat → Store → List Op → Prop
  | _, _, [] => True
  | taken, m, .put k v :: os =>
    v.length ≤ maxLength - dataLength ∧ Clean readbuf taken (ins k v m) os
  | taken, m, .get k :: os =>
    match m.lookup k with
    | none => Clean readbuf taken (del k m) os
    | some v =>
      (v.length % dataLength = 0 → taken ≤ v.length ∧ readbuf v.length = 0) ∧
        Clean readbuf (max taken v.length) (del k m) os

/-! ## `readbuf` -/

/-- The first byte of a row of `readbuf` is zero iff it was so initially and no
value taken since reaches it. -/
def Tracks (readbuf₀ : Nat → UInt8) (taken : Nat) (readbuf : Nat → UInt8) : Prop :=
  ∀ n, readbuf (dataLength * n) = 0 ↔ taken ≤ dataLength * n ∧ readbuf₀ (dataLength * n) = 0

theorem tracks_zero (readbuf : Nat → UInt8) : Tracks readbuf 0 readbuf := by
  intro n
  simp

theorem Tracks.overlay {readbuf₀ readbuf : Nat → UInt8} {taken : Nat}
    (h : Tracks readbuf₀ taken readbuf) (v : CStr) :
    Tracks readbuf₀ (max taken v.length) (overlay v readbuf) := by
  intro n
  have hpos : 0 < dataLength := by decide
  have hrow : dataLength * n < dataLength * need v ↔ n < need v :=
    Nat.mul_lt_mul_left hpos
  unfold Kvdb.overlay
  by_cases hn : n < need v
  · rw [if_pos (hrow.mpr hn), CStr.get_eq_zero]
    have := lt_need_iff.mp hn
    omega
  · rw [if_neg (hrow.not.mpr hn), h n]
    have hle : v.length ≤ dataLength * n := not_lt.mp (lt_need_iff.not.mp hn)
    rw [max_le_iff, and_iff_left hle]

/-- The string that a `get` of `v` returns is `v` iff a terminator follows it. -/
theorem str_overlay {p : Proc} {v : CStr} {readbuf : Nat → UInt8} (hv : need v < rows)
    (hp : p.readbuf = overlay v readbuf) :
    p.str = v ↔ (v.length % dataLength = 0 → readbuf v.length = 0) := by
  have hend : ¬dataLength * need v < v.length := lt_need_iff.not.mp (lt_irrefl _)
  have hmax : v.length < maxLength := by
    unfold rows maxLength dataLength at *
    omega
  have hlt : v.length < dataLength * need v ↔ v.length % dataLength ≠ 0 := by
    unfold need dataLength
    omega
  unfold Proc.str
  rw [CStr.ofBuf_eq_iff hmax, hp]
  constructor
  · rintro ⟨-, h0⟩ hm
    rwa [Kvdb.overlay, if_neg (by rw [hlt]; simpa using hm)] at h0
  · intro h0
    refine ⟨fun i hi => if_pos (by omega), ?_⟩
    by_cases hm : v.length % dataLength = 0
    · rw [Kvdb.overlay, if_neg (by rw [hlt]; simpa using hm)]
      exact h0 hm
    · rw [Kvdb.overlay, if_pos (hlt.mpr hm), CStr.get_eq_zero]

theorem need_lt_rows {v : CStr} : need v < rows ↔ v.length ≤ maxLength - dataLength := by
  unfold need rows maxLength dataLength
  omega

/-! ## Sequences -/

theorem refines_cons {p p' : Proc} {d d' : Disk} {m : Store} {o : Op} {out : Out}
    (h : call p d o = .ok (out, p', d')) (os : List Op) :
    Refines p d m (o :: os) ↔ out = (eval m o).1 ∧ Refines p' d' (eval m o).2 os := by
  unfold Refines
  simp only [calls, evals, h, ok_bind]
  constructor
  · rintro ⟨p₂, d₂, hc, hl⟩
    obtain ⟨⟨outs, p₃, d₃⟩, hcs, hret⟩ := bind_eq_ok.mp hc
    simp only [pure_eq_ok, Except.ok.injEq, Prod.mk.injEq, List.cons.injEq] at hret
    obtain ⟨⟨rfl, rfl⟩, rfl, rfl⟩ := hret
    exact ⟨rfl, p₃, d₃, hcs, hl⟩
  · rintro ⟨rfl, p₂, d₂, hc, hl⟩
    exact ⟨p₂, d₂, by rw [hc]; rfl, hl⟩

/-- On every sequence of calls within the bounds of the database, `kvdb_put` and
`kvdb_get` behave as the finite map iff the sequence is clean. -/
theorem refines_iff_clean {p : Proc} {m : Store} (h : Repr p.db m) (d : Disk) {os : List Op}
    (ha : Allowed m os) : Refines p d m os ↔ Clean p.readbuf 0 m os := by
  suffices ∀ readbuf₀ taken, Tracks readbuf₀ taken p.readbuf →
      (Refines p d m os ↔ Clean readbuf₀ taken m os) from this _ _ (tracks_zero _)
  induction os generalizing p d m with
  | nil =>
    intro readbuf₀ taken _
    exact ⟨fun _ => trivial, fun _ => ⟨p, d, rfl, h.logical_eq⟩⟩
  | cons o os ih =>
    intro readbuf₀ taken ht
    cases o with
    | put k v =>
      obtain ⟨hk, -, hf, ha⟩ := ha
      by_cases hr : need v < rows
      · obtain ⟨p', hput, hrep, -, hbuf, -⟩ := h.put d hk hr hf
        have hcall : call p d (.put k v) =
            .ok (.ret 0, p', d.append (nameOf p.db.logname) (putRecord k v)) := by
          rw [call, hput]
          rfl
        rw [refines_cons hcall, Clean, ← need_lt_rows]
        simp only [eval, hr, true_and]
        exact ih hrep _ ha readbuf₀ taken (by rw [hbuf]; exact ht)
      · -- `kvdb_alloc` writes past the end of `vec`
        refine ⟨fun href => ?_, fun hc => absurd (need_lt_rows.mpr hc.1) hr⟩
        obtain ⟨p₂, d₂, hc, -⟩ := href
        obtain ⟨⟨out, p₃, d₃⟩, hcall, hc⟩ := bind_eq_ok.mp hc
        obtain ⟨⟨outs, p₄, d₄⟩, -, hret⟩ := bind_eq_ok.mp hc
        obtain ⟨⟨r, p₅, d₅⟩, hput, hr₅⟩ := bind_eq_ok.mp hcall
        simp only [pure_eq_ok, Except.ok.injEq, Prod.mk.injEq, evals, eval,
          List.cons.injEq] at hret hr₅
        obtain ⟨⟨rfl, -⟩, -⟩ := hret
        obtain ⟨hr0, -⟩ := hr₅
        cases hr0
        exact absurd (h.put_inv hput).2.1 hr
    | get k =>
      obtain ⟨-, ha⟩ := ha
      cases hk : m.lookup k with
      | none =>
        have hdel := del_of_lookup_none hk
        have hcall : call p d (.get k) = .ok (.str none, p, d) := by
          rw [call, h.get_none d hk]
          rfl
        rw [hdel] at ha
        rw [refines_cons hcall, Clean]
        simp only [eval, hk, true_and, hdel]
        exact ih h _ ha readbuf₀ taken ht
      | some v =>
        obtain ⟨hr, p', hget, hrep, -, hbuf, -⟩ := h.get_some d hk
        have hcall : call p d (.get k) =
            .ok (.str (some p'.str), p', d.append (nameOf p.db.logname) (getRecord k)) := by
          rw [call, hget]
          rfl
        have hstr : (v.length % dataLength = 0 → p.readbuf v.length = 0) ↔
            (v.length % dataLength = 0 → taken ≤ v.length ∧ readbuf₀ v.length = 0) := by
          refine imp_congr_right fun hm => ?_
          have := ht (v.length / dataLength)
          rwa [Nat.mul_div_cancel' (Nat.dvd_of_mod_eq_zero hm)] at this
        rw [refines_cons hcall, Clean]
        simp only [eval, hk, Out.str.injEq, Option.some.injEq, str_overlay hr hbuf, hstr]
        rw [ih hrep _ ha readbuf₀ (max taken v.length) (by rw [hbuf]; exact ht.overlay v)]

/-- A `kvdb_t` without items and without used blocks represents the empty map. -/
theorem repr_empty {db : Db} (hs : db.size = 0) (hu : ∀ i, i < datasSize → (db.datas i).used = 0) :
    Repr db [] := by
  refine ⟨[], ⟨⟨⟨?_, ?_, ?_, ?_, List.nodup_nil, List.nodup_nil, hu⟩, hs, Nat.zero_le _, ?_⟩, ?_⟩,
    .refl _⟩
  all_goals simp

theorem refines_put_get :
    Refines .zero (fun _ => none) [] [.put (.lit "a") (.lit "x"), .get (.lit "a")] :=
  (refines_iff_clean (repr_empty rfl fun _ _ => rfl) _ (by
    refine ⟨by decide, by decide, ⟨by decide, by decide⟩, by decide, trivial⟩)).mpr
    ⟨by decide, by decide, trivial⟩

/-- An empty value is taken after a value of one byte. -/
def staleOps : List Op :=
  [.put (.lit "a") (.lit "x"), .put (.lit "b") (.lit ""), .get (.lit "a"), .get (.lit "b")]

/-- On a new database the last `get` of `staleOps` returns what the one before it
left in `readbuf`. -/
theorem not_refines_staleOps :
    ∃ p d, kvdbOpen .zero (fun _ => none) (.lit "a.db") = .ok (0, p, d) ∧ Repr p.db [] ∧
      Allowed [] staleOps ∧ ¬Refines p d [] staleOps := by
  obtain ⟨p, d, hopen, -, hs, hu, -⟩ :=
    kvdbOpen_create (f := .lit "a.db") (d := fun _ => none) ⟨by decide, by decide⟩ rfl rfl
  refine ⟨p, d, hopen, repr_empty hs fun i _ => by rw [hu]; rfl, ?_, ?_⟩
  · exact ⟨by decide, by decide, ⟨by decide, by decide⟩, by decide, by decide,
      ⟨by decide, by decide⟩, by decide, by decide, trivial⟩
  · rintro ⟨p', d', hcalls, -⟩
    have houts : (kvdbOpen .zero (fun _ => none) (.lit "a.db") >>= fun x =>
        calls x.2.1 x.2.2 staleOps >>= fun y => pure y.1).toOption ≠
          some (evals [] staleOps).1 := by
      decide +kernel
    rw [hopen, ok_bind, hcalls, ok_bind] at houts
    exact houts rfl

end OsWorkbench.Kvdb
