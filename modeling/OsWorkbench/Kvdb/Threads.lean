import OsWorkbench.Kvdb.Full

/-!
# Threads on one database

`kvdb_get` gives the lock back before its caller reads the string, and the string is in
`readbuf`, which all the threads share. The next `kvdb_get` that takes a value writes over
it. No value goes to two gets, since a get unbinds the key while it has the lock.
-/

namespace OsWorkbench.Kvdb

/-! ## Interleavings -/

/-- What a thread does in one step: a call, under the mutex, or reading the string that its
last call returned. -/
inductive Deed (T : Type)
  | put (t : T) (k v : CStr)
  | get (t : T) (k : CStr)
  | read (t : T)

/-- The database with what the threads have had of it. `got` is the value that the last call
of a thread took out of the map, where that was a get which returned a string. A value is
named by its key and the number of puts of that key; `delivered` has those that gets have
taken. `reads` pairs what was read with the value that the get had taken. -/
structure Threads (T : Type) where
  proc : Proc
  disk : Disk
  got : T → Option CStr
  puts : CStr → Nat
  delivered : List (CStr × Nat)
  reads : List (CStr × CStr)

def Threads.start {T : Type} (p : Proc) (d : Disk) : Threads T :=
  ⟨p, d, fun _ => none, fun _ => 0, [], []⟩

section

variable {T : Type} [DecidableEq T]

def threadStep (w : Threads T) : Deed T → Except Fault (Threads T)
  | .put t k v => do
    let (_, p, d) ← kvdbPut w.proc w.disk k v
    return { w with
      proc := p
      disk := d
      got := Function.update w.got t none
      puts := Function.update w.puts k (w.puts k + 1) }
  | .get t k => do
    let (found, p, d) ← kvdbGet w.proc w.disk k
    let w' := { w with proc := p, disk := d }
    if found then
      return { w' with
        got := Function.update w.got t (logical w.proc.db k)
        delivered := (k, w.puts k) :: w.delivered }
    else return { w' with got := Function.update w.got t none }
  | .read t =>
    match w.got t with
    | some v => .ok { w with reads := (w.proc.str, v) :: w.reads }
    -- the pointer is `NULL`, or the thread has none
    | none => .error .badAccess

/-- The thread reads the string it has before it calls again. -/
def Pending (t : T) : List (Deed T) → Prop
  | [] => False
  | .put t' _ _ :: es => t' ≠ t ∧ Pending t es
  | .get t' _ :: es => t' ≠ t ∧ Pending t es
  | .read t' :: es => t' = t ∨ Pending t es

/-- Reading the blocks of `v` into `readbuf` leaves the string `v'` there as it is: the two
are the same, or the blocks are full and `v'` starts with them. -/
def Spares (v v' : CStr) : Prop := v = v' ∨ v.length % dataLength = 0 ∧ v.bytes <+: v'.bytes

/-- A get that takes a value finds a terminator behind it, where it fills its last block, and
spares what other threads have yet to read. -/
def CarefulDeed (w : Threads T) (es : List (Deed T)) : Deed T → Prop
  | .get t k =>
    match logical w.proc.db k with
    | none => True
    | some v =>
      (Pending t es → v.length % dataLength = 0 → w.proc.readbuf v.length = 0) ∧
        ∀ t', t' ≠ t → Pending t' es → ∀ v' ∈ w.got t', Spares v v'
  | _ => True

/-- Every step of the interleaving is careful. -/
def CarefulThreads (w : Threads T) : List (Deed T) → Prop
  | [] => True
  | e :: es =>
    CarefulDeed w es e ∧
      match threadStep w e with
      | .ok w' => CarefulThreads w' es
      | .error _ => True

/-! ## One step -/

/-- What holds before the events `es`. -/
structure Served (w : Threads T) (es : List (Deed T)) : Prop where
  repr : ∃ m, Repr w.proc.db m
  kept : ∀ t, Pending t es → ∀ v ∈ w.got t, v.length < maxLength ∧ w.proc.str = v
  reads : ∀ r ∈ w.reads, r.1 = r.2
  once : w.delivered.Nodup
  gone : ∀ k n, (k, n) ∈ w.delivered → n < w.puts k ∨ n = w.puts k ∧ logical w.proc.db k = none

omit [DecidableEq T] in
theorem served_start {p : Proc} {m : Store} (h : Repr p.db m) (d : Disk) (es : List (Deed T)) :
    Served (.start p d) es where
  repr := ⟨m, h⟩
  kept := by simp [Threads.start]
  reads := by simp [Threads.start]
  once := List.nodup_nil
  gone := by simp [Threads.start]

/-- A put that returns changes the binding of its key only, and not `readbuf`. -/
theorem Repr.put_frame {p p' : Proc} {m : Store} (h : Repr p.db m) {d d' : Disk} {k v : CStr}
    {r : Int} (hput : kvdbPut p d k v = .ok (r, p', d')) :
    ∃ m', Repr p'.db m' ∧ (∀ k', k' ≠ k → m'.lookup k' = m.lookup k') ∧ p'.readbuf = p.readbuf := by
  rcases h.put_cases hput with ⟨-, hk, hr, hf⟩ | ⟨-, hn⟩
  · obtain ⟨p'', hput', hrep, -, hbuf, -⟩ := h.put d hk hr hf
    rw [hput] at hput'
    cases hput'
    exact ⟨_, hrep, fun _ hne => lookup_ins_of_ne hne, hbuf⟩
  · obtain ⟨db', hput', hrep, -⟩ := h.put_full d hn
    rw [hput] at hput'
    cases hput'
    exact ⟨_, hrep, fun _ hne => lookup_del_of_ne hne, rfl⟩

theorem str_congr {p p' : Proc} (h : p'.readbuf = p.readbuf) : p'.str = p.str := by
  unfold Proc.str
  rw [h]

/-- A string that is spared is still in `readbuf`. -/
theorem str_of_spares {p p' : Proc} {v v' : CStr} (hv' : v'.length < maxLength)
    (hbuf : p'.readbuf = overlay v p.readbuf) (hs : Spares v v') (hstr : p.str = v') :
    p'.str = v' := by
  unfold Proc.str at *
  rw [CStr.ofBuf_eq_iff hv'] at hstr ⊢
  have hsame : ∀ q, q ≤ v'.length → p.readbuf q = v'.get q := by
    intro q hq
    rcases hq.lt_or_eq with hlt | rfl
    · exact hstr.1 q hlt
    · rw [hstr.2, CStr.get_eq_zero.mpr le_rfl]
  have hover : ∀ q, q ≤ v'.length → p'.readbuf q = v'.get q := by
    intro q hq
    rw [hbuf, overlay]
    split_ifs with hin
    · rcases hs with rfl | ⟨hmod, hpre⟩
      · rfl
      · -- the blocks are full, so every byte written is one of `v`
        have hlt : q < v.length := by
          unfold need dataLength at hin
          unfold dataLength at hmod
          omega
        obtain ⟨rest, hrest⟩ := hpre
        rw [CStr.get, CStr.get, ← hrest, List.getD_append _ _ _ _ hlt]
    · exact hsame q hq
  refine ⟨fun q hq => hover q hq.le, ?_⟩
  rw [hover _ le_rfl, CStr.get_eq_zero.mpr le_rfl]

namespace Served

variable {w w' : Threads T} {es : List (Deed T)} {t : T} {k v : CStr}

theorem put (h : Served w (.put t k v :: es)) (hs : threadStep w (.put t k v) = .ok w') :
    Served w' es := by
  simp only [threadStep, bind_eq_ok, pure_eq_ok, Prod.exists] at hs
  obtain ⟨r, p, d, hput, hw⟩ := hs
  cases hw
  obtain ⟨m, hm⟩ := h.repr
  obtain ⟨m', hm', hframe, hbuf⟩ := hm.put_frame hput
  refine ⟨⟨m', hm'⟩, fun t' hp u hu => ?_, h.reads, h.once, fun k' n hin => ?_⟩
  · rcases eq_or_ne t' t with rfl | hne
    · simp at hu
    · simp only [Function.update_of_ne hne] at hu
      have hstr : p.str = w.proc.str := str_congr hbuf
      exact hstr ▸ h.kept t' ⟨hne.symm, hp⟩ u hu
  · rcases eq_or_ne k' k with rfl | hne
    · left
      simp only [Function.update_self]
      have := h.gone k' n hin
      omega
    · simp only [Function.update_of_ne hne]
      refine (h.gone k' n hin).imp_right fun hn => ⟨hn.1, ?_⟩
      rw [hm'.logical_eq, hframe k' hne, ← hm.logical_eq]
      exact hn.2

theorem get (h : Served w (.get t k :: es)) (hc : CarefulDeed w es (.get t k))
    (hs : threadStep w (.get t k) = .ok w') : Served w' es := by
  obtain ⟨m, hm⟩ := h.repr
  simp only [threadStep, bind_eq_ok, Prod.exists] at hs
  obtain ⟨found, p, d, hget, hs⟩ := hs
  rw [CarefulDeed, hm.logical_eq k] at hc
  cases hk : m.lookup k with
  | none =>
    rw [hm.get_none w.disk hk] at hget
    cases hget
    cases hs
    refine ⟨⟨m, hm⟩, fun t' hp u hu => ?_, h.reads, h.once, h.gone⟩
    rcases eq_or_ne t' t with rfl | hne
    · simp at hu
    · simp only [Function.update_of_ne hne] at hu
      exact h.kept t' ⟨hne.symm, hp⟩ u hu
  | some v =>
    rw [hk] at hc
    obtain ⟨hrows, p', hget', hm', -, hbuf, -⟩ := hm.get_some w.disk hk
    rw [hget] at hget'
    cases hget'
    cases hs
    have hlen : v.length < maxLength := by
      have := need_lt_rows.mp hrows
      unfold dataLength maxLength at *
      omega
    have hlog : logical w.proc.db k = some v := by rw [hm.logical_eq, hk]
    refine ⟨⟨_, hm'⟩, fun t' hp u hu => ?_, h.reads, List.nodup_cons.mpr ⟨fun hin => ?_, h.once⟩,
      fun k' n hin => ?_⟩
    · rcases eq_or_ne t' t with rfl | hne
      · obtain rfl : v = u := by simpa [hlog] using hu
        exact ⟨hlen, (str_overlay hrows hbuf).mpr (hc.1 hp)⟩
      · simp only [Function.update_of_ne hne] at hu
        obtain ⟨hu_len, hstr⟩ := h.kept t' ⟨hne.symm, hp⟩ u hu
        exact ⟨hu_len, str_of_spares hu_len hbuf (hc.2 t' hne hp u hu) hstr⟩
    · -- the key is bound, so its value has not been taken since it was put
      rcases h.gone k _ hin with hlt | ⟨-, hnone⟩
      · exact lt_irrefl _ hlt
      · rw [hlog] at hnone
        cases hnone
    · rcases List.mem_cons.mp hin with heq | hin
      · cases heq
        exact .inr ⟨rfl, by rw [hm'.logical_eq, lookup_del_self]⟩
      · refine (h.gone k' n hin).imp_right fun hn => ⟨hn.1, ?_⟩
        rw [hm'.logical_eq]
        rcases eq_or_ne k' k with rfl | hne
        · exact lookup_del_self
        · rw [lookup_del_of_ne hne, ← hm.logical_eq]
          exact hn.2

theorem read (h : Served w (.read t :: es)) (hs : threadStep w (.read t) = .ok w') :
    Served w' es := by
  simp only [threadStep] at hs
  cases hg : w.got t with
  | none =>
    rw [hg] at hs
    cases hs
  | some v =>
    rw [hg] at hs
    cases hs
    refine ⟨h.repr, fun t' hp => h.kept t' (.inr hp), fun r hr => ?_, h.once, h.gone⟩
    rcases List.mem_cons.mp hr with rfl | hr
    · exact (h.kept t (.inl rfl) v hg).2
    · exact h.reads r hr

theorem step {e : Deed T} (h : Served w (e :: es)) (hc : CarefulDeed w es e)
    (hs : threadStep w e = .ok w') : Served w' es := by
  cases e with
  | put t k v => exact h.put hs
  | get t k => exact h.get hc hs
  | read t => exact h.read hs

end Served

/-! ## All interleavings -/

theorem Served.of_run {v w : Threads T} {es : List (Deed T)} (h : Served v es)
    (hc : CarefulThreads v es) (hr : run threadStep v es = .ok w) : Served w [] := by
  induction es generalizing v with
  | nil =>
    cases hr
    exact h
  | cons e es ih =>
    obtain ⟨v', hstep, hrun⟩ := run_cons.mp hr
    rw [CarefulThreads, hstep] at hc
    exact ih (h.step hc.1 hstep) hc.2 hrun

/-- In every careful interleaving each string that a thread reads is the value that its get
took out of the map, and no value is taken by two gets. -/
theorem careful_threads {p : Proc} {m : Store} (h : Repr p.db m) (d : Disk) {es : List (Deed T)}
    {w : Threads T} (hc : CarefulThreads (.start p d) es)
    (hr : run threadStep (.start p d) es = .ok w) :
    (∀ r ∈ w.reads, r.1 = r.2) ∧ w.delivered.Nodup := by
  have hw := (served_start h d es).of_run hc hr
  exact ⟨hw.reads, hw.once⟩

end

/-! ## Two threads -/

section

variable {T : Type} [DecidableEq T]

instance decidablePending (t : T) : (es : List (Deed T)) → Decidable (Pending t es)
  | [] => inferInstanceAs (Decidable False)
  | .put t' _ _ :: es =>
    have := decidablePending t es
    inferInstanceAs (Decidable (t' ≠ t ∧ Pending t es))
  | .get t' _ :: es =>
    have := decidablePending t es
    inferInstanceAs (Decidable (t' ≠ t ∧ Pending t es))
  | .read t' :: es =>
    have := decidablePending t es
    inferInstanceAs (Decidable (t' = t ∨ Pending t es))

instance (v v' : CStr) : Decidable (Spares v v') :=
  inferInstanceAs (Decidable (v = v' ∨ v.length % dataLength = 0 ∧ v.bytes <+: v'.bytes))

instance [Fintype T] (w : Threads T) (es : List (Deed T)) :
    (e : Deed T) → Decidable (CarefulDeed w es e)
  | .put .. => inferInstanceAs (Decidable True)
  | .read .. => inferInstanceAs (Decidable True)
  | .get t k =>
    match h : logical w.proc.db k with
    | none => .isTrue (by simp [CarefulDeed, h])
    | some v =>
      decidable_of_iff
        ((Pending t es → v.length % dataLength = 0 → w.proc.readbuf v.length = 0) ∧
          ∀ t', t' ≠ t → Pending t' es → ∀ v' ∈ w.got t', Spares v v')
        (by simp only [CarefulDeed, h])

instance decidableCarefulThreads [Fintype T] (w : Threads T) :
    (es : List (Deed T)) → Decidable (CarefulThreads w es)
  | [] => inferInstanceAs (Decidable True)
  | e :: es =>
    match h : threadStep w e with
    | .error _ => decidable_of_iff (CarefulDeed w es e) (by simp [CarefulThreads, h])
    | .ok w' =>
      have := decidableCarefulThreads w' es
      decidable_of_iff (CarefulDeed w es e ∧ CarefulThreads w' es) (by simp [CarefulThreads, h])

end

/-- Each of the two threads reads its string before the other one gets. -/
def inTurn : List (Deed Bool) :=
  [.put false (.lit "a") (.lit "x"), .put true (.lit "b") (.lit "y"), .get false (.lit "a"),
    .read false, .get true (.lit "b"), .read true]

theorem careful_threads_inTurn : ∃ w,
    run threadStep (.start .zero fun _ => none) inTurn = .ok w ∧ w.reads.length = 2 ∧
      (∀ r ∈ w.reads, r.1 = r.2) ∧ w.delivered.Nodup := by
  obtain ⟨w, hrun, htest⟩ := exists_of_test
    (x := run threadStep (.start .zero fun _ => none) inTurn)
    (f := fun w => decide (w.reads.length = 2)) (by decide +kernel)
  exact ⟨w, hrun, of_decide_eq_true htest,
    careful_threads (repr_empty rfl fun _ _ => rfl) _ (by decide +kernel) hrun⟩

/-- The first thread reads its string after the other one's get. -/
def inBetween : List (Deed Bool) :=
  [.put false (.lit "a") (.lit "x"), .put true (.lit "b") (.lit "y"), .get false (.lit "a"),
    .get true (.lit "b"), .read false]

/-- It reads the value that the other one has taken. -/
theorem inBetween_reads_other : ∃ p d w,
    kvdbOpen .zero (fun _ => none) (.lit "a.db") = .ok (0, p, d) ∧
    run threadStep (.start p d) inBetween = .ok w ∧ w.reads = [(.lit "y", .lit "x")] ∧
    ¬∀ r ∈ w.reads, r.1 = r.2 := by
  obtain ⟨⟨p, d, w⟩, hr, htest⟩ := exists_of_test
    (x := do
      let y ← kvdbOpen .zero (fun _ => none) (.lit "a.db")
      check (y.1 = 0)
      let w ← run threadStep (.start y.2.1 y.2.2) inBetween
      return (y.2.1, y.2.2, w))
    (f := fun y => decide (y.2.2.reads = [(.lit "y", .lit "x")])) (by decide +kernel)
  simp only [bind_eq_ok, check_eq_ok] at hr
  obtain ⟨⟨r, p', d'⟩, hopen, _, hr0, w', hrun, hret⟩ := hr
  cases hret
  cases hr0
  have hreads : w.reads = [(.lit "y", .lit "x")] := of_decide_eq_true htest
  refine ⟨p', d', w, hopen, hrun, hreads, fun hall => ?_⟩
  have := hall (.lit "y", .lit "x") (by rw [hreads]; simp)
  exact absurd this (by decide)

end OsWorkbench.Kvdb
