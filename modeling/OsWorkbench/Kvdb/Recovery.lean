import OsWorkbench.Kvdb.Torn

/-!
# Sessions, crashes and recovery

A session opens the database in a new process, makes calls, and ends in
`kvdb_close` or in a crash between two calls. Recovery redoes the log on the copy
and empties the log, but leaves the copy as it is: what it redid is then only in
memory and in the `.db` file, which the next recovery does not read.
-/

namespace OsWorkbench.Kvdb

inductive Ending
  | close
  | crash
  deriving DecidableEq

structure Session where
  ops : List Op
  ending : Ending

def runSession (f : CStr) (d : Disk) (s : Session) : Except Fault (List Out × Disk) := do
  let (_, p, d) ← kvdbOpen .zero d f
  let (outs, p, d) ← calls p d s.ops
  match s.ending with
  | .close => return (outs, (kvdbClose p d).2.2)
  | .crash => return (outs, d)

def runSessions (f : CStr) : Disk → List Session → Except Fault (List Out × Disk)
  | d, [] => .ok ([], d)
  | d, s :: ss => do
    let (outs, d) ← runSession f d s
    let (outs', d) ← runSessions f d ss
    return (outs ++ outs', d)

/-- Of two sessions in a row that both crash, the first one made no call. -/
def Spaced (s t : Session) : Prop := s.ending = .crash → t.ending = .crash → s.ops = []

/-! ## The disk between two sessions -/

/-- The disk between two sessions, for a map `m`. `pending` are the operations in
the log that the copy does not have. -/
inductive Between (f : CStr) (d : Disk) (m : Store) : List Op → Prop
  | absent (hcopy : d (copyName f) = none) (hfile : d f = none) (hm : m = []) : Between f d m []
  | closed {db : Db} (hcopy : d (copyName f) = none) (hfile : d f = some (.image db))
      (hn : Named db f) (hrep : Repr db m) : Between f d m []
  | crashed {db : Db} {m₀ : Store} {pending : List Op}
      (hcopy : d (copyName f) = some (.image db))
      (hlog : d (logName f) = some (.text (text pending)))
      (hn : Named db f) (hrep : Repr db m₀) (hf : Feasible m₀ pending)
      (hl : ∀ o ∈ pending, Loggable o) (hm : m = (evals m₀ pending).2) : Between f d m pending

/-- Opening gives the map of the disk, and leaves an empty log beside a copy that
lacks the pending operations. -/
theorem Between.open {f : CStr} (hf : ValidName f) {d : Disk} {m : Store} {pending : List Op}
    (h : Between f d m pending) :
    ∃ p d' db m₀, kvdbOpen .zero d f = .ok (0, p, d') ∧ Named p.db f ∧ Repr p.db m ∧
      Opened d' f db ∧ Named db f ∧ Repr db m₀ ∧ m = (evals m₀ pending).2 := by
  cases h with
  | absent hcopy hfile hm =>
    obtain ⟨p, d', hopen, hn, hs, hu, hd⟩ := kvdbOpen_create hf hcopy hfile
    have hrep : Repr p.db [] := repr_empty hs fun i _ => by rw [hu]; rfl
    subst hm
    exact ⟨p, d', p.db, [], hopen, hn, hrep, hd, hn, hrep, rfl⟩
  | closed hcopy hfile hn hrep =>
    obtain ⟨p, d', hopen, rfl, hd⟩ := kvdbOpen_open hf (by simp [hcopy]) hfile
    exact ⟨p, d', p.db, m, hopen, hn, hrep, hd, hn, hrep, rfl⟩
  | @crashed db m₀ _ hcopy hlog hn hrep hfeas hl hm =>
    obtain ⟨p, hredo, hrep', hnames⟩ :=
      redoOperation_text (p := { Proc.zero with db := db }) hrep hfeas hl
    have hn' : Named p.db f := hnames.named hn
    obtain ⟨d', hopen, hd⟩ := kvdbOpen_recover hf hcopy hlog hredo hn'
    subst hm
    exact ⟨p, d', db, m₀, hopen, hn', hrep', hd, hn, hrep, rfl⟩

/-- A session keeps the disk in step with the map, unless it crashes with
operations pending since the crash before. -/
theorem Between.session {f : CStr} (hf : ValidName f) {d d' : Disk} {m : Store}
    {pending : List Op} (h : Between f d m pending) {s : Session} {outs : List Out}
    (hr : runSession f d s = .ok (outs, d')) (ho : ∀ o ∈ outs, o.Logged)
    (hl : ∀ o ∈ s.ops, Loggable o) (hs : s.ending = .crash → pending = []) :
    Between f d' (evals m s.ops).2 (if s.ending = .crash then s.ops else []) := by
  obtain ⟨p, d₁, db, m₀, hopen, hn, hrep, hd, hndb, hrepdb, hm⟩ := h.open hf
  unfold runSession at hr
  rw [hopen, ok_bind] at hr
  obtain ⟨⟨outs', p', d₂⟩, hcalls, hr⟩ := bind_eq_ok.mp hr
  have hlog : d₁ (nameOf p.db.logname) = some (.text []) := by
    rw [hn.logname]
    exact hd.log
  cases he : s.ending with
  | close =>
    simp only [he] at hr
    cases hr
    obtain ⟨-, hrep', hnames, -, -⟩ := calls_logged hrep hcalls ho hlog
    have hn' := hnames.named hn
    rw [if_neg (by simp)]
    obtain ⟨hcopy, hfile⟩ := kvdbClose_files hf hn' d₂
    exact .closed hcopy hfile hn' hrep'
  | crash =>
    simp only [he] at hr
    cases hr
    obtain ⟨hfeas, -, -, hlog', hother⟩ := calls_logged hrep hcalls ho hlog
    -- nothing is pending, so the copy has the map that the log is relative to
    rw [hs he] at hm
    rw [if_pos rfl]
    rw [hn.logname] at hlog' hother
    refine .crashed ?_ hlog' hndb hrepdb ?_ hl ?_
    · rw [hother _ (copyName_ne_logName f)]
      exact hd.copy
    · rw [hm] at hfeas
      exact hfeas
    · rw [hm]
      rfl

theorem evals_append (m : Store) (os ps : List Op) :
    (evals m (os ++ ps)).2 = (evals (evals m os).2 ps).2 := by
  induction os generalizing m with
  | nil => rfl
  | cons o os ih => exact ih _

theorem Between.sessions {f : CStr} (hf : ValidName f) {d d' : Disk} {m : Store}
    {pending : List Op} (h : Between f d m pending) {ss : List Session} {outs : List Out}
    (hr : runSessions f d ss = .ok (outs, d')) (ho : ∀ o ∈ outs, o.Logged)
    (hl : ∀ s ∈ ss, ∀ o ∈ s.ops, Loggable o)
    (hfirst : ∀ s ∈ ss.head?, s.ending = .crash → pending = []) (hss : ss.IsChain Spaced) :
    ∃ pending', Between f d' (evals m (ss.flatMap Session.ops)).2 pending' := by
  induction ss generalizing d m pending outs with
  | nil =>
    cases hr
    exact ⟨pending, h⟩
  | cons s ss ih =>
    obtain ⟨⟨outs₁, d₁⟩, hr₁, hr⟩ := bind_eq_ok.mp hr
    obtain ⟨⟨outs₂, d₂⟩, hr₂, hret⟩ := bind_eq_ok.mp hr
    cases hret
    have h₁ := h.session hf hr₁ (fun o ho' => ho o (by simp [ho'])) (hl s (by simp))
      (hfirst s rfl)
    rw [List.flatMap_cons, evals_append]
    refine ih h₁ hr₂ (fun o ho' => ho o (by simp [ho'])) (fun t ht => hl t (by simp [ht])) ?_
      hss.tail
    intro t ht hcrash
    cases ss with
    | nil => cases ht
    | cons u ss =>
      cases ht
      split
      · next hs => exact (List.isChain_cons_cons.mp hss).1 hs hcrash
      · rfl

/-- From absent files, any sequence of sessions in which no two crashes follow
each other, unless the first of the two sessions made no call, leaves files from
which the next `kvdb_open` gets the map of all the calls. -/
theorem sessions_durable {f : CStr} (hf : ValidName f) {d₀ d : Disk}
    (hcopy : d₀ (copyName f) = none) (hfile : d₀ f = none) {ss : List Session} {outs : List Out}
    (hr : runSessions f d₀ ss = .ok (outs, d)) (ho : ∀ o ∈ outs, o.Logged)
    (hp : ∀ s ∈ ss, ∀ o ∈ s.ops, Plain o) (hss : ss.IsChain Spaced) :
    ∃ p d', kvdbOpen .zero d f = .ok (0, p, d') ∧
      ∀ k, logical p.db k = (evals [] (ss.flatMap Session.ops)).2.lookup k := by
  have h₀ : Between f d₀ [] [] := .absent hcopy hfile rfl
  obtain ⟨pending, h⟩ := h₀.sessions hf hr ho (fun s hs o ho' => (hp s hs o ho').loggable)
    (fun _ _ _ => rfl) hss
  obtain ⟨p, d', -, -, hopen, -, hrep, -⟩ := h.open hf
  exact ⟨p, d', hopen, hrep.logical_eq⟩

/-- A crash, and then a session that recovers and closes. -/
def oneCrash : List Session :=
  [⟨[.put (.lit "a") (.lit "1")], .crash⟩, ⟨[.put (.lit "b") (.lit "2")], .close⟩]

theorem sessions_durable_oneCrash :
    ∃ d p d', runSessions (.lit "a.db") (fun _ => none) oneCrash = .ok ([.ret 0, .ret 0], d) ∧
      kvdbOpen .zero d (.lit "a.db") = .ok (0, p, d') ∧
      ∀ k, logical p.db k = (evals [] (oneCrash.flatMap Session.ops)).2.lookup k := by
  have heval : ((runSessions (.lit "a.db") (fun _ => none) oneCrash).toOption.map (·.1)) =
      some [.ret 0, .ret 0] := by
    decide +kernel
  obtain ⟨⟨outs, d⟩, hr, houts⟩ := Option.map_eq_some_iff.mp heval
  cases houts
  have hr' := toOption_eq_some.mp hr
  obtain ⟨p, d', hopen, hmap⟩ := sessions_durable ⟨by decide, by decide⟩ rfl rfl hr'
    (by simp [Out.Logged]) (by
      simp only [oneCrash, List.mem_cons, List.not_mem_nil, or_false, forall_eq_or_imp, forall_eq]
      exact ⟨⟨⟨by decide, by decide +kernel⟩, by decide, by decide +kernel⟩,
        ⟨by decide, by decide +kernel⟩, by decide, by decide +kernel⟩)
    (List.isChain_cons_cons.mpr ⟨fun _ h => (nomatch h), List.IsChain.singleton _⟩)
  exact ⟨d, p, d', hr', hopen, hmap⟩

/-- Two crashes in a row. -/
def twoCrashes : List Session :=
  [⟨[.put (.lit "a") (.lit "1")], .crash⟩, ⟨[.put (.lit "b") (.lit "2")], .crash⟩]

/-- After the second crash the operation of the first session is lost. -/
theorem twoCrashes_lose :
    ∃ d p d', runSessions (.lit "a.db") (fun _ => none) twoCrashes = .ok ([.ret 0, .ret 0], d) ∧
      kvdbOpen .zero d (.lit "a.db") = .ok (0, p, d') ∧ logical p.db (.lit "a") = none ∧
      (evals [] (twoCrashes.flatMap Session.ops)).2.lookup (.lit "a") = some (.lit "1") := by
  have heval : (do
      let x ← runSessions (.lit "a.db") (fun _ => none) twoCrashes
      let y ← kvdbOpen .zero x.2 (.lit "a.db")
      pure (x.1, y.1, logical y.2.1.db (.lit "a")) :
      Except Fault (List Out × Int × Option CStr)).toOption =
        some ([.ret 0, .ret 0], 0, none) := by
    decide +kernel
  obtain ⟨⟨outs, d⟩, hr, h⟩ := bind_eq_ok.mp (toOption_eq_some.mp heval)
  obtain ⟨⟨r, p, d'⟩, hopen, h⟩ := bind_eq_ok.mp h
  simp only [pure_eq_ok, Except.ok.injEq, Prod.mk.injEq] at h
  obtain ⟨rfl, rfl, h1⟩ := h
  exact ⟨d, p, d', hr, hopen, h1, by decide⟩

end OsWorkbench.Kvdb
