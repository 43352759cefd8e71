import OsWorkbench.Kvdb.Recovery

/-!
# Two processes on one database

Every process works on its own copy of the map and writes it back whole when it closes, so
that the last one to close decides what is in the `.db` file. It has what the other one
did before it opened: from the `.db` file, or, when the other one still has the database
open, from the copy and the log, which it takes for those of a crash.
-/

namespace OsWorkbench.Kvdb

/-! ## Interleavings -/

inductive Phase
  | new
  | opened
  | closed
  deriving DecidableEq

/-- An event of a process, with what the call returned. -/
inductive Event
  | opens
  | call (o : Op) (out : Out)
  | close
  deriving DecidableEq

/-- The two processes and the files. -/
structure World where
  procs : Bool → Proc
  phase : Bool → Phase
  disk : Disk

def World.start (d : Disk) : World := ⟨fun _ => .zero, fun _ => .new, d⟩

/-- One process makes a step. An event that the process cannot make then, or a call that
returns something else, is an error. -/
def worldStep (f : CStr) (w : World) : Bool × Event → Except Fault World
  | (i, .opens) => do
    check (w.phase i = .new)
    let (_, p, d) ← kvdbOpen (w.procs i) w.disk f
    return ⟨Function.update w.procs i p, Function.update w.phase i .opened, d⟩
  | (i, .call o out) => do
    check (w.phase i = .opened)
    let (out', p, d) ← call (w.procs i) w.disk o
    check (out' = out)
    return ⟨Function.update w.procs i p, w.phase, d⟩
  | (i, .close) => do
    check (w.phase i = .opened)
    let (_, p, d) := kvdbClose (w.procs i) w.disk
    return ⟨Function.update w.procs i p, Function.update w.phase i .closed, d⟩

/-- The keys that were put, in order. -/
def putKey : Bool × Event → Option CStr
  | (_, .call (.put k _) _) => some k
  | _ => none

/-- Both processes open, put distinct keys, with success, and close. -/
structure Interleaving (f : CStr) (d : Disk) (es : List (Bool × Event)) (w : World) : Prop where
  run : run (worldStep f) (.start d) es = .ok w
  closed : ∀ i, w.phase i = .closed
  distinct : (es.filterMap putKey).Nodup
  stored : ∀ i k v out, (i, .call (.put k v) out) ∈ es → out = .ret 0

/-- Every key that was put and not taken since by a `kvdb_get` is in the database. -/
def KeepsPuts (es : List (Bool × Event)) (db : Db) : Prop :=
  ∀ pre post i k v out, es = pre ++ (i, .call (.put k v) out) :: post →
    (∀ j s, (j, .call (.get k) (.str (some s))) ∉ post) → logical db k = some v

/-- Every put is made by the process `q`, or before it opens, or taken back by the process
that made it. -/
def Reaches (es : List (Bool × Event)) (q : Bool) : Prop :=
  ∀ pre post i k v out, es = pre ++ (i, .call (.put k v) out) :: post →
    i = q ∨ (q, .opens) ∈ post ∨ ∃ out', (i, .call (.get k) out') ∈ post

/-- When a process opens while the other one has the database open, what is in the log can
be read back. -/
def ReadBack (es : List (Bool × Event)) : Prop :=
  ∀ pre post i, es = pre ++ (i, .opens) :: post → (!i, .opens) ∈ pre → (!i, .close) ∉ pre →
    ∀ j o out, (j, .call o out) ∈ pre → out.Logged → Loggable o

theorem ReadBack.init {es : List (Bool × Event)} {e : Bool × Event} (h : ReadBack (es ++ [e])) :
    ReadBack es := fun pre post i hes =>
  h pre (post ++ [e]) i (by rw [hes, List.append_assoc, List.cons_append])

/-- Every put reaches the process that closes last, and a log that is taken for that of a
crash can be read back. -/
def CarefulEvents (es : List (Bool × Event)) : Prop :=
  ReadBack es ∧ ∀ q, es.getLast? = some (q, .close) → Reaches es q

/-! ## What a process has seen -/

instance : (out : Out) → Decidable out.Logged
  | .ret r => inferInstanceAs (Decidable (r = 0))
  | .str s => inferInstanceAs (Decidable (s.isSome = true))

/-- The operations in the map of each process. -/
def view (v : Bool → List Op) : Bool × Event → Bool → List Op
  | (i, .opens) => Function.update v i (v !i)
  | (i, .call o out) => if out.Logged then Function.update v i (v i ++ [o]) else v
  | (_, .close) => v

def seen (es : List (Bool × Event)) : Bool → List Op := es.foldl view fun _ => []

theorem seen_snoc (es : List (Bool × Event)) (e : Bool × Event) :
    seen (es ++ [e]) = view (seen es) e :=
  List.foldl_append ..

theorem mem_seen {es : List (Bool × Event)} {j : Bool} {o : Op} (h : o ∈ seen es j) :
    ∃ i out, (i, .call o out) ∈ es ∧ out.Logged := by
  induction es using List.reverseRecOn generalizing j with
  | nil => cases h
  | append_singleton es e ih =>
    have hmem : ∀ {j}, o ∈ seen es j →
        ∃ i out, (i, .call o out) ∈ es ++ [e] ∧ out.Logged := fun h => by
      obtain ⟨i, out, hin, ho⟩ := ih h
      exact ⟨i, out, List.mem_append_left _ hin, ho⟩
    rw [seen_snoc] at h
    obtain ⟨i, e⟩ := e
    cases e with
    | opens =>
      rw [view, Function.update_apply] at h
      split at h
      · exact hmem h
      · exact hmem h
    | call o' out =>
      rw [view] at h
      split at h
      next ho =>
        rw [Function.update_apply] at h
        split at h
        · rcases List.mem_append.mp h with h | h
          · exact hmem h
          · obtain rfl := List.mem_singleton.mp h
            exact ⟨i, out, by simp, ho⟩
        · exact hmem h
      · exact hmem h
    | close => exact hmem h

/-! ## The files and the maps of the processes -/

/-- The files of a closed database with the map `m`. -/
def Saved (f : CStr) (d : Disk) (m : Store) : Prop :=
  ∃ db, d (copyName f) = none ∧ d f = some (.image db) ∧ Named db f ∧ Repr db m

/-- The files while one process has the database open, which had the map `m` before. -/
def InUse (f : CStr) (d : Disk) (m : Store) (os : List Op) : Prop :=
  ∃ db, d (copyName f) = some (.image db) ∧ Named db f ∧ Repr db m ∧
    d (logName f) = some (.text (text os)) ∧ Feasible m os

/-- The state after the events `es` on a database with the map `m`. -/
structure Joint (f : CStr) (m : Store) (es : List (Bool × Event)) (w : World) : Prop where
  new : ∀ i, w.phase i = .new → w.procs i = .zero ∧ seen es i = [] ∧ ∀ e, (i, e) ∉ es
  opened : ∀ i, w.phase i = .opened → Named (w.procs i).db f ∧
    Repr (w.procs i).db (evals m (seen es i)).2 ∧ (i, .opens) ∈ es ∧ (i, .close) ∉ es
  idle : (∀ i, w.phase i = .new) → Between f w.disk m []
  first : ∀ i, w.phase i = .opened → w.phase (!i) = .new → InUse f w.disk m (seen es i)
  saved : ∀ i, w.phase i = .closed → w.phase (!i) = .new → Saved f w.disk (evals m (seen es i)).2
  last : (∀ i, w.phase i = .closed) →
    ∃ q, es.getLast? = some (q, .close) ∧ Saved f w.disk (evals m (seen es q)).2

theorem InUse.between {f : CStr} {d : Disk} {m : Store} {os : List Op} (h : InUse f d m os)
    (hl : ∀ o ∈ os, Loggable o) : Between f d (evals m os).2 os := by
  obtain ⟨db, hcopy, hn, hrep, hlog, hfeas⟩ := h
  exact .crashed hcopy hlog hn hrep hfeas hl rfl

theorem InUse.append {f : CStr} {d : Disk} {m : Store} {os : List Op} (h : InUse f d m os) {o : Op}
    (ho : Feasible (evals m os).2 [o]) :
    InUse f (d.append (logName f) (record o)) m (os ++ [o]) := by
  obtain ⟨db, hcopy, hn, hrep, hlog, hfeas⟩ := h
  refine ⟨db, ?_, hn, hrep, ?_, feasible_append.mpr ⟨hfeas, ho⟩⟩
  · rw [append_of_ne _ _ (copyName_ne_logName f)]
    exact hcopy
  · rw [append_self hlog, text, text, List.flatMap_append, List.flatMap_singleton]

theorem Saved.between {f : CStr} {d : Disk} {m : Store} (h : Saved f d m) : Between f d m [] := by
  obtain ⟨db, hcopy, hfile, hn, hrep⟩ := h
  exact .closed hcopy hfile hn hrep

namespace Joint

variable {f : CStr} {m : Store} {es : List (Bool × Event)} {w w' : World} {i : Bool}

theorem start {d : Disk} (h : Between f d m []) : Joint f m [] (.start d) where
  new _ _ := ⟨rfl, rfl, fun _ => List.not_mem_nil⟩
  opened _ h := by cases h
  idle _ := h
  first _ h := by cases h
  saved _ h := by cases h
  last h := by cases h true

/-- What the process that opens finds. -/
theorem between (h : Joint f m es w) (hi : w.phase i = .new) (hr : ReadBack (es ++ [(i, .opens)])) :
    ∃ pending, Between f w.disk (evals m (seen es !i)).2 pending ∧
      (w.phase (!i) = .new → pending = []) := by
  cases hother : w.phase (!i) with
  | new =>
    refine ⟨[], ?_, fun _ => rfl⟩
    rw [(h.new _ hother).2.1]
    refine h.idle fun j => ?_
    rcases Bool.eq_or_eq_not j i with rfl | rfl
    · exact hi
    · exact hother
  | opened =>
    obtain ⟨-, -, hopens, hclose⟩ := h.opened _ hother
    refine ⟨seen es !i, (h.first _ hother (by rwa [Bool.not_not])).between fun o ho => ?_,
      fun h => by cases h⟩
    obtain ⟨j, out, hin, hout⟩ := mem_seen ho
    exact hr es [] i rfl hopens hclose j o out hin hout
  | closed =>
    exact ⟨[], (h.saved _ hother (by rwa [Bool.not_not])).between, fun _ => rfl⟩

/-- The process `i` moves to `ph`, and what the other one has stays as it is. -/
theorem moved {e : Event} {p : Proc} {ph : Phase} {d : Disk} (h : Joint f m es w) (hph : ph ≠ .new)
    (hseen : seen (es ++ [(i, e)]) (!i) = seen es !i)
    (hopened : ph = .opened → Named p.db f ∧ Repr p.db (evals m (seen (es ++ [(i, e)]) i)).2 ∧
      (i, .opens) ∈ es ++ [(i, e)] ∧ (i, .close) ∉ es ++ [(i, e)])
    (hfirst : ph = .opened → w.phase (!i) = .new → InUse f d m (seen (es ++ [(i, e)]) i))
    (hsaved : ph = .closed → e = .close ∧ Saved f d (evals m (seen (es ++ [(i, e)]) i)).2) :
    Joint f m (es ++ [(i, e)]) ⟨Function.update w.procs i p, Function.update w.phase i ph, d⟩ := by
  have hother : (!i) ≠ i := Bool.not_ne_self i
  have hmem : ∀ e', (!i, e') ∈ es ++ [(i, e)] ↔ (!i, e') ∈ es := fun e' => by simp
  constructor
  · intro j hj
    rcases Bool.eq_or_eq_not j i with rfl | rfl
    · exact absurd (by simpa using hj) hph
    · dsimp only at hj ⊢
      rw [Function.update_of_ne hother] at hj ⊢
      rw [hseen]
      simpa only [hmem] using h.new _ hj
  · intro j hj
    rcases Bool.eq_or_eq_not j i with rfl | rfl
    · dsimp only at hj ⊢
      rw [Function.update_self] at hj ⊢
      exact hopened hj
    · dsimp only at hj ⊢
      rw [Function.update_of_ne hother] at hj ⊢
      rw [hseen, hmem, hmem]
      exact h.opened _ hj
  · intro hj
    exact absurd (by simpa using hj i) hph
  · intro j hj hnew
    rcases Bool.eq_or_eq_not j i with rfl | rfl
    · dsimp only at hj hnew
      rw [Function.update_self] at hj
      rw [Function.update_of_ne hother] at hnew
      exact hfirst hj hnew
    · exact absurd (by simpa using hnew) hph
  · intro j hj hnew
    rcases Bool.eq_or_eq_not j i with rfl | rfl
    · dsimp only at hj
      rw [Function.update_self] at hj
      exact (hsaved hj).2
    · exact absurd (by simpa using hnew) hph
  · intro hj
    have hi := hj i
    dsimp only at hi
    rw [Function.update_self] at hi
    obtain ⟨rfl, hd⟩ := hsaved hi
    exact ⟨i, by simp, hd⟩

theorem opens (hf : ValidName f) (h : Joint f m es w) (hr : ReadBack (es ++ [(i, .opens)]))
    (hs : worldStep f w (i, .opens) = .ok w') : Joint f m (es ++ [(i, .opens)]) w' := by
  simp only [worldStep, bind_eq_ok, check_eq_ok] at hs
  obtain ⟨_, hi, ⟨r, p, d⟩, hopen, hs⟩ := hs
  cases hs
  obtain ⟨hzero, -, hnone⟩ := h.new i hi
  obtain ⟨pending, hb, hpending⟩ := h.between hi hr
  obtain ⟨p', d', db, m₁, hopen', hn, hrep, hd, hndb, hrepdb, hm⟩ := hb.open hf
  rw [hzero, hopen'] at hopen
  cases hopen
  have hseen : seen (es ++ [(i, .opens)]) i = seen es !i := by
    rw [seen_snoc, view, Function.update_self]
  refine h.moved (by simp) ?_ (fun _ => ⟨hn, by rwa [hseen], by simp, ?_⟩) (fun _ hnew => ?_)
    (by simp)
  · rw [seen_snoc, view, Function.update_of_ne (Bool.not_ne_self i)]
  · simpa using hnone .close
  · rw [hseen, (h.new _ hnew).2.1]
    -- nothing was pending, so the copy has the whole map
    rw [hpending hnew, (h.new _ hnew).2.1] at hm
    obtain rfl : m = m₁ := hm
    exact ⟨db, hd.copy, hndb, hrepdb, hd.log, trivial⟩

theorem call {o : Op} {out : Out} (h : Joint f m es w) (hput : ∀ k v, o = .put k v → out = .ret 0)
    (hs : worldStep f w (i, .call o out) = .ok w') : Joint f m (es ++ [(i, .call o out)]) w' := by
  simp only [worldStep, bind_eq_ok, check_eq_ok] at hs
  obtain ⟨_, hi, ⟨out', p, d⟩, hcall, _, rfl, hs⟩ := hs
  cases hs
  rw [← Function.update_eq_self i w.phase, hi]
  obtain ⟨hn, hrep, hopens, hclose⟩ := h.opened i hi
  by_cases ho : out'.Logged
  · have hseen : seen (es ++ [(i, .call o out')]) =
        Function.update (seen es) i (seen es i ++ [o]) := by
      rw [seen_snoc, view, if_pos ho]
    obtain ⟨hfeas, hrep', hnames, rfl⟩ := hrep.call_logged hcall ho
    refine h.moved (by simp) ?_
      (fun _ => ⟨hnames.named hn, ?_, by simp [hopens], by simpa using hclose⟩)
      (fun _ hnew => ?_) (by simp)
    · rw [hseen, Function.update_of_ne (Bool.not_ne_self i)]
    · rw [hseen, Function.update_self, evals_append]
      exact hrep'
    · rw [hseen, Function.update_self, hn.logname]
      exact (h.first i hi hnew).append hfeas
  · have hseen : seen (es ++ [(i, .call o out')]) = seen es := by
      rw [seen_snoc, view, if_neg ho]
    cases o with
    | put k v =>
      obtain rfl : out' = .ret 0 := hput k v rfl
      exact absurd rfl ho
    | get k =>
      obtain ⟨-, rfl, rfl⟩ := hrep.get_unlogged hcall ho
      refine h.moved (by simp) (by rw [hseen])
        (fun _ => ⟨hn, by rwa [hseen], by simp [hopens], by simpa using hclose⟩) (fun _ hnew => ?_)
          (by simp)
      rw [hseen]
      exact h.first i hi hnew

theorem close (hf : ValidName f) (h : Joint f m es w) (hs : worldStep f w (i, .close) = .ok w') :
    Joint f m (es ++ [(i, .close)]) w' := by
  simp only [worldStep, bind_eq_ok, check_eq_ok] at hs
  obtain ⟨_, hi, hs⟩ := hs
  cases hs
  obtain ⟨hn, hrep, -, -⟩ := h.opened i hi
  have hseen : seen (es ++ [(i, .close)]) = seen es := by rw [seen_snoc, view]
  obtain ⟨hcopy, hfile⟩ := kvdbClose_files hf hn w.disk
  refine h.moved (by simp) (by rw [hseen]) (by simp) (by simp) fun _ => ⟨rfl, ?_⟩
  rw [hseen]
  exact ⟨_, hcopy, hfile, hn, hrep⟩

theorem of_run (hf : ValidName f) {d : Disk} (hb : Between f d m [])
    (hput : ∀ i k v out, (i, .call (.put k v) out) ∈ es → out = .ret 0) (hread : ReadBack es)
    (hr : run (worldStep f) (.start d) es = .ok w) : Joint f m es w := by
  induction es using List.reverseRecOn generalizing w with
  | nil =>
    cases hr
    exact start hb
  | append_singleton es e ih =>
    obtain ⟨w₁, hr₁, hs⟩ := run_append.mp hr
    obtain ⟨w₂, hs, hnil⟩ := run_cons.mp hs
    cases hnil
    have h := ih (fun i k v out hin => hput i k v out (List.mem_append_left _ hin)) hread.init hr₁
    obtain ⟨i, e⟩ := e
    cases e with
    | opens => exact h.opens hf hread hs
    | call o out => exact h.call (fun k v ho => hput i k v out (by simp [ho])) hs
    | close => exact h.close hf hs

end Joint

/-! ## Puts that reach the last process -/

/-- A put stays in the map of every process that has seen it, as long as it is not taken
and no process puts the key again. -/
theorem lookup_seen {m : Store} {pre post : List (Bool × Event)} {i j : Bool} {k v : CStr}
    (hopens : (i, .opens) ∉ post) (hputs : ∀ j v out, (j, .call (.put k v) out) ∉ post)
    (hgets : ∀ j out, (j, .call (.get k) out) ∈ post → ¬out.Logged)
    (hj : j = i ∨ (j, .opens) ∈ post) :
    (evals m (seen (pre ++ (i, .call (.put k v) (.ret 0)) :: post) j)).2.lookup k = some v := by
  induction post using List.reverseRecOn generalizing j with
  | nil =>
    obtain rfl : j = i := by simpa using hj
    rw [seen_snoc, view, if_pos (show (Out.ret 0).Logged from rfl), Function.update_self,
      evals_append]
    exact lookup_ins_self
  | append_singleton post e ih =>
    have ih := fun {j} =>
      @ih j (fun h => hopens (by simp [h])) (fun j v out h => hputs j v out (by simp [h]))
      (fun j out h => hgets j out (by simp [h]))
    rw [← List.cons_append, ← List.append_assoc, seen_snoc]
    obtain ⟨i', e⟩ := e
    cases e with
    | opens =>
      have hne : i' ≠ i := fun h => hopens (by simp [h])
      rw [view]
      rcases eq_or_ne j i' with rfl | hjne
      · rw [Function.update_self]
        exact ih (.inl (Bool.eq_not.mpr hne ▸ Bool.not_not i))
      · rw [Function.update_of_ne hjne]
        refine ih (hj.imp_right fun h => ?_)
        simpa [hjne] using h
    | call o out =>
      have hj' : j = i ∨ (j, .opens) ∈ post := by simpa using hj
      rw [view]
      split
      next ho =>
        rcases eq_or_ne j i' with rfl | hjne
        · rw [Function.update_self, evals_append]
          cases o with
          | put k' v' =>
            have hk : k ≠ k' := fun h => hputs j v' out (by simp [h])
            exact (lookup_ins_of_ne hk).trans (ih hj')
          | get k' =>
            have hk : k ≠ k' := fun h => hgets j out (by simp [h]) ho
            exact (lookup_del_of_ne hk).trans (ih hj')
        · rw [Function.update_of_ne hjne]
          exact ih hj'
      · exact ih hj'
    | close =>
      rw [view]
      exact ih (by simpa using hj)

namespace Interleaving

variable {f : CStr} {d : Disk} {es pre post : List (Bool × Event)} {w : World} {i : Bool}
    {e : Event}

/-- The state in front of an event. -/
theorem before {m : Store} (hf : ValidName f) (hb : Between f d m []) (h : Interleaving f d es w)
    (hread : ReadBack es) (hes : es = pre ++ (i, e) :: post) :
    ∃ w₁ w₂, Joint f m pre w₁ ∧ worldStep f w₁ (i, e) = .ok w₂ := by
  subst hes
  obtain ⟨w₁, w₂, hr, hs⟩ := run_split h.run
  refine ⟨w₁, w₂, .of_run hf hb (fun i k v out hin => h.stored i k v out (by simp [hin])) ?_ hr, hs⟩
  intro a b j hpre
  exact hread a (b ++ (i, e) :: post) j (by rw [hpre, List.append_assoc, List.cons_append])

theorem opens_notMem {m : Store} (hf : ValidName f) (hb : Between f d m [])
    (h : Interleaving f d es w)
    (hread : ReadBack es) (hes : es = pre ++ (i, e) :: post) : (i, .opens) ∉ post := by
  intro hin
  obtain ⟨a, b, rfl⟩ := List.append_of_mem hin
  obtain ⟨w₁, w₂, hj, hs⟩ := h.before hf hb hread
    (show es = (pre ++ (i, e) :: a) ++ (i, .opens) :: b by simp [hes])
  simp only [worldStep, bind_eq_ok, check_eq_ok] at hs
  exact (hj.new i hs.choose_spec.1).2.2 e (by simp)

theorem get_str {m : Store} {k : CStr} {out : Out} (hf : ValidName f) (hb : Between f d m [])
    (h : Interleaving f d es w) (hread : ReadBack es) (hin : (i, .call (.get k) out) ∈ es)
    (ho : out.Logged) : ∃ s, out = .str (some s) := by
  obtain ⟨a, b, hes⟩ := List.append_of_mem hin
  obtain ⟨w₁, w₂, -, hs⟩ := h.before hf hb hread hes
  simp only [worldStep, bind_eq_ok, check_eq_ok] at hs
  obtain ⟨_, -, ⟨out', p, d'⟩, hcall, _, rfl, -⟩ := hs
  obtain ⟨⟨r, p₁, d₁⟩, -, hret⟩ := bind_eq_ok.mp hcall
  cases hret
  exact ⟨_, congrArg Out.str (Option.some_get ho).symm⟩

end Interleaving

/-- After every careful interleaving the next `kvdb_open` gets every key that was put and
not taken. -/
theorem careful_keeps_puts {f : CStr} (hf : ValidName f) {d : Disk} {m : Store}
    (hb : Between f d m []) {es : List (Bool × Event)} {w : World} (h : Interleaving f d es w)
    (hc : CarefulEvents es) :
    ∃ p d', kvdbOpen .zero w.disk f = .ok (0, p, d') ∧ KeepsPuts es p.db := by
  have hj : Joint f m es w := .of_run hf hb h.stored hc.1 h.run
  obtain ⟨q, hlast, hsaved⟩ := hj.last h.closed
  obtain ⟨p, d', -, -, hopen, -, hrep, -⟩ := hsaved.between.open hf
  refine ⟨p, d', hopen, fun pre post i k v out hes huntaken => ?_⟩
  obtain rfl : out = .ret 0 := h.stored i k v out (by simp [hes])
  have hopens := h.opens_notMem hf hb hc.1 hes
  have hputs : ∀ j v out, (j, .call (.put k v) out) ∉ post := fun j v' out' hin => by
    have hnd := h.distinct
    rw [hes, List.filterMap_append, List.filterMap_cons] at hnd
    have hk := (List.nodup_append.mp hnd).2.1
    exact (List.nodup_cons.mp hk).1 (List.mem_filterMap.mpr ⟨_, hin, rfl⟩)
  have hgets : ∀ j out, (j, .call (.get k) out) ∈ post → ¬out.Logged := fun j out hin ho => by
    have hmem : (j, .call (.get k) out) ∈ es := by simp [hes, hin]
    obtain ⟨s, rfl⟩ := h.get_str hf hb hc.1 hmem ho
    exact huntaken j s hin
  rw [hrep.logical_eq]
  rcases hc.2 q hlast pre post i k v _ hes with hq | hq | ⟨out, hin⟩
  · rw [hes]
    exact lookup_seen hopens hputs hgets (.inl hq.symm)
  · rw [hes]
    exact lookup_seen hopens hputs hgets (.inr hq)
  · -- the process that put the key finds it when it takes it back
    obtain ⟨a, b, rfl⟩ := List.append_of_mem hin
    obtain ⟨w₁, w₂, hj₁, hs⟩ := h.before hf hb hc.1
      (show es =
        (pre ++ (i, .call (.put k v) (.ret 0)) :: a) ++ (i, .call (.get k) out) :: b by simp [hes])
    simp only [worldStep, bind_eq_ok, check_eq_ok] at hs
    obtain ⟨_, hi, ⟨out', p₁, d₁⟩, hcall, _, rfl, -⟩ := hs
    have hnone := ((hj₁.opened i hi).2.1.get_unlogged hcall (hgets i _ hin)).1
    rw [lookup_seen (fun hin => hopens (by simp [hin]))
      (fun j v out hin => hputs j v out (by simp [hin]))
      (fun j out hin => hgets j out (by simp [hin])) (.inl rfl)] at hnone
    cases hnone

/-- One process puts a key; the other one opens then, and closes last. -/
def handedOver : List (Bool × Event) :=
  [(false, .opens), (false, .call (.put (.lit "a") (.lit "1")) (.ret 0)), (true, .opens),
    (false, .close), (true, .call (.put (.lit "b") (.lit "2")) (.ret 0)), (true, .close)]

theorem handedOver_careful : CarefulEvents handedOver := by
  constructor
  · intro pre post i hes hopens hclose j o out hin ho
    rcases pre with _ | ⟨_, _ | ⟨_, _ | ⟨_, _ | ⟨_, _ | ⟨_, _ | ⟨_, pre⟩⟩⟩⟩⟩⟩ <;>
      simp [handedOver] at hes
    · simp at hin
    · obtain ⟨rfl, rfl, rfl, -⟩ := hes
      obtain ⟨rfl, rfl, rfl⟩ : j = false ∧ o = .put (.lit "a") (.lit "1") ∧ out = .ret 0 := by
        simpa using hin
      exact Plain.loggable ⟨⟨by decide, by decide +kernel⟩, by decide, by decide +kernel⟩
  · intro q hq pre post i k v out hes
    obtain rfl : true = q := by simpa [handedOver] using hq
    rcases pre with _ | ⟨_, _ | ⟨_, _ | ⟨_, _ | ⟨_, _ | ⟨_, _ | ⟨_, pre⟩⟩⟩⟩⟩⟩ <;>
      simp [handedOver] at hes
    · obtain ⟨-, -, rfl⟩ := hes
      exact .inr (.inl (by simp))
    · exact .inl hes.2.2.2.2.1.1

theorem careful_keeps_puts_handedOver : ∃ w p d,
    Interleaving (.lit "a.db") (fun _ => none) handedOver w ∧
      kvdbOpen .zero w.disk (.lit "a.db") = .ok (0, p, d) ∧ KeepsPuts handedOver p.db := by
  obtain ⟨w, hrun, hclosed⟩ := exists_of_test
    (x := run (worldStep (.lit "a.db")) (.start fun _ => none) handedOver)
    (f := fun w => decide (∀ i, w.phase i = .closed)) (by decide +kernel)
  rw [decide_eq_true_eq] at hclosed
  have hi : Interleaving (.lit "a.db") (fun _ => none) handedOver w :=
    ⟨hrun, hclosed, by decide, by simp [handedOver]⟩
  have hf : ValidName (.lit "a.db") := ⟨by decide, by decide⟩
  obtain ⟨p, d, hopen, hkeeps⟩ := careful_keeps_puts hf (.absent rfl rfl rfl) hi handedOver_careful
  exact ⟨w, p, d, hi, hopen, hkeeps⟩

/-- Both processes have the database open when they put. -/
def crossed : List (Bool × Event) :=
  [(false, .opens), (true, .opens), (false, .call (.put (.lit "a") (.lit "1")) (.ret 0)),
    (true, .call (.put (.lit "b") (.lit "2")) (.ret 0)), (false, .close), (true, .close)]

/-- What was put before the other process closed is lost. -/
theorem crossed_loses : ∃ w p d, Interleaving (.lit "a.db") (fun _ => none) crossed w ∧
    kvdbOpen .zero w.disk (.lit "a.db") = .ok (0, p, d) ∧ ¬KeepsPuts crossed p.db := by
  obtain ⟨⟨w, p, d⟩, hr, htest⟩ := exists_of_test
    (x := do
      let w ← run (worldStep (.lit "a.db")) (.start fun _ => none) crossed
      let y ← kvdbOpen .zero w.disk (.lit "a.db")
      check (y.1 = 0)
      return (w, y.2))
    (f := fun y => decide ((∀ i, y.1.phase i = .closed) ∧ logical y.2.1.db (.lit "a") = none))
    (by decide +kernel)
  rw [decide_eq_true_eq] at htest
  simp only [bind_eq_ok, check_eq_ok] at hr
  obtain ⟨w', hrun, ⟨r, p', d'⟩, hopen, _, hr0, hret⟩ := hr
  cases hret
  cases hr0
  refine ⟨w, p, d, ⟨hrun, htest.1, by decide, by simp [crossed]⟩, hopen, fun hk => ?_⟩
  have := hk _ _ _ _ _ _ (show crossed = [(false, .opens), (true, .opens)] ++
    (false, .call (.put (.lit "a") (.lit "1")) (.ret 0)) :: _ from rfl) (by simp)
  rw [htest.2] at this
  cases this

end OsWorkbench.Kvdb
