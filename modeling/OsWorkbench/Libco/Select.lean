import OsWorkbench.Lib.Count
import OsWorkbench.Lib.Traced
import OsWorkbench.Libco.Model

/-!
# Which coroutine is selected

`select_co` counts on `act_cnt`: it takes the remainder of `rand` by it and walks over the
entries that are `RUNNING`. The counter can only go wrong where a coroutine returns while
`current` is the entry of another one. The control is then with a coroutine that was resumed
through `co_rtns[0].buf`, and this continuation is used up, so that the `longjmp` behind the
decrement is undefined and no selection follows.
-/

namespace OsWorkbench.Libco

/-! ## The walk of `select_co` -/

section Walk

variable {s : Lib}

/-- The entries that are `RUNNING`. -/
def runnable (s : Lib) : List Nat :=
  (List.range s.coCnt).filter fun j => (s.coRtns j).state = .running

theorem mem_runnable {m : Nat} :
    m ∈ runnable s ↔ m < s.coCnt ∧ (s.coRtns m).state = .running := by
  simp [runnable]

theorem selectLoop_eq (is : List Nat) (num : Nat) :
    selectLoop s is num = (is.filter fun j => (s.coRtns j).state = .running)[num]? := by
  induction is generalizing num with
  | nil => rfl
  | cons i is ih =>
    rw [selectLoop]
    by_cases hi : (s.coRtns i).state = .running
    · rw [if_pos hi, List.filter_cons_of_pos (by simpa using hi)]
      cases num with
      | zero => rfl
      | succ num =>
        rw [if_neg (Nat.succ_ne_zero num), List.getElem?_cons_succ, ← ih]
        rfl
    · rw [if_neg hi, List.filter_cons_of_neg (by simpa using hi), ih]

/-- With the right counter, `select_co` returns an entry that is `RUNNING`. -/
theorem selectCo_ok (hact : s.actCnt = (runnable s).length) (hpos : 0 < s.actCnt) (r : Nat) :
    ∃ m, selectCo s r = .ok (some m) ∧ m < s.coCnt ∧ (s.coRtns m).state = .running := by
  have hlt : r % s.actCnt < (runnable s).length := (Nat.mod_lt r hpos).trans_eq hact
  refine ⟨(runnable s)[r % s.actCnt], ?_, mem_runnable.mp (List.getElem_mem hlt)⟩
  rw [selectCo, if_neg hpos.ne', selectLoop_eq]
  exact congrArg Except.ok (List.getElem?_eq_getElem hlt)

end Walk

/-! ## The calls of `select_co` in a step -/

/-- A part of a step, with the states in which it calls `select_co`. -/
abbrev Selecting := Traced Fault Lib

namespace Selecting

def selectCo (s : Lib) (r : Nat) : Selecting (Option Nat) := ⟨Libco.selectCo s r, [s]⟩

def proceed (s : Lib) (k : Cont) (switch : Lib → Selecting Lib) : Selecting Lib :=
  match k.site with
  | .wait thd => if (s.coRtns thd).state ≠ .ended then switch s else pure (back s k)
  | _ => pure (back s k)

def longjmp (s : Lib) (buf : Option Cont) (switch : Lib → Selecting Lib) : Selecting Lib :=
  match buf with
  | none => .lift (.error .badAccess)
  | some k =>
    if s.suspended k.owner = some k then proceed s k switch else .lift (.error .badAccess)

/-- Where there are no more results of `rand`, `select_co` is called and waits for one. -/
def switchAndJump : List Nat → Lib → Selecting Lib
  | [], s => ⟨.error .diverges, [s]⟩
  | r :: rs, s => do
    match ← selectCo s r with
    | none => .lift (.error .badAccess)
    | some m =>
      if m = (s.coRtns s.current).id then switchAndJump rs s
      else
        let s := { s with current := m }
        longjmp s (s.coRtns m).buf (switchAndJump rs)

def coEnd (s : Lib) (rs : List Nat) : Selecting Lib :=
  if s.running = 0 then .lift (.error .exit)
  else
    let s := { s with
      coRtns := Function.update s.coRtns s.current { s.coRtns s.current with state := .ended }
      actCnt := s.actCnt - 1 }
    longjmp s (s.coRtns 0).buf (switchAndJump rs)

def coYield (s : Lib) (rs : List Nat) : Selecting Lib :=
  switchAndJump rs (setjmp s s.current .yield)

def coWait (s : Lib) (thd : Nat) (rs : List Nat) : Selecting Lib := do
  .lift (inBounds (thd < maxCo))
  let k : Cont := ⟨s.running, s.calls s.running, .wait thd⟩
  proceed (setjmp s s.current (.wait thd)) k (switchAndJump rs)

def step (s : Lib) : Event × List Nat → Selecting Lib
  | (.start, _) => .lift (coStart s)
  | (.yield, rs) => coYield s rs
  | (.wait thd, rs) => coWait s thd rs
  | (.ret, rs) => coEnd s rs

/-! Without the states these are the functions of the library. -/

theorem val_proceed {s : Lib} {k : Cont} {switch : Lib → Selecting Lib}
    {switch' : Lib → Except Fault Lib} (h : ∀ s, (switch s).val = switch' s) :
    (proceed s k switch).val = Libco.proceed s k switch' := by
  unfold proceed Libco.proceed
  cases k.site with
  | wait thd =>
    dsimp only
    rw [Traced.val_ite, h]
    rfl
  | start n => rfl
  | yield => rfl

theorem val_longjmp {s : Lib} {buf : Option Cont} {switch : Lib → Selecting Lib}
    {switch' : Lib → Except Fault Lib} (h : ∀ s, (switch s).val = switch' s) :
    (longjmp s buf switch).val = Libco.longjmp s buf switch' := by
  unfold longjmp Libco.longjmp
  split
  · rfl
  · rw [Traced.val_ite, val_proceed h]
    rfl

theorem val_switchAndJump (rs : List Nat) (s : Lib) :
    (switchAndJump rs s).val = Libco.switchAndJump rs s := by
  induction rs generalizing s with
  | nil => rfl
  | cons r rs ih =>
    rw [switchAndJump, Libco.switchAndJump, Traced.val_bind]
    show Libco.selectCo s r >>= _ = _
    congr 1
    funext m
    cases m with
    | none => rfl
    | some m =>
      dsimp only
      rw [Traced.val_ite, ih, val_longjmp ih]

theorem val_step (s : Lib) (e : Event × List Nat) : (step s e).val = Libco.step s e := by
  obtain ⟨e, rs⟩ := e
  cases e with
  | start => rfl
  | yield => exact val_switchAndJump rs _
  | wait thd =>
    show (coWait s thd rs).val = Libco.coWait s thd rs
    rw [coWait, Libco.coWait, Traced.val_bind, Traced.val_lift]
    congr 1
    funext _
    exact val_proceed (val_switchAndJump rs)
  | ret =>
    show (coEnd s rs).val = Libco.coEnd s rs
    rw [coEnd, Libco.coEnd, Traced.val_ite, val_longjmp (val_switchAndJump rs)]
    rfl

end Selecting

/-! ## The calls -/

section Calls

variable {s s' : Lib}

@[simp] theorem setjmp_state (s : Lib) (i j : Nat) (site : Site) :
    ((setjmp s i site).coRtns j).state = (s.coRtns j).state := by
  by_cases hj : j = i
  · subst hj
    simp [setjmp]
  · simp [setjmp, hj]

@[simp] theorem setjmp_id (s : Lib) (i j : Nat) (site : Site) :
    ((setjmp s i site).coRtns j).id = (s.coRtns j).id := by
  by_cases hj : j = i
  · subst hj
    simp [setjmp]
  · simp [setjmp, hj]

theorem state_update (f : Nat → Co) (i j : Nat) (c : Co) :
    (Function.update f i c j).state = Function.update (fun j => (f j).state) i c.state j := by
  by_cases hj : j = i
  · subst hj
    rw [Function.update_self, Function.update_self]
  · rw [Function.update_of_ne hj, Function.update_of_ne hj]

/-- What a returning `co_start` has done. -/
theorem coStart_eq (hs : coStart s = .ok s') :
    s.coCnt < maxCo ∧ s'.coCnt = s.coCnt + 1 ∧ s'.actCnt = s.actCnt + 1 ∧ s'.current = s.coCnt ∧
    s'.running = s.coCnt ∧ s'.started = s.started ∧
    s'.suspended = Function.update s.suspended s.running
      (some ⟨s.running, s.calls s.running, .start s.coCnt⟩) ∧
    s'.calls = Function.update s.calls s.running (s.calls s.running + 1) ∧
    (∀ j, (s'.coRtns j).state = if j = s.coCnt then .running else (s.coRtns j).state) ∧
    (∀ j, (s'.coRtns j).id = if j = s.coCnt then s.coCnt else (s.coRtns j).id) ∧
    ∀ j, (s'.coRtns j).buf = if j = 0 then some ⟨s.running, s.calls s.running, .start s.coCnt⟩
      else (s.coRtns j).buf := by
  obtain ⟨_, hn, hs⟩ := bind_eq_ok.mp hs
  rw [inBounds_eq_ok] at hn
  cases hs
  refine ⟨hn, rfl, rfl, rfl, rfl, rfl, rfl, rfl, fun j => ?_, fun j => ?_, fun j => ?_⟩
  · by_cases hj : j = s.coCnt
    · subst hj
      simp
    · rw [if_neg hj]
      simp only [Function.update_of_ne hj, setjmp_state]
  · by_cases hj : j = s.coCnt
    · subst hj
      simp
    · rw [if_neg hj]
      simp only [Function.update_of_ne hj, setjmp_id]
  · by_cases hj : j = s.coCnt
    · subst hj
      simp only [Function.update_self, setjmp]
      by_cases h0 : s.coCnt = 0
      · simp [h0]
      · simp [h0]
    · simp only [Function.update_of_ne hj, setjmp]
      by_cases h0 : j = 0
      · subst h0
        simp
      · simp [h0]

/-- The state in which a coroutine that has returned jumps. -/
def ending (s : Lib) : Lib :=
  { s with
    coRtns := Function.update s.coRtns s.current { s.coRtns s.current with state := .ended }
    actCnt := s.actCnt - 1 }

theorem ending_buf (s : Lib) (j : Nat) : ((ending s).coRtns j).buf = (s.coRtns j).buf := by
  by_cases hj : j = s.current
  · subst hj
    simp [ending]
  · simp [ending, hj]

theorem ending_state (s : Lib) (j : Nat) :
    ((ending s).coRtns j).state = if j = s.current then .ended else (s.coRtns j).state := by
  by_cases hj : j = s.current
  · subst hj
    simp [ending]
  · simp [ending, hj]

end Calls

/-! ## What the library keeps -/

/-- The state of the library: the counter is right, and a `RUNNING` entry other than the first
holds its own continuation, or one that was used. -/
structure Kept (s : Lib) : Prop where
  pos : 0 < s.coCnt
  current : s.current < s.coCnt
  unused : ∀ {j}, s.coCnt ≤ j →
    (s.coRtns j).state = .ended ∧ (s.coRtns j).buf = none ∧ s.suspended j = none
  main : (s.coRtns 0).state = .running
  act : s.actCnt = (runnable s).length
  called : ∀ {m k}, (s.coRtns m).buf = some k → k.call < s.calls k.owner
  slots : ∀ {m k}, m ≠ 0 → (s.coRtns m).state = .running → (s.coRtns m).buf = some k →
    s.suspended k.owner = some k → k.owner = m

/-- The state while code outside the library runs. A coroutine whose entry is not `current` came
back through the continuation in the first entry. -/
structure Runs (s : Lib) : Prop extends Kept s where
  awake : s.suspended s.running = none
  running : s.running < s.coCnt
  entry : s.current = s.running ∨ s.current = 0 ∨ (s.coRtns s.current).state = .ended
  own : s.running ≠ 0 → s.current = s.running ∧ (s.coRtns s.running).state = .running ∨
    ∃ k, (s.coRtns 0).buf = some k ∧ k.owner = s.running

namespace Kept

variable {s : Lib} {k : Cont} {rs : List Nat}

theorem act_pos (h : Kept s) : 0 < s.actCnt := by
  rw [h.act]
  exact List.length_pos_of_mem (mem_runnable.mpr ⟨h.pos, h.main⟩)

theorem setCurrent (h : Kept s) {m : Nat} (hm : m < s.coCnt) : Kept { s with current := m } :=
  ⟨h.pos, hm, h.unused, h.main, h.act, h.called, h.slots⟩

/-- A continuation is used. -/
theorem back (h : Kept s) (k : Cont) : Kept (back s k) where
  pos := h.pos
  current := h.current
  unused {j} hj := by
    obtain ⟨hstate, hbuf, hsusp⟩ := h.unused hj
    refine ⟨hstate, hbuf, ?_⟩
    show Function.update s.suspended k.owner none j = none
    rw [Function.update_apply]
    split_ifs
    · rfl
    · exact hsusp
  main := h.main
  act := h.act
  called := h.called
  slots {m k'} hm hstate hbuf hsusp := by
    have hsusp : Function.update s.suspended k.owner none k'.owner = some k' := hsusp
    by_cases hown : k'.owner = k.owner
    · rw [hown, Function.update_self] at hsusp
      cases hsusp
    · rw [Function.update_of_ne hown] at hsusp
      exact h.slots hm hstate hbuf hsusp

/-- The library returns to a coroutine, with `current` set or through the first entry. -/
theorem runs_back (h : Kept s) (hk : s.suspended k.owner = some k)
    (hentry : s.current = k.owner ∨ s.current = 0 ∨ (s.coRtns s.current).state = .ended)
    (hown : k.owner ≠ 0 → s.current = k.owner ∧ (s.coRtns k.owner).state = .running ∨
      ∃ k', (s.coRtns 0).buf = some k' ∧ k'.owner = k.owner) : Runs (Libco.back s k) where
  toKept := h.back k
  awake := Function.update_self ..
  running := by
    by_contra hge
    have hnone : s.suspended k.owner = none := (h.unused (not_lt.mp hge)).2.2
    rw [hk] at hnone
    cases hnone
  entry := hentry
  own := hown

/-- A switch calls `select_co` only in states in which the counter is right. -/
theorem switchAndJump (h : Kept s) (rs : List Nat) :
    (Selecting.switchAndJump rs s).Within Kept Runs := by
  induction rs generalizing s with
  | nil =>
    refine ⟨fun t ht => ?_, fun t ht => by cases ht⟩
    rw [List.mem_singleton.mp ht]
    exact h
  | cons r rs ih =>
    obtain ⟨m, hsel, hm, hrun⟩ := selectCo_ok h.act h.act_pos r
    have hcall : (Selecting.selectCo s r).Within Kept fun x => x = some m := by
      refine ⟨fun t ht => ?_, fun x hx => ?_⟩
      · rw [List.mem_singleton.mp ht]
        exact h
      · have hx : selectCo s r = .ok x := hx
        rw [hsel] at hx
        cases hx
        rfl
    refine hcall.bind fun x hx => ?_
    subst hx
    refine .ite (fun _ => ih h) fun _ => ?_
    have h' := h.setCurrent hm
    dsimp only
    cases hbuf : (s.coRtns m).buf with
    | none => exact .lift fun t ht => by cases ht
    | some k =>
      refine .ite (fun hk => ?_) fun _ => .lift fun t ht => by cases ht
      have hk : s.suspended k.owner = some k := hk
      have hruns : Runs (Libco.back { s with current := m } k) := by
        by_cases hm0 : m = 0
        · exact h'.runs_back hk (.inr (.inl hm0)) fun _ => .inr ⟨k, hm0 ▸ hbuf, rfl⟩
        · have hown := h.slots hm0 hrun hbuf hk
          exact h'.runs_back hk (.inl hown.symm) fun _ => .inl ⟨hown.symm, hown ▸ hrun⟩
      unfold Selecting.proceed
      cases k.site with
      | wait thd => exact .ite (fun _ => ih h') fun _ => .pure hruns
      | start n => exact .pure hruns
      | yield => exact .pure hruns

end Kept

namespace Runs

variable {s s' : Lib} {k : Cont} {m : Nat}

/-- A continuation that was stored before the coroutine that runs calls `setjmp` is not the
new one. -/
theorem stored_of_suspended (h : Runs s) (site : Site) (hbuf : (s.coRtns m).buf = some k)
    (hsusp : Function.update s.suspended s.running
      (some ⟨s.running, s.calls s.running, site⟩) k.owner = some k) :
    s.suspended k.owner = some k := by
  by_cases hown : k.owner = s.running
  · have hcall := h.called hbuf
    rw [hown, Function.update_self, Option.some.injEq] at hsusp
    rw [← hsusp] at hcall
    exact absurd hcall (lt_irrefl _)
  · rwa [Function.update_of_ne hown] at hsusp

theorem called_update (h : Runs s) {f : Nat → Nat}
    (hf : f = Function.update s.calls s.running (s.calls s.running + 1))
    (hbuf : (s.coRtns m).buf = some k) : k.call < f k.owner := by
  have hcall := h.called hbuf
  rw [hf, Function.update_apply]
  split
  next hown =>
    rw [hown] at hcall
    exact Nat.lt_succ_of_lt hcall
  next => exact hcall

theorem runnable_setjmp (s : Lib) (i : Nat) (site : Site) :
    runnable (setjmp s i site) = runnable s := by
  unfold runnable
  simp only [setjmp_state]
  rfl

/-- `co_yield` and `co_wait` store the coroutine that runs in the entry `current`. -/
theorem setjmp (h : Runs s) (site : Site) : Kept (setjmp s s.current site) where
  pos := h.pos
  current := h.current
  unused {j} hj := by
    obtain ⟨hstate, hbuf, hsusp⟩ := h.unused hj
    have hj : s.coCnt ≤ j := hj
    have hcur := h.current
    have hrun := h.running
    refine ⟨by rw [setjmp_state]; exact hstate, ?_, ?_⟩
    · simpa [Libco.setjmp, show j ≠ s.current by omega] using hbuf
    · simpa [Libco.setjmp, show j ≠ s.running by omega] using hsusp
  main := by
    rw [setjmp_state]
    exact h.main
  act := by
    rw [runnable_setjmp]
    exact h.act
  called {m k} hbuf := by
    by_cases hm : m = s.current
    · subst hm
      simp only [Libco.setjmp, Function.update_self, Option.some.injEq] at hbuf
      subst hbuf
      show s.calls s.running < Function.update s.calls s.running _ s.running
      rw [Function.update_self]
      exact Nat.lt_succ_self _
    · simp only [Libco.setjmp, Function.update_of_ne hm] at hbuf
      exact h.called_update rfl hbuf
  slots {m k} hm hstate hbuf hsusp := by
    rw [setjmp_state] at hstate
    by_cases hmc : m = s.current
    · -- an entry that is `RUNNING` is that of the coroutine itself
      subst hmc
      simp only [Libco.setjmp, Function.update_self, Option.some.injEq] at hbuf
      subst hbuf
      rcases h.entry with hentry | hentry | hentry
      · exact hentry.symm
      · exact absurd hentry hm
      · rw [hentry] at hstate
        cases hstate
    · simp only [Libco.setjmp, Function.update_of_ne hmc] at hbuf
      exact h.slots hm hstate hbuf (h.stored_of_suspended site hbuf hsusp)

theorem coStart (h : Runs s) (hs : coStart s = .ok s') : Runs s' := by
  obtain ⟨-, hcnt, hact, hcur, hrun, -, hsusp, hcalls, hstate, -, hbuf⟩ := coStart_eq hs
  have hpos := h.pos
  have hlt := h.running
  have hkept : Kept s' := by
    refine ⟨by omega, by omega, fun {j} hj => ?_, ?_, ?_, fun {m k} hm => ?_,
      fun {m k} hm hm' hk hk' => ?_⟩
    · obtain ⟨h1, h2, h3⟩ := h.unused (show s.coCnt ≤ j by omega)
      rw [hstate, hbuf, hsusp, if_neg (by omega), if_neg (by omega),
        Function.update_of_ne (by omega)]
      exact ⟨h1, h2, h3⟩
    · rw [hstate, if_neg (by omega)]
      exact h.main
    · have hsame : (List.range s.coCnt).filter (fun j => (s'.coRtns j).state = .running) =
          runnable s := by
        refine List.filter_congr fun j hj => ?_
        have := List.mem_range.mp hj
        rw [hstate, if_neg (by omega)]
      rw [hact, runnable, hcnt, List.range_succ, List.filter_append, hsame, List.length_append,
        h.act]
      simp [hstate]
    · rw [hbuf] at hm
      split at hm
      · cases hm
        rw [hcalls, Function.update_self]
        exact Nat.lt_succ_self _
      · exact h.called_update hcalls hm
    · rw [hbuf, if_neg hm] at hk
      rw [hstate] at hm'
      split at hm'
      next hmn =>
        rw [(h.unused hmn.ge).2.1] at hk
        cases hk
      next =>
        rw [hsusp] at hk'
        exact h.slots hm hm' hk (h.stored_of_suspended _ hk hk')
  refine ⟨hkept, ?_, by omega, .inl (hcur.trans hrun.symm),
    fun _ => .inl ⟨hcur.trans hrun.symm, ?_⟩⟩
  · rw [hrun, hsusp, Function.update_of_ne (by omega)]
    exact (h.unused le_rfl).2.2
  · rw [hrun, hstate, if_pos rfl]

/-- The end of a coroutine that is `current`. -/
theorem ending (h : Runs s) (hr : s.running ≠ 0) (hcur : s.current = s.running)
    (hstate : (s.coRtns s.running).state = .running) : Kept (ending s) where
  pos := h.pos
  current := h.current
  unused {j} hj := by
    obtain ⟨h1, h2, h3⟩ := h.unused hj
    refine ⟨?_, by rw [ending_buf]; exact h2, h3⟩
    rw [ending_state]
    split
    · rfl
    · exact h1
  main := by
    rw [ending_state, if_neg (by omega)]
    exact h.main
  act := by
    have hcount := Lib.countP_update (f := fun j => (s.coRtns j).state) List.nodup_range
      (List.mem_range.mpr h.running) .ended .running
    rw [if_pos hstate, if_neg (by decide)] at hcount
    have hact := h.act
    unfold runnable at hact ⊢
    rw [← List.countP_eq_length_filter] at hact ⊢
    show s.actCnt - 1 = _
    simp only [Libco.ending, state_update, hcur]
    show s.actCnt - 1 = (List.range s.coCnt).countP _
    omega
  called {m k} hbuf := by
    rw [ending_buf] at hbuf
    exact h.called hbuf
  slots {m k} hm hm' hbuf hsusp := by
    rw [ending_buf] at hbuf
    rw [ending_state] at hm'
    split at hm'
    · cases hm'
    · exact h.slots hm hm' hbuf hsusp

theorem coEnd (h : Runs s) (rs : List Nat) : (Selecting.coEnd s rs).Within Kept Runs := by
  refine .ite (fun _ => .lift fun t ht => by cases ht) fun hr => ?_
  show Traced.Within _ (Selecting.longjmp (Libco.ending s) ((Libco.ending s).coRtns 0).buf _) _
  rw [ending_buf]
  cases hbuf : (s.coRtns 0).buf with
  | none => exact .lift fun t ht => by cases ht
  | some k =>
    refine .ite (fun hk => ?_) fun _ => .lift fun t ht => by cases ht
    have hk : s.suspended k.owner = some k := hk
    rcases h.own hr with ⟨hcur, hstate⟩ | ⟨k', hbuf', hown⟩
    · have hkept := h.ending hr hcur hstate
      have hruns : Runs (back (Libco.ending s) k) := by
        refine hkept.runs_back hk (.inr (.inr ?_)) fun _ => .inr ⟨k, ?_, rfl⟩
        · show ((Libco.ending s).coRtns s.current).state = .ended
          rw [ending_state, if_pos rfl]
        · rw [ending_buf]
          exact hbuf
      unfold Selecting.proceed
      cases k.site with
      | wait thd => exact .ite (fun _ => hkept.switchAndJump rs) fun _ => .pure hruns
      | start n => exact .pure hruns
      | yield => exact .pure hruns
    · -- its own continuation, which was used when it came back
      rw [hbuf] at hbuf'
      cases hbuf'
      rw [hown, h.awake] at hk
      cases hk

theorem coWait (h : Runs s) (thd : Nat) (rs : List Nat) :
    (Selecting.coWait s thd rs).Within Kept Runs := by
  have hkept := h.setjmp (.wait thd)
  refine Traced.Within.bind (.lift fun _ _ => True.intro) fun _ _ => ?_
  refine .ite (fun _ => hkept.switchAndJump rs) fun _ => .pure ?_
  refine hkept.runs_back (Function.update_self ..) ?_ fun hr => ?_
  · rw [setjmp_state]
    exact h.entry
  · rw [setjmp_state]
    rcases h.own hr with hown | ⟨k', hbuf', hown⟩
    · exact .inl hown
    · right
      by_cases hcur : s.current = 0
      · exact ⟨_, by simp [Libco.setjmp, hcur], rfl⟩
      · exact ⟨k', by simpa [Libco.setjmp, Ne.symm hcur] using hbuf', hown⟩

theorem step (h : Runs s) (e : Event × List Nat) : (Selecting.step s e).Within Kept Runs := by
  obtain ⟨e, rs⟩ := e
  cases e with
  | start => exact .lift fun t ht => h.coStart ht
  | yield => exact (h.setjmp .yield).switchAndJump rs
  | wait thd => exact h.coWait thd rs
  | ret => exact h.coEnd rs

theorem coInit : Runs coInit where
  pos := Nat.one_pos
  current := Nat.one_pos
  unused {j} hj := by
    have hj : j ≠ 0 := Nat.one_le_iff_ne_zero.mp hj
    simp [Libco.coInit, hj]
  main := rfl
  act := rfl
  called {m k} hk := by
    by_cases hm : m = 0 <;> simp [Libco.coInit, hm] at hk
  slots {m k} hm hstate := by
    simp [Libco.coInit, hm] at hstate
  awake := rfl
  running := Nat.one_pos
  entry := .inl rfl
  own h := absurd rfl h

theorem run {es : List (Event × List Nat)} (hs : Runs s) (h : run Libco.step s es = .ok s') :
    Runs s' := by
  refine run_invariant (P := fun _ => True) (fun {t e t'} ht _ hstep => ?_) hs (fun _ _ => trivial)
    h
  rw [← Selecting.val_step] at hstep
  exact (ht.step e).2 t' hstep

end Runs

/-! ## Every selection -/

/-- The counter is the number of entries that are `RUNNING`; `select_co` returns one of them;
and each of them is the result for exactly one remainder of `rand`. -/
structure Exact (s : Lib) : Prop where
  act : s.actCnt = (List.range s.coCnt).countP fun j => (s.coRtns j).state = .running
  pos : 1 ≤ s.actCnt
  select : ∀ r, ∃ m, selectCo s r = .ok (some m) ∧ m < s.coCnt ∧ (s.coRtns m).state = .running
  bijective : Set.BijOn (selectLoop s (List.range s.coCnt)) (Set.Iio s.actCnt)
    (some '' {m | m < s.coCnt ∧ (s.coRtns m).state = .running})

theorem Kept.exact {s : Lib} (h : Kept s) : Exact s where
  act := by
    rw [List.countP_eq_length_filter]
    exact h.act
  pos := h.act_pos
  select := selectCo_ok h.act h.act_pos
  bijective := by
    have hset : {m | m < s.coCnt ∧ (s.coRtns m).state = .running} = {m | m ∈ runnable s} :=
      Set.ext fun m => mem_runnable.symm
    rw [hset, h.act]
    have hnd : (runnable s).Nodup := List.nodup_range.filter _
    exact (Lib.bijOn_getElem? hnd).congr fun n _ => (selectLoop_eq _ n).symm

/-- Whatever was started, waited for and returned from, and in whatever order, at every call
of `select_co` the counter is right and every runnable coroutine can be selected. -/
theorem selection_exact {es : List (Event × List Nat)} {s : Lib}
    (h : run step coInit es = .ok s) (e : Event × List Nat) :
    (Selecting.step s e).val = step s e ∧ ∀ t ∈ (Selecting.step s e).log, Exact t :=
  ⟨Selecting.val_step s e, fun t ht => (((Runs.coInit.run h).step e).1 t ht).exact⟩

/-- After a `co_start` two coroutines can be selected. -/
theorem selection_exact_two : ∃ s t, run step coInit [(.start, [])] = .ok s ∧
    (Selecting.step s (.yield, [0])).log = [t] ∧ t.actCnt = 2 ∧ Exact t := by
  obtain ⟨s, hs⟩ : ∃ s, run step coInit [(.start, [])] = .ok s := ⟨_, rfl⟩
  have hlog : (Selecting.step s (.yield, [0])).log = [setjmp s s.current .yield] := by
    cases hs
    rfl
  refine ⟨s, _, hs, hlog, by cases hs; rfl, (selection_exact hs (.yield, [0])).2 _ ?_⟩
  rw [hlog]
  exact List.mem_singleton_self _

end OsWorkbench.Libco
