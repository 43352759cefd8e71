import OsWorkbench.Libco.Select

/-!
# Which coroutine runs

`Identity` is what the library needs: `current` is the coroutine whose code runs, and the
continuation in the `buf` of every other one that is `RUNNING` is where that one is
suspended.

Two calls break it. `co_start` saves its caller into `co_rtns[0].buf`, so a coroutine that
starts another one overwrites the continuation of the main flow. And the end of a coroutine
jumps to `co_rtns[0].buf` without setting `current`; that is repaired only if the main flow
is in the loop of a `co_wait` that goes on waiting. Without these two (`Careful`) the
property holds in every state, and a step that is one of them loses it at once.
-/

namespace OsWorkbench.Libco

/-- The coroutine `j` is suspended at the continuation in its `buf`. -/
def Saved (s : Lib) (j : Nat) : Prop :=
  ∃ k, (s.coRtns j).buf = some k ∧ s.suspended j = some k ∧ k.owner = j

structure Identity (s : Lib) : Prop where
  current : s.current = s.running
  saved : ∀ j, j ≠ s.running → (s.coRtns j).state = .running → Saved s j
  handle : ∀ n h, s.started = some (n, h) → h = n

/-- The main flow is in the `co_wait` for a coroutine other than the one that runs, which has
not ended. -/
def MainWaits (s : Lib) : Prop :=
  ∃ k thd, (s.coRtns 0).buf = some k ∧ k.site = .wait thd ∧
    (s.coRtns thd).state = .running ∧ thd ≠ s.running

/-- Only the main flow starts coroutines, and a coroutine returns only while the main flow goes
on waiting for another one. -/
def Careful (s : Lib) : Event × List Nat → Prop
  | (.start, _) => s.running = 0
  | (.ret, _) => MainWaits s
  | _ => True

/-! ## Inside the library -/

/-- The state in front of a switch: every coroutine that is `RUNNING` is saved. -/
structure Ready (s : Lib) : Prop where
  cnt_le : s.coCnt ≤ maxCo
  ids : ∀ j, j < s.coCnt → (s.coRtns j).id = j
  fresh : ∀ j, s.coCnt ≤ j → (s.coRtns j).state = .ended
  main : 0 < s.coCnt ∧ (s.coRtns 0).state = .running
  act : s.actCnt = (List.range s.coCnt).countP fun j => (s.coRtns j).state = .running
  saved : ∀ j, (s.coRtns j).state = .running → Saved s j
  starts : ∀ j k n, s.suspended j = some k → k.site = .start n → j = 0 ∧ n + 1 = s.coCnt
  handle : ∀ n h, s.started = some (n, h) → h = n

/-- The state while code outside the library runs. -/
structure Good (s : Lib) : Prop where
  cnt_le : s.coCnt ≤ maxCo
  ids : ∀ j, j < s.coCnt → (s.coRtns j).id = j
  fresh : ∀ j, s.coCnt ≤ j → (s.coRtns j).state = .ended
  main : 0 < s.coCnt ∧ (s.coRtns 0).state = .running
  act : s.actCnt = (List.range s.coCnt).countP fun j => (s.coRtns j).state = .running
  runs : (s.coRtns s.running).state = .running
  starts : ∀ j k n, s.suspended j = some k → k.site = .start n → j = 0 ∧ n + 1 = s.coCnt
  identity : Identity s

section Switch

variable {s s' : Lib} {r : Nat} {rs : List Nat}

/-- `select_co` returns a coroutine that is `RUNNING`. -/
theorem Ready.selectCo (h : Ready s) (r : Nat) :
    ∃ m, selectCo s r = .ok (some m) ∧ m < s.coCnt ∧ (s.coRtns m).state = .running := by
  have hact : s.actCnt = (runnable s).length := h.act.trans List.countP_eq_length_filter
  refine selectCo_ok hact ?_ r
  rw [hact]
  exact List.length_pos_of_mem (mem_runnable.mpr h.main)

/-- The library returns to the coroutine it has made `current`. -/
theorem Ready.back {k : Cont} (h : Ready s) (hrun : (s.coRtns s.current).state = .running)
    (hk : s.suspended s.current = some k) (hown : k.owner = s.current) : Good (back s k) where
  cnt_le := h.cnt_le
  ids := h.ids
  fresh := h.fresh
  main := h.main
  act := h.act
  runs := by
    show (s.coRtns k.owner).state = .running
    rw [hown]
    exact hrun
  starts := by
    intro j k' n hj hsite
    by_cases hjo : j = k.owner
    · subst hjo
      simp [Libco.back] at hj
    · rw [Libco.back] at hj
      simp only [Function.update_of_ne hjo] at hj
      exact h.starts j k' n hj hsite
  identity := by
    refine ⟨hown.symm, fun j hj hjr => ?_, fun n i hst => ?_⟩
    · obtain ⟨k', hbuf, hsusp, hown'⟩ := h.saved j hjr
      have hjo : j ≠ k.owner := hj
      exact ⟨k', hbuf, (Function.update_of_ne hjo _ _).trans hsusp, hown'⟩
    · -- a `co_start` that returns is the latest one
      unfold Libco.back at hst
      simp only at hst
      split at hst
      · next m hsite =>
        cases hst
        have := (h.starts _ _ _ hk hsite).2
        omega
      · exact h.handle n i hst

theorem Ready.setCurrent (h : Ready s) (m : Nat) : Ready { s with current := m } :=
  ⟨h.cnt_le, h.ids, h.fresh, h.main, h.act, h.saved, h.starts, h.handle⟩

/-- A switch goes on for ever, or it comes to a coroutine that runs as itself. -/
theorem Ready.switchAndJump (h : Ready s) (rs : List Nat) :
    switchAndJump rs s = .error .diverges ∨
      ∃ s', switchAndJump rs s = .ok s' ∧ Good s' := by
  induction rs generalizing s with
  | nil => exact .inl rfl
  | cons r rs ih =>
    obtain ⟨m, hsel, hm, hrun⟩ := h.selectCo r
    rw [Libco.switchAndJump, hsel, ok_bind]
    simp only
    split
    · exact ih h
    · obtain ⟨k, hbuf, hsusp, hown⟩ := h.saved m hrun
      have h' := h.setCurrent m
      have hgood : Good (Libco.back { s with current := m } k) := h'.back hrun hsusp hown
      rw [hbuf, longjmp, if_pos (by rw [hown]; exact hsusp), proceed]
      split
      · split
        · exact ih h'
        · exact .inr ⟨_, rfl, hgood⟩
      · exact .inr ⟨_, rfl, hgood⟩

end Switch

/-! ## The calls -/

section Calls

variable {s s' : Lib} {rs : List Nat}

/-- The coroutine that runs saves itself in its own `buf`. -/
theorem setjmp_saved_self (s : Lib) (site : Site) : Saved (setjmp s s.running site) s.running :=
  ⟨⟨s.running, s.calls s.running, site⟩, by simp [setjmp], by simp [setjmp], rfl⟩

theorem setjmp_saved {i j : Nat} (site : Site) (hi : j ≠ i) (hr : j ≠ s.running) (h : Saved s j) :
    Saved (setjmp s i site) j := by
  obtain ⟨k, hbuf, hsusp, hown⟩ := h
  exact ⟨k, by simpa [setjmp, hi] using hbuf, by simpa [setjmp, hr] using hsusp, hown⟩

/-- A `setjmp` of `co_yield` or `co_wait`. -/
theorem Good.setjmp (h : Good s) {site : Site} (hsite : ∀ n, site ≠ .start n) :
    Ready (setjmp s s.current site) where
  cnt_le := h.cnt_le
  ids j hj := by
    rw [setjmp_id]
    exact h.ids j hj
  fresh j hj := by
    rw [setjmp_state]
    exact h.fresh j hj
  main := ⟨h.main.1, by rw [setjmp_state]; exact h.main.2⟩
  act := by
    simp only [setjmp_state]
    exact h.act
  saved j hj := by
    rw [setjmp_state] at hj
    rw [h.identity.current]
    by_cases hjr : j = s.running
    · rw [hjr]
      exact setjmp_saved_self s site
    · exact setjmp_saved site hjr hjr (h.identity.saved j hjr hj)
  starts j k n hj hk := by
    by_cases hjr : j = s.running
    · subst hjr
      simp only [Libco.setjmp, Function.update_self, Option.some.injEq] at hj
      rw [← hj] at hk
      exact absurd hk (hsite n)
    · simp only [Libco.setjmp, Function.update_of_ne hjr] at hj
      exact h.starts j k n hj hk
  handle := h.identity.handle

theorem Good.coYield (h : Good s) (rs : List Nat) :
    coYield s rs = .error .diverges ∨ ∃ s', coYield s rs = .ok s' ∧ Good s' :=
  (h.setjmp fun _ => by simp).switchAndJump rs

theorem Good.coWait (h : Good s) {thd : Nat} (hthd : thd < maxCo) (rs : List Nat) :
    coWait s thd rs = .error .diverges ∨ ∃ s', coWait s thd rs = .ok s' ∧ Good s' := by
  have hready : Ready (Libco.setjmp s s.current (.wait thd)) := h.setjmp fun _ => by simp
  rw [Libco.coWait, inBounds_bind hthd]
  simp only [proceed]
  split
  · exact hready.switchAndJump rs
  · refine .inr ⟨_, rfl, hready.back ?_ ?_ h.identity.current.symm⟩
    · rw [setjmp_state]
      show (s.coRtns s.current).state = .running
      rw [h.identity.current]
      exact h.runs
    · show Function.update s.suspended s.running _ s.current = _
      rw [h.identity.current, Function.update_self]

/-- The coroutine that runs is one of those started. -/
theorem Good.running_lt (h : Good s) : s.running < s.coCnt := by
  by_contra hge
  have := h.fresh _ (not_lt.mp hge)
  rw [h.runs] at this
  cases this

theorem Good.coStart (h : Good s) (hmain : s.running = 0) (hs : coStart s = .ok s') : Good s' := by
  obtain ⟨hn, hcnt, hact, hcur, hrun, hst, hsusp, -, hstate, hid, hbuf⟩ := coStart_eq hs
  have hpos := h.main.1
  constructor
  · rw [hcnt]
    exact hn
  · intro j hj
    rw [hid]
    split
    · next hjn => exact hjn.symm
    · exact h.ids j (by omega)
  · intro j hj
    rw [hstate, if_neg (by omega)]
    exact h.fresh j (by omega)
  · rw [hstate, if_neg (by omega)]
    exact ⟨by omega, h.main.2⟩
  · have hsame : ∀ j ∈ List.range s.coCnt,
        (decide ((s'.coRtns j).state = .running) = true ↔
          decide ((s.coRtns j).state = .running) = true) := by
      intro j hj
      have := List.mem_range.mp hj
      rw [hstate, if_neg (by omega)]
    rw [hact, hcnt, List.range_succ, List.countP_append, List.countP_congr hsame, h.act]
    simp [hstate]
  · rw [hrun, hstate, if_pos rfl]
  · -- only the main flow is ever suspended in `co_start`
    intro j k n hj hsite
    rw [hsusp, hmain] at hj
    by_cases h0 : j = 0
    · subst h0
      rw [Function.update_self, Option.some.injEq] at hj
      rw [← hj] at hsite
      cases hsite
      exact ⟨rfl, hcnt.symm⟩
    · rw [Function.update_of_ne h0] at hj
      exact absurd (h.starts j k n hj hsite).1 h0
  · refine ⟨hcur.trans hrun.symm, fun j hj hjr => ?_, fun n i hni => ?_⟩
    · rw [hrun] at hj
      rw [hstate, if_neg hj] at hjr
      by_cases h0 : j = 0
      · subst h0
        refine ⟨⟨s.running, s.calls s.running, .start s.coCnt⟩, by rw [hbuf, if_pos rfl], ?_, hmain⟩
        rw [hsusp, hmain, Function.update_self]
      · obtain ⟨k, hk, hks, hown⟩ := h.identity.saved j (by rw [hmain]; exact h0) hjr
        refine ⟨k, by rw [hbuf, if_neg h0]; exact hk, ?_, hown⟩
        rw [hsusp, hmain, Function.update_of_ne h0]
        exact hks
    · rw [hst] at hni
      exact h.identity.handle n i hni

theorem Good.ending (h : Good s) (hr : s.running ≠ 0) : Ready (ending s) := by
  have hcur := h.identity.current
  constructor
  · exact h.cnt_le
  · intro j hj
    by_cases hjc : j = s.current
    · subst hjc
      simpa [Libco.ending] using h.ids _ hj
    · simpa [Libco.ending, hjc] using h.ids _ hj
  · intro j hj
    rw [ending_state]
    split
    · rfl
    · exact h.fresh j hj
  · rw [ending_state, if_neg (by omega)]
    exact h.main
  · have hmem : s.running ∈ List.range s.coCnt := List.mem_range.mpr h.running_lt
    have hcnt := Lib.countP_update (f := fun j => (s.coRtns j).state) (List.nodup_range)
      hmem .ended .running
    rw [if_pos h.runs, if_neg (by decide)] at hcnt
    have hact := h.act
    show s.actCnt - 1 = _
    simp only [Libco.ending, state_update, hcur]
    show s.actCnt - 1 = (List.range s.coCnt).countP _
    omega
  · intro j hj
    rw [ending_state] at hj
    split at hj
    · cases hj
    · next hjc =>
      obtain ⟨k, hk, hks, hown⟩ := h.identity.saved j (hcur ▸ hjc) hj
      exact ⟨k, by rw [ending_buf]; exact hk, hks, hown⟩
  · exact h.starts
  · exact h.identity.handle

/-- The end of a coroutine resumes the main flow where it is suspended. -/
theorem Good.coEnd_eq (h : Good s) (hr : s.running ≠ 0) (rs : List Nat) :
    ∃ k, (s.coRtns 0).buf = some k ∧ k.owner = 0 ∧
      coEnd s rs = proceed (Libco.ending s) k (switchAndJump rs) := by
  obtain ⟨k, hbuf, hsusp, hown⟩ := h.identity.saved 0 (Ne.symm hr) h.main.2
  refine ⟨k, hbuf, hown, ?_⟩
  rw [coEnd, if_neg hr]
  show longjmp (Libco.ending s) ((Libco.ending s).coRtns 0).buf _ = _
  rw [ending_buf, hbuf, longjmp, if_pos (by rw [hown]; exact hsusp)]

theorem Good.coEnd (h : Good s) (hw : MainWaits s) (hr : s.running ≠ 0) (rs : List Nat) :
    coEnd s rs = .error .diverges ∨ ∃ s', coEnd s rs = .ok s' ∧ Good s' := by
  obtain ⟨k, hbuf, -, heq⟩ := h.coEnd_eq hr rs
  obtain ⟨k', thd, hbuf', hsite, hthd, hne⟩ := hw
  rw [hbuf] at hbuf'
  cases hbuf'
  have hstate : ((Libco.ending s).coRtns thd).state ≠ .ended := by
    rw [ending_state, if_neg (by rw [h.identity.current]; exact hne), hthd]
    decide
  rw [heq, proceed, hsite]
  simp only
  rw [if_pos hstate]
  exact (h.ending hr).switchAndJump rs

end Calls

/-! ## Runs -/

theorem coInit_good : Good coInit where
  cnt_le := by decide
  ids j hj := by
    obtain rfl : j = 0 := Nat.lt_one_iff.mp hj
    rfl
  fresh j hj := by
    have hj : 1 ≤ j := hj
    simp [coInit, show j ≠ 0 by omega]
  main := ⟨Nat.one_pos, rfl⟩
  act := rfl
  runs := rfl
  starts j k n hj _ := by cases hj
  identity := by
    refine ⟨rfl, fun j hj hjr => ?_, fun n h hst => by cases hst⟩
    have hj : j ≠ 0 := hj
    simp [coInit, hj] at hjr

/-- A careful step ends in a state like the one it started from. -/
theorem Good.step {s s' : Lib} {e : Event × List Nat} (h : Good s) (hc : Careful s e)
    (hs : step s e = .ok s') : Good s' := by
  have hdone : ∀ x : Except Fault Lib, (x = .error .diverges ∨ ∃ t, x = .ok t ∧ Good t) →
      x = .ok s' → Good s' := by
    rintro x (hx | ⟨t, hx, ht⟩) hs'
    · rw [hx] at hs'
      cases hs'
    · rw [hx] at hs'
      cases hs'
      exact ht
  obtain ⟨e, rs⟩ := e
  cases e with
  | start => exact h.coStart hc hs
  | yield => exact hdone _ (h.coYield rs) hs
  | wait thd =>
    obtain ⟨_, hthd, -⟩ := bind_eq_ok.mp hs
    exact hdone _ (h.coWait (inBounds_eq_ok.mp hthd) rs) hs
  | ret =>
    have hr : s.running ≠ 0 := by
      intro h0
      simp [Libco.step, Libco.coEnd, h0] at hs
    exact hdone _ (h.coEnd hc hr rs) hs

/-- The other steps lose the identity. -/
theorem Good.careful {s s' : Lib} {e : Event × List Nat} (h : Good s)
    (hs : Libco.step s e = .ok s') (hi : Identity s') : Careful s e := by
  obtain ⟨e, rs⟩ := e
  cases e with
  | yield => trivial
  | wait thd => trivial
  | start =>
    -- the continuation of the main flow is the caller's
    obtain ⟨-, -, -, -, hrun, -, -, -, hstate, -, hbuf⟩ := coStart_eq hs
    have hpos := h.main.1
    obtain ⟨k, hk, -, hown⟩ := hi.saved 0 (by omega) (by
      rw [hstate, if_neg (by omega)]
      exact h.main.2)
    rw [hbuf, if_pos rfl] at hk
    cases hk
    exact hown
  | ret =>
    -- unless the main flow waits, its code runs while `current` is the coroutine that ended
    have hr : s.running ≠ 0 := by
      intro h0
      have hs : Libco.coEnd s rs = .ok s' := hs
      rw [Libco.coEnd, if_pos h0] at hs
      cases hs
    obtain ⟨k, hbuf, hown, heq⟩ := h.coEnd_eq hr rs
    have hback : back (Libco.ending s) k ≠ s' := by
      rintro rfl
      have : s.current = k.owner := hi.current
      rw [hown, h.identity.current] at this
      exact hr this
    have hs : Libco.coEnd s rs = .ok s' := hs
    rw [heq, proceed] at hs
    split at hs
    · next thd hsite =>
      split at hs
      · next hstate =>
        rw [ending_state] at hstate
        split at hstate
        · exact absurd rfl hstate
        · next hne =>
          refine ⟨k, thd, hbuf, hsite, ?_, by rw [← h.identity.current]; exact hne⟩
          cases hst : (s.coRtns thd).state with
          | ended => exact absurd hst hstate
          | running => rfl
      · exact absurd (Except.ok.inj hs) hback
    · exact absurd (Except.ok.inj hs) hback

/-- The states that careful steps reach from `co_init`. -/
inductive Reach : Lib → Prop
  | init : Reach coInit
  | step {s s' : Lib} {e : Event × List Nat} :
      Reach s → Careful s e → step s e = .ok s' → Reach s'

theorem Reach.good {s : Lib} (h : Reach s) : Good s := by
  induction h with
  | init => exact coInit_good
  | step _ hc hs ih => exact ih.step hc hs

/-- In every state that careful steps reach, the coroutine whose code runs is `current`, the
others are saved in their own `buf`, and every `co_start` has returned the handle of what it
started. A further step keeps this exactly if it is careful. -/
theorem careful_identity {s : Lib} (h : Reach s) :
    Identity s ∧ ∀ e s', step s e = .ok s' → (Identity s' ↔ Careful s e) :=
  ⟨h.good.identity, fun _ _ hs =>
    ⟨fun hi => h.good.careful hs hi, fun hc => (h.good.step hc hs).identity⟩⟩

/-- A coroutine that yields. -/
theorem careful_identity_one_yield :
    ∃ s, run step coInit [(.start, []), (.yield, [0])] = .ok s ∧ s.started = some (1, 1) ∧
      Identity s := by
  obtain ⟨s, hs, ht⟩ := exists_of_test (f := fun s => s.started == some (1, 1))
    (x := run step coInit [(.start, []), (.yield, [0])]) (by decide +kernel)
  obtain ⟨s₁, hs₁, hr⟩ := run_cons.mp hs
  obtain ⟨s₂, hs₂, hr⟩ := run_cons.mp hr
  cases hr
  have h₁ : Reach s₁ := .step .init (show Careful coInit (.start, []) from rfl) hs₁
  have h₂ : Reach s := .step h₁ (show Careful s₁ (.yield, [0]) from trivial) hs₂
  exact ⟨s, hs, beq_iff_eq.mp ht, (careful_identity h₂).1⟩

/-- A coroutine that returns at once leaves `current` behind; one that starts another one
overwrites the continuation of the main flow. -/
theorem identity_lost :
    (∃ s, run step coInit [(.start, []), (.ret, [])] = .ok s ∧ s.running = 0 ∧ s.current = 1 ∧
      ¬Identity s) ∧
    ∃ s k, run step coInit [(.start, []), (.start, [])] = .ok s ∧ s.running = 2 ∧
      (s.coRtns 0).state = .running ∧ (s.coRtns 0).buf = some k ∧ k.owner = 1 ∧ ¬Identity s := by
  constructor
  · obtain ⟨s, hs, ht⟩ := exists_of_test (f := fun s => s.running == 0 && s.current == 1)
      (x := run step coInit [(.start, []), (.ret, [])]) (by decide +kernel)
    simp only [Bool.and_eq_true, beq_iff_eq] at ht
    refine ⟨s, hs, ht.1, ht.2, fun hi => ?_⟩
    have := hi.current
    omega
  · obtain ⟨s, hs, ht⟩ := exists_of_test (f := fun s => s.running == 2 &&
        (s.coRtns 0).state == .running && (s.coRtns 0).buf == some ⟨1, 0, .start 2⟩)
      (x := run step coInit [(.start, []), (.start, [])]) (by decide +kernel)
    simp only [Bool.and_eq_true, beq_iff_eq] at ht
    obtain ⟨⟨hrun, hstate⟩, hbuf⟩ := ht
    refine ⟨s, _, hs, hrun, hstate, hbuf, rfl, fun hi => ?_⟩
    obtain ⟨k, hk, -, hown⟩ := hi.saved 0 (by omega) hstate
    rw [hbuf] at hk
    cases hk
    cases hown

end OsWorkbench.Libco
