import OsWorkbench.Libco.Select

/-!
# The exit of a switch

`SWICTH_AND_JMUP` draws until it gets a coroutine other than `current`. The entry of the main
flow is always `RUNNING`, so this can only go on for ever where `current` is that entry. In
`co_wait` the coroutine that is waited for is another one; `co_yield` hangs when no other one
is `RUNNING`.
-/

namespace OsWorkbench.Libco

/-- Some coroutine that is `RUNNING` has another `id` than `current`. -/
def Progress (s : Lib) : Prop :=
  ∃ m, m < s.coCnt ∧ (s.coRtns m).state = .running ∧ (s.coRtns m).id ≠ (s.coRtns s.current).id

/-- The entries have their numbers, and only coroutines that were started are waited for. -/
structure Labelled (s : Lib) : Prop where
  ids : ∀ j, j < s.coCnt → (s.coRtns j).id = j
  waits : ∀ m k thd, (s.coRtns m).buf = some k → k.site = .wait thd → 0 < thd ∧ thd < s.coCnt

/-- A coroutine is waited for with the handle that its `co_start` returned. -/
def Allowed (s : Lib) : Event × List Nat → Prop
  | (.wait thd, _) => 0 < thd ∧ thd < s.coCnt
  | _ => True

/-- The main flow, or what runs in its place, yields and no coroutine is left. -/
def Lonely (s : Lib) : Event × List Nat → Prop
  | (.yield, _) => s.current = 0 ∧ s.actCnt = 1
  | _ => False

section Switch

variable {s : Lib} {k : Cont} {rs : List Nat}

theorem Labelled.setCurrent (h : Labelled s) (m : Nat) : Labelled { s with current := m } :=
  ⟨h.ids, h.waits⟩

theorem Labelled.back (h : Labelled s) (k : Cont) : Labelled (back s k) := ⟨h.ids, h.waits⟩

/-- Away from the main flow there is its entry to go to. -/
theorem progress_of_current (hk : Kept s) (hl : Labelled s) (hc : s.current ≠ 0) : Progress s := by
  refine ⟨0, hk.pos, hk.main, ?_⟩
  rw [hl.ids 0 hk.pos, hl.ids s.current hk.current]
  exact hc.symm

/-- While something is waited for, there is that or the main flow. -/
theorem progress_of_wait (hk : Kept s) (hl : Labelled s) {thd : Nat}
    (hthd : 0 < thd ∧ thd < s.coCnt) (hrun : (s.coRtns thd).state ≠ .ended) : Progress s := by
  by_cases hc : s.current = 0
  · refine ⟨thd, hthd.2, ?_, ?_⟩
    · cases hs : (s.coRtns thd).state with
      | ended => exact absurd hs hrun
      | running => rfl
    · rw [hl.ids thd hthd.2, hc, hl.ids 0 hk.pos]
      exact hthd.1.ne'
  · exact progress_of_current hk hl hc

/-- An entry that is `RUNNING`, other than the main flow, is what the counter counts as the
second one. -/
theorem progress_iff (hk : Kept s) (hl : Labelled s) :
    Progress s ↔ ¬(s.current = 0 ∧ s.actCnt = 1) := by
  have hmain : 0 ∈ runnable s := mem_runnable.mpr ⟨hk.pos, hk.main⟩
  constructor
  · rintro ⟨m, hm, hrun, hne⟩ ⟨hc, hact⟩
    rw [hl.ids m hm, hc, hl.ids 0 hk.pos] at hne
    rw [hk.act] at hact
    obtain ⟨a, ha⟩ := List.length_eq_one_iff.mp hact
    have hm' : m ∈ runnable s := mem_runnable.mpr ⟨hm, hrun⟩
    rw [ha, List.mem_singleton] at hmain hm'
    exact hne (hm'.trans hmain.symm)
  · intro hnot
    by_cases hc : s.current = 0
    · by_contra hno
      refine hnot ⟨hc, ?_⟩
      have honly : ∀ m ∈ runnable s, m = 0 := by
        intro m hm
        obtain ⟨hlt, hrun⟩ := mem_runnable.mp hm
        by_contra hm0
        refine hno ⟨m, hlt, hrun, ?_⟩
        rw [hl.ids m hlt, hc, hl.ids 0 hk.pos]
        exact hm0
      have hnd : (runnable s).Nodup := List.nodup_range.filter _
      rw [hk.act]
      cases hr : runnable s with
      | nil =>
        rw [hr] at hmain
        cases hmain
      | cons a l =>
        rw [hr] at honly hnd
        cases l with
        | nil => rfl
        | cons b l =>
          have ha := honly a (by simp)
          have hb := honly b (by simp)
          exact absurd (ha.trans hb.symm) (List.pairwise_cons.mp hnd |>.1 b (by simp))
    · exact progress_of_current hk hl hc

/-- Every selection of a switch that is entered with an exit has one. -/
theorem switch_progress (hk : Kept s) (hl : Labelled s) (hp : Progress s) (rs : List Nat) :
    (Selecting.switchAndJump rs s).Within Progress Labelled := by
  induction rs generalizing s with
  | nil =>
    refine ⟨fun t ht => ?_, fun t ht => by cases ht⟩
    rw [List.mem_singleton.mp ht]
    exact hp
  | cons r rs ih =>
    obtain ⟨m, hsel, hm, hrun⟩ := selectCo_ok hk.act hk.act_pos r
    have hcall : (Selecting.selectCo s r).Within Progress fun x => x = some m := by
      refine ⟨fun t ht => ?_, fun x hx => ?_⟩
      · rw [List.mem_singleton.mp ht]
        exact hp
      · have hx : selectCo s r = .ok x := hx
        rw [hsel] at hx
        cases hx
        rfl
    refine hcall.bind fun x hx => ?_
    subst hx
    refine .ite (fun _ => ih hk hl hp) fun _ => ?_
    have hk' := hk.setCurrent hm
    have hl' := hl.setCurrent m
    dsimp only
    cases hbuf : (s.coRtns m).buf with
    | none => exact .lift fun t ht => by cases ht
    | some k =>
      refine .ite (fun _ => ?_) fun _ => .lift fun t ht => by cases ht
      unfold Selecting.proceed
      cases hsite : k.site with
      | wait thd =>
        refine .ite (fun hne => ih hk' hl' ?_) fun _ => .pure (hl'.back k)
        exact progress_of_wait hk' hl' (hl.waits m k thd hbuf hsite) hne
      | start n => exact .pure (hl'.back k)
      | yield => exact .pure (hl'.back k)

end Switch

/-! ## The calls -/

section Calls

variable {s s' : Lib}

/-- A `setjmp` of `co_yield`, or of a `co_wait` for a coroutine that was started. -/
theorem Labelled.setjmp (h : Labelled s) (i : Nat) (site : Site)
    (hsite : ∀ thd, site = .wait thd → 0 < thd ∧ thd < s.coCnt) : Labelled (setjmp s i site) := by
  refine ⟨fun j hj => ?_, fun m k thd hbuf hk => ?_⟩
  · rw [setjmp_id]
    exact h.ids j hj
  · by_cases hm : m = i
    · have hbuf' : some (⟨s.running, s.calls s.running, site⟩ : Cont) = some k := by
        rw [← hbuf, hm]
        show _ = (Function.update s.coRtns i _ i).buf
        rw [Function.update_self]
      cases hbuf'
      exact hsite thd hk
    · have hbuf' : (s.coRtns m).buf = some k := by
        rw [← hbuf]
        show _ = (Function.update s.coRtns i _ m).buf
        rw [Function.update_of_ne hm]
      exact h.waits m k thd hbuf' hk

theorem Labelled.coStart (h : Labelled s) (hs : coStart s = .ok s') : Labelled s' := by
  obtain ⟨-, hcnt, -, -, -, -, -, -, -, hids, hbufs⟩ := coStart_eq hs
  refine ⟨fun j hj => ?_, fun m k thd hbuf hk => ?_⟩
  · rw [hids]
    split
    · next he => exact he.symm
    · exact h.ids j (by omega)
  · rw [hbufs] at hbuf
    split at hbuf
    · cases hbuf
      cases hk
    · have := h.waits m k thd hbuf hk
      omega

theorem Labelled.ending (h : Labelled s) : Labelled (ending s) := by
  refine ⟨fun j hj => ?_, fun m k thd hbuf hk => h.waits m k thd (by rwa [ending_buf] at hbuf) hk⟩
  have hid : ((Libco.ending s).coRtns j).id = (s.coRtns j).id := by
    show (Function.update s.coRtns s.current _ j).id = _
    by_cases hj' : j = s.current
    · rw [hj', Function.update_self]
    · rw [Function.update_of_ne hj']
  rw [hid]
  exact h.ids j hj

/-- One step: every selection has an exit, unless the step is a lonely yield. -/
theorem step_progress (hr : Runs s) (hl : Labelled s) {e : Event × List Nat} (he : Allowed s e)
    (hlonely : ¬Lonely s e) : (Selecting.step s e).Within Progress Labelled := by
  obtain ⟨e, rs⟩ := e
  cases e with
  | start => exact .lift fun t ht => hl.coStart ht
  | yield =>
    have hk := hr.setjmp .yield
    have hl' := hl.setjmp s.current .yield fun thd h => by cases h
    exact switch_progress hk hl' ((progress_iff hk hl').mpr hlonely) rs
  | wait thd =>
    have hk := hr.setjmp (.wait thd)
    have hl' := hl.setjmp s.current (.wait thd) fun t h => by
      cases h
      exact he
    refine Traced.Within.bind (.lift fun _ _ => True.intro) fun _ _ => ?_
    refine .ite (fun hne => ?_) fun _ => .pure (hl'.back _)
    exact switch_progress hk hl' (progress_of_wait hk hl' he hne) rs
  | ret =>
    refine .ite (fun _ => .lift fun t ht => by cases ht) fun hne => ?_
    show Traced.Within _ (Selecting.longjmp (Libco.ending s) ((Libco.ending s).coRtns 0).buf _) _
    rw [ending_buf]
    cases hbuf : (s.coRtns 0).buf with
    | none => exact .lift fun t ht => by cases ht
    | some k =>
      refine .ite (fun hk => ?_) fun _ => .lift fun t ht => by cases ht
      have hk : s.suspended k.owner = some k := hk
      have hl' := hl.ending
      rcases hr.own hne with ⟨hcur, hstate⟩ | ⟨k', hbuf', hown⟩
      · have hkept := hr.ending hne hcur hstate
        have hc : (Libco.ending s).current ≠ 0 := fun h0 => hne (hcur.symm.trans h0)
        unfold Selecting.proceed
        cases k.site with
        | wait thd =>
          exact .ite (fun _ => switch_progress hkept hl' (progress_of_current hkept hl' hc) rs)
            fun _ => .pure (hl'.back k)
        | start n => exact .pure (hl'.back k)
        | yield => exact .pure (hl'.back k)
      · -- the continuation of the coroutine that ends, which was used
        rw [hbuf] at hbuf'
        cases hbuf'
        rw [hown, hr.awake] at hk
        cases hk

/-- With `current` the only entry that is `RUNNING`, every draw is `current` again. -/
theorem switch_hangs (hk : Kept s) (hl : Labelled s) (hno : ¬Progress s) (rs : List Nat) :
    switchAndJump rs s = .error .diverges := by
  induction rs with
  | nil => rfl
  | cons r rs ih =>
    obtain ⟨m, hsel, hm, hrun⟩ := selectCo_ok hk.act hk.act_pos r
    have hid : m = (s.coRtns s.current).id := by
      by_contra hne
      exact hno ⟨m, hm, hrun, by rwa [hl.ids m hm]⟩
    rw [switchAndJump, hsel, ok_bind]
    dsimp only
    rw [if_pos hid]
    exact ih

theorem lonely_hangs (hr : Runs s) (hl : Labelled s) {e : Event × List Nat} (he : Lonely s e) :
    step s e = .error .diverges ∧ ∃ t ∈ (Selecting.step s e).log, ¬Progress t := by
  obtain ⟨e, rs⟩ := e
  cases e with
  | yield =>
    have hk := hr.setjmp .yield
    have hl' := hl.setjmp s.current .yield fun thd h => by cases h
    have hno : ¬Progress (setjmp s s.current .yield) := fun hp => (progress_iff hk hl').mp hp he
    refine ⟨switch_hangs hk hl' hno rs, _, ?_, hno⟩
    show _ ∈ (Selecting.switchAndJump rs (Libco.setjmp s s.current .yield)).log
    cases rs with
    | nil => exact List.mem_singleton_self _
    | cons r rs => exact Traced.mem_log_bind (List.mem_singleton_self _)
  | start => cases he
  | wait thd => cases he
  | ret => cases he

end Calls

/-! ## Runs -/

/-- The states that a program reaches from `co_init`. -/
inductive Reached : Lib → Prop
  | init : Reached coInit
  | step {s s' : Lib} {e : Event × List Nat} :
      Reached s → Allowed s e → Libco.step s e = .ok s' → Reached s'

theorem Reached.runs {s : Lib} (h : Reached s) : Runs s := by
  induction h with
  | init => exact .coInit
  | step _ _ hs ih => exact (ih.step _).2 _ ((Selecting.val_step _ _).trans hs)

theorem Reached.labelled {s : Lib} (h : Reached s) : Labelled s := by
  induction h with
  | init =>
    refine ⟨fun j hj => ?_, fun m k thd hbuf => ?_⟩
    · have hj0 : j = 0 := by
        have : j < 1 := hj
        omega
      rw [hj0]
      rfl
    · have hnone : (coInit.coRtns m).buf = none := by
        show (if m = 0 then (⟨0, .running, none⟩ : Co) else ⟨0, .ended, none⟩).buf = none
        split <;> rfl
      rw [hnone] at hbuf
      cases hbuf
  | step hr he hs ih =>
    have hlonely : ¬Lonely _ _ := fun hl => by
      rw [(lonely_hangs hr.runs ih hl).1] at hs
      cases hs
    exact (step_progress hr.runs ih he hlonely).2 _ ((Selecting.val_step _ _).trans hs)

/-- In every state that a program reaches, every entry of a switch in the next step has an
exit, exactly if the step is not a yield of the only coroutine that is left; and that one
never returns. -/
theorem switch_exits {s : Lib} (h : Reached s) (e : Event × List Nat) (he : Allowed s e) :
    ((∀ t ∈ (Selecting.step s e).log, Progress t) ↔ ¬Lonely s e) ∧
      (Selecting.step s e).val = step s e ∧ (Lonely s e → step s e = .error .diverges) := by
  refine ⟨⟨fun hall hl => ?_, fun hl => (step_progress h.runs h.labelled he hl).1⟩,
    Selecting.val_step s e, fun hl => (lonely_hangs h.runs h.labelled hl).1⟩
  obtain ⟨t, ht, hno⟩ := (lonely_hangs h.runs h.labelled hl).2
  exact hno (hall t ht)

/-- After a `co_start` the coroutine that runs can yield to the main flow. -/
theorem switch_exits_two : ∃ s t, run step coInit [(.start, [])] = .ok s ∧
    (Selecting.step s (.yield, [0])).log = [t] ∧ Progress t := by
  obtain ⟨s, hs⟩ : ∃ s, step coInit (.start, []) = .ok s := ⟨_, rfl⟩
  have hreach : Reached s := .step .init (show Allowed coInit (.start, []) from trivial) hs
  have hcur : s.current = 1 := by
    cases hs
    rfl
  have hp := (switch_exits hreach (.yield, [0]) trivial).1.mpr fun hl => by
    have h0 : s.current = 0 := hl.1
    omega
  have hlog : (Selecting.step s (.yield, [0])).log = [setjmp s s.current .yield] := by
    cases hs
    rfl
  exact ⟨s, _, run_cons.mpr ⟨s, hs, rfl⟩, hlog, hp _ (hlog ▸ List.mem_singleton_self _)⟩

/-- The main flow yields before it has started anything. -/
theorem lonely_yield :
    (∃ t ∈ (Selecting.step coInit (.yield, [])).log, ¬Progress t) ∧
      ∀ rs, step coInit (.yield, rs) = .error .diverges := by
  have hl : ∀ rs, Lonely coInit (.yield, rs) := fun rs => ⟨rfl, rfl⟩
  exact ⟨(lonely_hangs .coInit Reached.init.labelled (hl [])).2,
    fun rs => (lonely_hangs .coInit Reached.init.labelled (hl rs)).1⟩

end OsWorkbench.Libco
