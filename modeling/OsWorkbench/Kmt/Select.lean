import OsWorkbench.Kmt.Sched

/-!
# The scheduler finds a task

`kmt_init` creates as many wait tasks as there are CPUs, and they never block. On a
trap at most all but one of them can be running on the other CPUs, so that one is
left to select.
-/

namespace OsWorkbench.Kmt

variable {T S : Type} {k k' k₀ : Kernel T S}

/-! ## The selection loop -/

/-- `select` returns the first selectable index after `idx` in cyclic order. -/
theorem select_first {n idx j : Nat} (hj : 1 ≤ j) (hn : j ≤ n)
    (hs : Selectable k ((idx + j) % k.tasksSize))
    (hfirst : ∀ i, 1 ≤ i → i < j → ¬Selectable k ((idx + i) % k.tasksSize)) :
    select k n idx = .ok ((idx + j) % k.tasksSize) := by
  induction n generalizing idx j with
  | zero => omega
  | succ n ih =>
    unfold select
    dsimp only
    by_cases h1 : j = 1
    · subst h1
      rw [if_pos hs]
    · rw [if_neg (hfirst 1 le_rfl (by omega))]
      have hshift (i : Nat) : ((idx + 1) % k.tasksSize + i) % k.tasksSize =
          (idx + (i + 1)) % k.tasksSize := by
        rw [Nat.mod_add_mod, Nat.add_assoc, Nat.add_comm 1 i]
      obtain ⟨j, rfl⟩ : ∃ i, j = i + 1 := ⟨j - 1, by omega⟩
      rw [ih (j := j) (by omega) (by omega) (by rwa [hshift]) fun i hi hij => ?_, hshift]
      rw [hshift]
      exact hfirst (i + 1) (by omega) (by omega)

/-- Some index below `size` is reached from any start within `size` steps. -/
theorem exists_offset {size i : Nat} (start : Nat) (hi : i < size) :
    ∃ j, 1 ≤ j ∧ j ≤ size ∧ (start + j) % size = i := by
  have hlt : start % size < size := Nat.mod_lt _ (by omega)
  by_cases hle : start % size < i
  · refine ⟨i - start % size, by omega, by omega, ?_⟩
    rw [← Nat.mod_add_mod, Nat.add_sub_cancel' hle.le, Nat.mod_eq_of_lt hi]
  · refine ⟨i + size - start % size, by omega, by omega, ?_⟩
    rw [← Nat.mod_add_mod, Nat.add_sub_cancel' (by omega), Nat.add_mod_right,
      Nat.mod_eq_of_lt hi]

/-- The result of the selection loop from `start`: it ends within `tasks_size`
iterations at the first selectable entry in cyclic order. -/
def Selects (k : Kernel T S) (start i : Nat) : Prop :=
  select k k.tasksSize start = .ok i ∧ Selectable k i ∧
    ∃ j, 1 ≤ j ∧ j ≤ k.tasksSize ∧ i = (start + j) % k.tasksSize ∧
      ∀ l, 1 ≤ l → l < j → ¬Selectable k ((start + l) % k.tasksSize)

theorem exists_selects {i : Nat} (start : Nat) (hi : i < k.tasksSize) (hs : Selectable k i) :
    ∃ i, Selects k start i := by
  classical
  have hex : ∃ j, 1 ≤ j ∧ j ≤ k.tasksSize ∧ Selectable k ((start + j) % k.tasksSize) := by
    obtain ⟨j, h1, h2, h3⟩ := exists_offset start hi
    exact ⟨j, h1, h2, h3.symm ▸ hs⟩
  obtain ⟨h1, h2, h3⟩ := Nat.find_spec hex
  have hfirst (l : Nat) (hl : 1 ≤ l) (hlt : l < Nat.find hex) :
      ¬Selectable k ((start + l) % k.tasksSize) := fun h =>
    Nat.find_min hex hlt ⟨hl, by omega, h⟩
  exact ⟨_, select_first h1 h2 h3 hfirst, h3, _, h1, h2, rfl, hfirst⟩

/-! ## The table -/

theorem getTasksIdx_spec :
    getTasksIdx k = k.tasksSize ∨
    (getTasksIdx k < k.tasksSize ∧ k.tasks (getTasksIdx k) = none) := by
  have hfold (l : List Nat) (hl : ∀ i ∈ l, i < k.tasksSize) (r : Nat)
      (hr : r = k.tasksSize ∨ (r < k.tasksSize ∧ k.tasks r = none)) :
      l.foldl (fun ret i => if (k.tasks i).isNone then i else ret) r = k.tasksSize ∨
        (l.foldl (fun ret i => if (k.tasks i).isNone then i else ret) r < k.tasksSize ∧
          k.tasks (l.foldl (fun ret i => if (k.tasks i).isNone then i else ret) r) = none) := by
    induction l generalizing r with
    | nil => exact hr
    | cons i l ih =>
      refine ih (fun j hj => hl j (List.mem_cons_of_mem i hj)) _ ?_
      dsimp only
      split
      · next hnone => exact .inr ⟨hl i List.mem_cons_self, Option.isNone_iff_eq_none.mp hnone⟩
      · exact hr
  exact hfold _ (fun i hi => List.mem_range.mp hi) _ (.inl rfl)

variable [DecidableEq T]

/-- `kmt_create` puts the task into a free entry. -/
theorem create_cases {t : T} (h : create k t = .ok k') :
    ∃ i, i < maxTask ∧ (i = k.tasksSize ∨ (i < k.tasksSize ∧ k.tasks i = none)) ∧
      k'.tasks = Function.update k.tasks i (some t) ∧
      k'.idx = Function.update k.idx t i ∧
      k'.state = Function.update k.state t .started ∧
      k'.current = k.current ∧ k'.sem = k.sem ∧
      k'.tasksSize = (if i = k.tasksSize then k.tasksSize + 1 else k.tasksSize) := by
  unfold create tasksInsert at h
  obtain ⟨_, hb, h⟩ := bind_eq_ok.mp h
  cases h
  exact ⟨getTasksIdx k, inBounds_eq_ok.mp hb, getTasksIdx_spec, rfl, rfl, rfl, rfl, rfl, rfl⟩

/-! ## The invariant -/

/-- The wait tasks `ws` are in the table, they do not block, and one that is
running is the current task of one of the `n` CPUs. -/
structure Served (ws : List T) (n : Nat) (k : Kernel T S) : Prop where
  table : ∀ i t, k.tasks i = some t → k.idx t = i ∧ i < k.tasksSize
  entry : ∀ w ∈ ws, k.tasks (k.idx w) = some w
  awake : ∀ w ∈ ws, k.state w = .started ∨ k.state w = .runnable ∨
    (k.state w = .running ∧ ∃ c, c < n ∧ k.current c = some w)
  queue : ∀ s i, ∀ w ∈ ws, (k.sem s).que i ≠ some w

namespace Served

variable {ws : List T} {n : Nat}

omit [DecidableEq T] in
/-- A task that has just been created is one more wait task. -/
theorem add {t : T} (h : Served ws n k) (hentry : k.tasks (k.idx t) = some t)
    (hstate : k.state t = .started) (hq : ∀ s i, (k.sem s).que i ≠ some t) :
    Served (ws ++ [t]) n k where
  table := h.table
  entry w hw := by
    rcases List.mem_append.mp hw with hw | hw
    · exact h.entry w hw
    · rwa [List.mem_singleton.mp hw]
  awake w hw := by
    rcases List.mem_append.mp hw with hw | hw
    · exact h.awake w hw
    · rw [List.mem_singleton.mp hw]
      exact .inl hstate
  queue s i w hw := by
    rcases List.mem_append.mp hw with hw | hw
    · exact h.queue s i w hw
    · rw [List.mem_singleton.mp hw]
      exact hq s i

theorem create {t : T} (h : Served ws n k) (hws : t ∉ ws) (hlive : ∀ i, k.tasks i ≠ some t)
    (hs : Kmt.create k t = .ok k') : Served ws n k' := by
  obtain ⟨i, -, hi, htasks, hidx, hstate, hcur, hsem, hsize⟩ := create_cases hs
  have hfree : k.tasks i = none := by
    rcases hi with rfl | ⟨-, hnone⟩
    · cases hcase : k.tasks k.tasksSize with
      | none => rfl
      | some u => exact absurd (h.table _ u hcase).2 (lt_irrefl _)
    · exact hnone
  have hkeep (w : T) (hw : w ∈ ws) : w ≠ t ∧ k.idx w ≠ i := by
    refine ⟨fun he => hws (he ▸ hw), fun he => ?_⟩
    have hentry := h.entry w hw
    rw [he, hfree] at hentry
    cases hentry
  refine ⟨fun j u hu => ?_, fun w hw => ?_, fun w hw => ?_, fun s j w hw => ?_⟩
  · rw [htasks] at hu
    by_cases hj : j = i
    · subst hj
      rw [Function.update_self] at hu
      cases hu
      rw [hidx, Function.update_self, hsize]
      refine ⟨rfl, ?_⟩
      split <;> omega
    · rw [Function.update_of_ne hj] at hu
      have hut : u ≠ t := fun he => hlive j (he ▸ hu)
      rw [hidx, Function.update_of_ne hut, hsize]
      obtain ⟨h1, h2⟩ := h.table j u hu
      refine ⟨h1, ?_⟩
      split <;> omega
  · obtain ⟨hwt, hwi⟩ := hkeep w hw
    rw [htasks, hidx, Function.update_of_ne hwt, Function.update_of_ne hwi]
    exact h.entry w hw
  · rw [hstate, hcur, Function.update_of_ne (hkeep w hw).1]
    exact h.awake w hw
  · rw [hsem]
    exact h.queue s j w hw

omit [DecidableEq T] in
theorem teardown {t : T} {i : Nat} (h : Served ws n k) (hws : t ∉ ws) (hi : k.tasks i = some t)
    (hs : Kmt.teardown k t = .ok k') : Served ws n k' := by
  unfold Kmt.teardown tasksRemove at hs
  obtain ⟨-, -, hs⟩ := bind_eq_ok.mp hs
  cases hs
  have hidx := (h.table i t hi).1
  refine ⟨fun j u hu => ?_, fun w hw => ?_, h.awake, h.queue⟩
  · dsimp only at hu
    by_cases hj : j = k.idx t
    · rw [hj, Function.update_self] at hu
      cases hu
    · rw [Function.update_of_ne hj] at hu
      exact h.table j u hu
  · have hwi : k.idx w ≠ k.idx t := fun he => by
      have hentry := h.entry w hw
      rw [he, hidx, hi] at hentry
      exact hws (Option.some.inj hentry ▸ hw)
    dsimp only
    rw [Function.update_of_ne hwi]
    exact h.entry w hw

omit [DecidableEq T] in
/-- Before the wait tasks are created. -/
theorem boot (value : S → Int) : Served [] n (Kmt.boot value : Kernel T S) where
  table i t h := by cases h
  entry w hw := by cases hw
  awake w hw := by cases hw
  queue s i w hw := by cases hw

/-- `kmt_create_wait`. -/
theorem createWait {value : S → Int} (hnodup : ws.Nodup)
    (h : Kmt.createWait (Kmt.boot value) ws = .ok k) : Served ws n k := by
  have hall : Served ws n k ∧ (∀ i t, k.tasks i = some t → t ∈ ws) ∧
      ∀ s i, (k.sem s).que i = none := by
    unfold Kmt.createWait at h
    induction ws using List.reverseRecOn generalizing k with
    | nil =>
      cases h
      refine ⟨boot value, fun i t h => ?_, fun _ _ => rfl⟩
      cases h
    | append_singleton ws t ih =>
      obtain ⟨m, hm, hstep⟩ := run_append.mp h
      obtain ⟨k₁, hcreate, hk₁⟩ := run_cons.mp hstep
      cases hk₁
      obtain ⟨hnodup, -, hdisj⟩ := List.nodup_append.mp hnodup
      obtain ⟨hserved, honly, hque⟩ := ih hnodup hm
      have hws : t ∉ ws := fun hw => hdisj t hw t (by simp) rfl
      obtain ⟨i, -, -, htasks, hidx, hstate, -, hsem, -⟩ := create_cases hcreate
      refine ⟨?_, fun j u hu => ?_, fun s j => by rw [hsem]; exact hque s j⟩
      · refine (hserved.create hws (fun j hj => hws (honly j t hj)) hcreate).add ?_ ?_
          fun s j => ?_
        · rw [htasks, hidx, Function.update_self, Function.update_self]
        · rw [hstate, Function.update_self]
        · rw [hsem, hque s j]
          exact (Option.some_ne_none t).symm
      · rw [htasks] at hu
        by_cases hj : j = i
        · rw [hj, Function.update_self] at hu
          cases hu
          simp
        · rw [Function.update_of_ne hj] at hu
          exact List.mem_append_left _ (honly j u hu)
  exact hall.1

/-- The pigeonhole: the wait tasks that run elsewhere are on the other CPUs. -/
theorem exists_selectable {c : Nat} (h : Served ws n k) (hn : ws.length = n) (hnodup : ws.Nodup)
    (hc : c < n) : ∃ i, i < (saveCurrent k c).tasksSize ∧ Selectable (saveCurrent k c) i := by
  have hframe : (saveCurrent k c).tasks = k.tasks ∧ (saveCurrent k c).tasksSize = k.tasksSize := by
    unfold saveCurrent
    split <;> exact ⟨rfl, rfl⟩
  by_contra hnone
  push Not at hnone
  have hrun (w : T) (hw : w ∈ ws) : some w ∈ ((Finset.range n).erase c).image k.current := by
    have hnot : ¬((saveCurrent k c).state w = .started ∨
        (saveCurrent k c).state w = .runnable) := fun hst =>
      hnone (k.idx w) (hframe.2 ▸ (h.table _ w (h.entry w hw)).2)
        ⟨w, hframe.1 ▸ h.entry w hw, hst⟩
    rcases saveCurrent_state (k := k) (c := c) (u := w) with hsame | ⟨-, -, hput⟩
    · rw [hsame] at hnot
      rcases h.awake w hw with hst | hst | ⟨hst, d, hd, hcur⟩
      · exact absurd (.inl hst) hnot
      · exact absurd (.inr hst) hnot
      · refine Finset.mem_image.mpr ⟨d, Finset.mem_erase.mpr ⟨?_, Finset.mem_range.mpr hd⟩, hcur⟩
        rintro rfl
        -- a current task that was running has been put back
        unfold saveCurrent at hsame
        simp only [hcur, hst, if_true, Function.update_self] at hsame
        cases hsame
    · exact absurd (.inr hput) hnot
  have hsub :
      ws.toFinset.map Function.Embedding.some ⊆ ((Finset.range n).erase c).image k.current := by
    intro o ho
    obtain ⟨w, hw, rfl⟩ := Finset.mem_map.mp ho
    exact hrun w (List.mem_toFinset.mp hw)
  have hcard := (Finset.card_le_card hsub).trans Finset.card_image_le
  rw [Finset.card_map, List.toFinset_card_of_nodup hnodup, hn,
    Finset.card_erase_of_mem (Finset.mem_range.mpr hc), Finset.card_range] at hcard
  omega

theorem trap {c : Nat} (h : Served ws n k) (hc : c < n) (hs : contextSaveSwitch k c = .ok k') :
    Served ws n k' := by
  obtain ⟨i, t, -, -, ht, rfl⟩ := contextSaveSwitch_cases hs
  have hframe : (saveCurrent k c).tasks = k.tasks ∧ (saveCurrent k c).tasksSize = k.tasksSize ∧
      (saveCurrent k c).idx = k.idx ∧ (saveCurrent k c).sem = k.sem := by
    unfold saveCurrent
    split <;> exact ⟨rfl, rfl, rfl, rfl⟩
  obtain ⟨htasks, hsize, hidx, hsem⟩ := hframe
  refine ⟨fun j u hu => ?_, fun w hw => ?_, fun w hw => ?_, fun s j w hw => ?_⟩
  · show (saveCurrent k c).idx u = j ∧ j < (saveCurrent k c).tasksSize
    rw [hidx, hsize]
    exact h.table j u (htasks ▸ hu)
  · show (saveCurrent k c).tasks ((saveCurrent k c).idx w) = some w
    rw [htasks, hidx]
    exact h.entry w hw
  · by_cases hwt : w = t
    · subst hwt
      exact .inr (.inr ⟨dispatch_state_self, c, hc, dispatch_current_self⟩)
    · rw [dispatch_state_ne hwt]
      rcases saveCurrent_state (k := k) (c := c) (u := w) with hsame | ⟨-, -, hput⟩
      · rw [hsame]
        rcases h.awake w hw with hst | hst | ⟨hst, d, hd, hcur⟩
        · exact .inl hst
        · exact .inr (.inl hst)
        · refine .inr (.inr ⟨hst, d, hd, ?_⟩)
          have hdc : d ≠ c := by
            rintro rfl
            unfold saveCurrent at hsame
            simp only [hcur, hst, if_true, Function.update_self] at hsame
            cases hsame
          rw [dispatch_current_ne hdc, saveCurrent_current]
          exact hcur
      · exact .inr (.inl hput)
  · show ((saveCurrent k c).sem s).que j ≠ some w
    rw [hsem]
    exact h.queue s j w hw

omit [DecidableEq T] in
/-- A change of states that leaves the wait tasks alone. -/
theorem of_state {st : T → TaskState} {f : T → Bool} {sem : S → Sem T} (h : Served ws n k)
    (hst : ∀ w ∈ ws, st w = k.state w) (hq : ∀ s i, ∀ w ∈ ws, (sem s).que i ≠ some w) :
    Served ws n { k with state := st, asleep := f, sem := sem } where
  table := h.table
  entry := h.entry
  awake w hw := by
    dsimp only
    rw [hst w hw]
    exact h.awake w hw
  queue := hq

end Served

/-- The selection of a trap on CPU `c`: the loop ends within `tasks_size` iterations
at the first entry after the one of the previous task that is selectable, and that
task becomes the current one. -/
def Serves (k : Kernel T S) (c : Nat) : Prop :=
  ∃ i t, Selects (saveCurrent k c) (startIdx k c) i ∧ k.tasks i = some t ∧
    contextSaveSwitch k c = .ok (dispatch (saveCurrent k c) c t)

theorem Served.serves {ws : List T} {n c : Nat} (h : Served ws n k) (hn : ws.length = n)
    (hnodup : ws.Nodup) (hc : c < n) : Serves k c := by
  have hframe : (saveCurrent k c).tasks = k.tasks ∧
      startIdx (saveCurrent k c) c = startIdx k c := by
    unfold saveCurrent startIdx
    split
    · next hcur => simp only [hcur, and_self]
    · next t hcur => simp only [hcur, and_self]
  obtain ⟨j, hj, hsel⟩ := h.exists_selectable hn hnodup hc
  obtain ⟨i, hi⟩ := exists_selects (startIdx k c) hj hsel
  obtain ⟨t, ht, -⟩ := hi.2.1
  refine ⟨i, t, hi, hframe.1 ▸ ht, ?_⟩
  unfold contextSaveSwitch
  dsimp only
  rw [hframe.2, hi.1, ok_bind, ht]
  rfl

/-! ## Runs -/

variable [DecidableEq S]

/-- The steps of a kernel with wait tasks `ws` on `n` CPUs: wait tasks take no
semaphore section and are not torn down, and `kmt_create` gets a task that is not
in the table. -/
def ServedStep (ws : List T) (n : Nat) (k : Kernel T S) : Event T S → Prop
  | .trap c => c < n
  | .yield c => c < n ∧ Enabled k (.yield c)
  | .wait c s => c < n ∧ Enabled k (.wait c s) ∧ ∀ w ∈ ws, k.current c ≠ some w
  | .signal c _ => c < n
  | .create t => t ∉ ws ∧ ∀ i, k.tasks i ≠ some t
  | .teardown t => t ∉ ws ∧ ∃ i, k.tasks i = some t

theorem Served.step {ws : List T} {n : Nat} {e : Event T S} (h : Served ws n k)
    (hp : ServedStep ws n k e) (hs : Kmt.step k e = .ok k') : Served ws n k' := by
  cases e with
  | trap c => exact h.trap hp hs
  | yield c =>
    obtain ⟨t, -, hs⟩ := yieldBy_cases hs
    exact trap (of_state h (fun _ _ => rfl) h.queue) hp.1 hs
  | wait c s =>
    obtain ⟨t, r, ht, hr, rfl⟩ := waitBy_cases hs
    have htw : t ∉ ws := fun hw => hp.2.2 t hw ht
    refine h.of_state (fun w hw => ?_) fun s' i w hw => ?_
    · have hwt : w ≠ t := fun he => htw (he ▸ hw)
      rcases semWait_cases hr with ⟨hst, -⟩ | ⟨hst, -⟩
      · rw [hst]
      · rw [hst, Function.update_of_ne hwt]
    · by_cases hss : s' = s
      · subst hss
        rw [Function.update_self]
        rcases semWait_cases hr with ⟨-, hq⟩ | ⟨-, hq⟩
        · rw [hq]
          exact h.queue s' i w hw
        · rw [hq]
          by_cases hi : i = (k.sem s').tail
          · rw [hi, Function.update_self]
            exact fun he => htw (Option.some.inj he ▸ hw)
          · rw [Function.update_of_ne hi]
            exact h.queue s' i w hw
      · rw [Function.update_of_ne hss]
        exact h.queue s' i w hw
  | signal c s =>
    obtain ⟨r, hr, rfl⟩ := signalBy_cases hs
    obtain ⟨hq, hst⟩ := semSignal_cases hr
    refine h.of_state (fun w hw => ?_) fun s' i w hw => ?_
    · rcases hst with hst | ⟨t, -, hhead, hst⟩
      · rw [hst]
      · have hwt : w ≠ t := fun he => h.queue s _ w hw (he ▸ hhead)
        rw [hst, Function.update_of_ne hwt]
    · by_cases hss : s' = s
      · subst hss
        rw [Function.update_self, hq]
        exact h.queue s' i w hw
      · rw [Function.update_of_ne hss]
        exact h.queue s' i w hw
  | create t => exact h.create hp.1 hp.2 hs
  | teardown t =>
    obtain ⟨i, hi⟩ := hp.2
    exact h.teardown hp.1 hi hs

/-- With one wait task for each of the `n` CPUs, a trap always finds a task. -/
theorem reach_serves {value : S → Int} {ws : List T} {n c : Nat} (hn : ws.length = n)
    (hnodup : ws.Nodup) (hinit : createWait (boot value) ws = .ok k₀)
    (h : Reach (ServedStep ws n) k₀ k) (hc : c < n) : Serves k c :=
  (Reach.invariant (I := Served ws n) (.createWait hnodup hinit)
    (fun hk hp hs => hk.step hp hs) h).serves hn hnodup hc

/-- Two CPUs with their wait tasks 0 and 1, and a task 2 that is created while both
of them run. -/
theorem reach_serves_two_cpus :
    ∃ k₀ k : Kernel (Fin 3) Unit, createWait (boot fun _ => 0) [0, 1] = .ok k₀ ∧
      Reach (ServedStep [0, 1] 2) k₀ k ∧ k.current 0 = some 1 ∧ k.current 1 = some 0 ∧
      Serves k 0 := by
  obtain ⟨k₀, hk₀⟩ : ∃ k₀ : Kernel (Fin 3) Unit,
      createWait (boot fun _ => 0) [0, 1] = .ok k₀ := ⟨_, rfl⟩
  obtain ⟨k, hreach, h0, h1⟩ : ∃ k, Reach (ServedStep [0, 1] 2) k₀ k ∧
      k.current 0 = some 1 ∧ k.current 1 = some 0 := by
    cases hk₀
    refine ⟨_, .next (.next (.next .start (e := .trap 0) Nat.two_pos rfl)
      (e := .trap 1) Nat.one_lt_two rfl) (e := .create 2) ⟨by decide, fun i hi => ?_⟩ rfl, rfl, rfl⟩
    rcases i with _ | _ | i <;> cases hi
  exact ⟨k₀, k, hk₀, hreach, h0, h1, reach_serves rfl (by decide) hk₀ hreach (by decide)⟩

end OsWorkbench.Kmt
