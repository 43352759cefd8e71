import OsWorkbench.Kmt.Select

/-!
# The task table

`get_tasks_idx` takes the last free entry and makes the table longer only when there is
none. So the table is never longer than the largest number of tasks that were live at one
time, and a trap can only select a live task.
-/

namespace OsWorkbench.Kmt

variable {T S : Type} {k k' : Kernel T S}

/-- Without a free entry the scan gives `tasks_size`. -/
theorem no_hole (h : getTasksIdx k = k.tasksSize) : ∀ i < k.tasksSize, k.tasks i ≠ none := by
  have hfold : ∀ n ≤ k.tasksSize,
      (List.range n).foldl (fun ret i => if (k.tasks i).isNone then i else ret) k.tasksSize =
        k.tasksSize → ∀ i < n, k.tasks i ≠ none := by
    intro n
    induction n with
    | zero => exact fun _ _ i hi => absurd hi (Nat.not_lt_zero i)
    | succ n ih =>
      intro hn hr i hi
      rw [List.range_succ, List.foldl_append, List.foldl_cons, List.foldl_nil] at hr
      split at hr
      · omega
      · next hsome =>
        rcases Nat.lt_succ_iff_lt_or_eq.mp hi with hlt | rfl
        · exact ih (Nat.le_of_succ_le hn) hr i hlt
        · exact fun h0 => hsome (Option.isNone_iff_eq_none.mpr h0)
  exact hfold _ le_rfl h

/-- `kmt_teardown` frees the entry of the task. -/
theorem teardown_cases {t : T} (h : teardown k t = .ok k') :
    k'.tasksSize = k.tasksSize ∧ k'.idx = k.idx ∧
      k'.tasks = Function.update k.tasks (k.idx t) none := by
  unfold teardown tasksRemove at h
  obtain ⟨_, -, h⟩ := bind_eq_ok.mp h
  cases h
  exact ⟨rfl, rfl, rfl⟩

/-- The live tasks and the entries of the table. -/
structure Table (k : Kernel T S) (live : List T) : Prop where
  size : k.tasksSize ≤ maxTask
  nodup : live.Nodup
  entry : ∀ t ∈ live, k.idx t < k.tasksSize ∧ k.tasks (k.idx t) = some t
  only : ∀ i t, k.tasks i = some t → t ∈ live ∧ k.idx t = i

namespace Table

variable {live : List T}

theorem idx_inj (h : Table k live) {t u : T} (ht : t ∈ live) (hu : u ∈ live)
    (he : k.idx t = k.idx u) : t = u := by
  have hs := (h.entry u hu).2
  rw [← he, (h.entry t ht).2] at hs
  exact Option.some.inj hs

/-- An entry that no live task has is free. -/
theorem free (h : Table k live) {i : Nat} (hi : ∀ t ∈ live, k.idx t ≠ i) : k.tasks i = none := by
  cases ht : k.tasks i with
  | none => rfl
  | some t => exact absurd (h.only i t ht).2 (hi t (h.only i t ht).1)

/-- A table without a free entry has as many entries as there are live tasks. -/
theorem size_le_length (h : Table k live) (hfull : getTasksIdx k = k.tasksSize) :
    k.tasksSize ≤ live.length := by
  have hsub : List.range k.tasksSize ⊆ live.map k.idx := by
    intro i hi
    obtain ⟨t, ht⟩ := Option.ne_none_iff_exists'.mp (no_hole hfull i (List.mem_range.mp hi))
    exact List.mem_map.mpr ⟨t, h.only i t ht⟩
  have hle := (List.nodup_range.subperm hsub).length_le
  rwa [List.length_range, List.length_map] at hle

/-- There is room for a new task as long as fewer than `MAX_TASK` are live. -/
theorem getTasksIdx_lt (h : Table k live) (hlen : live.length < maxTask) :
    getTasksIdx k < maxTask := by
  rcases getTasksIdx_spec with he | ⟨hlt, -⟩
  · rw [he]
    exact (h.size_le_length he).trans_lt hlen
  · exact hlt.trans_le h.size

variable [DecidableEq T]

theorem exists_create (h : Table k live) (hlen : live.length < maxTask) (t : T) :
    ∃ k', create k t = .ok k' := by
  have hlt : getTasksIdx { k with
      state := Function.update k.state t .started
      stale := Function.update k.stale t false
      asleep := Function.update k.asleep t false } < maxTask := h.getTasksIdx_lt hlen
  exact ⟨_, inBounds_bind hlt⟩

theorem create {t : T} (h : Table k live) (ht : t ∉ live) (hs : Kmt.create k t = .ok k') :
    Table k' (t :: live) := by
  obtain ⟨i, hi, hfree, htasks, hidx, -, -, -, hsize⟩ := create_cases hs
  have hnone : k.tasks i = none := by
    rcases hfree with rfl | ⟨-, hnone⟩
    · refine h.free fun u hu => (h.entry u hu).1.ne
    · exact hnone
  have hgrow : k.tasksSize ≤ k'.tasksSize ∧ i < k'.tasksSize := by
    rw [hsize]
    rcases hfree with rfl | ⟨hlt, -⟩
    · rw [if_pos rfl]
      omega
    · rw [if_neg hlt.ne]
      exact ⟨le_rfl, hlt⟩
  refine ⟨?_, List.nodup_cons.mpr ⟨ht, h.nodup⟩, fun u hu => ?_, fun j u hu => ?_⟩
  · rw [hsize]
    split
    · next he => omega
    · exact h.size
  · rw [hidx, htasks]
    rcases List.mem_cons.mp hu with rfl | hu
    · rw [Function.update_self, Function.update_self]
      exact ⟨hgrow.2, rfl⟩
    · have hne : u ≠ t := fun he => ht (he ▸ hu)
      have hni : k.idx u ≠ i := by
        rintro rfl
        rw [(h.entry u hu).2] at hnone
        cases hnone
      rw [Function.update_of_ne hne, Function.update_of_ne hni]
      exact ⟨(h.entry u hu).1.trans_le hgrow.1, (h.entry u hu).2⟩
  · rw [htasks] at hu
    rw [hidx]
    rcases eq_or_ne j i with rfl | hji
    · rw [Function.update_self] at hu
      cases hu
      exact ⟨List.mem_cons_self, Function.update_self ..⟩
    · rw [Function.update_of_ne hji] at hu
      obtain ⟨hlive, hj⟩ := h.only j u hu
      have hne : u ≠ t := fun he => ht (he ▸ hlive)
      rw [Function.update_of_ne hne]
      exact ⟨List.mem_cons_of_mem _ hlive, hj⟩

omit [DecidableEq T] in
theorem exists_teardown {t : T} (h : Table k live) (ht : t ∈ live) :
    ∃ k', teardown k t = .ok k' :=
  ⟨_, inBounds_bind ((h.entry t ht).1.trans_le h.size)⟩

theorem teardown {t : T} (h : Table k live) (ht : t ∈ live) (hs : Kmt.teardown k t = .ok k') :
    Table k' (live.erase t) := by
  obtain ⟨hsize, hidx, htasks⟩ := teardown_cases hs
  have herase : ∀ u, u ∈ live.erase t ↔ u ≠ t ∧ u ∈ live := fun u => h.nodup.mem_erase_iff
  refine ⟨hsize ▸ h.size, h.nodup.erase t, fun u hu => ?_, fun j u hu => ?_⟩
  · obtain ⟨hne, hu⟩ := (herase u).mp hu
    have hni : k.idx u ≠ k.idx t := fun he => hne (h.idx_inj hu ht he)
    rw [hsize, hidx, htasks, Function.update_of_ne hni]
    exact h.entry u hu
  · rw [htasks] at hu
    rw [hidx]
    rcases eq_or_ne j (k.idx t) with rfl | hji
    · rw [Function.update_self] at hu
      cases hu
    · rw [Function.update_of_ne hji] at hu
      obtain ⟨hlive, hj⟩ := h.only j u hu
      exact ⟨(herase u).mpr ⟨fun he => hji (he ▸ hj.symm), hlive⟩, hj⟩

omit [DecidableEq T] in
/-- A step that leaves the table alone. -/
theorem congr (h : Table k live) (hsize : k'.tasksSize = k.tasksSize) (htasks : k'.tasks = k.tasks)
    (hidx : k'.idx = k.idx) : Table k' live where
  size := hsize ▸ h.size
  nodup := h.nodup
  entry t ht := by
    rw [hsize, htasks, hidx]
    exact h.entry t ht
  only i t ht := by
    rw [htasks] at ht
    rw [hidx]
    exact h.only i t ht

theorem saveCurrent (h : Table k live) (c : Nat) : Table (Kmt.saveCurrent k c) live := by
  unfold Kmt.saveCurrent
  split
  · exact h
  · exact h.congr rfl rfl rfl

/-- A trap keeps the table and selects a live task. -/
theorem trap {c : Nat} (h : Table k live) (hs : contextSaveSwitch k c = .ok k') :
    Table k' live ∧ ∃ t ∈ live, k'.current c = some t := by
  obtain ⟨i, t, -, ht, -, rfl⟩ := contextSaveSwitch_cases hs
  exact ⟨(h.saveCurrent c).congr rfl rfl rfl, t, ((h.saveCurrent c).only i t ht).1,
    dispatch_current_self⟩

theorem yieldBy {c : Nat} (h : Table k live) (hs : Kmt.yieldBy k c = .ok k') :
    Table k' live ∧ ∃ t ∈ live, k'.current c = some t := by
  obtain ⟨t, -, hs⟩ := yieldBy_cases hs
  exact Table.trap (k := { k with asleep := Function.update k.asleep t false })
    (h.congr rfl rfl rfl) hs

end Table

/-! ## Runs -/

variable [DecidableEq T] [DecidableEq S]

/-- The tasks that are live after an event. -/
def liveStep (live : List T) : Event T S → List T
  | .create t => t :: live
  | .teardown t => live.erase t
  | _ => live

/-- The tasks that were created and not torn down since. -/
def liveAfter (es : List (Event T S)) : List T := es.foldl liveStep []

/-- `kmt_create` gets a task that is not live, `kmt_teardown` a live one, and at most
`MAX_TASK` tasks are live at any time. -/
def Fits (live : List T) : Event T S → Prop
  | .create t => t ∉ live ∧ live.length < maxTask
  | .teardown t => t ∈ live
  | _ => True

def AllFit : List T → List (Event T S) → Prop
  | _, [] => True
  | live, e :: es => Fits live e ∧ AllFit (liveStep live e) es

omit [DecidableEq T] [DecidableEq S] in
theorem Table.boot (value : S → Int) : Table (Kmt.boot value : Kernel T S) [] where
  size := Nat.zero_le _
  nodup := .nil
  entry _ ht := nomatch ht
  only _ _ ht := nomatch ht

/-- One step of the kernel. -/
theorem Table.step {live : List T} {e : Event T S} (h : Table k live) (hfit : Fits live e)
    (hs : Kmt.step k e = .ok k') : Table k' (liveStep live e) := by
  cases e with
  | trap c => exact (h.trap hs).1
  | yield c => exact (h.yieldBy hs).1
  | wait c s =>
    obtain ⟨t, r, -, -, rfl⟩ := waitBy_cases hs
    exact h.congr rfl rfl rfl
  | signal c s =>
    obtain ⟨r, -, rfl⟩ := signalBy_cases hs
    exact h.congr rfl rfl rfl
  | create t => exact h.create hfit.1 hs
  | teardown t => exact h.teardown hfit hs

/-- All steps of a run. -/
theorem Table.run {live : List T} {es : List (Event T S)} (h : Table k live) (hfit : AllFit live es)
    (hrun : OsWorkbench.run Kmt.step k es = .ok k') : Table k' (es.foldl liveStep live) := by
  induction es generalizing k live with
  | nil =>
    cases hrun
    exact h
  | cons e es ih =>
    obtain ⟨m, hm, hrest⟩ := run_cons.mp hrun
    exact ih (h.step hfit.1 hm) hfit.2 hrest

/-- The table after any run: every live task has an entry of its own, the other entries are
free, there is room for one more task while fewer than `MAX_TASK` are live, and a trap runs
a live task. -/
theorem task_table (value : S → Int) (es : List (Event T S)) (hfit : AllFit [] es)
    (hrun : run step (boot value) es = .ok k) :
    k.tasksSize ≤ maxTask ∧
    (∀ t ∈ liveAfter es, k.idx t < k.tasksSize ∧ k.tasks (k.idx t) = some t) ∧
    (∀ t ∈ liveAfter es, ∀ u ∈ liveAfter es, t ≠ u → k.idx t ≠ k.idx u) ∧
    (∀ i < k.tasksSize, (∀ t ∈ liveAfter es, k.idx t ≠ i) → k.tasks i = none) ∧
    (∀ t, t ∉ liveAfter es → (liveAfter es).length < maxTask → ∃ k', create k t = .ok k') ∧
    (∀ t ∈ liveAfter es, ∃ k', teardown k t = .ok k') ∧
    ∀ c k', step k (.trap c) = .ok k' ∨ step k (.yield c) = .ok k' →
      ∃ t ∈ liveAfter es, k'.current c = some t := by
  have h : Table k (liveAfter es) := (Table.boot value).run hfit hrun
  refine ⟨h.size, h.entry, fun t ht u hu hne he => hne (h.idx_inj ht hu he),
    fun i _ hi => h.free hi, fun t _ hlen => h.exists_create hlen t,
    fun t ht => h.exists_teardown ht, fun c k' hs => ?_⟩
  rcases hs with hs | hs
  · exact (h.trap hs).2
  · exact (h.yieldBy hs).2

/-- The task 2 takes over the entry of the task 0, which is current when it is torn down. -/
theorem task_table_reuse :
    ∃ k k' : Kernel (Fin 3) Unit,
      run step (boot fun _ => 0) [.create 0, .create 1, .trap 0, .trap 0, .teardown 0, .create 2] =
        .ok k ∧ k.current 0 = some 0 ∧ k.idx 2 = k.idx 0 ∧ step k (.trap 0) = .ok k' ∧
      ∃ t ∈ [2, 1], k'.current 0 = some t := by
  obtain ⟨k, hk, htest⟩ := exists_of_test (x := run step (boot fun _ => 0)
    [.create 0, .create 1, .trap 0, .trap 0, .teardown 0, .create 2])
    (f := fun k : Kernel (Fin 3) Unit => decide (k.current 0 = some 0 ∧ k.idx 2 = k.idx 0) &&
      (step k (.trap 0)).toOption.isSome) (by decide)
  obtain ⟨⟨hcur, hidx⟩, hsome⟩ : (k.current 0 = some 0 ∧ k.idx 2 = k.idx 0) ∧
    (step k (.trap 0)).toOption.isSome := by simpa using htest
  obtain ⟨k', hk'⟩ := Option.isSome_iff_exists.mp hsome
  have hs := toOption_eq_some.mp hk'
  have htable := task_table _ _ (by simp [AllFit, Fits, liveStep, maxTask]) hk
  exact ⟨k, k', hk, hcur, hidx, hs, htable.2.2.2.2.2.2 0 k' (.inl hs)⟩

end OsWorkbench.Kmt
