import OsWorkbench.Lib.CString
import OsWorkbench.Kmt.Select

/-!
# What `/proc` shows of the scheduler

The part of `kernel/src/fs/procfs.c` that `kmt_create` and the traps write: the table
`procs`, and `running`, which says for each CPU what it runs. `Sys` is the kernel with
these tables. The field `selected` is not in the source; it counts for each task the traps
that selected it.

On its first trap a CPU has no current task, and `kmt_context_save_switch` reads
`otask->proc` from a null pointer. What comes back is the argument `low`: an error, where
the access is one, or what the memory at that address holds. As long as that is zero the
tables are right in every state; the access is the only thing that is wrong.
-/

namespace OsWorkbench.Kmt

def maxProc : Nat := 64

/-- The `cpu_number` -1. -/
def noCpu : Nat := 2 ^ 32 - 1

/-- `proc_t`. -/
structure ProcEntry where
  inode : Nat
  cpuNumber : Nat
  scheTimes : Nat
  memoSize : Nat
  name : CStr

/-- A task's `proc` is an index into `procs`, or `none` for `NULL`. -/
structure Sys (T S : Type) where
  kern : Kernel T S
  procs : Nat → ProcEntry
  running : Nat → Int
  totalProc : Nat
  proc : T → Option Nat
  selected : T → Nat

section Model

variable {T S : Type} [DecidableEq T]

/-- `procfs_add`. -/
def procfsAdd (s : Sys T S) (name : CStr) : Except Fault (Nat × Sys T S) := do
  let idx := s.totalProc
  inBounds (idx < maxProc)
  inBounds (name.length < 16)
  return (idx, { s with
    totalProc := idx + 1
    procs := Function.update s.procs idx ⟨sub32 idx 4, noCpu, 0, 0, name⟩ })

def procfsAddproc (s : Sys T S) (name : CStr) : Except Fault (Option Nat × Sys T S) :=
  if s.totalProc = maxProc - 1 then .ok (none, s)
  else do
    let (idx, s) ← procfsAdd s name
    return (some idx, s)

/-- `procfs_schdule` on CPU `cpu`. -/
def procfsSchdule (s : Sys T S) (cpu : Nat) (oldproc newproc : Option Nat) : Sys T S :=
  let s := match oldproc with
    | none => s
    | some i => { s with
        procs := Function.update s.procs i { s.procs i with cpuNumber := noCpu } }
  match newproc with
  | none => s
  | some j => { s with
      procs := Function.update s.procs j { s.procs j with
        cpuNumber := cpu
        scheTimes := add32 (s.procs j).scheTimes 1 }
      running := Function.update s.running cpu (toInt (s.procs j).inode) }

/-- The names ".", "..", "cpuinfo" and "meminfo". -/
def initNames : List CStr :=
  [.ofBytes [46], .ofBytes [46, 46], .ofBytes [99, 112, 117, 105, 110, 102, 111],
    .ofBytes [109, 101, 109, 105, 110, 102, 111]]

def procfsInit (s : Sys T S) : Except Fault (Sys T S) := do
  let total := s.totalProc
  let s ← run (fun s name => Prod.snd <$> procfsAdd s name) { s with totalProc := 0 } initNames
  return { s with totalProc := total }

/-- `kmt_create`; the name is also copied into the task. -/
def kmtCreate (s : Sys T S) (task : T) (name : CStr) : Except Fault (Sys T S) := do
  inBounds (name.length < 32)
  let (p, s) ← procfsAddproc s name
  let kern ← create s.kern task
  return { s with kern := kern, proc := Function.update s.proc task p }

/-- `otask->proc`. -/
def procOf (low : Except Fault (Option Nat)) (s : Sys T S) : Option T → Except Fault (Option Nat)
  | none => low
  | some t => .ok (s.proc t)

/-- `kmt_context_save_switch` on CPU `c`, with the scheduler `switch` of the kernel. -/
def switchOn (low : Except Fault (Option Nat)) (s : Sys T S) (c : Nat)
    (switch : Kernel T S → Except Fault (Kernel T S)) : Except Fault (Sys T S) := do
  inBounds (c < maxCpu)
  let otask := s.kern.current c
  let kern ← switch s.kern
  match kern.current c with
  | none => .error .badAccess
  | some ntask =>
    let oldproc ← procOf low s otask
    return procfsSchdule { s with
      kern := kern
      selected := Function.update s.selected ntask (s.selected ntask + 1) } c oldproc (s.proc ntask)

/-- A trap on CPU `c`. -/
def trapOn (low : Except Fault (Option Nat)) (s : Sys T S) (c : Nat) : Except Fault (Sys T S) :=
  switchOn low s c fun k => contextSaveSwitch k c

/-- The kernel before `kmt_init`. -/
def Sys.boot (value : S → Int) (procs : Nat → ProcEntry) : Sys T S where
  kern := Kmt.boot value
  procs := procs
  running _ := 0
  totalProc := 4
  proc _ := none
  selected _ := 0

/-- `kmt_init`, which creates the wait tasks. -/
def kmtInit (s : Sys T S) (ws : List (T × CStr)) : Except Fault (Sys T S) :=
  run (fun s w => kmtCreate s w.1 w.2) s ws

variable [DecidableEq S]

/-- The steps: calls of `kmt_create` and traps, the `_yield` of a task that sleeps, and the
sections of the semaphores in between. -/
inductive SysEvent (T S : Type)
  | create (t : T) (name : CStr)
  | trap (c : Nat)
  | yield (c : Nat)
  | wait (c : Nat) (s : S)
  | signal (c : Nat) (s : S)
  | procfs

def Sys.step (low : Except Fault (Option Nat)) (s : Sys T S) :
    SysEvent T S → Except Fault (Sys T S)
  | .create t name => kmtCreate s t name
  | .trap c => trapOn low s c
  | .yield c => switchOn low s c fun k => yieldBy k c
  | .wait c e => do
    let kern ← waitBy s.kern c e
    return { s with kern := kern }
  | .signal c e => do
    let kern ← signalBy s.kern c e
    return { s with kern := kern }
  | .procfs => procfsInit s

end Model

/-! ## The accounts -/

/-- The task has been created. -/
def Created {T S : Type} (s : Sys T S) (t : T) : Prop := ∃ i, s.kern.tasks i = some t

/-- Every entry of `procs` is that of one task, and it says where the task runs and how often it
was selected. -/
structure Shown {T S : Type} (s : Sys T S) : Prop where
  table : ∀ i t, s.kern.tasks i = some t → i < s.kern.tasksSize
  total : 4 ≤ s.totalProc ∧ s.totalProc < maxProc
  entry : ∀ t, Created s t → ∃ j, s.proc t = some j ∧ 4 ≤ j ∧ j < s.totalProc ∧
    (s.procs j).inode = j - 4
  owner : ∀ j, 4 ≤ j → j < s.totalProc → ∃ t, Created s t ∧ s.proc t = some j
  only : ∀ t u j, Created s t → Created s u → s.proc t = some j → s.proc u = some j → t = u
  current : ∀ c t, s.kern.current c = some t → Created s t
  cpu : ∀ c t j, s.kern.current c = some t → s.proc t = some j →
    (s.procs j).cpuNumber = c ∧ s.running c + 4 = j
  idle : ∀ t j, Created s t → s.proc t = some j → (∀ c, s.kern.current c ≠ some t) →
    (s.procs j).cpuNumber = noCpu
  times : ∀ t j, Created s t → s.proc t = some j → (s.procs j).scheTimes = s.selected t % 2 ^ 32
  unborn : ∀ t, ¬Created s t → s.selected t = 0

/-- The trap on CPU `c` has made `t` the current task. -/
structure Switched {T S : Type} (k k' : Kernel T S) (c : Nat) (t : T) : Prop where
  current : k'.current = Function.update k.current c (some t)
  tasks : k'.tasks = k.tasks
  tasksSize : k'.tasksSize = k.tasksSize
  created : ∃ i, k.tasks i = some t

section Accounts

variable {T S : Type} [DecidableEq T] {k k' : Kernel T S} {s s' : Sys T S} {c : Nat}

theorem saveCurrent_tasks : (saveCurrent k c).tasks = k.tasks ∧
    (saveCurrent k c).tasksSize = k.tasksSize := by
  unfold saveCurrent
  split <;> exact ⟨rfl, rfl⟩

theorem contextSaveSwitch_switched (h : contextSaveSwitch k c = .ok k') :
    ∃ t, Switched k k' c t := by
  obtain ⟨i, t, -, ht, -, rfl⟩ := contextSaveSwitch_cases h
  rw [saveCurrent_tasks.1] at ht
  refine ⟨t, ?_, saveCurrent_tasks.1, saveCurrent_tasks.2, i, ht⟩
  show Function.update (saveCurrent k c).current c (some t) = _
  rw [saveCurrent_current]

theorem yieldBy_switched (h : yieldBy k c = .ok k') : ∃ t, Switched k k' c t := by
  obtain ⟨t, -, h⟩ := yieldBy_cases h
  obtain ⟨u, hcur, htasks, hsize, hu⟩ := contextSaveSwitch_switched h
  exact ⟨u, hcur, htasks, hsize, hu⟩

omit [DecidableEq T] in
/-- The entries of the two tasks of a switch, and the other ones. -/
theorem procfsSchdule_procs (s : Sys T S) (cpu i : Nat) (old : Option Nat) (j : Nat) :
    (procfsSchdule s cpu old (some j)).procs i =
      if i = j then { s.procs j with
        cpuNumber := cpu
        scheTimes := add32 (s.procs j).scheTimes 1 }
      else if old = some i then { s.procs i with cpuNumber := noCpu } else s.procs i := by
  cases old with
  | none =>
    by_cases hij : i = j
    · subst hij
      simp [procfsSchdule]
    · simp [procfsSchdule, hij]
  | some o =>
    by_cases hij : i = j
    · subst hij
      by_cases hio : i = o
      · subst hio
        simp [procfsSchdule]
      · simp [procfsSchdule, hio]
    · by_cases hio : i = o
      · subst hio
        simp [procfsSchdule, hij]
      · simp [procfsSchdule, hij, hio, Ne.symm hio]

omit [DecidableEq T] in
theorem procfsSchdule_running (s : Sys T S) (cpu : Nat) (old : Option Nat) (j : Nat) :
    (procfsSchdule s cpu old (some j)).running =
      Function.update s.running cpu (toInt (s.procs j).inode) := by
  cases old with
  | none => rfl
  | some o =>
    by_cases hjo : j = o
    · subst hjo
      simp [procfsSchdule]
    · simp [procfsSchdule, hjo]

omit [DecidableEq T] in
theorem procfsSchdule_rest (s : Sys T S) (cpu : Nat) (old new : Option Nat) :
    (procfsSchdule s cpu old new).kern = s.kern ∧
      (procfsSchdule s cpu old new).totalProc = s.totalProc ∧
      (procfsSchdule s cpu old new).proc = s.proc ∧
      (procfsSchdule s cpu old new).selected = s.selected := by
  cases old <;> cases new <;> exact ⟨rfl, rfl, rfl, rfl⟩

/-- The entry of the task that CPU `c` runs. -/
def entryOn (s : Sys T S) (c : Nat) : Option Nat := (s.kern.current c).bind s.proc

/-- What a trap does to the tables. -/
theorem Shown.switch {t : T} (h : Shown s) (hx : Exclusive s.kern) (hx' : Exclusive k')
    (hsw : Switched s.kern k' c t) :
    Shown (procfsSchdule { s with
      kern := k'
      selected := Function.update s.selected t (s.selected t + 1) } c (entryOn s c)
      (s.proc t)) := by
  obtain ⟨j, hj, hj4, hjlt, hinode⟩ := h.entry t hsw.created
  rw [hj]
  generalize hs' : procfsSchdule { s with
    kern := k'
    selected := Function.update s.selected t (s.selected t + 1) } c (entryOn s c) (some j) = s'
  obtain ⟨hkern, htotal, hproc, hsel⟩ := hs' ▸ procfsSchdule_rest { s with
    kern := k'
    selected := Function.update s.selected t (s.selected t + 1) } c (entryOn s c) (some j)
  have hprocs : ∀ i, s'.procs i = if i = j then { s.procs j with
        cpuNumber := c
        scheTimes := add32 (s.procs j).scheTimes 1 }
      else if entryOn s c = some i then { s.procs i with cpuNumber := noCpu } else s.procs i :=
    fun i => hs' ▸ procfsSchdule_procs _ c i _ j
  have hrunning : s'.running = Function.update s.running c (toInt (s.procs j).inode) :=
    hs' ▸ procfsSchdule_running _ c _ j
  simp only at hkern htotal hproc hsel
  have hcreated : ∀ u, Created s' u ↔ Created s u := fun u => by
    unfold Created
    rw [hkern, hsw.tasks]
  have ht : Created s t := hsw.created
  -- the entry of another task is not the one of `t`, and it is the old one only if that task ran
  have hother : ∀ u i, Created s u → s.proc u = some i → u ≠ t → i ≠ j := by
    rintro u i hu hi hut rfl
    exact hut (h.only u t i hu ht hi hj)
  have hold : ∀ u i, Created s u → s.proc u = some i →
      (entryOn s c = some i ↔ s.kern.current c = some u) := by
    intro u i hu hi
    constructor
    · intro he
      obtain ⟨o, ho, hoi⟩ := Option.bind_eq_some_iff.mp he
      rw [ho, h.only o u i (h.current c o ho) hu hoi hi]
    · intro hc
      rw [entryOn, hc]
      exact hi
  have hcur : ∀ d, d ≠ c → s'.kern.current d = s.kern.current d := fun d hd => by
    rw [hkern, hsw.current, Function.update_of_ne hd]
  have hcurc : s'.kern.current c = some t := by rw [hkern, hsw.current, Function.update_self]
  rw [← hkern] at hx'
  constructor
  · intro i u hu
    rw [hkern, hsw.tasks] at hu
    rw [hkern, hsw.tasksSize]
    exact h.table i u hu
  · rw [htotal]
    exact h.total
  · intro u hu
    obtain ⟨i, hi, hi4, hilt, hin⟩ := h.entry u ((hcreated u).mp hu)
    refine ⟨i, by rw [hproc]; exact hi, hi4, by rw [htotal]; exact hilt, ?_⟩
    rw [hprocs]
    split
    · next hij => exact hij ▸ hinode
    · split <;> exact hin
  · intro i hi4 hilt
    rw [htotal] at hilt
    obtain ⟨u, hu, hui⟩ := h.owner i hi4 hilt
    exact ⟨u, (hcreated u).mpr hu, by rw [hproc]; exact hui⟩
  · intro u v i hu hv hui hvi
    rw [hproc] at hui hvi
    exact h.only u v i ((hcreated u).mp hu) ((hcreated v).mp hv) hui hvi
  · intro d u hd
    rw [hcreated]
    by_cases hdc : d = c
    · subst hdc
      rw [hcurc] at hd
      cases hd
      exact ht
    · rw [hcur d hdc] at hd
      exact h.current d u hd
  · intro d u i hd hi
    rw [hproc] at hi
    by_cases hdc : d = c
    · subst hdc
      rw [hcurc] at hd
      cases hd
      rw [hj] at hi
      cases hi
      have hsmall := h.total.2
      rw [hprocs, if_pos rfl, hrunning, Function.update_self, hinode,
        toInt_small (by unfold maxProc at hsmall; omega)]
      exact ⟨rfl, by omega⟩
    · have hut : u ≠ t := by
        rintro rfl
        exact hx' d c u hdc hd hcurc
      have hd' := hd
      rw [hcur d hdc] at hd'
      have hu := h.current d u hd'
      have hno : entryOn s c ≠ some i := fun he =>
        hx d c u hdc hd' ((hold u i hu hi).mp he)
      rw [hprocs, if_neg (hother u i hu hi hut), if_neg hno, hrunning, Function.update_of_ne hdc]
      exact h.cpu d u i hd' hi
  · intro u i hu hi hnone
    rw [hproc] at hi
    have hu := (hcreated u).mp hu
    have hut : u ≠ t := by
      rintro rfl
      exact hnone c hcurc
    rw [hprocs, if_neg (hother u i hu hi hut)]
    split
    · rfl
    · next hno =>
      refine h.idle u i hu hi fun d hd => ?_
      by_cases hdc : d = c
      · subst hdc
        exact hno ((hold u i hu hi).mpr hd)
      · exact hnone d (by rw [hcur d hdc]; exact hd)
  · intro u i hu hi
    rw [hproc] at hi
    have hu := (hcreated u).mp hu
    rw [hprocs, hsel]
    by_cases hut : u = t
    · subst hut
      rw [hj] at hi
      cases hi
      rw [if_pos rfl, Function.update_self]
      simp only [h.times u _ hu hj, add32]
      omega
    · rw [if_neg (hother u i hu hi hut), Function.update_of_ne hut]
      have htimes := h.times u i hu hi
      split <;> exact htimes
  · intro u hu
    rw [hcreated] at hu
    have hut : u ≠ t := by
      rintro rfl
      exact hu ht
    rw [hsel, Function.update_of_ne hut]
    exact h.unborn u hu

omit [DecidableEq T] in
/-- A step of the kernel that leaves the table and the current tasks alone. -/
theorem Shown.kernel (h : Shown s) (hcur : k'.current = s.kern.current)
    (htasks : k'.tasks = s.kern.tasks) (hsize : k'.tasksSize = s.kern.tasksSize) :
    Shown { s with kern := k' } := by
  have hcreated : ∀ u, Created { s with kern := k' } u ↔ Created s u := fun u => by
    unfold Created
    rw [htasks]
  constructor
  · intro i t ht
    rw [htasks] at ht
    rw [hsize]
    exact h.table i t ht
  · exact h.total
  · exact fun t ht => h.entry t ((hcreated t).mp ht)
  · intro j h4 hlt
    obtain ⟨t, ht, htj⟩ := h.owner j h4 hlt
    exact ⟨t, (hcreated t).mpr ht, htj⟩
  · exact fun t u j ht hu => h.only t u j ((hcreated t).mp ht) ((hcreated u).mp hu)
  · intro d t hd
    rw [hcur] at hd
    exact (hcreated t).mpr (h.current d t hd)
  · intro d t j hd hj
    rw [hcur] at hd
    exact h.cpu d t j hd hj
  · intro t j ht hj hnone
    rw [hcur] at hnone
    exact h.idle t j ((hcreated t).mp ht) hj hnone
  · exact fun t j ht hj => h.times t j ((hcreated t).mp ht) hj
  · exact fun t ht => h.unborn t fun ht' => ht ((hcreated t).mpr ht')

/-- A task that is created gets the next entry. -/
theorem kmtCreate_eq {t : T} {name : CStr} (htotal : s.totalProc < maxProc - 1)
    (hs : kmtCreate s t name = .ok s') :
    ∃ k', create s.kern t = .ok k' ∧ s' = { s with
      kern := k'
      totalProc := s.totalProc + 1
      procs := Function.update s.procs s.totalProc ⟨sub32 s.totalProc 4, noCpu, 0, 0, name⟩
      proc := Function.update s.proc t (some s.totalProc) } := by
  obtain ⟨_, -, hs⟩ := bind_eq_ok.mp hs
  obtain ⟨⟨p, s₁⟩, hp, hs⟩ := bind_eq_ok.mp hs
  rw [procfsAddproc, if_neg (by omega)] at hp
  obtain ⟨⟨idx, s₂⟩, hadd, hp⟩ := bind_eq_ok.mp hp
  obtain ⟨_, -, hadd⟩ := bind_eq_ok.mp hadd
  obtain ⟨_, -, hadd⟩ := bind_eq_ok.mp hadd
  cases hadd
  cases hp
  obtain ⟨k', hk, hs⟩ := bind_eq_ok.mp hs
  cases hs
  exact ⟨k', hk, rfl⟩

theorem Shown.create {t : T} {name : CStr} (h : Shown s) (ht : ¬Created s t)
    (htotal : s.totalProc < maxProc - 1) (hs : kmtCreate s t name = .ok s') : Shown s' := by
  obtain ⟨k', hk, rfl⟩ := kmtCreate_eq htotal hs
  obtain ⟨i, -, hi, htasks, -, -, hcur, -, hsize⟩ := create_cases hk
  have hfree : s.kern.tasks i = none := by
    rcases hi with rfl | ⟨-, hi⟩
    · cases hslot : s.kern.tasks s.kern.tasksSize with
      | none => rfl
      | some u => exact absurd (h.table _ u hslot) (lt_irrefl _)
    · exact hi
  have hcreated : ∀ u, (∃ l, k'.tasks l = some u) ↔ u = t ∨ Created s u := by
    intro u
    rw [htasks]
    constructor
    · rintro ⟨l, hl⟩
      by_cases hli : l = i
      · subst hli
        rw [Function.update_self] at hl
        cases hl
        exact .inl rfl
      · rw [Function.update_of_ne hli] at hl
        exact .inr ⟨l, hl⟩
    · rintro (rfl | ⟨l, hl⟩)
      · exact ⟨i, Function.update_self _ _ _⟩
      · refine ⟨l, ?_⟩
        rw [Function.update_of_ne]
        · exact hl
        · rintro rfl
          rw [hfree] at hl
          cases hl
  have hne : ∀ u, Created s u → u ≠ t := by
    rintro u hu rfl
    exact ht hu
  have hold : ∀ u j, Created s u → s.proc u = some j → j ≠ s.totalProc := by
    intro u j hu hj
    obtain ⟨j', hj', -, hlt, -⟩ := h.entry u hu
    rw [hj] at hj'
    cases hj'
    omega
  have hother : ∀ u, Created s u →
      Function.update s.proc t (some s.totalProc) u = s.proc u := fun u hu =>
    Function.update_of_ne (hne u hu) _ _
  have h4 := h.total.1
  constructor
  · intro l u hl
    rw [htasks] at hl
    rw [hsize]
    by_cases hli : l = i
    · subst hli
      rcases hi with rfl | ⟨hlt, -⟩
      · rw [if_pos rfl]
        omega
      · rw [if_neg (by omega)]
        exact hlt
    · rw [Function.update_of_ne hli] at hl
      have := h.table l u hl
      split <;> omega
  · exact ⟨by simp only; omega, by simp only; omega⟩
  · intro u hu
    rcases (hcreated u).mp hu with rfl | hu
    · refine ⟨s.totalProc, Function.update_self _ _ _, h4, Nat.lt_succ_self _, ?_⟩
      simp only [Function.update_self]
      exact sub32_eq (by unfold maxProc at htotal; omega) h4
    · obtain ⟨j, hj, hj4, hlt, hin⟩ := h.entry u hu
      refine ⟨j, (hother u hu).trans hj, hj4, Nat.lt_succ_of_lt hlt, ?_⟩
      simp only [Function.update_of_ne (hold u j hu hj)]
      exact hin
  · intro j hj4 hlt
    rcases Nat.lt_succ_iff_lt_or_eq.mp hlt with hlt | rfl
    · obtain ⟨u, hu, huj⟩ := h.owner j hj4 hlt
      exact ⟨u, (hcreated u).mpr (.inr hu), (hother u hu).trans huj⟩
    · exact ⟨t, (hcreated t).mpr (.inl rfl), Function.update_self _ _ _⟩
  · intro u v j hu hv huj hvj
    rcases (hcreated u).mp hu with hut | hu'
    · rcases (hcreated v).mp hv with hvt | hv'
      · exact hut.trans hvt.symm
      · subst hut
        simp only [Function.update_self] at huj
        cases huj
        exact absurd rfl (hold v _ hv' ((hother v hv').symm.trans hvj))
    · rcases (hcreated v).mp hv with hvt | hv'
      · subst hvt
        simp only [Function.update_self] at hvj
        cases hvj
        exact absurd rfl (hold u _ hu' ((hother u hu').symm.trans huj))
      · exact h.only u v j hu' hv' ((hother u hu').symm.trans huj)
          ((hother v hv').symm.trans hvj)
  · intro d u hd
    rw [hcur] at hd
    exact (hcreated u).mpr (.inr (h.current d u hd))
  · intro d u j hd huj
    rw [hcur] at hd
    have hu := h.current d u hd
    have huj := (hother u hu).symm.trans huj
    simp only [Function.update_of_ne (hold u j hu huj)]
    exact h.cpu d u j hd huj
  · intro u j hu huj hnone
    rcases (hcreated u).mp hu with rfl | hu
    · simp only [Function.update_self] at huj
      cases huj
      simp only [Function.update_self]
    · have huj := (hother u hu).symm.trans huj
      simp only [Function.update_of_ne (hold u j hu huj)]
      rw [hcur] at hnone
      exact h.idle u j hu huj hnone
  · intro u j hu huj
    rcases (hcreated u).mp hu with rfl | hu
    · simp only [Function.update_self] at huj
      cases huj
      simp only [Function.update_self]
      rw [h.unborn u ht]
      rfl
    · have huj := (hother u hu).symm.trans huj
      simp only [Function.update_of_ne (hold u j hu huj)]
      exact h.times u j hu huj
  · intro u hu
    exact h.unborn u fun hc => hu ((hcreated u).mpr (.inr hc))

omit [DecidableEq T] in
/-- The entries that `procfs_init` writes. -/
theorem procfsAdd_run {names : List CStr}
    (hs : run (fun s name => Prod.snd <$> procfsAdd s name) s names = .ok s') :
    s' = { s with totalProc := s.totalProc + names.length, procs := s'.procs } ∧
      ∀ i, s.totalProc + names.length ≤ i → s'.procs i = s.procs i := by
  induction names generalizing s with
  | nil =>
    cases hs
    exact ⟨rfl, fun _ _ => rfl⟩
  | cons name names ih =>
    obtain ⟨s₁, hs₁, hs⟩ := run_cons.mp hs
    obtain ⟨⟨idx, s₂⟩, hadd, he⟩ : ∃ r, procfsAdd s name = .ok r ∧ r.2 = s₁ := by
      cases hadd : procfsAdd s name with
      | error e => rw [hadd] at hs₁; cases hs₁
      | ok r => rw [hadd] at hs₁; exact ⟨r, rfl, Except.ok.inj hs₁⟩
    obtain ⟨_, -, hadd⟩ := bind_eq_ok.mp hadd
    obtain ⟨_, -, hadd⟩ := bind_eq_ok.mp hadd
    cases hadd
    cases he
    obtain ⟨heq, hsame⟩ := ih hs
    refine ⟨?_, fun i hi => ?_⟩
    · rw [heq]
      simp only [List.length_cons]
      congr 1
      omega
    · rw [List.length_cons] at hi
      rw [hsame i (by simp only; omega)]
      exact Function.update_of_ne (by omega) _ _

omit [DecidableEq T] in
theorem Shown.procfsInit (h : Shown s) (hs : procfsInit s = .ok s') : Shown s' := by
  obtain ⟨s₁, hs₁, hs⟩ := bind_eq_ok.mp hs
  cases hs
  obtain ⟨heq, hsame⟩ := procfsAdd_run hs₁
  have hprocs : ∀ i, 4 ≤ i → s₁.procs i = s.procs i := fun i hi =>
    hsame i (by simpa [initNames] using hi)
  rw [heq]
  have hentry : ∀ t j, Created s t → s.proc t = some j → 4 ≤ j := by
    intro t j ht hj
    obtain ⟨j', hj', h4, -⟩ := h.entry t ht
    rw [hj] at hj'
    cases hj'
    exact h4
  constructor
  · exact h.table
  · exact h.total
  · intro t ht
    obtain ⟨j, hj, h4, hlt, hin⟩ := h.entry t ht
    exact ⟨j, hj, h4, hlt, by rw [hprocs j h4]; exact hin⟩
  · exact h.owner
  · exact h.only
  · exact h.current
  · intro d t j hd hj
    simp only
    rw [hprocs j (hentry t j (h.current d t hd) hj)]
    exact h.cpu d t j hd hj
  · intro t j ht hj hnone
    simp only
    rw [hprocs j (hentry t j ht hj)]
    exact h.idle t j ht hj hnone
  · intro t j ht hj
    simp only
    rw [hprocs j (hentry t j ht hj)]
    exact h.times t j ht hj
  · exact h.unborn

end Accounts

/-! ## Runs -/

section Runs

variable {T S : Type} [DecidableEq T] {s s' s₀ : Sys T S} {c : Nat}
variable {low : Except Fault (Option Nat)}

/-- A switch that returns has read the entry of the old task, or `low` if there was none. -/
theorem switchOn_eq {switch : Kernel T S → Except Fault (Kernel T S)}
    (hsw : ∀ {k k'}, switch k = .ok k' → ∃ t, Switched k k' c t)
    (hs : switchOn low s c switch = .ok s') :
    ∃ k' t old, Switched s.kern k' c t ∧ procOf low s (s.kern.current c) = .ok old ∧
      s' = procfsSchdule { s with
        kern := k'
        selected := Function.update s.selected t (s.selected t + 1) } c old (s.proc t) := by
  obtain ⟨_, -, hs⟩ := bind_eq_ok.mp hs
  obtain ⟨k', hk, hs⟩ := bind_eq_ok.mp hs
  obtain ⟨t, ht⟩ := hsw hk
  rw [ht.current, Function.update_self] at hs
  obtain ⟨old, hold, hs⟩ := bind_eq_ok.mp hs
  cases hs
  exact ⟨k', t, old, ht, hold, rfl⟩

omit [DecidableEq T] in
theorem procOf_eq (hlow : ∀ j, low ≠ .ok (some j)) {old : Option Nat}
    (h : procOf low s (s.kern.current c) = .ok old) : old = entryOn s c := by
  unfold entryOn
  cases hcur : s.kern.current c with
  | none =>
    rw [hcur] at h
    cases old with
    | none => rfl
    | some j => exact absurd h (hlow j)
  | some t =>
    rw [hcur] at h
    cases h
    rfl

theorem Shown.switchOn {switch : Kernel T S → Except Fault (Kernel T S)}
    (hlow : ∀ j, low ≠ .ok (some j)) (hsw : ∀ {k k'}, switch k = .ok k' → ∃ t, Switched k k' c t)
    (h : Shown s) (hx : Exclusive s.kern) (hs : switchOn low s c switch = .ok s')
    (hx' : Exclusive s'.kern) : Shown s' := by
  obtain ⟨k', t, old, ht, hold, rfl⟩ := switchOn_eq hsw hs
  rw [procOf_eq hlow hold]
  rw [(procfsSchdule_rest _ _ _ _).1] at hx'
  exact h.switch hx hx' ht

variable [DecidableEq S]

/-- A task structure is created once, and no more than `MAX_PROC - 5` tasks are. -/
def Allowed (s : Sys T S) : SysEvent T S → Prop
  | .create t _ => ¬Created s t ∧ s.totalProc < maxProc - 1
  | _ => True

/-- The states that steps reach in which no task is current on two CPUs. -/
inductive SysReach (low : Except Fault (Option Nat)) (s₀ : Sys T S) : Sys T S → Prop
  | start : SysReach low s₀ s₀
  | next {s s' : Sys T S} {e : SysEvent T S} : SysReach low s₀ s → Allowed s e →
      s.step low e = .ok s' → Exclusive s'.kern → SysReach low s₀ s'

theorem Shown.step {e : SysEvent T S} (hlow : ∀ j, low ≠ .ok (some j)) (h : Shown s)
    (hx : Exclusive s.kern) (ha : Allowed s e) (hs : s.step low e = .ok s')
    (hx' : Exclusive s'.kern) : Shown s' := by
  cases e with
  | create t name => exact h.create ha.1 ha.2 hs
  | trap c => exact h.switchOn hlow contextSaveSwitch_switched hx hs hx'
  | yield c => exact h.switchOn hlow yieldBy_switched hx hs hx'
  | wait c e =>
    obtain ⟨k', hk, hs⟩ := bind_eq_ok.mp hs
    cases hs
    obtain ⟨t, r, -, -, rfl⟩ := waitBy_cases hk
    exact h.kernel rfl rfl rfl
  | signal c e =>
    obtain ⟨k', hk, hs⟩ := bind_eq_ok.mp hs
    cases hs
    obtain ⟨r, -, rfl⟩ := signalBy_cases hk
    exact h.kernel rfl rfl rfl
  | procfs => exact h.procfsInit hs

theorem SysReach.shown (hlow : ∀ j, low ≠ .ok (some j)) (h₀ : Shown s₀)
    (hx₀ : Exclusive s₀.kern) (h : SysReach low s₀ s) : Shown s ∧ Exclusive s.kern := by
  induction h with
  | start => exact ⟨h₀, hx₀⟩
  | next _ ha hs hx' ih => exact ⟨ih.1.step hlow ih.2 ha hs hx', hx'⟩

omit [DecidableEq T] [DecidableEq S] in
theorem boot_shown (value : S → Int) (procs : Nat → ProcEntry) :
    Shown (Sys.boot value procs : Sys T S) := by
  have hnone : ∀ t, ¬Created (Sys.boot value procs : Sys T S) t := by
    rintro t ⟨i, hi⟩
    cases hi
  constructor
  · intro i t hi
    cases hi
  · exact ⟨le_rfl, show 4 < maxProc by decide⟩
  · exact fun t ht => absurd ht (hnone t)
  · intro j h4 hlt
    exact absurd hlt (not_lt.mpr h4)
  · exact fun t _ _ ht => absurd ht (hnone t)
  · intro c t hc
    cases hc
  · intro c t j hc
    cases hc
  · exact fun t _ ht => absurd ht (hnone t)
  · exact fun t _ ht => absurd ht (hnone t)
  · exact fun _ _ => rfl

omit [DecidableEq T] [DecidableEq S] in
theorem exclusive_of_none {k : Kernel T S} (h : ∀ d, d ≠ c → k.current d = none) :
    Exclusive k := by
  intro d e t hde hd he
  by_cases hdc : d = c
  · rw [h e (fun hec => hde (hdc.trans hec.symm))] at he
    cases he
  · rw [h d hdc] at hd
    cases hd

omit [DecidableEq S] in
/-- `kmt_init` with one wait task for each CPU. -/
theorem kmtInit_shown {ws : List (T × CStr)} (h : Shown s) (hcur : ∀ c, s.kern.current c = none)
    (hnew : ∀ w ∈ ws, ¬Created s w.1) (hnodup : (ws.map Prod.fst).Nodup)
    (htotal : s.totalProc + ws.length < maxProc) (hs : kmtInit s ws = .ok s') :
    Shown s' ∧ ∀ c, s'.kern.current c = none := by
  induction ws generalizing s with
  | nil =>
    cases hs
    exact ⟨h, hcur⟩
  | cons w ws ih =>
    obtain ⟨s₁, hs₁, hs⟩ := run_cons.mp hs
    rw [List.length_cons] at htotal
    rw [List.map_cons, List.nodup_cons] at hnodup
    have hlt : s.totalProc < maxProc - 1 := by omega
    have h₁ := h.create (hnew w (by simp)) hlt hs₁
    obtain ⟨k', hk, rfl⟩ := kmtCreate_eq hlt hs₁
    obtain ⟨i, -, -, htasks, -, -, hcur', -⟩ := create_cases hk
    refine ih h₁ (fun c => by simp only [hcur']; exact hcur c) ?_ hnodup.2 (by simp only; omega) hs
    rintro v hv ⟨l, hl⟩
    simp only [htasks] at hl
    by_cases hli : l = i
    · subst hli
      rw [Function.update_self, Option.some.injEq] at hl
      exact hnodup.1 (hl ▸ List.mem_map_of_mem hv)
    · rw [Function.update_of_ne hli] at hl
      exact hnew v (by simp [hv]) ⟨l, hl⟩

omit [DecidableEq S] in
/-- Where the memory at the null pointer holds zero, a trap accesses nothing else that is wrong. -/
theorem trapOn_access (hc : c < maxCpu) : trapOn (.ok none) s c ≠ .error .badAccess := by
  intro h
  unfold trapOn switchOn at h
  rw [inBounds_bind hc] at h
  rcases bind_eq_error.mp h with h | ⟨k', hk, h⟩
  · cases contextSaveSwitch_error h
  · obtain ⟨t, ht⟩ := contextSaveSwitch_switched hk
    have hcur : k'.current c = some t := by rw [ht.current, Function.update_self]
    rw [hcur] at h
    cases hold : s.kern.current c with
    | none =>
      rw [hold] at h
      cases h
    | some o =>
      rw [hold] at h
      cases h

omit [DecidableEq S] in
/-- A trap that selects a task does nothing wrong where the CPU has a current task, and reads
through a null pointer where it has none. -/
theorem trapOn_strict (hs : trapOn (.ok none) s c = .ok s') :
    (s.kern.current c ≠ none → trapOn (.error .badAccess) s c = .ok s') ∧
    (s.kern.current c = none → trapOn (.error .badAccess) s c = .error .badAccess) := by
  obtain ⟨_, hb, hs⟩ := bind_eq_ok.mp hs
  obtain ⟨k', hk, hs⟩ := bind_eq_ok.mp hs
  obtain ⟨t, ht⟩ := contextSaveSwitch_switched hk
  have hcur : k'.current c = some t := by rw [ht.current, Function.update_self]
  rw [hcur] at hs
  unfold trapOn switchOn
  rw [hb, ok_bind, hk, ok_bind, hcur]
  simp only
  constructor
  · intro hne
    obtain ⟨o, ho⟩ := Option.ne_none_iff_exists'.mp hne
    rw [ho] at hs ⊢
    exact hs
  · intro hnone
    rw [hnone]
    rfl

end Runs

/-- In every state that calls of `kmt_create` and traps reach after `kmt_init`, whether a read
through a null pointer faults or gives zero: `running` leads to the entry of the current
task of each CPU, which names the CPU; every other entry has no CPU; and every entry counts
the traps that selected its task. A trap touches nothing but tasks and entries exactly if
its CPU has a current task; that one read is all that can go wrong. -/
theorem traps_shown {T S : Type} [DecidableEq T] [DecidableEq S]
    {low : Except Fault (Option Nat)} (hlow : ∀ j, low ≠ .ok (some j)) {value : S → Int}
    {procs : Nat → ProcEntry} {ws : List (T × CStr)} (hnodup : (ws.map Prod.fst).Nodup)
    (hcpus : ws.length ≤ maxCpu) {s₀ s : Sys T S}
    (hinit : kmtInit (.boot value procs) ws = .ok s₀) (h : SysReach low s₀ s) :
    (∀ c t, s.kern.current c = some t → ∃ j, s.proc t = some j ∧ 4 ≤ j ∧ j < maxProc ∧
      s.running c + 4 = j ∧ (s.procs j).cpuNumber = c) ∧
    (∀ j, 4 ≤ j → j < s.totalProc → ∃ t, s.proc t = some j ∧
      ((∀ c, s.kern.current c ≠ some t) → (s.procs j).cpuNumber = noCpu) ∧
      (s.selected t < 2 ^ 32 → (s.procs j).scheTimes = s.selected t)) ∧
    (∀ c s', trapOn (.ok none) s c = .ok s' →
      (s.kern.current c ≠ none → trapOn (.error .badAccess) s c = .ok s') ∧
      (s.kern.current c = none → trapOn (.error .badAccess) s c = .error .badAccess)) ∧
    ∀ c < maxCpu, trapOn (.ok none) s c ≠ .error .badAccess := by
  obtain ⟨h₀, hnone₀⟩ := kmtInit_shown (boot_shown value procs) (fun _ => rfl)
    (fun w _ => by rintro ⟨i, hi⟩; cases hi) hnodup
    (show 4 + ws.length < maxProc by unfold maxCpu at hcpus; unfold maxProc; omega) hinit
  obtain ⟨hs, -⟩ := h.shown hlow h₀ (exclusive_of_none (c := 0) fun d _ => hnone₀ d)
  refine ⟨fun c t hc => ?_, fun j h4 hlt => ?_, fun c s' hs' => trapOn_strict hs',
    fun c hc => trapOn_access hc⟩
  · obtain ⟨j, hj, h4, hlt, -⟩ := hs.entry t (hs.current c t hc)
    obtain ⟨hcpu, hrun⟩ := hs.cpu c t j hc hj
    exact ⟨j, hj, h4, hlt.trans hs.total.2, hrun, hcpu⟩
  · obtain ⟨t, ht, htj⟩ := hs.owner j h4 hlt
    refine ⟨t, htj, fun hnone => hs.idle t j ht htj hnone, fun hsel => ?_⟩
    rw [hs.times t j ht htj, Nat.mod_eq_of_lt hsel]

/-- The names "wait0" and "wait1". -/
def waitName (i : Nat) : CStr := .ofBytes [119, 97, 105, 116, 48 + UInt8.ofNat i]

/-- A kernel before `kmt_init`. -/
def idleSys (T : Type) : Sys T Unit := .boot (fun _ => 0) fun _ => ⟨0, 0, 0, 0, .ofBytes []⟩

/-- Two wait tasks and the first trap of CPU 0, where the null pointer leads to a zero. -/
theorem traps_shown_first_trap :
    ∃ s₀ s : Sys (Fin 2) Unit,
      kmtInit (idleSys (Fin 2)) [(0, waitName 0), (1, waitName 1)] = .ok s₀ ∧
      SysReach (.ok none) s₀ s ∧ s.kern.current 0 = some 1 ∧
      ∃ j, s.proc 1 = some j ∧ s.running 0 + 4 = j := by
  obtain ⟨s₀, hinit, ht⟩ := exists_of_test (f := fun s₀ =>
      match trapOn (.ok none) s₀ 0 with
      | .ok s => s.kern.current 0 == some 1
      | .error _ => false)
    (x := kmtInit (idleSys (Fin 2)) [(0, waitName 0), (1, waitName 1)]) (by decide +kernel)
  obtain ⟨s, hs, hcur⟩ : ∃ s, trapOn (.ok none) s₀ 0 = .ok s ∧ s.kern.current 0 = some 1 := by
    cases htrap : trapOn (.ok none) s₀ 0 with
    | ok s => rw [htrap] at ht; exact ⟨s, rfl, beq_iff_eq.mp ht⟩
    | error e => rw [htrap] at ht; cases ht
  obtain ⟨-, hnone₀⟩ := kmtInit_shown (boot_shown _ _) (fun _ => rfl)
    (fun w _ => by rintro ⟨i, hi⟩; cases hi) (by decide) (by decide) hinit
  obtain ⟨k', t, old, hsw, -, hs'⟩ := switchOn_eq contextSaveSwitch_switched hs
  have hx : Exclusive s.kern := exclusive_of_none (c := 0) fun d hd => by
    rw [hs', (procfsSchdule_rest _ _ _ _).1, hsw.current, Function.update_of_ne hd]
    exact hnone₀ d
  have hreach : SysReach (.ok none) s₀ s :=
    .next .start (show Allowed s₀ (.trap 0) from trivial) hs hx
  obtain ⟨j, hj, -, -, hrun, -⟩ := (traps_shown (by simp) (by decide) (by decide) hinit
    hreach).1 0 1 hcur
  exact ⟨s₀, s, hinit, hreach, hcur, j, hj, hrun⟩

/-- The first trap of a CPU reads through a null pointer, and the 33rd task is written behind
the table of tasks. -/
theorem first_trap_reads_null :
    (∃ s₀ s : Sys (Fin 2) Unit,
      kmtInit (idleSys (Fin 2)) [(0, waitName 0)] = .ok s₀ ∧ trapOn (.ok none) s₀ 0 = .ok s ∧
      trapOn (.error .badAccess) s₀ 0 = .error .badAccess) ∧
    ∃ s : Sys Nat Unit,
      kmtInit (idleSys Nat) ((List.range 32).map fun i => (i, waitName 0)) = .ok s ∧
      kmtCreate s 32 (waitName 0) = .error .badAccess := by
  constructor
  · obtain ⟨s₀, hinit, ht⟩ := exists_of_test (f := fun s₀ => (trapOn (.ok none) s₀ 0).isOk)
      (x := kmtInit (idleSys (Fin 2)) [(0, waitName 0)]) (by decide +kernel)
    obtain ⟨s, hs⟩ : ∃ s, trapOn (.ok none) s₀ 0 = .ok s := by
      cases htrap : trapOn (.ok none) s₀ 0 with
      | ok s => exact ⟨s, rfl⟩
      | error e => rw [htrap] at ht; cases ht
    obtain ⟨-, hnone₀⟩ := kmtInit_shown (boot_shown _ _) (fun _ => rfl)
      (fun w _ => by rintro ⟨i, hi⟩; cases hi) (by decide) (by decide) hinit
    exact ⟨s₀, s, hinit, hs, (trapOn_strict hs).2 (hnone₀ 0)⟩
  · obtain ⟨s, hs, ht⟩ := exists_of_test (f := fun s =>
        match kmtCreate s 32 (waitName 0) with
        | .error .badAccess => true
        | _ => false)
      (x := kmtInit (idleSys Nat) ((List.range 32).map fun i => (i, waitName 0)))
      (by decide +kernel)
    refine ⟨s, hs, ?_⟩
    revert ht
    cases kmtCreate s 32 (waitName 0) with
    | ok _ => simp
    | error e => cases e <;> simp

end OsWorkbench.Kmt
