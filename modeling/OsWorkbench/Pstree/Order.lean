import OsWorkbench.Pstree.Print

/-!
# The order of the children

With `guard_cmp1` every list of children is kept in ascending order of the pids. So the
lists, and with them what is printed, are the same for every order of the insertions.
-/

namespace OsWorkbench.Pstree

open Lib

/-- What a file `status` says. -/
structure Record where
  ppid : Int
  pid : Int
  name : CStr
  deriving DecidableEq

/-- The insertions for `-n`, one after the other, from an empty table. -/
def insertAll (node : Nat → ListNode) (rs : List Record) : Except Fault State :=
  run (fun s r => insertNode guardCmp1 s r.ppid r.pid r.name) (.init node) rs

/-- The records of one parent. -/
def recordsOf (rs : List Record) (i : Nat) : List Entry :=
  (rs.filter fun r => r.ppid = (i : Int)).map fun r => (r.pid, r.name)

/-- The processes from `x` on. -/
def readFrom (s : State) (tail : Nat) : Nat → Nat → Except Fault (List Entry)
  | 0, _ => .error .diverges
  | fuel + 1, x =>
    if x = tail then .ok []
    else do
      let n ← s.get x
      let l ← readFrom s tail fuel n.next
      return (n.childPid, n.childName) :: l

/-- The child list of `i`. -/
def childList (s : State) (i : Nat) : Except Fault (List Entry) :=
  if (s.tree i).head = 0 then .ok []
  else do
    let h ← s.get (s.tree i).head
    readFrom s (s.tree i).tail s.brk h.next

/-- In ascending order of the pids, which may repeat. -/
def Sorted (l : List Entry) : Prop := l.Pairwise fun a b => a.1 ≤ b.1

section Order

variable {s : State} {f : Nat → List Entry} {rs : List Record}

theorem readFrom_eq {tail p : Nat} {l : List Nat} {fuel : Nat} (hpath : Path (nextOf s) p l tail)
    (htail : tail ∉ l) (hl : ∀ q ∈ l, 0 < q ∧ q < s.brk) (hfuel : l.length < fuel) :
    readFrom s tail fuel (nextOf s p) = .ok (l.map (entry s)) := by
  induction l generalizing p fuel with
  | nil =>
    obtain ⟨fuel, rfl⟩ := Nat.exists_eq_add_of_lt hfuel
    rw [show nextOf s p = tail from hpath, readFrom, if_pos rfl]
    rfl
  | cons x l ih =>
    obtain ⟨fuel, rfl⟩ : ∃ m, fuel = m + 1 := ⟨fuel - 1, by simp at hfuel; omega⟩
    obtain ⟨hx, hrest⟩ := hpath
    have hxt : x ≠ tail := fun he => htail (he ▸ List.mem_cons_self)
    have hih := ih hrest (fun hm => htail (List.mem_cons_of_mem _ hm))
      (fun q hq => hl q (List.mem_cons_of_mem _ hq)) (Nat.succ_lt_succ_iff.mp hfuel)
    rw [hx, readFrom, if_neg hxt, get_bind (hl x List.mem_cons_self)]
    show (readFrom s tail fuel (nextOf s x) >>= _) = _
    rw [hih]
    rfl

theorem childList_eq (h : Represents s f) (i : Nat) : childList s i = .ok (f i) := by
  obtain ⟨lay, h, hf⟩ := h
  rw [childList, hf i]
  by_cases h0 : (s.tree i).head = 0
  · rw [if_pos h0, (h.empty i h0).2]
    rfl
  · rw [if_neg h0, get_bind (h.valid i _ (h.path_subset h0 List.mem_cons_self))]
    exact readFrom_eq (h.path i h0) (h.tail_notMem h0) (fun q hq => h.valid i q (h.mem_cells hq))
      (Nat.lt_of_succ_lt (h.length_lt h0))

/-- `guard_cmp1` passes the smaller pids, so the insertion is that of an insertion sort. -/
theorem insertEntry_eq (a : Entry) (l : List Entry) :
    insertEntry (fun a b => decide (a.1 > b.1)) a l =
      l.orderedInsert (fun a b : Entry => a.1 ≤ b.1) a := by
  rw [List.orderedInsert_eq_take_drop, insertEntry]
  have heq : (fun b : Entry => decide (a.1 > b.1)) = fun b => decide ¬a.1 ≤ b.1 := by
    funext b
    exact decide_eq_decide.mpr not_le.symm
  rw [heq]

theorem sorted_insert (a : Entry) {l : List Entry} (h : Sorted l) :
    Sorted (l.orderedInsert (fun a b : Entry => a.1 ≤ b.1) a) := by
  have : Std.Total (fun a b : Entry => a.1 ≤ b.1) := ⟨fun a b => le_total a.1 b.1⟩
  have : IsTrans Entry (fun a b : Entry => a.1 ≤ b.1) := ⟨fun a b c => le_trans⟩
  exact List.Pairwise.orderedInsert a l h

/-- What one insertion does to all lists of children. -/
theorem insert_step (h : Represents s f) (hs : ∀ i, Sorted (f i)) {r : Record}
    (hr : 0 ≤ r.ppid ∧ r.ppid < treeLength) (hname : r.name.length < nameLength) :
    ∃ s' g, insertNode guardCmp1 s r.ppid r.pid r.name = .ok s' ∧ Represents s' g ∧
      (∀ i, Sorted (g i)) ∧ ∀ i, (g i).Perm (recordsOf [r] i ++ f i) := by
  obtain ⟨j, hj⟩ : ∃ j : Nat, r.ppid = j := ⟨r.ppid.toNat, by omega⟩
  have hjlt : j < treeLength := by omega
  obtain ⟨s', hs', hg⟩ := insertNode_spec compares_guardCmp1 h hjlt r.pid hname
  rw [insertEntry_eq] at hg
  refine ⟨s', _, hj ▸ hs', hg, fun i => ?_, fun i => ?_⟩
  · rcases eq_or_ne i j with rfl | hij
    · rw [Function.update_self]
      exact sorted_insert _ (hs i)
    · rw [Function.update_of_ne hij]
      exact hs i
  · rcases eq_or_ne i j with rfl | hij
    · rw [Function.update_self, recordsOf, List.filter_cons_of_pos (by simpa using hj)]
      exact List.perm_orderedInsert _ _ _
    · have hne : ¬r.ppid = i := by omega
      rw [Function.update_of_ne hij, recordsOf, List.filter_cons_of_neg (by simpa using hne)]
      exact .refl _

/-- All insertions, from any table with sorted lists. -/
theorem insert_run (h : Represents s f) (hs : ∀ i, Sorted (f i))
    (hppid : ∀ r ∈ rs, 0 ≤ r.ppid ∧ r.ppid < treeLength)
    (hname : ∀ r ∈ rs, r.name.length < nameLength) :
    ∃ s' g, run (fun s r => insertNode guardCmp1 s r.ppid r.pid r.name) s rs = .ok s' ∧
      Represents s' g ∧ (∀ i, Sorted (g i)) ∧ ∀ i, (g i).Perm (recordsOf rs i ++ f i) := by
  induction rs generalizing s f with
  | nil => exact ⟨s, f, rfl, h, hs, fun _ => .refl _⟩
  | cons r rs ih =>
    obtain ⟨s₁, g₁, h₁, hr₁, hs₁, hp₁⟩ :=
      insert_step h hs (hppid r List.mem_cons_self) (hname r List.mem_cons_self)
    obtain ⟨s₂, g₂, h₂, hr₂, hs₂, hp₂⟩ := ih hr₁ hs₁
      (fun r hr => hppid r (List.mem_cons_of_mem _ hr))
      (fun r hr => hname r (List.mem_cons_of_mem _ hr))
    refine ⟨s₂, g₂, run_cons.mpr ⟨s₁, h₁, h₂⟩, hr₂, hs₂, fun i => (hp₂ i).trans ?_⟩
    have happ : recordsOf (r :: rs) i = recordsOf [r] i ++ recordsOf rs i := by
      rw [recordsOf, recordsOf, recordsOf, ← List.map_append, ← List.filter_append]
      rfl
    rw [happ, List.append_assoc]
    refine ((hp₁ i).append_left _).trans ?_
    rw [← List.append_assoc, ← List.append_assoc]
    exact List.perm_append_comm.append_right _

/-- A name that does not fit is written behind the node. -/
theorem insertNode_long (h : Represents s f) {r : Record}
    (hr : 0 ≤ r.ppid ∧ r.ppid < treeLength) (hname : nameLength ≤ r.name.length) :
    insertNode guardCmp1 s r.ppid r.pid r.name = .error .badAccess := by
  obtain ⟨lay, h, -⟩ := h
  obtain ⟨j, hj⟩ : ∃ j : Nat, r.ppid = j := ⟨r.ppid.toNat, by omega⟩
  have hjlt : j < treeLength := by omega
  obtain ⟨s₁, h₁, hl₁, -, -⟩ := addEnds_spec h j
  rw [insertNode, hj, index_bind hjlt, h₁, ok_bind]
  show (initNode { s₁ with brk := s₁.brk + 1 } s₁.brk r.pid r.name >>= _) = _
  have hv : 0 < s₁.brk ∧ s₁.brk < s₁.brk + 1 := ⟨hl₁.brk, Nat.lt_succ_self _⟩
  rw [initNode, modify_eq (s := { s₁ with brk := s₁.brk + 1 }) hv, ok_bind,
    inBounds_neg (not_lt.mpr hname)]
  rfl

theorem insert_run_long (h : Represents s f) (hs : ∀ i, Sorted (f i))
    (hppid : ∀ r ∈ rs, 0 ≤ r.ppid ∧ r.ppid < treeLength)
    (hname : ∃ r ∈ rs, nameLength ≤ r.name.length) :
    run (fun s r => insertNode guardCmp1 s r.ppid r.pid r.name) s rs = .error .badAccess := by
  induction rs generalizing s f with
  | nil =>
    obtain ⟨r, hr, -⟩ := hname
    cases hr
  | cons r rs ih =>
    rw [run]
    by_cases hr : nameLength ≤ r.name.length
    · rw [insertNode_long h (hppid r List.mem_cons_self) hr, error_bind]
    · obtain ⟨s₁, g₁, h₁, hr₁, hs₁, -⟩ :=
        insert_step h hs (hppid r List.mem_cons_self) (not_le.mp hr)
      rw [h₁, ok_bind]
      refine ih hr₁ hs₁ (fun r hr => hppid r (List.mem_cons_of_mem _ hr)) ?_
      obtain ⟨r', hmem, hlong⟩ := hname
      rcases List.mem_cons.mp hmem with rfl | hmem
      · exact absurd hlong hr
      · exact ⟨r', hmem, hlong⟩

end Order

/-! ## Every order -/

section

variable {rs rs' : List Record}

theorem recordsOf_perm (h : rs.Perm rs') (i : Nat) : (recordsOf rs i).Perm (recordsOf rs' i) :=
  (h.filter _).map _

theorem nodup_recordsOf (h : (rs.map Record.pid).Nodup) (i : Nat) :
    ((recordsOf rs i).map Prod.fst).Nodup := by
  rw [recordsOf, List.map_map]
  exact (h.sublist ((List.filter_sublist).map _))

/-- Distinct pids in ascending order. -/
theorem Sorted.strict {l : List Entry} (h : Sorted l) (hnd : (l.map Prod.fst).Nodup) :
    l.Pairwise fun a b => a.1 < b.1 :=
  (h.and (List.pairwise_map.mp hnd)).imp fun hab => lt_of_le_of_ne hab.1 hab.2

/-- There is only one such list. -/
theorem sorted_unique {l l' : List Entry} (hp : l.Perm l') (h : l.Pairwise fun a b => a.1 < b.1)
    (h' : l'.Pairwise fun a b => a.1 < b.1) : l = l' :=
  List.Perm.eq_of_pairwise (fun _ _ _ _ hab hba => absurd hab (lt_asymm hba)) h h' hp

/-- Two orders of the same records: the lists of children are the same, each in ascending
order of the pids, and so is what is printed. A name that does not fit into `child_name`
makes both fail. -/
theorem insertAll_order (node node' : Nat → ListNode) (rs rs' : List Record) (hperm : rs.Perm rs')
    (hpid : (rs.map Record.pid).Nodup)
    (hppid : ∀ r ∈ rs, 0 ≤ r.ppid ∧ r.ppid < treeLength) :
    ((∃ r ∈ rs, nameLength ≤ r.name.length) →
      insertAll node rs = .error .badAccess ∧ insertAll node' rs' = .error .badAccess) ∧
    ((∀ r ∈ rs, r.name.length < nameLength) →
      ∃ s s', insertAll node rs = .ok s ∧ insertAll node' rs' = .ok s' ∧
        (∀ i, ∃ l, childList s i = .ok l ∧ childList s' i = .ok l ∧ l.Perm (recordsOf rs i) ∧
          l.Pairwise fun a b => a.1 < b.1) ∧
        (∀ showPids fuel root name depth maxValid pr,
          dfsPrintTree s showPids fuel root name depth maxValid pr =
            dfsPrintTree s' showPids fuel root name depth maxValid pr) ∧
        ((∃ r ∈ rs, r.ppid = 0 ∧ r.pid = 1) →
          ∀ showPids, printTree s showPids = printTree s' showPids)) := by
  have hppid' : ∀ r ∈ rs', 0 ≤ r.ppid ∧ r.ppid < treeLength := fun r hr =>
    hppid r (hperm.mem_iff.mpr hr)
  have hnil : ∀ i : Nat, Sorted ([] : List Entry) := fun _ => .nil
  constructor
  · rintro ⟨r, hr, hlong⟩
    exact ⟨insert_run_long (represents_init node) hnil hppid ⟨r, hr, hlong⟩,
      insert_run_long (represents_init node') hnil hppid' ⟨r, hperm.mem_iff.mp hr, hlong⟩⟩
  · intro hname
    have hname' : ∀ r ∈ rs', r.name.length < nameLength := fun r hr =>
      hname r (hperm.mem_iff.mpr hr)
    obtain ⟨s, g, hrun, hrep, hsort, hg⟩ := insert_run (represents_init node) hnil hppid hname
    obtain ⟨s', g', hrun', hrep', hsort', hg'⟩ :=
      insert_run (represents_init node') hnil hppid' hname'
    simp only [List.append_nil] at hg hg'
    have hperm' : ∀ i, (g i).Perm (g' i) := fun i =>
      (hg i).trans ((recordsOf_perm hperm i).trans (hg' i).symm)
    have hstrict : ∀ i, (g i).Pairwise fun a b => a.1 < b.1 := fun i =>
      (hsort i).strict ((((hg i).map _).nodup_iff).mpr (nodup_recordsOf hpid i))
    have hstrict' : ∀ i, (g' i).Pairwise fun a b => a.1 < b.1 := fun i =>
      (hsort' i).strict
        ((((hperm' i).symm.trans (hg i)).map _).nodup_iff.mpr (nodup_recordsOf hpid i))
    have heq : g = g' := funext fun i => sorted_unique (hperm' i) (hstrict i) (hstrict' i)
    subst heq
    refine ⟨s, s', hrun, hrun', fun i => ⟨g i, childList_eq hrep i, childList_eq hrep' i, hg i,
      hstrict i⟩, fun showPids fuel root name depth maxValid pr => ?_, ?_⟩
    · rw [dfsPrintTree_eq hrep, dfsPrintTree_eq hrep']
    · rintro ⟨r, hr, h0, h1⟩ showPids
      have hmem : (r.pid, r.name) ∈ g 0 :=
        (hg 0).mem_iff.mpr (List.mem_map_of_mem (List.mem_filter.mpr ⟨hr, by simpa using h0⟩))
      obtain ⟨a, ha⟩ : ∃ a, (g 0).find? (fun a => decide (a.1 = 1)) = some a := by
        rw [← Option.isSome_iff_exists, List.find?_isSome]
        exact ⟨_, hmem, by simpa using h1⟩
      rw [printTree_eq hrep showPids ha, printTree_eq hrep' showPids ha]

/-- The process 1 and two children of it, in two orders. -/
theorem insertAll_order_children :
    ∃ s s',
      insertAll (fun _ => ⟨0, .ofBytes [], 0⟩)
        [⟨0, 1, .ofBytes [105]⟩, ⟨1, 3, .ofBytes [107]⟩, ⟨1, 2, .ofBytes [106]⟩] = .ok s ∧
      insertAll (fun _ => ⟨7, .ofBytes [], 3⟩)
        [⟨1, 2, .ofBytes [106]⟩, ⟨1, 3, .ofBytes [107]⟩, ⟨0, 1, .ofBytes [105]⟩] = .ok s' ∧
      childList s 1 = .ok [(2, .ofBytes [106]), (3, .ofBytes [107])] ∧
      childList s' 1 = .ok [(2, .ofBytes [106]), (3, .ofBytes [107])] ∧
      ∀ showPids, printTree s showPids = printTree s' showPids := by
  obtain ⟨s, s', hs, hs', hkids, -, hprint⟩ := (insertAll_order (fun _ => ⟨0, .ofBytes [], 0⟩)
    (fun _ => ⟨7, .ofBytes [], 3⟩)
    [⟨0, 1, .ofBytes [105]⟩, ⟨1, 3, .ofBytes [107]⟩, ⟨1, 2, .ofBytes [106]⟩]
    [⟨1, 2, .ofBytes [106]⟩, ⟨1, 3, .ofBytes [107]⟩, ⟨0, 1, .ofBytes [105]⟩]
    (List.reverse_perm _).symm (by decide) (by decide)).2 (by decide)
  obtain ⟨l, hl, hl', hperm, hsorted⟩ := hkids 1
  have hboth : l = [(2, .ofBytes [106]), (3, .ofBytes [107])] :=
    sorted_unique (hperm.trans (.swap _ _ _)) hsorted (by simp)
  rw [hboth] at hl hl'
  exact ⟨s, s', hs, hs', hl, hl', hprint (by decide)⟩

end

end OsWorkbench.Pstree
