import OsWorkbench.Pstree.Lists

/-!
# What printing reads

`dfs_print_tree` reads from the table nothing but the lists of children: it prints what
`printEntry` prints for these lists, wherever their nodes are.
-/

namespace OsWorkbench.Pstree

open Lib

/-- The loop of `dfs_print_tree` over a list of children. -/
def printEntries (visit : Entry → Printer → Except Fault Printer) (depth : Nat) :
    List Entry → Printer → Except Fault Printer
  | [], pr => .ok pr
  | [a], pr => visit a (enterChild pr depth false).1
  | a :: b :: l, pr => do
    let pr' ← visit a (enterChild pr depth true).1
    printEntries visit depth (b :: l) (startLine pr' (enterChild pr depth true).2 l.isEmpty)

/-- What `dfs_print_tree` does first. -/
def printLabel (showPids : Bool) (a : Entry) (depth : Nat) (pr : Printer) : Printer :=
  { pr.print (label showPids a.2 a.1) with
    lenMem := Function.update pr.lenMem depth (label showPids a.2 a.1).length }

/-- `dfs_print_tree` where `i` has the children `f i`. -/
def printEntry (f : Nat → List Entry) (showPids : Bool) :
    Nat → Entry → Nat → Printer → Except Fault Printer
  | 0, _, _, _ => .error .diverges
  | fuel + 1, a, depth, pr => do
    inBounds (depth < memLength)
    let r ← index a.1 treeLength
    printEntries (fun b pr => printEntry f showPids fuel b (depth + 1) pr) depth (f r)
      (printLabel showPids a depth pr)

section Print

variable {s : State} {lay : Nat → List Nat} {f : Nat → List Entry} {showPids : Bool}

theorem printChildren_eq {visit : ListNode → Nat → Printer → Except Fault Printer}
    {visit' : Entry → Printer → Except Fault Printer}
    (hvisit : ∀ q m pr, visit (s.node q) m pr = visit' (entry s q) pr)
    {tail depth p : Nat} {l : List Nat} {fuel : Nat} (pr : Printer)
    (hpath : Path (nextOf s) p l tail) (htail : tail ∉ l) (hl : ∀ q ∈ l, 0 < q ∧ q < s.brk)
    (hfuel : l.length < fuel) :
    printChildren s visit tail depth fuel (nextOf s p) pr =
      printEntries visit' depth (l.map (entry s)) pr := by
  induction l generalizing p fuel pr with
  | nil =>
    obtain ⟨fuel, rfl⟩ := Nat.exists_eq_add_of_lt hfuel
    rw [show nextOf s p = tail from hpath, printChildren, if_pos rfl]
    rfl
  | cons x l ih =>
    obtain ⟨fuel, rfl⟩ : ∃ m, fuel = m + 1 := ⟨fuel - 1, by simp at hfuel; omega⟩
    obtain ⟨hx, hrest⟩ := hpath
    have htail' : tail ∉ l := fun hm => htail (List.mem_cons_of_mem _ hm)
    have hl' : ∀ q ∈ l, 0 < q ∧ q < s.brk := fun q hq => hl q (List.mem_cons_of_mem _ hq)
    have hfuel' : l.length < fuel := by simpa using hfuel
    have hxt : x ≠ tail := fun he => htail (he ▸ List.mem_cons_self)
    have hnext : (s.node x).next = l.headD tail := hrest.next_eq
    rw [hx, printChildren, if_neg hxt, get_bind (hl x List.mem_cons_self)]
    cases l with
    | nil =>
      have hlast : decide ((s.node x).next ≠ tail) = false := by simpa using hnext
      simp only [hlast, hvisit]
      refine Eq.trans (bind_congr fun pr' => ?_) (bind_pure _)
      exact ih pr' hrest htail' hl' hfuel'
    | cons y l =>
      have hy : 0 < y ∧ y < s.brk := hl' y List.mem_cons_self
      have hyt : y ≠ tail := fun he => htail' (he ▸ List.mem_cons_self)
      have hnexty : (s.node x).next = y := hnext
      have hmore : decide ((s.node x).next ≠ tail) = true := by simpa [hnexty] using hyt
      have hempty : decide ((s.node y).next = tail) = (l.map (entry s)).isEmpty := by
        have hny : (s.node y).next = l.headD tail := hrest.2.next_eq
        rw [hny]
        cases l with
        | nil => simp
        | cons z l =>
          have hz : z ≠ tail := fun he => htail' (he ▸ List.mem_cons_of_mem _ List.mem_cons_self)
          simpa using hz
      simp only [hmore, hvisit, List.map_cons, printEntries]
      refine bind_congr fun pr' => ?_
      rw [if_pos trivial, hnexty, get_bind hy, hempty]
      have hih := ih (startLine pr' (enterChild pr depth true).2 (l.map (entry s)).isEmpty)
        hrest htail' hl' hfuel'
      rw [show nextOf s x = y from hnexty] at hih
      exact hih

/-- Printing on the table and printing from the lists. -/
theorem dfsPrintTree_eq (h : Represents s f) (showPids : Bool) (fuel : Nat) (root : Int)
    (name : CStr) (depth maxValid : Nat) (pr : Printer) :
    dfsPrintTree s showPids fuel root name depth maxValid pr =
      printEntry f showPids fuel (root, name) depth pr := by
  obtain ⟨lay, h, hf⟩ := h
  induction fuel generalizing root name depth maxValid pr with
  | zero => rfl
  | succ fuel ih =>
    rw [dfsPrintTree, printEntry]
    refine bind_congr fun _ => bind_congr fun r => ?_
    by_cases h0 : (s.tree r).head = 0
    · rw [if_pos h0, hf r, (h.empty r h0).2]
      rfl
    · have hhead : (s.tree r).head ∈ cells s lay r := h.path_subset h0 List.mem_cons_self
      rw [if_neg h0, get_bind (h.valid r _ hhead), hf r]
      exact printChildren_eq (fun q m pr => ih _ _ _ m pr) _ (h.path r h0) (h.tail_notMem h0)
        (fun q hq => h.valid r q (h.mem_cells hq)) (Nat.lt_of_succ_lt (h.length_lt h0))

/-- The first child that is the process 1. -/
theorem findInit_eq {tail p : Nat} {l : List Nat} {fuel : Nat} (hpath : Path (nextOf s) p l tail)
    (htail : tail ∉ l) (hl : ∀ q ∈ l, 0 < q ∧ q < s.brk) (hfuel : l.length < fuel) :
    findInit s tail fuel (nextOf s p) =
      .ok ((l.find? fun q => (entry s q).1 = 1).getD tail) := by
  induction l generalizing p fuel with
  | nil =>
    obtain ⟨fuel, rfl⟩ := Nat.exists_eq_add_of_lt hfuel
    rw [show nextOf s p = tail from hpath, findInit, if_pos rfl]
    rfl
  | cons x l ih =>
    obtain ⟨fuel, rfl⟩ : ∃ m, fuel = m + 1 := ⟨fuel - 1, by simp at hfuel; omega⟩
    obtain ⟨hx, hrest⟩ := hpath
    have hxt : x ≠ tail := fun he => htail (he ▸ List.mem_cons_self)
    rw [hx, findInit, if_neg hxt, get_bind (hl x List.mem_cons_self)]
    by_cases hone : (s.node x).childPid = 1
    · rw [if_pos hone, List.find?_cons_of_pos (p := fun q => decide ((entry s q).1 = 1))
        (decide_eq_true hone)]
      rfl
    · rw [if_neg hone, List.find?_cons_of_neg (p := fun q => decide ((entry s q).1 = 1))
        (fun h => hone (of_decide_eq_true h))]
      exact ih hrest (fun hm => htail (List.mem_cons_of_mem _ hm))
        (fun q hq => hl q (List.mem_cons_of_mem _ hq)) (by simpa using hfuel)

/-- `print_tree` where the process 1 is a child of 0. -/
theorem printTree_eq (h : Represents s f) (showPids : Bool) {a : Entry}
    (ha : (f 0).find? (fun a => a.1 = 1) = some a) :
    printTree s showPids = printEntry f showPids (memLength + 1) a 0 .init := by
  obtain ⟨lay, hlay, hf⟩ := h
  rw [hf 0, List.find?_map, Option.map_eq_some_iff] at ha
  obtain ⟨q, hq, rfl⟩ := ha
  have hmem : q ∈ lay 0 := List.mem_of_find?_eq_some hq
  have hpid : (s.node q).childPid = 1 :=
    of_decide_eq_true (List.find?_some (p := fun q => decide ((entry s q).1 = 1)) hq)
  have h0 : (s.tree 0).head ≠ 0 := by
    intro h0
    rw [(hlay.empty 0 h0).2] at hmem
    cases hmem
  have hhead : (s.tree 0).head ∈ cells s lay 0 := hlay.path_subset h0 List.mem_cons_self
  have hfind := findInit_eq (hlay.path 0 h0) (hlay.tail_notMem h0)
    (fun q hq => hlay.valid 0 q (hlay.mem_cells hq)) (Nat.lt_of_succ_lt (hlay.length_lt h0))
  rw [show (lay 0).find? (fun q => decide ((entry s q).1 = 1)) = some q from hq] at hfind
  rw [printTree, get_bind (hlay.valid 0 _ hhead)]
  show (findInit s (s.tree 0).tail s.brk (nextOf s (s.tree 0).head) >>= _) = _
  rw [hfind, ok_bind]
  show (s.get q >>= _) = _
  rw [get_bind (hlay.valid 0 q (hlay.mem_cells hmem)), check_bind hpid,
    dfsPrintTree_eq ⟨lay, hlay, hf⟩, entry, hpid]

end Print

end OsWorkbench.Pstree
