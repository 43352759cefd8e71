import OsWorkbench.Pstree.Print

/-!
# What a tree prints

The output of `dfs_print_tree` for a tree of processes, in terms of the tree: the labels of
its processes in depth-first order, and in front of every child that is not the first of its
parent a new line. Of such a line only the last column of a level may be no blank, and it
is one where the node of that level has no more children.
-/

namespace OsWorkbench.Pstree

/-- A tree of processes. -/
inductive Proc where
  | node (pid : Int) (name : CStr) (kids : List Proc)

def Proc.entry : Proc → Entry
  | .node pid name _ => (pid, name)

def Proc.kids : Proc → List Proc
  | .node _ _ kids => kids

/-- The node of one level of the current path: the length of its label, and whether it has a
child behind the one on the path. -/
structure Level where
  len : Nat
  more : Bool

/-- What is printed, piece by piece. -/
inductive Item where
  /-- The label of a process. -/
  | label (a : Entry)
  /-- A new line for a child of a node whose label has `len` characters and whose ancestors
  are `path`. `more` says whether the child has a sibling behind it. -/
  | line (path : List Level) (len : Nat) (more : Bool)

/-- The columns of a level: blanks, and the character in the last one. -/
def columns (len : Nat) (c : Char) : List Char := List.replicate (len - 1) ' ' ++ [c]

/-- What a line starts with. -/
def linePrefix (path : List Level) (len : Nat) (more : Bool) : List Char :=
  path.flatMap (fun l => columns l.len (if l.more then '|' else ' ')) ++
    columns len (if more then '|' else '`')

def Item.text (showPids : Bool) : Item → List Char
  | .label a => Pstree.label showPids a.2 a.1
  | .line path len more => '\n' :: linePrefix path len more

def labelLength (showPids : Bool) (a : Entry) : Nat := (label showPids a.2 a.1).length

mutual

/-- The levels below the root. -/
def Proc.depth : Proc → Nat
  | .node _ _ kids => depthAll kids

def depthAll : List Proc → Nat
  | [] => 0
  | t :: ts => max (t.depth + 1) (depthAll ts)

end

mutual

/-- The processes in depth-first order. -/
def Proc.preorder : Proc → List Entry
  | .node pid name kids => (pid, name) :: preorderAll kids

def preorderAll : List Proc → List Entry
  | [] => []
  | t :: ts => t.preorder ++ preorderAll ts

end

mutual

/-- What is printed for a tree below `path`. -/
def Proc.items (showPids : Bool) (path : List Level) : Proc → List Item
  | .node pid name kids =>
    .label (pid, name) :: itemsAll showPids path (labelLength showPids (pid, name)) kids

/-- What is printed for the children of a node. -/
def itemsAll (showPids : Bool) (path : List Level) (len : Nat) : List Proc → List Item
  | [] => []
  | t :: ts =>
    t.items showPids (path ++ [⟨len, !ts.isEmpty⟩]) ++
      (if ts.isEmpty then [] else [.line path len (decide (1 < ts.length))]) ++
        itemsAll showPids path len ts

end

/-- The process of a label. -/
def Item.label? : Item → Option Entry
  | .label a => some a
  | .line .. => none

/-- The path to a process: the nodes above it, each with the number of the child taken. -/
inductive Reaches : Proc → List (Proc × Nat) → Proc → Prop
  | here (t : Proc) : Reaches t [] t
  | child {t u v : Proc} {c : Nat} {steps : List (Proc × Nat)} :
      t.kids[c]? = some u → Reaches u steps v → Reaches t ((t, c) :: steps) v

/-- The level of a node whose child `c` is on the path. -/
def levelOf (showPids : Bool) (step : Proc × Nat) : Level :=
  ⟨labelLength showPids step.1.entry, decide (step.2 + 1 < step.1.kids.length)⟩

/-- The line in front of child `c` of the process that `steps` lead to. -/
def lineOf (showPids : Bool) (path : List Level) (steps : List (Proc × Nat)) (u : Proc) (c : Nat) :
    Item :=
  .line (path ++ steps.map (levelOf showPids)) (labelLength showPids u.entry)
    (decide (c + 1 < u.kids.length))

mutual

/-- The table, where `i` has the children `f i`, lists the tree. -/
def Proc.Listed (f : Nat → List Entry) : Proc → Prop
  | .node pid _ kids =>
    (∃ i : Nat, pid = i ∧ i < treeLength ∧ f i = kids.map Proc.entry) ∧ ListedAll f kids

def ListedAll (f : Nat → List Entry) : List Proc → Prop
  | [] => True
  | t :: ts => t.Listed f ∧ ListedAll f ts

end

def text (showPids : Bool) (items : List Item) : List Char := items.flatMap (Item.text showPids)

@[simp] theorem text_append {showPids : Bool} (l l' : List Item) :
    text showPids (l ++ l') = text showPids l ++ text showPids l' := List.flatMap_append

/-! ## The levels in the two arrays -/

/-- `len_mem` and `dfs_mem` at the levels of the path. -/
def At (pr : Printer) (path : List Level) : Prop :=
  ∀ i l, path[i]? = some l → 0 < l.len ∧ pr.lenMem i = l.len ∧ pr.dfsMem i = l.more.toNat

/-- The levels above `d` are left alone. -/
def Agree (d : Nat) (pr pr' : Printer) : Prop :=
  ∀ i < d, pr'.lenMem i = pr.lenMem i ∧ pr'.dfsMem i = pr.dfsMem i

section Levels

variable {pr pr' pr'' : Printer} {path : List Level} {d d' : Nat} {l : Level}

theorem Agree.trans (h : Agree d pr pr') (h' : Agree d pr' pr'') : Agree d pr pr'' := fun i hi =>
  ⟨(h' i hi).1.trans (h i hi).1, (h' i hi).2.trans (h i hi).2⟩

theorem Agree.mono (h : Agree d' pr pr') (hd : d ≤ d') : Agree d pr pr' := fun i hi =>
  h i (hi.trans_le hd)

theorem At.agree (h : At pr path) (ha : Agree path.length pr pr') : At pr' path := by
  intro i l hi
  have hlt : i < path.length := (List.getElem?_eq_some_iff.mp hi).1
  obtain ⟨hpos, hlen, hdfs⟩ := h i l hi
  exact ⟨hpos, (ha i hlt).1.trans hlen, (ha i hlt).2.trans hdfs⟩

theorem At.push (h : At pr path) (hpos : 0 < l.len) (hlen : pr.lenMem path.length = l.len)
    (hdfs : pr.dfsMem path.length = l.more.toNat) : At pr (path ++ [l]) := by
  intro i l' hi
  rcases lt_or_ge i path.length with hlt | hge
  · rw [List.getElem?_append_left hlt] at hi
    exact h i l' hi
  · rw [List.getElem?_append_right hge, List.getElem?_singleton] at hi
    obtain ⟨h0, hl⟩ := Option.ite_none_right_eq_some.mp hi
    cases hl
    have hi' : i = path.length := by omega
    exact hi' ▸ ⟨hpos, hlen, hdfs⟩

/-- One level of a line. -/
theorem columns_eq {len : Nat} (hpos : 0 < len) (marked : Prop) [Decidable marked] (c : Char) :
    ((List.range len).map fun j => if marked ∧ j = len - 1 then c else ' ') =
      columns len (if marked then c else ' ') := by
  obtain ⟨n, rfl⟩ : ∃ n, len = n + 1 := ⟨len - 1, by omega⟩
  rw [List.range_succ, List.map_append, columns, Nat.add_sub_cancel, List.map_singleton]
  congr 1
  · rw [List.eq_replicate_iff]
    refine ⟨by simp, fun c' hc' => ?_⟩
    obtain ⟨j, hj, rfl⟩ := List.mem_map.mp hc'
    have hne : j ≠ n := (List.mem_range.mp hj).ne
    rw [if_neg fun h => hne h.2]
  · simp

/-- A loop over the levels. -/
theorem flatMap_range_levels {g : Nat → List Char} {k : Level → List Char}
    (h : ∀ i l, path[i]? = some l → g i = k l) :
    (List.range path.length).flatMap g = path.flatMap k := by
  induction path using List.reverseRecOn with
  | nil => rfl
  | append_singleton path l ih =>
    rw [List.length_append, List.length_singleton, List.range_succ, List.flatMap_append,
      List.flatMap_append, ih fun i l' hi => h i l' (List.getElem?_append_left
        (List.getElem?_eq_some_iff.mp hi).1 ▸ hi)]
    simp [h path.length l (by simp)]

/-- The two loops that start a line print its prefix. -/
theorem startLine_eq {len : Nat} (h : At pr path) (hpos : 0 < len)
    (hlen : pr.lenMem path.length = len) (hdfs : pr.dfsMem path.length = 1) (last : Bool) :
    startLine pr path.length last = pr.print ('\n' :: linePrefix path len !last) := by
  have hrow : ∀ i, (List.range (pr.lenMem i)).map (fun j => column pr path.length last i j) =
      (List.range (pr.lenMem i)).map fun j =>
        if pr.dfsMem i ≠ 0 ∧ j = pr.lenMem i - 1 then
          if last && i == path.length then '`' else '|'
        else ' ' := fun i => rfl
  rw [startLine, List.range_succ, List.flatMap_append, linePrefix]
  congr 3
  · refine flatMap_range_levels fun i l hi => ?_
    have hne : (i == path.length) = false :=
      beq_eq_false_iff_ne.mpr (List.getElem?_eq_some_iff.mp hi).1.ne
    obtain ⟨hl, hlen, hdfs⟩ := h i l hi
    rw [hrow, hlen, hdfs, hne, Bool.and_false, columns_eq hl]
    cases l.more <;> rfl
  · rw [List.flatMap_singleton, hrow, hlen, hdfs, columns_eq hpos, beq_self_eq_true, Bool.and_true]
    cases last <;> rfl

end Levels

/-! ## The run over the tree -/

section Run

variable {f : Nat → List Entry} {showPids : Bool}

theorem labelLength_pos (showPids : Bool) (a : Entry) : 0 < labelLength showPids a := by
  rw [labelLength, label]
  split <;> simp

/-- In front of a child the level of its parent says whether another one follows. -/
theorem At.enterChild {pr : Printer} {path : List Level} (h : At pr path) {len : Nat}
    (hpos : 0 < len) (hlen : pr.lenMem path.length = len) (more : Bool) :
    At (enterChild pr path.length more).1 (path ++ [⟨len, more⟩]) ∧
      Agree path.length pr (enterChild pr path.length more).1 := by
  have hdfs : ∀ v, Agree path.length pr
      { pr with dfsMem := Function.update pr.dfsMem path.length v } := fun v i hi =>
    ⟨rfl, Function.update_of_ne hi.ne _ _⟩
  cases more with
  | true =>
    exact ⟨(h.agree (hdfs 1)).push hpos hlen (Function.update_self ..), hdfs 1⟩
  | false =>
    exact ⟨(h.agree (hdfs 0)).push hpos hlen (Function.update_self ..), hdfs 0⟩

theorem itemsAll_cons_cons (path : List Level) (len : Nat) (t u : Proc) (ts : List Proc) :
    itemsAll showPids path len (t :: u :: ts) = t.items showPids (path ++ [⟨len, true⟩]) ++
      .line path len (decide (1 < (u :: ts).length)) :: itemsAll showPids path len (u :: ts) := by
  rw [itemsAll, List.append_assoc]
  rfl

/-- What printing the items from `pr` gives, up to the levels from `d` on. -/
def Prints (r : Except Fault Printer) (d : Nat) (pr : Printer) (cs : List Char) : Prop :=
  ∃ pr', r = .ok pr' ∧ pr'.out = pr.out ++ cs ∧ Agree d pr pr'

mutual

/-- The call for a process prints its tree and leaves the levels above it alone. -/
theorem printEntry_tree (t : Proc) {pr : Printer} {path : List Level} (hlist : t.Listed f)
    {fuel : Nat} (hfuel : t.depth < fuel)
    (hdepth : path.length + t.depth < memLength) (h : At pr path) :
    Prints (printEntry f showPids fuel t.entry path.length pr) path.length pr
      (text showPids (t.items showPids path)) := by
  obtain ⟨pid, name, kids⟩ := t
  obtain ⟨⟨i, rfl, hi, hkids⟩, hall⟩ := hlist
  obtain ⟨fuel, rfl⟩ : ∃ m, fuel = m + 1 := ⟨fuel - 1, by omega⟩
  have hagree : Agree path.length pr (printLabel showPids (↑i, name) path.length pr) :=
    fun j hj => ⟨Function.update_of_ne hj.ne _ _, rfl⟩
  obtain ⟨pr', hpr', hout, hsame⟩ := printEntries_tree kids hall
    (Nat.lt_succ_iff.mp hfuel) hdepth (h.agree hagree) (labelLength_pos showPids (↑i, name))
    (Function.update_self ..)
  refine ⟨pr', ?_, ?_, hagree.trans hsame⟩
  · rw [Proc.entry, printEntry, inBounds_bind (by omega), index_bind hi, hkids]
    exact hpr'
  · rw [hout, Proc.items]
    show (pr.out ++ _) ++ _ = pr.out ++ (_ ++ _)
    rw [List.append_assoc]
    rfl

/-- The loop over the children of a process. -/
theorem printEntries_tree (ts : List Proc) {pr : Printer} {path : List Level}
    (hlist : ListedAll f ts) {fuel : Nat} (hfuel : depthAll ts ≤ fuel)
    (hdepth : path.length + depthAll ts < memLength) (h : At pr path)
    {len : Nat} (hpos : 0 < len) (hlen : pr.lenMem path.length = len) :
    Prints (printEntries (fun b pr => printEntry f showPids fuel b (path.length + 1) pr)
      path.length (ts.map Proc.entry) pr) path.length pr
        (text showPids (itemsAll showPids path len ts)) := by
  match ts, hlist with
  | [], _ => exact ⟨pr, rfl, (List.append_nil _).symm, fun _ _ => ⟨rfl, rfl⟩⟩
  | [t], hlist =>
    obtain ⟨hat, hagree⟩ := h.enterChild hpos hlen false
    have hd : t.depth + 1 ≤ depthAll [t] := le_max_left _ _
    obtain ⟨pr', hpr', hout, hsame⟩ := printEntry_tree t hlist.1
      (show t.depth < fuel by omega) (by rw [List.length_append, List.length_singleton]; omega) hat
    rw [List.length_append, List.length_singleton] at hpr' hsame
    refine ⟨pr', hpr', ?_, hagree.trans (hsame.mono (Nat.le_succ _))⟩
    rw [hout]
    simp [itemsAll]
    rfl
  | t :: u :: ts, hlist =>
    obtain ⟨hat, hagree⟩ := h.enterChild hpos hlen true
    have hd : t.depth + 1 ≤ depthAll (t :: u :: ts) := le_max_left _ _
    have hd' : depthAll (u :: ts) ≤ depthAll (t :: u :: ts) := le_max_right _ _
    obtain ⟨pr₁, hpr₁, hout₁, hsame₁⟩ := printEntry_tree t hlist.1
      (show t.depth < fuel by omega) (by rw [List.length_append, List.length_singleton]; omega) hat
    have hat₁ := hat.agree hsame₁
    rw [List.length_append, List.length_singleton] at hpr₁ hsame₁
    have hlen₁ : pr₁.lenMem path.length = len := (hsame₁ _ (Nat.lt_succ_self _)).1.trans hlen
    have hdfs₁ : pr₁.dfsMem path.length = 1 :=
      (hsame₁ _ (Nat.lt_succ_self _)).2.trans (Function.update_self ..)
    have hagree₁ := hagree.trans (hsame₁.mono (Nat.le_succ _))
    have hline := startLine_eq (h.agree hagree₁) hpos hlen₁ hdfs₁ (ts.map Proc.entry).isEmpty
    obtain ⟨pr₂, hpr₂, hout₂, hsame₂⟩ := printEntries_tree (u :: ts) hlist.2
      (hd'.trans hfuel) (by omega)
      (show At (startLine pr₁ path.length (ts.map Proc.entry).isEmpty) path from h.agree hagree₁)
      hpos hlen₁
    refine ⟨pr₂, ?_, ?_, hagree₁.trans hsame₂⟩
    · show (printEntry f showPids fuel t.entry (path.length + 1) (enterChild pr path.length true).1
        >>= _) = _
      rw [hpr₁, ok_bind]
      exact hpr₂
    · have hmore : (!(ts.map Proc.entry).isEmpty) = decide (1 < (u :: ts).length) := by
        cases ts <;> rfl
      rw [hout₂, hline, hmore, itemsAll_cons_cons, text_append]
      show (pr₁.out ++ _) ++ _ = _
      rw [hout₁]
      simp only [List.append_assoc]
      rfl

end

mutual

/-- Every process is printed once, in depth-first order. -/
theorem labels_items (t : Proc) (path : List Level) :
    (t.items showPids path).filterMap Item.label? = t.preorder := by
  obtain ⟨pid, name, kids⟩ := t
  rw [Proc.items, Proc.preorder, ← labels_itemsAll kids path (labelLength showPids (pid, name))]
  rfl

theorem labels_itemsAll (ts : List Proc) (path : List Level) (len : Nat) :
    (itemsAll showPids path len ts).filterMap Item.label? = preorderAll ts := by
  match ts with
  | [] => rfl
  | t :: ts =>
    rw [itemsAll, preorderAll, List.filterMap_append, List.filterMap_append, labels_items t,
      labels_itemsAll ts]
    cases ts with
    | nil => simp
    | cons u ts => simp [Item.label?]

end

mutual

/-- Every line is in front of a child that is not the first one of its parent. -/
theorem line_items (t : Proc) {path : List Level} {item : Item}
    (hmem : item ∈ t.items showPids path) (hline : item.label? = none) :
    ∃ steps u c, Reaches t steps u ∧ 1 ≤ c ∧ c < u.kids.length ∧
      item = lineOf showPids path steps u c := by
  obtain ⟨pid, name, kids⟩ := t
  rw [Proc.items] at hmem
  rcases List.mem_cons.mp hmem with rfl | hmem
  · cases hline
  · exact line_itemsAll (.node pid name kids) kids 0 rfl hmem hline

/-- The same for the children of `t` from number `k` on. -/
theorem line_itemsAll (t : Proc) (ts : List Proc) (k : Nat) (hts : t.kids.drop k = ts)
    {path : List Level} {item : Item}
    (hmem : item ∈ itemsAll showPids path (labelLength showPids t.entry) ts)
    (hline : item.label? = none) :
    ∃ steps u c, Reaches t steps u ∧ 1 ≤ c ∧ c < u.kids.length ∧
      item = lineOf showPids path steps u c := by
  match ts, hts with
  | [], _ => cases hmem
  | u :: us, hts =>
    have hk : t.kids[k]? = some u := by
      rw [← Nat.add_zero k, ← List.getElem?_drop, hts]
      rfl
    have hlen : t.kids.length = k + (us.length + 1) := by
      have hl := congrArg List.length hts
      have hlt := (List.getElem?_eq_some_iff.mp hk).1
      rw [List.length_drop, List.length_cons] at hl
      omega
    have hmore : decide (k + 1 < t.kids.length) = !us.isEmpty := by
      rw [hlen]
      cases us <;> simp
    have hus : t.kids.drop (k + 1) = us := by
      rw [← List.drop_drop, hts]
      rfl
    rw [itemsAll] at hmem
    rcases List.mem_append.mp hmem with hmem | hmem
    · rcases List.mem_append.mp hmem with hmem | hmem
      · obtain ⟨steps, v, c, hr, hc, hclt, rfl⟩ := line_items u hmem hline
        refine ⟨(t, k) :: steps, v, c, .child hk hr, hc, hclt, ?_⟩
        rw [lineOf, lineOf, List.map_cons, levelOf, hmore, List.append_assoc]
        rfl
      · cases us with
        | nil => cases hmem
        | cons v us =>
          rw [List.length_cons, ← Nat.add_assoc] at hlen
          refine ⟨[], t, k + 1, .here t, Nat.le_add_left _ _, by omega, ?_⟩
          rw [List.mem_singleton.mp hmem, lineOf, List.map_nil, List.append_nil]
          congr 1
          rw [List.length_cons, decide_eq_decide]
          omega
    · exact line_itemsAll t us (k + 1) hus hmem hline

end

end Run

/-! ## The prefix of a line -/

section Prefix

variable {path : List Level} {len : Nat} {showPids : Bool}

end Prefix

end OsWorkbench.Pstree
