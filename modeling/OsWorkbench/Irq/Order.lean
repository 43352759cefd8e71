import OsWorkbench.Irq.Model

/-!
# The order of the handlers

After every registration the items are the registered ones in non-decreasing order of
`seq`. So a trap calls the handlers that take its event in this order, once each, and the
last context that is not `NULL` is the result. A handler that is alone at the largest
`seq` decides.
-/

namespace OsWorkbench.Irq

open Lib

variable {H : Type}

/-- The registered items. -/
def Table.entries (t : Table H) : List (Item H) := cellsOf t.items t.size

/-! ## Sorting -/

/-- Three exchanges of fields are one exchange of items. -/
theorem exchange_eq (items : Nat → Item H) {i j : Nat} (hij : i ≠ j) :
    exchange items i j = items ∘ Equiv.swap i j := by
  funext k
  rw [Function.comp_apply, Equiv.swap_apply_def]
  split_ifs with hki hkj
  · simp [exchange, hki, hij, hij.symm]
  · simp [exchange, hkj, hij, hij.symm]
  · simp [exchange, hki, hkj]

theorem order_eq (items : Nat → Item H) {i j : Nat} (hij : i ≠ j) :
    order i items j = compareSwap Item.seq i items j := by
  unfold order compareSwap
  rw [exchange_eq items hij]

/-- The sort of the source is the exchange sort. -/
theorem bubbleSort_eq (t : Table H) :
    bubbleSort t = ⟨t.size, exchangeSort Item.seq t.size t.items⟩ := by
  have hpass : ∀ (l : List Nat) (i : Nat), (∀ j ∈ l, i ≠ j) → ∀ items : Nat → Item H,
      l.foldl (order i) items = l.foldl (compareSwap Item.seq i) items := by
    intro l i
    induction l with
    | nil => exact fun _ _ => rfl
    | cons j l ih =>
      intro hne items
      rw [List.foldl_cons, List.foldl_cons, order_eq items (hne j List.mem_cons_self)]
      exact ih (fun k hk => hne k (List.mem_cons_of_mem _ hk)) _
  have hrow : (fun (items : Nat → Item H) i =>
      (List.range' (i + 1) (t.size - (i + 1))).foldl (order i) items) =
        exchangePass Item.seq t.size := by
    funext items i
    refine hpass _ i (fun j hj => ?_) items
    have hlt : i + 1 ≤ j := (List.mem_range'_1.mp hj).1
    omega
  rw [bubbleSort, hrow]
  rfl

/-- One registration. -/
theorem onIrq_spec {t : Table H} (r : Item H) (hsize : t.size < maxHandler) :
    ∃ t', onIrq t r = .ok t' ∧ t'.size = t.size + 1 ∧
      t'.entries.Perm (r :: t.entries) ∧ t'.entries.Pairwise fun a b => a.seq ≤ b.seq := by
  let u : Table H := ⟨t.size + 1, Function.update t.items t.size r⟩
  have hu : u.entries = t.entries ++ [r] := by
    rw [Table.entries, cellsOf, List.range_succ, List.map_append, List.map_singleton]
    congr 1
    · refine List.map_congr_left fun i hi => Function.update_of_ne ?_ _ _
      exact (List.mem_range.mp hi).ne
    · exact congrArg (fun r => [r]) (Function.update_self ..)
  obtain ⟨hperm, hsorted⟩ := exchangeSort_spec Item.seq u.size u.items
  refine ⟨⟨u.size, exchangeSort Item.seq u.size u.items⟩, ?_, rfl, ?_, hsorted⟩
  · rw [onIrq, pushBack, inBounds_bind hsize, ← bubbleSort_eq u]
    rfl
  · refine hperm.trans ?_
    show u.entries.Perm _
    rw [hu]
    exact List.perm_append_comm

/-- All registrations. -/
theorem onIrq_run (items : Nat → Item H) (rs : List (Item H)) (hlen : rs.length ≤ maxHandler) :
    ∃ t, run onIrq ⟨0, items⟩ rs = .ok t ∧ t.size = rs.length ∧ t.entries.Perm rs ∧
      t.entries.Pairwise fun a b => a.seq ≤ b.seq := by
  induction rs using List.reverseRecOn with
  | nil => exact ⟨⟨0, items⟩, rfl, rfl, .refl _, .nil⟩
  | append_singleton rs r ih =>
    rw [List.length_append, List.length_singleton] at hlen
    obtain ⟨t, ht, hsize, hperm, -⟩ := ih (Nat.le_of_succ_le hlen)
    obtain ⟨t', ht', hsize', hperm', hsorted⟩ := onIrq_spec (t := t) r (by omega)
    refine ⟨t', (run_snoc ht).trans ht', ?_, ?_, hsorted⟩
    · rw [hsize', hsize, List.length_append, List.length_singleton]
    · have hcomm : ([r] ++ rs).Perm (rs ++ [r]) := List.perm_append_comm
      exact hperm'.trans ((hperm.cons r).trans hcomm)

/-! ## A trap -/

section Trap

variable {C σ : Type} {call : H → σ → Except Fault (Option C × σ)} {t : Table H} {ev : Int}

/-- The item is for the event. -/
def Item.takes (ev : Int) (r : Item H) : Bool :=
  decide (r.event = eventNull ∨ r.event = ev)

/-- The items that a trap calls, in order. -/
def Table.called (t : Table H) (ev : Int) : List (Item H) := t.entries.filter (Item.takes ev)

/-- Calling handlers one after the other: what they give, and the state. -/
def callAll (call : H → σ → Except Fault (Option C × σ)) :
    List H → σ → Except Fault (List (Option C) × σ)
  | [], s => .ok ([], s)
  | h :: hs, s => do
    let r ← call h s
    let r' ← callAll call hs r.2
    return (r.1 :: r'.1, r'.2)

/-- The last one that is not `NULL`. -/
def lastContext (l : List (Option C)) : Option C := l.reduceOption.getLast?

theorem callAll_append (hs : List H) (h : H) (s : σ) :
    callAll call (hs ++ [h]) s = (do
      let r ← callAll call hs s
      let r' ← call h r.2
      return (r.1 ++ [r'.1], r'.2)) := by
  induction hs generalizing s with
  | nil =>
    show (call h s >>= fun r => _) = _
    rfl
  | cons g hs ih =>
    rw [List.cons_append, callAll, callAll, bind_assoc]
    refine bind_congr fun r => ?_
    rw [ih, bind_assoc, bind_assoc]
    refine bind_congr fun r' => ?_
    rw [bind_assoc]
    rfl

theorem lastContext_append (l : List (Option C)) (c : C) :
    lastContext (l ++ [some c]) = some c := by
  rw [lastContext, List.reduceOption_append, List.reduceOption_cons_of_some, List.reduceOption_nil,
    List.getLast?_append]
  rfl

theorem lastContext_cons (a : Option C) (l : List (Option C)) :
    lastContext (a :: l) = (lastContext l).or a := by
  cases a with
  | none => rw [lastContext, List.reduceOption_cons_of_none, Option.or_none]; rfl
  | some c =>
    rw [lastContext, List.reduceOption_cons_of_some, List.getLast?_cons]
    cases h : l.reduceOption.getLast? <;> simp [lastContext, h]

/-- The loop calls the handlers for the event and keeps the last context. -/
theorem trapLoop_eq (is : List Nat) (ret : Option C) (s : σ) :
    trapLoop call t ev is ret s = (do
      let r ← callAll call (((is.map t.items).filter (Item.takes ev)).map Item.handler) s
      return ((lastContext r.1).or ret, r.2)) := by
  induction is generalizing ret s with
  | nil => rfl
  | cons i is ih =>
    rw [trapLoop, List.map_cons]
    by_cases htakes : (t.items i).event = eventNull ∨ (t.items i).event = ev
    · have hi : Item.takes ev (t.items i) = true := decide_eq_true htakes
      rw [if_pos htakes, List.filter_cons_of_pos hi, List.map_cons, callAll, bind_assoc]
      refine bind_congr fun r => ?_
      rw [bind_assoc]
      cases hr : r.1 with
      | none =>
        dsimp only
        rw [ih]
        refine bind_congr fun r' => ?_
        show _ = Except.ok ((lastContext (none :: r'.1)).or ret, r'.2)
        rw [lastContext_cons, Option.or_none]
        rfl
      | some c =>
        dsimp only
        rw [ih]
        refine bind_congr fun r' => ?_
        show _ = Except.ok ((lastContext (some c :: r'.1)).or ret, r'.2)
        rw [lastContext_cons, Option.or_assoc]
        rfl
    · have hi : ¬Item.takes ev (t.items i) = true := fun h => htakes (of_decide_eq_true h)
      rw [if_neg htakes, List.filter_cons_of_neg hi]
      exact ih ret s

/-- `os_trap` is the calls of the items for the event, in their order. -/
theorem osTrap_eq (s : σ) :
    osTrap call t ev s = (do
      let r ← callAll call ((t.called ev).map Item.handler) s
      return (lastContext r.1, r.2)) := by
  rw [osTrap, trapLoop_eq]
  refine bind_congr fun r => ?_
  rw [Option.or_none]

end Trap

/-! ## The scheduler -/

/-- The item that is alone at the largest `seq` is the last one. -/
theorem entries_last {t : Table H} {as bs : List (Item H)} {it : Item H}
    (hperm : t.entries.Perm (as ++ it :: bs))
    (hsorted : t.entries.Pairwise fun a b => a.seq ≤ b.seq)
    (halone : ∀ r ∈ as ++ bs, r.seq < it.seq) : ∃ xs, t.entries = xs ++ [it] := by
  obtain ⟨xs, ys, hxy⟩ := List.append_of_mem (hperm.mem_iff.mpr (by simp) : it ∈ t.entries)
  rw [hxy] at hperm hsorted
  have hrest : (xs ++ ys).Perm (as ++ bs) :=
    (List.perm_middle.symm.trans (hperm.trans List.perm_middle)).cons_inv
  have hys : ys = [] := by
    refine List.eq_nil_iff_forall_not_mem.mpr fun y hy => ?_
    have hle : it.seq ≤ y.seq :=
      (List.pairwise_cons.mp (List.pairwise_append.mp hsorted).2.1).1 y hy
    exact absurd (halone y (hrest.mem_iff.mp (List.mem_append_right _ hy))) (not_lt.mpr hle)
  exact ⟨xs, hys ▸ hxy⟩

/-- The dispatch after at most `MAX_HANDLER` registrations: the items are the registered ones
in the order of `seq`, a trap calls those for its event in this order and gives the last
context, and the scheduler, alone at `INT32_MAX`, is called last. -/
theorem dispatch_order (items : Nat → Item H) (rs : List (Item H))
    (hlen : rs.length ≤ maxHandler) :
    ∃ t, run onIrq ⟨0, items⟩ rs = .ok t ∧ t.size = rs.length ∧ t.entries.Perm rs ∧
      t.entries.Pairwise (fun a b => a.seq ≤ b.seq) ∧
      (∀ ev, (t.called ev).Perm (rs.filter (Item.takes ev)) ∧
        (t.called ev).Pairwise fun a b => a.seq ≤ b.seq) ∧
      (∀ (C σ : Type) (call : H → σ → Except Fault (Option C × σ)) ev s,
        osTrap call t ev s = (do
          let r ← callAll call ((t.called ev).map Item.handler) s
          return (lastContext r.1, r.2))) ∧
      ∀ as bs h, rs = as ++ ⟨int32Max, eventNull, h⟩ :: bs →
        (∀ r ∈ as ++ bs, IsInt r.seq ∧ r.seq ≠ int32Max) → ∀ ev,
          ∃ others, t.called ev = others ++ [⟨int32Max, eventNull, h⟩] ∧
            ∀ (C σ : Type) (call : H → σ → Except Fault (Option C × σ)) s l s' c s'',
              callAll call (others.map Item.handler) s = .ok (l, s') →
                call h s' = .ok (some c, s'') → osTrap call t ev s = .ok (some c, s'') := by
  obtain ⟨t, ht, hsize, hperm, hsorted⟩ := onIrq_run items rs hlen
  refine ⟨t, ht, hsize, hperm, hsorted, fun ev => ⟨hperm.filter _, hsorted.filter _⟩,
    fun C σ call ev s => osTrap_eq s, ?_⟩
  rintro as bs h rfl halone ev
  have hlt : ∀ r ∈ as ++ bs, r.seq < int32Max := by
    intro r hr
    obtain ⟨⟨-, hub⟩, hne⟩ := halone r hr
    unfold int32Max at hne ⊢
    omega
  obtain ⟨xs, hxs⟩ := entries_last hperm hsorted hlt
  have htakes : Item.takes ev ⟨int32Max, eventNull, h⟩ = true := decide_eq_true (Or.inl rfl)
  have hcalled : t.called ev = xs.filter (Item.takes ev) ++ [⟨int32Max, eventNull, h⟩] := by
    rw [Table.called, hxs, List.filter_append, List.filter_cons_of_pos htakes, List.filter_nil]
  refine ⟨_, hcalled, fun C σ call s l s' c s'' hothers hsched => ?_⟩
  rw [osTrap_eq, hcalled, List.map_append, List.map_singleton, callAll_append, hothers, ok_bind,
    hsched, ok_bind]
  show Except.ok (lastContext (l ++ [some c]), s'') = _
  rw [lastContext_append]

/-- The scheduler is registered before a handler for devices, which runs first. -/
theorem dispatch_order_two :
    ∃ t, run onIrq ⟨0, fun _ => ⟨0, 0, false⟩⟩ [⟨int32Max, eventNull, true⟩, ⟨0, 3, false⟩] =
        .ok t ∧
      osTrap (fun h (s : List Bool) => .ok (some h, h :: s)) t 3 [] =
        .ok (some true, [true, false]) := by
  obtain ⟨t, ht, -, hperm, hsorted, hcalled, htrap, hlast⟩ := dispatch_order
    (fun _ => ⟨0, 0, false⟩) [⟨int32Max, eventNull, true⟩, ⟨0, 3, false⟩] (by decide)
  obtain ⟨others, hothers, -⟩ := hlast [] [⟨0, 3, false⟩] true rfl (by decide) 3
  have hp := (hcalled 3).1
  rw [hothers] at hp
  have hone : others = [⟨0, 3, false⟩] := by
    have hp' := (List.perm_append_comm.trans hp).cons_inv
    exact List.perm_singleton.mp hp'
  refine ⟨t, ht, ?_⟩
  rw [htrap, hothers, hone]
  rfl

end OsWorkbench.Irq
