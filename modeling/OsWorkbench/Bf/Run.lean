import OsWorkbench.Bf.Compile

/-!
# The runs of `execute_bf`

The run of the compiled instructions ends with the result that the run of the program ends
with, and goes on for ever if that does. A command does nothing any more once the pointer is
outside of the data: `execute_bf` returns there.
-/

namespace OsWorkbench.Bf

open Lib

/-! ## The commands -/

def Op.exec : Op → Machine → Except Fault Machine
  | incDp, m => .ok m.incDp
  | decDp, m => .ok m.decDp
  | incVal, m => .ok (m.store (m.data m.ptr + 1))
  | decVal, m => .ok (m.store (m.data m.ptr - 1))
  | out, m => m.out
  | read, m => m.read

/-- A command as a part of a run, which is over outside of the data. -/
def execOp (a : Op) (m : Machine) : Except Fault Machine :=
  if m.ptr < dataSize then a.exec m else .ok m

/-- A loop goes on. -/
def goesOn (m : Machine) : Bool := decide (m.ptr < dataSize ∧ m.data m.ptr ≠ 0)

section Steps

variable {P : Nat → Instruction} {n pc : Nat} {m : Machine}

theorem executeBf_end (hpc : pc < programSize) (h : (P pc).operator = opEnd) :
    executeBf P (n + 1) pc m = some (.ok m) := by
  rw [executeBf, if_neg (not_le.mpr hpc), if_pos (.inl h)]

theorem executeBf_outside (hpc : pc < programSize) (h : ¬m.ptr < dataSize) :
    executeBf P (n + 1) pc m = some (.ok m) := by
  rw [executeBf, if_neg (not_le.mpr hpc), if_pos (.inr (not_lt.mp h))]

theorem add32_pc (hpc : pc < programSize) : add32 pc 1 = pc + 1 := by
  refine add32_eq ?_
  unfold programSize at hpc
  omega

theorem executeBf_op {a : Op} (hpc : pc < programSize) (h : (P pc).operator = a.code)
    (hptr : m.ptr < dataSize) :
    executeBf P (n + 1) pc m =
      match a.exec m with
      | .ok m' => executeBf P n (pc + 1) m'
      | .error e => some (.error e) := by
  have hcode : a.code ≠ opEnd := by cases a <;> decide
  have hgo : ¬(a.code = opEnd ∨ dataSize ≤ m.ptr) := not_or.mpr ⟨hcode, not_le.mpr hptr⟩
  rw [executeBf, if_neg (not_le.mpr hpc), h, if_neg hgo, add32_pc hpc]
  cases a <;> rfl

theorem executeBf_fwd {q : Nat} (hpc : pc < programSize) (hq : q < programSize)
    (h : P pc = ⟨opJmpFwd, q⟩) (hptr : m.ptr < dataSize) :
    executeBf P (n + 1) pc m = executeBf P n ((if m.data m.ptr = 0 then q else pc) + 1) m := by
  have hgo : ¬(opJmpFwd = opEnd ∨ dataSize ≤ m.ptr) :=
    not_or.mpr ⟨by decide, not_le.mpr hptr⟩
  have hto : (if m.data m.ptr = 0 then q else pc) < programSize := by
    split
    · exact hq
    · exact hpc
  rw [← add32_pc hto, executeBf, if_neg (not_le.mpr hpc), h, if_neg hgo]
  rfl

theorem executeBf_bck {q : Nat} (hpc : pc < programSize) (hq : q < programSize)
    (h : P pc = ⟨opJmpBck, q⟩) (hptr : m.ptr < dataSize) :
    executeBf P (n + 1) pc m = executeBf P n ((if m.data m.ptr ≠ 0 then q else pc) + 1) m := by
  have hgo : ¬(opJmpBck = opEnd ∨ dataSize ≤ m.ptr) :=
    not_or.mpr ⟨by decide, not_le.mpr hptr⟩
  have hto : (if m.data m.ptr ≠ 0 then q else pc) < programSize := by
    split
    · exact hq
    · exact hpc
  rw [← add32_pc hto, executeBf, if_neg (not_le.mpr hpc), h, if_neg hgo]
  rfl

end Steps

/-! ## Where a run is -/

/-- The brackets of a loop around `b` stand at `i` and `q`. -/
structure LoopAt (P : Nat → Instruction) (i : Nat) (b : Prog Op) (q : Nat) : Prop where
  first : P i = ⟨opJmpFwd, q⟩
  body : Seg P (i + 1) b q
  last : P q = ⟨opJmpBck, i⟩

/-- What is left to run at `i` is the program: the rest of the instructions, or the rest of the
body of a loop, the loop again and what follows it. -/
inductive At (P : Nat → Instruction) : Nat → Prog Op → Prop
  | rest {i j : Nat} {p : Prog Op} :
      Seg P i p j → j < programSize → (P j).operator = opEnd → At P i p
  | inside {i h q : Nat} {c b p : Prog Op} :
      Seg P i c q → LoopAt P h b q → At P (q + 1) p → At P i (c.append (.loop b p))

variable {P : Nat → Instruction} {i q n : Nat} {a : Op} {b p p' : Prog Op} {m : Machine}
  {r : Except Fault Machine}

theorem At.lt (h : At P i p) : i < programSize := by
  induction h with
  | rest hseg hj _ => exact hseg.le.trans_lt hj
  | inside hseg _ _ ih => exact hseg.le.trans_lt (Nat.lt_of_succ_lt ih)

theorem At.done (h : At P i p') (hp : p' = .done) : (P i).operator = opEnd := by
  subst hp
  generalize hp : Prog.done = p' at h
  cases h with
  | rest hseg hj hend =>
    subst hp
    exact hseg ▸ hend
  | @inside _ _ _ c =>
    cases c <;> cases hp

theorem At.op (h : At P i p') (hp : p' = .op a p) :
    (P i).operator = a.code ∧ At P (i + 1) p := by
  cases h with
  | rest hseg hj hend =>
    subst hp
    exact ⟨hseg.1, .rest hseg.2 hj hend⟩
  | @inside _ _ _ c _ _ hseg hloop hrest =>
    cases c with
    | done => cases hp
    | loop => cases hp
    | op a c =>
      cases hp
      exact ⟨hseg.1, .inside hseg.2 hloop hrest⟩

/-- A loop is run at its first bracket, and again at its last one. -/
theorem At.loop (h : At P i p') (hp : p' = .loop b p) :
    ∃ j q, LoopAt P j b q ∧ At P (q + 1) p ∧ (i = j ∨ i = q) := by
  cases h with
  | rest hseg hj hend =>
    subst hp
    obtain ⟨q, hfwd, hq, hb, hbck, hi, hp⟩ := hseg
    exact ⟨i, q, ⟨by rw [← hfwd, ← hq], hb, by rw [← hbck, ← hi]⟩, .rest hp hj hend, .inl rfl⟩
  | @inside _ j q c _ _ hseg hloop hrest =>
    cases c with
    | done =>
      cases hp
      exact ⟨j, q, hloop, hrest, .inr hseg⟩
    | op => cases hp
    | loop b c =>
      cases hp
      obtain ⟨q', hfwd, hq, hb, hbck, hi, hp⟩ := hseg
      exact ⟨i, q', ⟨by rw [← hfwd, ← hq], hb, by rw [← hbck, ← hi]⟩, .inside hp hloop hrest,
        .inl rfl⟩

theorem LoopAt.enter {j : Nat} (h : LoopAt P j b q) (hrest : At P (q + 1) p) :
    At P (j + 1) (b.append (.loop b p)) :=
  .inside h.body h hrest

theorem LoopAt.executeBf_eq {j : Nat} (h : LoopAt P j b q) (hq : q < programSize)
    (hi : i = j ∨ i = q) (hptr : m.ptr < dataSize) :
    executeBf P (n + 1) i m = executeBf P n ((if goesOn m then j else q) + 1) m := by
  have hj : j < programSize := (Nat.lt_of_succ_le h.body.le).trans hq
  have hgo : goesOn m = true ↔ m.data m.ptr ≠ 0 := by
    rw [goesOn, decide_eq_true_iff]
    exact and_iff_right hptr
  obtain rfl | rfl := hi
  · rw [executeBf_fwd hj hq h.first hptr]
    by_cases hzero : m.data m.ptr = 0
    · rw [if_pos hzero, if_neg fun hm => hgo.mp hm hzero]
    · rw [if_neg hzero, if_pos (hgo.mpr hzero)]
  · rw [executeBf_bck hq hj h.last hptr]
    by_cases hzero : m.data m.ptr = 0
    · rw [if_neg (not_not.mpr hzero), if_neg fun hm => hgo.mp hm hzero]
    · rw [if_pos hzero, if_pos (hgo.mpr hzero)]

/-! ## The two runs -/

theorem execOp_outside (hptr : ¬m.ptr < dataSize) (a : Op) : execOp a m = .ok m := if_neg hptr

theorem goesOn_outside (hptr : ¬m.ptr < dataSize) : goesOn m = false :=
  decide_eq_false fun h => hptr h.1

theorem At.run_of_ends (h : p.Ends execOp goesOn m r) (hat : At P i p) :
    ∃ n, executeBf P n i m = some r := by
  induction h generalizing i with
  | done => exact ⟨1, executeBf_end hat.lt (hat.done rfl)⟩
  | @op a p s s' r hexec hends ih =>
    obtain ⟨hcode, hnext⟩ := hat.op rfl
    by_cases hptr : s.ptr < dataSize
    · obtain ⟨n, hn⟩ := ih hnext
      rw [execOp, if_pos hptr] at hexec
      refine ⟨n + 1, ?_⟩
      rw [executeBf_op hat.lt hcode hptr, hexec]
      exact hn
    · refine ⟨1, ?_⟩
      rw [executeBf_outside hat.lt hptr, (Prog.Ends.op hexec hends).stuck (execOp_outside hptr)
        (goesOn_outside hptr)]
  | @fault a p s e hexec =>
    by_cases hptr : s.ptr < dataSize
    · rw [execOp, if_pos hptr] at hexec
      refine ⟨1, ?_⟩
      rw [executeBf_op hat.lt (hat.op rfl).1 hptr, hexec]
    · rw [execOp_outside hptr] at hexec
      cases hexec
  | @skip b p s r htest hends ih =>
    obtain ⟨j, q, hloop, hrest, hi⟩ := hat.loop rfl
    by_cases hptr : s.ptr < dataSize
    · obtain ⟨n, hn⟩ := ih hrest
      refine ⟨n + 1, ?_⟩
      rw [hloop.executeBf_eq (Nat.lt_of_succ_lt hrest.lt) hi hptr, htest]
      exact hn
    · refine ⟨1, ?_⟩
      rw [executeBf_outside hat.lt hptr, (Prog.Ends.skip (b := b) htest hends).stuck
        (execOp_outside hptr) (goesOn_outside hptr)]
  | @enter b p s r htest hends ih =>
    obtain ⟨j, q, hloop, hrest, hi⟩ := hat.loop rfl
    obtain ⟨n, hn⟩ := ih (hloop.enter hrest)
    have hptr : s.ptr < dataSize := (of_decide_eq_true htest).1
    refine ⟨n + 1, ?_⟩
    rw [hloop.executeBf_eq (Nat.lt_of_succ_lt hrest.lt) hi hptr, if_pos htest]
    exact hn

theorem At.ends_of_run (h : executeBf P n i m = some r) (hat : At P i p) :
    p.Ends execOp goesOn m r := by
  induction n generalizing i m p with
  | zero => cases h
  | succ n ih =>
    by_cases hptr : m.ptr < dataSize
    · cases p with
      | done =>
        rw [executeBf_end hat.lt (hat.done rfl)] at h
        cases h
        exact .done
      | op a p =>
        obtain ⟨hcode, hnext⟩ := hat.op rfl
        rw [executeBf_op hat.lt hcode hptr] at h
        have hexec : execOp a m = a.exec m := if_pos hptr
        cases hm : a.exec m with
        | ok m' =>
          rw [hm] at h
          exact .op (hexec.trans hm) (ih h hnext)
        | error e =>
          rw [hm] at h
          cases h
          exact .fault (hexec.trans hm)
      | loop b p =>
        obtain ⟨j, q, hloop, hrest, hi⟩ := hat.loop rfl
        rw [hloop.executeBf_eq (Nat.lt_of_succ_lt hrest.lt) hi hptr] at h
        cases htest : goesOn m with
        | true =>
          rw [htest, if_pos rfl] at h
          exact .enter htest (ih h (hloop.enter hrest))
        | false =>
          rw [htest] at h
          exact .skip htest (ih h hrest)
    · rw [executeBf_outside hat.lt hptr] at h
      cases h
      exact .of_stuck (execOp_outside hptr) (goesOn_outside hptr) p

/-- The compiled instructions of a text run like the program that the text is: with the same
result, or for ever if the program does. -/
theorem execute_compiled {code : CStr} {s s' : Compiler} {p : Prog Op} (hsp : s.sp = 0)
    (hp : commands code = p.tokens) (h : compileBf code s = .ok (success, s')) (m : Machine)
    (r : Except Fault Machine) :
    (∃ n, executeBf s'.program n 0 m = some r) ↔ p.Ends execOp goesOn m r := by
  obtain ⟨p', hp', hroom⟩ := exists_prog hsp h
  obtain rfl : p' = p := Prog.tokens_injective (hp'.symm.trans hp)
  obtain ⟨s'', hrun, hseg, hend⟩ := compileBf_prog hsp hp hroom
  rw [h] at hrun
  cases hrun
  have hat : At s'.program 0 p' := .rest hseg hroom.length hend
  exact ⟨fun ⟨n, hn⟩ => hat.ends_of_run hn, hat.run_of_ends⟩

theorem execute_compiled_clear :
    ∃ s', compileBf (.lit "+[-].") ⟨fun _ => ⟨0, 0⟩, fun _ => 0, 0⟩ = .ok (success, s') ∧
      ∃ n m, executeBf s'.program n 0 ⟨fun _ => 0, 0, [], []⟩ = some (.ok m) ∧
        m.output = [0] := by
  obtain ⟨s', hrun, -⟩ := compileBf_prog (s := ⟨fun _ => ⟨0, 0⟩, fun _ => 0, 0⟩) rfl
    commands_clear clear_hasRoom
  have hends : clear.Ends execOp goesOn ⟨fun _ => 0, 0, [], []⟩ (.ok _) :=
    .op rfl (.enter rfl (.op rfl (.skip rfl (.op rfl .done))))
  obtain ⟨n, hn⟩ := (execute_compiled rfl commands_clear hrun _ _).mpr hends
  exact ⟨s', hrun, n, _, hn, rfl⟩

end OsWorkbench.Bf
