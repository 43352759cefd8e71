import OsWorkbench.Bf.Model
import OsWorkbench.Lib.Loops

/-!
# What `compile_bf` accepts

A text is accepted exactly if its brackets match, at most `STACK_SIZE` of them inside of each
other, and it has less than `PROGRAM_SIZE` commands. The instructions are then those of the
program that the text is, with every jump at the bracket it belongs to.
-/

namespace OsWorkbench.Bf

open Lib

/-- The commands that are no brackets. -/
inductive Op
  | incDp
  | decDp
  | incVal
  | decVal
  | out
  | read
  deriving DecidableEq

def Op.code : Op → Nat
  | incDp => opIncDp
  | decDp => opDecDp
  | incVal => opIncVal
  | decVal => opDecVal
  | out => opOut
  | read => opIn

def token : Char → Option (Token Op)
  | '>' => some (.op .incDp)
  | '<' => some (.op .decDp)
  | '+' => some (.op .incVal)
  | '-' => some (.op .decVal)
  | '.' => some (.op .out)
  | ',' => some (.op .read)
  | '[' => some .enter
  | ']' => some .leave
  | _ => none

/-- The text without its comments. -/
def commands (code : CStr) : List (Token Op) := (code.bytes.map Char.ofUInt8).filterMap token

/-! ## Without comments -/

/-- What `compileChar` does with a command. -/
def compileToken (k : Token Op) (pc : Nat) (s : Compiler) : Except Fault (Bool × Nat × Compiler) :=
  match k with
  | .op a => .ok (true, next pc, s.setOperator pc a.code)
  | .enter => compileChar '[' pc s
  | .leave => compileChar ']' pc s

def compileTokens : List (Token Op) → Nat → Compiler → Except Fault (Bool × Nat × Compiler)
  | [], pc, s => .ok (true, pc, s)
  | k :: ks, pc, s =>
    if programSize ≤ pc then .ok (true, pc, s)
    else do
      let r ← compileToken k pc s
      if r.1 then compileTokens ks r.2.1 r.2.2 else return r

theorem compileChar_some {c : Char} {k : Token Op} (h : token c = some k) (pc : Nat)
    (s : Compiler) : compileChar c pc s = compileToken k pc s := by
  unfold token at h
  split at h <;> cases h <;> rfl

theorem compileChar_none {c : Char} (h : token c = none) {pc : Nat} (hpc : pc < programSize)
    (s : Compiler) : compileChar c pc s = .ok (true, pc, s) := by
  have hnext : next (prev pc) = pc := by
    unfold next prev programSize at *
    omega
  unfold compileChar
  split
  case h_9 => rw [hnext]
  all_goals cases h

theorem compileChars_eq (cs : List UInt8) (pc : Nat) (s : Compiler) :
    compileChars cs pc s = compileTokens ((cs.map Char.ofUInt8).filterMap token) pc s := by
  induction cs generalizing pc s with
  | nil => rfl
  | cons c cs ih =>
    rw [compileChars, List.map_cons]
    cases hk : token (.ofUInt8 c) with
    | some k =>
      rw [List.filterMap_cons_some hk, compileTokens, compileChar_some hk]
      by_cases hpc : programSize ≤ pc
      · rw [if_pos hpc, if_pos hpc]
      · rw [if_neg hpc, if_neg hpc]
        congr 1
        funext r
        cases r.1
        · rfl
        · exact ih _ _
    | none =>
      rw [List.filterMap_cons_none hk, ← ih]
      by_cases hpc : programSize ≤ pc
      · rw [if_pos hpc]
        cases cs with
        | nil => rfl
        | cons c cs => rw [compileChars, if_pos hpc]
      · rw [if_neg hpc, compileChar_none hk (not_le.mp hpc), ok_bind]
        rfl

/-! ## The instructions of a program -/

/-- The instructions from `i` on, up to `j`, are those of the program. -/
def Seg (P : Nat → Instruction) : Nat → Prog Op → Nat → Prop
  | i, .done, j => i = j
  | i, .op a p, j => (P i).operator = a.code ∧ Seg P (i + 1) p j
  | i, .loop b p, j => ∃ q, (P i).operator = opJmpFwd ∧ (P i).operand = q ∧ Seg P (i + 1) b q ∧
      (P q).operator = opJmpBck ∧ (P q).operand = i ∧ Seg P (q + 1) p j

section Seg

variable {P P' : Nat → Instruction} {p : Prog Op} {i j : Nat}

theorem Seg.le (h : Seg P i p j) : i ≤ j := by
  induction p generalizing i j with
  | done => exact le_of_eq h
  | op a p ih => exact (Nat.le_succ i).trans (ih h.2)
  | loop b p ihb ihp =>
    obtain ⟨q, -, -, hb, -, -, hp⟩ := h
    exact (Nat.le_succ i).trans ((ihb hb).trans ((Nat.le_succ q).trans (ihp hp)))

theorem Seg.congr (h : Seg P i p j) (hsame : ∀ k, i ≤ k → k < j → P' k = P k) : Seg P' i p j := by
  induction p generalizing i j with
  | done => exact h
  | op a p ih =>
    have hlt : i < j := h.2.le
    refine ⟨by rw [hsame i le_rfl hlt, h.1], ih h.2 fun k hk hkj => hsame k (Nat.le_of_lt hk) hkj⟩
  | loop b p ihb ihp =>
    obtain ⟨q, hfwd, hq, hb, hbck, hi, hp⟩ := h
    have hiq : i < q := hb.le
    have hqj : q < j := hp.le
    refine ⟨q, ?_, ?_, ?_, ?_, ?_, ?_⟩
    · rw [hsame i le_rfl (hiq.trans hqj), hfwd]
    · rw [hsame i le_rfl (hiq.trans hqj), hq]
    · exact ihb hb fun k hk hkq => hsame k (Nat.le_of_lt hk) (hkq.trans hqj)
    · rw [hsame q hiq.le hqj, hbck]
    · rw [hsame q hiq.le hqj, hi]
    · exact ihp hp fun k hk hkj => hsame k (hiq.le.trans (Nat.le_of_lt hk)) hkj

end Seg

/-! ## What is accepted -/

/-- What a part of the program leaves of the instructions and of the stack in front of it. -/
structure Frame (s s' : Compiler) (pc : Nat) : Prop where
  sp : s'.sp = s.sp
  stack : ∀ k, k < s.sp → s'.stack k = s.stack k
  program : ∀ k, k < pc → s'.program k = s.program k

theorem next_eq {pc : Nat} (h : pc < programSize) : next pc = pc + 1 := by
  unfold next programSize at *
  omega

@[simp] theorem setOperator_self (s : Compiler) (pc op : Nat) :
    (s.setOperator pc op).program pc = { s.program pc with operator := op } :=
  Function.update_self ..

theorem setOperator_of_ne (s : Compiler) {pc k : Nat} (op : Nat) (h : k ≠ pc) :
    (s.setOperator pc op).program k = s.program k :=
  Function.update_of_ne h ..

@[simp] theorem setOperand_self (s : Compiler) (pc v : Nat) :
    (s.setOperand pc v).program pc = { s.program pc with operand := v } :=
  Function.update_self ..

theorem setOperand_of_ne (s : Compiler) {pc k : Nat} (v : Nat) (h : k ≠ pc) :
    (s.setOperand pc v).program k = s.program k :=
  Function.update_of_ne h ..

section Tokens

variable {s : Compiler} {pc : Nat}

theorem compileTokens_cons {k : Token Op} {ks : List (Token Op)} {s' : Compiler}
    (hpc : pc < programSize) (h : compileToken k pc s = .ok (true, pc + 1, s')) :
    compileTokens (k :: ks) pc s = compileTokens ks (pc + 1) s' := by
  rw [compileTokens, if_neg (not_le.mpr hpc), h, ok_bind, if_pos rfl]

/-- The state behind an opening bracket. -/
def Compiler.opened (s : Compiler) (pc : Nat) : Compiler :=
  { s.setOperator pc opJmpFwd with stack := Function.update s.stack s.sp pc, sp := s.sp + 1 }

/-- The state behind the bracket that closes the one at `i`. -/
def Compiler.closed (s : Compiler) (i pc : Nat) : Compiler :=
  (({ s with sp := s.sp - 1 }.setOperator pc opJmpBck).setOperand pc i).setOperand i pc

theorem opened_stack_self : (s.opened pc).stack s.sp = pc := Function.update_self ..

theorem opened_stack_of_ne {k : Nat} (h : k ≠ s.sp) : (s.opened pc).stack k = s.stack k :=
  Function.update_of_ne h ..

theorem opened_self :
    (s.opened pc).program pc = { s.program pc with operator := opJmpFwd } :=
  setOperator_self ..

theorem opened_of_ne {k : Nat} (h : k ≠ pc) : (s.opened pc).program k = s.program k :=
  setOperator_of_ne _ _ h

theorem closed_first {i : Nat} (h : i ≠ pc) :
    (s.closed i pc).program i = { s.program i with operand := pc } := by
  rw [Compiler.closed, setOperand_self, setOperand_of_ne _ _ h, setOperator_of_ne _ _ h]

theorem closed_last {i : Nat} (h : i ≠ pc) : (s.closed i pc).program pc = ⟨opJmpBck, i⟩ := by
  rw [Compiler.closed, setOperand_of_ne _ _ h.symm, setOperand_self, setOperator_self]

theorem closed_of_ne {i k : Nat} (hi : k ≠ i) (hpc : k ≠ pc) :
    (s.closed i pc).program k = s.program k := by
  rw [Compiler.closed, setOperand_of_ne _ _ hi, setOperand_of_ne _ _ hpc, setOperator_of_ne _ _ hpc]

theorem compileToken_op (a : Op) (hpc : pc < programSize) :
    compileToken (.op a) pc s = .ok (true, pc + 1, s.setOperator pc a.code) := by
  rw [compileToken, next_eq hpc]

theorem compileToken_enter (hpc : pc < programSize) (hsp : s.sp < stackSize) :
    compileToken .enter pc s = .ok (true, pc + 1, s.opened pc) := by
  rw [compileToken, ← next_eq hpc]
  exact (if_neg hsp.ne).trans (inBounds_bind hsp)

theorem compileToken_leave {i : Nat} (hpc : pc < programSize) (hsp : s.sp ≠ 0)
    (hle : s.sp ≤ stackSize) (hi : s.stack (s.sp - 1) = i) (hlt : i < programSize) :
    compileToken .leave pc s = .ok (true, pc + 1, s.closed i pc) := by
  have hpop : s.sp - 1 < stackSize := (Nat.sub_one_lt hsp).trans_le hle
  rw [compileToken, ← next_eq hpc]
  refine (if_neg hsp).trans ((inBounds_bind hpop).trans ?_)
  simp only [hi]
  exact inBounds_bind hlt

theorem compileToken_full (hsp : s.sp = stackSize) :
    compileToken .enter pc s = .ok (false, pc, s.setOperator pc opJmpFwd) := by
  rw [compileToken]
  exact if_pos hsp

theorem compileToken_empty (hsp : s.sp = 0) :
    compileToken .leave pc s = .ok (false, pc, s) := by
  rw [compileToken]
  exact if_pos hsp

/-- The tokens of a program compile to its instructions. -/
theorem compileTokens_prog (p : Prog Op) (pc : Nat) (s : Compiler) (ks : List (Token Op))
    (hpc : pc + p.tokens.length ≤ programSize) (hsp : s.sp + p.depth ≤ stackSize) :
    ∃ s', compileTokens (p.tokens ++ ks) pc s = compileTokens ks (pc + p.tokens.length) s' ∧
      Frame s s' pc ∧ Seg s'.program pc p (pc + p.tokens.length) := by
  induction p generalizing ks pc s with
  | done => exact ⟨s, rfl, ⟨rfl, fun _ _ => rfl, fun _ _ => rfl⟩, rfl⟩
  | op a p ih =>
    rw [Prog.tokens, List.length_cons] at hpc ⊢
    have hlt : pc < programSize := by omega
    obtain ⟨s', hrun, hframe, hseg⟩ := ih (pc + 1) (s.setOperator pc a.code) ks
      (by omega) hsp
    have hlen : pc + 1 + p.tokens.length = pc + (p.tokens.length + 1) := by omega
    rw [hlen] at hrun hseg
    refine ⟨s', ?_, ⟨hframe.sp, hframe.stack, fun k hk => ?_⟩, ?_, hseg⟩
    · rw [List.cons_append, compileTokens_cons hlt (compileToken_op a hlt), hrun]
    · rw [hframe.program k (Nat.lt_succ_of_lt hk), setOperator_of_ne _ _ hk.ne]
    · rw [hframe.program pc (Nat.lt_succ_self pc), setOperator_self]
  | loop b p ihb ihp =>
    rw [Prog.depth] at hsp
    simp only [Prog.tokens, List.length_cons, List.length_append] at hpc ⊢
    have hlt : pc < programSize := by omega
    -- the bracket that opens the loop, and its body
    obtain ⟨s₁, hrun₁, hframe₁, hseg₁⟩ := ihb (pc + 1) (s.opened pc)
      (.leave :: (p.tokens ++ ks)) (by omega) (by
        show s.sp + 1 + b.depth ≤ stackSize
        omega)
    obtain ⟨q, hq⟩ : ∃ q, q = pc + 1 + b.tokens.length := ⟨_, rfl⟩
    rw [← hq] at hrun₁ hseg₁
    have hqlt : q < programSize := by omega
    have hsp₁ : s₁.sp = s.sp + 1 := hframe₁.sp
    have htop : s₁.stack (s₁.sp - 1) = pc := by
      rw [hsp₁, Nat.add_sub_cancel, hframe₁.stack s.sp (Nat.lt_succ_self _), opened_stack_self]
    have hsp₂ : (s₁.closed pc q).sp = s.sp := by
      show s₁.sp - 1 = s.sp
      omega
    -- the bracket that closes it, and what follows
    obtain ⟨s₂, hrun₂, hframe₂, hseg₂⟩ := ihp (q + 1) (s₁.closed pc q) ks (by omega)
      (by omega)
    have hlen : q + 1 + p.tokens.length = pc + (b.tokens.length + (p.tokens.length + 1) + 1) := by
      omega
    rw [hlen] at hrun₂ hseg₂
    have hne : pc ≠ q := by omega
    have hfirst : s₂.program pc = { s₁.program pc with operand := q } := by
      rw [hframe₂.program pc (by omega), closed_first hne]
    have hlast : s₂.program q = ⟨opJmpBck, pc⟩ := by
      rw [hframe₂.program q (Nat.lt_succ_self q), closed_last hne]
    refine ⟨s₂, ?_, ⟨hframe₂.sp.trans hsp₂, fun k hk => ?_, fun k hk => ?_⟩, q, ?_, ?_, ?_, ?_, ?_,
      hseg₂⟩
    · rw [List.cons_append, List.append_assoc, List.cons_append,
        compileTokens_cons hlt (compileToken_enter hlt (by omega)), hrun₁,
        compileTokens_cons hqlt (compileToken_leave hqlt (by omega) (by omega) htop hlt), hrun₂]
    · rw [hframe₂.stack k (hk.trans_eq hsp₂.symm)]
      exact (hframe₁.stack k (Nat.lt_succ_of_lt hk)).trans (opened_stack_of_ne hk.ne)
    · rw [hframe₂.program k (by omega), closed_of_ne hk.ne (by omega),
        hframe₁.program k (Nat.lt_succ_of_lt hk), opened_of_ne hk.ne]
    · rw [hfirst, hframe₁.program pc (Nat.lt_succ_self pc), opened_self]
    · rw [hfirst]
    · refine hseg₁.congr fun k hk hkq => ?_
      rw [hframe₂.program k (Nat.lt_succ_of_lt hkq), closed_of_ne (by omega) hkq.ne]
    · rw [hlast]
    · rw [hlast]

variable {r : Nat × Compiler}

theorem of_compileToken_op {a : Op} (hpc : pc < programSize)
    (h : compileToken (.op a) pc s = .ok (true, r)) : r.1 = pc + 1 ∧ r.2.sp = s.sp := by
  rw [compileToken_op a hpc] at h
  cases h
  exact ⟨rfl, rfl⟩

theorem of_compileToken_enter (hpc : pc < programSize)
    (h : compileToken .enter pc s = .ok (true, r)) :
    s.sp ≠ stackSize ∧ r.1 = pc + 1 ∧ r.2.sp = s.sp + 1 := by
  by_cases hsp : s.sp = stackSize
  · rw [compileToken_full hsp] at h
    cases h
  · obtain ⟨_, hroom, -⟩ := bind_eq_ok.mp ((if_neg hsp).symm.trans h)
    have hlt : s.sp < stackSize := inBounds_eq_ok.mp hroom
    rw [compileToken_enter hpc hlt] at h
    cases h
    exact ⟨hsp, rfl, rfl⟩

theorem of_compileToken_leave (hpc : pc < programSize)
    (h : compileToken .leave pc s = .ok (true, r)) :
    s.sp ≠ 0 ∧ r.1 = pc + 1 ∧ r.2.sp = s.sp - 1 := by
  by_cases hsp : s.sp = 0
  · rw [compileToken_empty hsp] at h
    cases h
  · obtain ⟨_, hpop, hjump⟩ := bind_eq_ok.mp ((if_neg hsp).symm.trans h)
    obtain ⟨_, hback, -⟩ := bind_eq_ok.mp hjump
    have hle : s.sp - 1 < stackSize := inBounds_eq_ok.mp hpop
    have hlt : s.stack (s.sp - 1) < programSize := inBounds_eq_ok.mp hback
    rw [compileToken_leave hpc hsp (by omega) rfl hlt] at h
    cases h
    exact ⟨hsp, rfl, rfl⟩

/-- A token goes to the open parts in front of it. -/
theorem step_parsed {k : Token Op} {p : Prog Op} {ps : List (Prog Op)} (hpc : pc < programSize)
    (hsp : s.sp = ps.length) (hwithin : Prog.Within stackSize (p :: ps))
    (h : compileToken k pc s = .ok (true, r)) :
    r.1 = pc + 1 ∧ ∃ p' ps', r.2.sp = List.length ps' ∧ Prog.Within stackSize (p' :: ps') ∧
      Prog.outside ps ++ p.tokens ++ [k] = Prog.outside ps' ++ p'.tokens := by
  cases k with
  | op a =>
    obtain ⟨hnext, hsp'⟩ := of_compileToken_op hpc h
    refine ⟨hnext, p.append (.op a .done), ps, hsp'.trans hsp, ⟨?_, hwithin.2⟩, ?_⟩
    · rw [Prog.depth_append]
      simpa only [Prog.depth, Nat.max_zero] using hwithin.1
    · rw [Prog.tokens_append, List.append_assoc]
      rfl
  | enter =>
    obtain ⟨hne, hnext, hsp'⟩ := of_compileToken_enter hpc h
    refine ⟨hnext, .done, p :: ps, by rw [hsp', hsp, List.length_cons], hwithin.enter ?_,
      Prog.outside_enter.symm⟩
    have hle := hwithin.1
    omega
  | leave =>
    obtain ⟨hne, hnext, hsp'⟩ := of_compileToken_leave hpc h
    cases ps with
    | nil => exact absurd hsp hne
    | cons q ps =>
      rw [List.length_cons] at hsp
      exact ⟨hnext, q.append (.loop p .done), ps, hsp'.trans (by omega), hwithin.leave,
        Prog.outside_leave.symm⟩

/-- The tokens that compile complete the open parts in front of them. -/
theorem parsed_of_compileTokens {ks : List (Token Op)} (p : Prog Op) (ps : List (Prog Op))
    (hpc : pc ≤ programSize) (hsp : s.sp = ps.length) (hwithin : Prog.Within stackSize (p :: ps))
    (h : compileTokens ks pc s = .ok (true, r)) :
    r.1 = programSize ∨ r.1 = pc + ks.length ∧ r.1 ≤ programSize ∧ ∃ p' ps',
      Prog.outside ps ++ p.tokens ++ ks = Prog.outside ps' ++ p'.tokens ∧ r.2.sp = ps'.length ∧
        Prog.Within stackSize (p' :: ps') := by
  induction ks generalizing pc s p ps with
  | nil =>
    cases h
    exact .inr ⟨rfl, hpc, p, ps, List.append_nil _, hsp, hwithin⟩
  | cons k ks ih =>
    rw [compileTokens] at h
    by_cases hfull : programSize ≤ pc
    · rw [if_pos hfull] at h
      cases h
      exact .inl (le_antisymm hpc hfull)
    have hlt := not_le.mp hfull
    rw [if_neg hfull, bind_eq_ok] at h
    obtain ⟨⟨go, pc', s'⟩, hk, h⟩ := h
    cases go with
    | false => cases h
    | true =>
      rw [if_pos rfl] at h
      obtain ⟨hnext, p', ps', hsp', hwithin', htokens⟩ := step_parsed hlt hsp hwithin hk
      obtain rfl : pc' = pc + 1 := hnext
      obtain hend | ⟨hend, hle, p'', ps'', htokens', hrest⟩ := ih p' ps' hlt hsp' hwithin' h
      · exact .inl hend
      · refine .inr ⟨?_, hle, p'', ps'', ?_, hrest⟩
        · rw [hend, List.length_cons]
          omega
        · rw [← htokens', ← htokens, List.append_assoc _ [k]]
          rfl

/-- No bracket leads out of the arrays. -/
theorem exists_compileTokens (ks : List (Token Op)) (pc : Nat) (hle : s.sp ≤ stackSize)
    (hstack : ∀ k, k < s.sp → s.stack k < programSize) :
    ∃ r, compileTokens ks pc s = .ok r := by
  induction ks generalizing pc s with
  | nil => exact ⟨_, rfl⟩
  | cons k ks ih =>
    rw [compileTokens]
    by_cases hpc : programSize ≤ pc
    · exact ⟨_, if_pos hpc⟩
    rw [if_neg hpc]
    have hlt := not_le.mp hpc
    cases k with
    | op a =>
      rw [compileToken_op a hlt, ok_bind]
      exact ih (pc + 1) hle hstack
    | enter =>
      by_cases hsp : s.sp = stackSize
      · rw [compileToken_full hsp]
        exact ⟨_, rfl⟩
      · have hroom : s.sp < stackSize := lt_of_le_of_ne hle hsp
        rw [compileToken_enter hlt hroom, ok_bind]
        refine ih (pc + 1) hroom fun k hk => ?_
        obtain hk | rfl := Nat.lt_succ_iff_lt_or_eq.mp hk
        · rw [opened_stack_of_ne hk.ne]
          exact hstack k hk
        · rw [opened_stack_self]
          exact hlt
    | leave =>
      by_cases hsp : s.sp = 0
      · rw [compileToken_empty hsp]
        exact ⟨_, rfl⟩
      · rw [compileToken_leave hlt hsp hle rfl (hstack _ (Nat.sub_one_lt hsp)), ok_bind]
        exact ih (pc + 1) ((Nat.sub_le _ _).trans hle) fun k hk =>
          hstack k (hk.trans_le (Nat.sub_le _ _))

end Tokens

/-- The program is one that `compile_bf` has room for. -/
structure HasRoom (p : Prog Op) : Prop where
  depth : p.depth ≤ stackSize
  length : p.tokens.length < programSize

section

variable {code : CStr} {s s' : Compiler} {p : Prog Op}

theorem compileChars_commands (code : CStr) (s : Compiler) :
    compileChars code.bytes 0 s = compileTokens (commands code) 0 s :=
  compileChars_eq ..

theorem exists_prog (hsp : s.sp = 0) (h : compileBf code s = .ok (success, s')) :
    ∃ p, commands code = p.tokens ∧ HasRoom p := by
  rw [compileBf, compileChars_commands, bind_eq_ok] at h
  obtain ⟨⟨go, pc, t⟩, hrun, h⟩ := h
  cases go with
  | false => cases h
  | true =>
    rw [if_neg (ne_false_of_eq_true rfl)] at h
    by_cases hbad : t.sp ≠ 0 ∨ pc = programSize
    · rw [if_pos hbad] at h
      cases h
    obtain ⟨ht, hpc⟩ := not_or.mp hbad
    obtain hend | ⟨hend, hle, p, ps, htokens, hsp', hwithin⟩ :=
      parsed_of_compileTokens .done [] (Nat.zero_le _) hsp ⟨Nat.zero_le _, trivial⟩
        hrun
    · exact absurd hend hpc
    · obtain rfl : ps = [] := List.eq_nil_of_length_eq_zero (hsp'.symm.trans (not_not.mp ht))
      have hcommands : commands code = p.tokens := htokens
      rw [hcommands, Nat.zero_add] at hend
      exact ⟨p, hcommands, (Nat.zero_add _).symm.trans_le hwithin.1,
        hend.symm.trans_lt (lt_of_le_of_ne hle hpc)⟩

/-- A program that there is room for is accepted, and its instructions stand in front of the
instruction that ends it. -/
theorem compileBf_prog (hsp : s.sp = 0) (hp : commands code = p.tokens) (hroom : HasRoom p) :
    ∃ s', compileBf code s = .ok (success, s') ∧ Seg s'.program 0 p p.tokens.length ∧
      (s'.program p.tokens.length).operator = opEnd := by
  obtain ⟨s', hrun, hframe, hseg⟩ := compileTokens_prog p 0 s [] (by
    rw [Nat.zero_add]
    exact hroom.length.le) (by
    rw [hsp, Nat.zero_add]
    exact hroom.depth)
  rw [Nat.zero_add] at hrun hseg
  refine ⟨s'.setOperator p.tokens.length opEnd, ?_, ?_, ?_⟩
  · have hcompile : compileChars code.bytes 0 s = .ok (true, p.tokens.length, s') := by
      rw [compileChars_commands, hp, ← List.append_nil p.tokens, hrun, List.append_nil]
      rfl
    have hgood : ¬(s'.sp ≠ 0 ∨ p.tokens.length = programSize) :=
      not_or.mpr ⟨not_not.mpr (hframe.sp.trans hsp), hroom.length.ne⟩
    rw [compileBf, hcompile, ok_bind, if_neg (ne_false_of_eq_true rfl), if_neg hgood,
      inBounds_bind hroom.length]
    rfl
  · exact hseg.congr fun k _ hk => setOperator_of_ne _ _ hk.ne
  · rw [setOperator_self]

/-- `compile_bf` always returns, and it returns `SUCCESS` exactly for the text of a program
that it has room for. -/
theorem compile_decides (code : CStr) {s : Compiler} (hsp : s.sp = 0) :
    ∃ v s', compileBf code s = .ok (v, s') ∧
      (v = success ↔ ∃ p, commands code = p.tokens ∧ HasRoom p) := by
  obtain ⟨⟨v, s'⟩, hrun⟩ : ∃ r, compileBf code s = .ok r := by
    obtain ⟨⟨go, pc, t⟩, hr⟩ := exists_compileTokens (commands code) 0 (s := s)
      (hsp.trans_le (Nat.zero_le _)) (by
        rw [hsp]
        exact fun k hk => absurd hk (Nat.not_lt_zero k))
    rw [compileBf, compileChars_commands, hr, ok_bind]
    cases go with
    | false => exact ⟨_, rfl⟩
    | true =>
      have hle : pc ≤ programSize := by
        obtain hend | ⟨-, hle, -⟩ := parsed_of_compileTokens .done [] (Nat.zero_le _) hsp
          ⟨Nat.zero_le _, trivial⟩ hr
        · exact hend.le
        · exact hle
      rw [if_neg (ne_false_of_eq_true rfl)]
      split
      · exact ⟨_, rfl⟩
      next hgood =>
        rw [inBounds_bind (lt_of_le_of_ne hle (not_or.mp hgood).2)]
        exact ⟨_, rfl⟩
  refine ⟨v, s', hrun, ?_, ?_⟩
  · rintro rfl
    exact exists_prog hsp hrun
  · rintro ⟨p, hp, hroom⟩
    obtain ⟨s'', hrun', -⟩ := compileBf_prog hsp hp hroom
    rw [hrun] at hrun'
    cases hrun'
    rfl

/-- The text `+[-].`. -/
def clear : Prog Op := .op .incVal (.loop (.op .decVal .done) (.op .out .done))

theorem commands_clear : commands (.lit "+[-].") = clear.tokens := by decide

theorem clear_hasRoom : HasRoom clear := ⟨by decide, by decide⟩

theorem compile_decides_clear :
    ∃ s', compileBf (.lit "+[-].") ⟨fun _ => ⟨0, 0⟩, fun _ => 0, 0⟩ = .ok (success, s') := by
  obtain ⟨v, s', hrun, hiff⟩ := compile_decides (.lit "+[-].")
    (s := ⟨fun _ => ⟨0, 0⟩, fun _ => 0, 0⟩) rfl
  obtain rfl : v = success := hiff.mpr ⟨clear, commands_clear, clear_hasRoom⟩
  exact ⟨s', hrun⟩

end

end OsWorkbench.Bf
