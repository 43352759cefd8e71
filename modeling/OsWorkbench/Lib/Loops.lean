import Mathlib.Order.Lattice
import Mathlib.Order.Nat
import Mathlib.Data.List.Basic

/-!
# Programs of loops

Programs of primitive operations and of loops, how they are written with brackets, and which
results their runs end with.
-/

namespace OsWorkbench.Lib

/-- A program: nothing, an operation and what follows it, or a loop and what follows it. -/
inductive Prog (α : Type)
  | done
  | op (a : α) (next : Prog α)
  | loop (body next : Prog α)

inductive Token (α : Type)
  | op (a : α)
  | enter
  | leave
  deriving DecidableEq

namespace Prog

variable {α σ ε : Type}

def append : Prog α → Prog α → Prog α
  | done, q => q
  | op a p, q => op a (append p q)
  | loop b p, q => loop b (append p q)

/-- The program as it is written. -/
def tokens : Prog α → List (Token α)
  | done => []
  | op a p => .op a :: tokens p
  | loop b p => .enter :: (tokens b ++ .leave :: tokens p)

/-- The depth of the loops. -/
def depth : Prog α → Nat
  | done => 0
  | op _ p => depth p
  | loop b p => max (depth b + 1) (depth p)

@[simp] theorem tokens_append (p q : Prog α) : (p.append q).tokens = p.tokens ++ q.tokens := by
  induction p with
  | done => rfl
  | op a p ih => rw [append, tokens, ih, tokens, List.cons_append]
  | loop b p _ ih => rw [append, tokens, ih, tokens, List.cons_append, List.append_assoc,
      List.cons_append]

@[simp] theorem depth_append (p q : Prog α) : (p.append q).depth = max p.depth q.depth := by
  induction p with
  | done => exact (Nat.zero_max _).symm
  | op a p ih => rw [append, depth, ih, depth]
  | loop b p _ ih => rw [append, depth, ih, depth, Nat.max_assoc]

/-- What is written behind a program inside of brackets, or behind all of it. -/
def Closes (ks : List (Token α)) : Prop := ∀ k ∈ ks.head?, k = .leave

theorem not_closes_op {a : α} {ks : List (Token α)} : ¬Closes (.op a :: ks) := by
  intro h
  cases h _ rfl

theorem not_closes_enter {ks : List (Token α)} : ¬Closes (.enter :: ks) := by
  intro h
  cases h _ rfl

theorem closes_leave {ks : List (Token α)} : Closes (.leave :: ks) := by
  intro k hk
  exact (Option.mem_some.mp hk).symm

/-- A program can be read back from what is written. -/
theorem tokens_split {p q : Prog α} {ks ks' : List (Token α)} (hks : Closes ks) (hks' : Closes ks')
    (h : p.tokens ++ ks = q.tokens ++ ks') : p = q ∧ ks = ks' := by
  induction p generalizing q ks ks' with
  | done =>
    cases q with
    | done => exact ⟨rfl, h⟩
    | op a q =>
      rw [tokens, List.nil_append] at h
      exact absurd (h ▸ hks) not_closes_op
    | loop b q =>
      rw [tokens, List.nil_append] at h
      exact absurd (h ▸ hks) not_closes_enter
  | op a p ih =>
    cases q with
    | done =>
      rw [tokens, tokens, List.nil_append] at h
      exact absurd (h ▸ hks') not_closes_op
    | op a' q =>
      rw [tokens, tokens, List.cons_append, List.cons_append] at h
      injection h with ha h
      cases ha
      obtain ⟨rfl, hrest⟩ := ih hks hks' h
      exact ⟨rfl, hrest⟩
    | loop b q => cases h
  | loop b p ihb ihp =>
    cases q with
    | done =>
      rw [tokens, tokens, List.nil_append] at h
      exact absurd (h ▸ hks') not_closes_enter
    | op a q => cases h
    | loop b' q =>
      simp only [tokens, List.cons_append, List.append_assoc] at h
      injection h with _ h
      obtain ⟨rfl, hclose⟩ := ihb closes_leave closes_leave h
      injection hclose with _ htail
      obtain ⟨rfl, hrest⟩ := ihp hks hks' htail
      exact ⟨rfl, hrest⟩

theorem tokens_injective {p q : Prog α} (h : p.tokens = q.tokens) : p = q := by
  have hnil : Closes ([] : List (Token α)) := by
    intro k hk
    cases hk
  exact (tokens_split hnil hnil (by rw [h])).1

/-! ## Open brackets -/

/-- What is written in front of the innermost of the open brackets, which stand behind the
programs of the list, the innermost first. -/
def outside : List (Prog α) → List (Token α)
  | [] => []
  | p :: ps => outside ps ++ (p.tokens ++ [.enter])

/-- The parts do not go deeper than `n` brackets in all. -/
def Within (n : Nat) : List (Prog α) → Prop
  | [] => True
  | p :: ps => ps.length + p.depth ≤ n ∧ Within n ps

variable {n : Nat} {p q : Prog α} {ps : List (Prog α)}

theorem outside_enter : outside (p :: ps) ++ done.tokens = outside ps ++ p.tokens ++ [.enter] := by
  rw [outside, tokens, List.append_nil, List.append_assoc]

theorem outside_leave : outside ps ++ (p.append (loop q done)).tokens =
    outside (p :: ps) ++ q.tokens ++ [.leave] := by
  simp only [outside, tokens_append, tokens, List.append_assoc, List.cons_append, List.nil_append]

theorem Within.enter (h : Within n (p :: ps)) (hlt : ps.length < n) : Within n (done :: p :: ps) :=
  ⟨hlt, h⟩

theorem Within.leave (h : Within n (q :: p :: ps)) : Within n (p.append (loop q done) :: ps) := by
  obtain ⟨hq, hp, hps⟩ := h
  refine ⟨?_, hps⟩
  rw [depth_append, depth, depth]
  rw [List.length_cons] at hq
  omega

/-! ## Runs -/

variable {exec : α → σ → Except ε σ} {test : σ → Bool}

/-- The run of the program from a state ends with a result: a state, or the fault of an
operation. -/
inductive Ends (exec : α → σ → Except ε σ) (test : σ → Bool) : Prog α → σ → Except ε σ → Prop
  | done {s : σ} : Ends exec test done s (.ok s)
  | op {a : α} {p : Prog α} {s s' : σ} {r : Except ε σ} :
      exec a s = .ok s' → Ends exec test p s' r → Ends exec test (op a p) s r
  | fault {a : α} {p : Prog α} {s : σ} {e : ε} :
      exec a s = .error e → Ends exec test (op a p) s (.error e)
  | skip {b p : Prog α} {s : σ} {r : Except ε σ} :
      test s = false → Ends exec test p s r → Ends exec test (loop b p) s r
  | enter {b p : Prog α} {s : σ} {r : Except ε σ} :
      test s = true → Ends exec test (b.append (loop b p)) s r → Ends exec test (loop b p) s r

/-- A state that no operation changes and that no loop enters stays. -/
theorem Ends.of_stuck {s : σ} (hop : ∀ a, exec a s = .ok s) (htest : test s = false) (p : Prog α) :
    Ends exec test p s (.ok s) := by
  induction p with
  | done => exact .done
  | op a p ih => exact .op (hop a) ih
  | loop b p _ ih => exact .skip htest ih

theorem Ends.stuck {s : σ} {r : Except ε σ} (hop : ∀ a, exec a s = .ok s) (htest : test s = false)
    (h : Ends exec test p s r) : r = .ok s := by
  induction h with
  | done => rfl
  | op hexec _ ih =>
    have hsame := (hop _).symm.trans hexec
    cases hsame
    exact ih hop htest
  | fault hexec =>
    have hsame := (hop _).symm.trans hexec
    cases hsame
  | skip _ _ ih => exact ih hop htest
  | enter hgo => exact absurd (hgo.symm.trans htest) (by decide)

end Prog

end OsWorkbench.Lib
