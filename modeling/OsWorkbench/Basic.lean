import Mathlib

/-!
# Common ground of the models

The C code is embedded as functions into `Except Fault`. A result `.ok` is a
normal return; `.error` records why the code does not get that far. Machine
words are natural numbers below `2 ^ 32`, with the reduction written where the C
arithmetic may wrap.
-/

namespace OsWorkbench

/-- Why a modelled call does not return.

* `assertion`: a failed `assert`.
* `badAccess`: a null pointer is dereferenced or an array is indexed outside
  its bounds.
* `diverges`: a loop runs past the bound that every terminating run respects.
* `exit`: the program calls `exit(1)` or `_halt(1)`.
* `overflow`: the result of a signed operation is not an `int`.
* `divide`: a division by zero. -/
inductive Fault
  | assertion
  | badAccess
  | diverges
  | exit
  | overflow
  | divide
  deriving DecidableEq, Repr

/-- `assert(p)`. -/
def check (p : Prop) [Decidable p] : Except Fault Unit :=
  if p then .ok () else .error .assertion

/-- An array access `a[i]` is in range. -/
def inBounds (p : Prop) [Decidable p] : Except Fault Unit :=
  if p then .ok () else .error .badAccess

/-- The bounds check of `a[i]` with `int i`, for an array of `n` elements. -/
def index (i : Int) (n : Nat) : Except Fault Nat :=
  if 0 ≤ i ∧ i < n then .ok i.toNat else .error .badAccess

/-- Unsigned 32-bit addition. -/
def add32 (a b : Nat) : Nat := (a + b) % 2 ^ 32

/-- Unsigned 32-bit subtraction. -/
def sub32 (a b : Nat) : Nat := (a + 2 ^ 32 - b) % 2 ^ 32

/-- The values of an `int`. -/
def IsInt (v : Int) : Prop := -2 ^ 31 ≤ v ∧ v < 2 ^ 31

instance (v : Int) : Decidable (IsInt v) := inferInstanceAs (Decidable (_ ∧ _))

/-- The result of signed arithmetic. -/
def int (v : Int) : Except Fault Int := if IsInt v then .ok v else .error .overflow

/-- The conversion to `int`. -/
def toInt (n : Nat) : Int := (n : Int).bmod (2 ^ 32)

/-- The index of the first node of a chain that ends in `-1`. -/
def headOf : List Nat → Int
  | [] => -1
  | i :: _ => i

@[simp] theorem headOf_nil : headOf [] = -1 := rfl

@[simp] theorem headOf_cons (i : Nat) (l : List Nat) : headOf (i :: l) = i := rfl

/-! ## Equations of the error monad -/

section Monad

variable {ε α β : Type}

@[simp] theorem ok_bind (a : α) (f : α → Except ε β) : (Except.ok a >>= f) = f a := rfl

@[simp] theorem error_bind (e : ε) (f : α → Except ε β) :
    ((Except.error e : Except ε α) >>= f) = .error e := rfl

@[simp] theorem pure_eq_ok (a : α) : (pure a : Except ε α) = .ok a := rfl

@[simp] theorem throw_eq_error (e : ε) : (throw e : Except ε α) = .error e := rfl

theorem bind_eq_ok {x : Except ε α} {f : α → Except ε β} {b : β} :
    (x >>= f) = .ok b ↔ ∃ a, x = .ok a ∧ f a = .ok b := by
  cases x <;> simp

theorem bind_eq_error {x : Except ε α} {f : α → Except ε β} {e : ε} :
    (x >>= f) = .error e ↔ x = .error e ∨ ∃ a, x = .ok a ∧ f a = .error e := by
  cases x <;> simp

/-- A returned value that passes a test. -/
theorem exists_of_test {x : Except ε α} {f : α → Bool}
    (h : (match x with | .ok a => f a | .error _ => false) = true) :
    ∃ a, x = .ok a ∧ f a = true := by
  cases x with
  | ok a => exact ⟨a, rfl, h⟩
  | error e => cases h

theorem toOption_eq_some {x : Except ε α} {a : α} : x.toOption = some a ↔ x = .ok a := by
  cases x <;> simp [Except.toOption]

end Monad

theorem check_pos {p : Prop} [Decidable p] (h : p) : check p = .ok () := if_pos h

theorem check_neg {p : Prop} [Decidable p] (h : ¬p) : check p = .error .assertion := if_neg h

theorem check_bind {β : Type} {p : Prop} [Decidable p] (h : p) {k : Unit → Except Fault β} :
    (check p >>= k) = k () := by
  rw [check_pos h, ok_bind]

@[simp] theorem check_eq_ok {p : Prop} [Decidable p] {u : Unit} : check p = .ok u ↔ p := by
  unfold check
  split <;> simp_all

theorem inBounds_pos {p : Prop} [Decidable p] (h : p) : inBounds p = .ok () := if_pos h

theorem inBounds_neg {p : Prop} [Decidable p] (h : ¬p) : inBounds p = .error .badAccess :=
  if_neg h

theorem inBounds_bind {β : Type} {p : Prop} [Decidable p] (h : p) {k : Unit → Except Fault β} :
    (inBounds p >>= k) = k () := by
  rw [inBounds_pos h, ok_bind]

@[simp] theorem inBounds_eq_ok {p : Prop} [Decidable p] {u : Unit} :
    inBounds p = .ok u ↔ p := by
  unfold inBounds
  split <;> simp_all

theorem index_nat {i n : Nat} (h : i < n) : index (i : Int) n = .ok i := by
  unfold index
  rw [if_pos (by omega), Int.toNat_natCast]

theorem index_bind {β : Type} {i n : Nat} (h : i < n) {k : Nat → Except Fault β} :
    (index (i : Int) n >>= k) = k i := by
  rw [index_nat h, ok_bind]

theorem index_eq_ok {i : Int} {n k : Nat} : index i n = .ok k ↔ i = k ∧ k < n := by
  unfold index
  split <;> simp <;> omega

theorem int_eq_ok {v w : Int} : int v = .ok w ↔ IsInt v ∧ v = w := by
  unfold int
  split <;> simp_all

theorem toInt_small {n : Nat} (h : n < 2 ^ 31) : toInt n = n := by
  unfold toInt
  rw [Int.bmod_eq_of_le] <;> omega

theorem add32_eq {a b : Nat} (h : a + b < 2 ^ 32) : add32 a b = a + b := Nat.mod_eq_of_lt h

theorem sub32_eq {a b : Nat} (ha : a < 2 ^ 32) (h : b ≤ a) : sub32 a b = a - b := by
  unfold sub32
  omega

/-! ## Runs -/

/-- A run: `step` applied to the operations in order, until one does not return. -/
def run {σ ω : Type} (step : σ → ω → Except Fault σ) : σ → List ω → Except Fault σ
  | s, [] => .ok s
  | s, o :: os => do
    let s' ← step s o
    run step s' os

section Run

variable {σ ω : Type} {step : σ → ω → Except Fault σ}

@[simp] theorem run_nil (s : σ) : run step s [] = .ok s := rfl

theorem run_cons {s t : σ} {o : ω} {os : List ω} :
    run step s (o :: os) = .ok t ↔ ∃ s', step s o = .ok s' ∧ run step s' os = .ok t :=
  bind_eq_ok

theorem run_append {s t : σ} {os ps : List ω} :
    run step s (os ++ ps) = .ok t ↔ ∃ m, run step s os = .ok m ∧ run step m ps = .ok t := by
  induction os generalizing s with
  | nil => simp
  | cons o os ih =>
    rw [List.cons_append, run_cons]
    constructor
    · rintro ⟨s', hs, hr⟩
      obtain ⟨m, hm, hp⟩ := ih.mp hr
      exact ⟨m, run_cons.mpr ⟨s', hs, hm⟩, hp⟩
    · rintro ⟨m, hm, hp⟩
      obtain ⟨s', hs, hr⟩ := run_cons.mp hm
      exact ⟨s', hs, ih.mpr ⟨m, hr, hp⟩⟩

/-- The state in front of an operation of a run. -/
theorem run_split {s t : σ} {os ps : List ω} {o : ω} (h : run step s (os ++ o :: ps) = .ok t) :
    ∃ m m', run step s os = .ok m ∧ step m o = .ok m' := by
  obtain ⟨m, hm, h⟩ := run_append.mp h
  obtain ⟨m', hm', -⟩ := run_cons.mp h
  exact ⟨m, m', hm, hm'⟩

theorem run_snoc {s m : σ} {os : List ω} {o : ω} (h : run step s os = .ok m) :
    run step s (os ++ [o]) = step m o := by
  induction os generalizing s with
  | nil =>
    cases h
    show (step m o >>= fun s' => run step s' []) = step m o
    cases step m o <;> rfl
  | cons p os ih =>
    obtain ⟨s', hs, hr⟩ := run_cons.mp h
    show (step s p >>= fun s' => run step s' (os ++ [o])) = step m o
    rw [hs, ok_bind]
    exact ih hr

theorem run_append_error {s : σ} {os ps : List ω} {e : Fault} (h : run step s os = .error e) :
    run step s (os ++ ps) = .error e := by
  induction os generalizing s with
  | nil => cases h
  | cons o os ih =>
    show (step s o >>= fun s' => run step s' (os ++ ps)) = .error e
    rcases bind_eq_error.mp h with herr | ⟨s', hs, hr⟩
    · rw [herr, error_bind]
    · rw [hs, ok_bind]
      exact ih hr

/-- The invariant rule: what every operation allowed by `P` preserves holds at
the end of every run of allowed operations. -/
theorem run_invariant {I : σ → Prop} {P : ω → Prop}
    (hstep : ∀ {s o s'}, I s → P o → step s o = .ok s' → I s')
    {s t : σ} {os : List ω} (hs : I s) (hok : ∀ o ∈ os, P o) (hr : run step s os = .ok t) :
    I t := by
  induction os generalizing s with
  | nil => cases hr; exact hs
  | cons o os ih =>
    obtain ⟨s', hs', hr'⟩ := run_cons.mp hr
    exact ih (hstep hs (hok o (by simp)) hs') (fun p hp => hok p (by simp [hp])) hr'

/-- The same rule for steps that always return. -/
theorem run_total {I : σ → Prop} {P : ω → Prop}
    (hstep : ∀ {s o}, I s → P o → ∃ s', step s o = .ok s' ∧ I s')
    {s : σ} {os : List ω} (hs : I s) (hok : ∀ o ∈ os, P o) : ∃ t, run step s os = .ok t ∧ I t := by
  induction os generalizing s with
  | nil => exact ⟨s, rfl, hs⟩
  | cons o os ih =>
    obtain ⟨s', hs', h'⟩ := hstep hs (hok o (by simp))
    rw [run, hs', ok_bind]
    exact ih h' fun p hp => hok p (by simp [hp])

/-- The same rule for steps that may also stop with the one fault `e`. -/
theorem run_or_fault {I : σ → Prop} {P : ω → Prop} {e : Fault}
    (hstep : ∀ {s o}, I s → P o → step s o = .error e ∨ ∃ s', step s o = .ok s' ∧ I s')
    {s : σ} {os : List ω} (hs : I s) (hok : ∀ o ∈ os, P o) :
    run step s os = .error e ∨ ∃ t, run step s os = .ok t ∧ I t := by
  induction os generalizing s with
  | nil => exact .inr ⟨s, rfl, hs⟩
  | cons o os ih =>
    rcases hstep hs (hok o (by simp)) with herr | ⟨s', hs', h'⟩
    · exact .inl (by rw [run, herr, error_bind])
    · rw [run, hs', ok_bind]
      exact ih h' fun p hp => hok p (by simp [hp])

end Run

end OsWorkbench
