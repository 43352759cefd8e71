import Mathlib.Tactic.Common

/-!
# Traced computations

A computation that may fail, with the list of the events it has made up to its end, also
when this is a failure. `Within` is the rule of invariants for them: all events have the
property `P`, and the result, if there is one, has the property `Q`. `Avoids` is the rule for
computations that cannot end with one of the errors. `Exact` is the rule for a condition `P` on
the events that is met exactly where the computation ends well.
-/

namespace OsWorkbench

/-- A result and the events on the way to it. -/
structure Traced (ε ω α : Type) where
  val : Except ε α
  log : List ω

namespace Traced

variable {ε ω α β : Type}

instance : Monad (Traced ε ω) where
  pure a := ⟨.ok a, []⟩
  bind m f :=
    match m.val with
    | .ok a => ⟨(f a).val, m.log ++ (f a).log⟩
    | .error e => ⟨.error e, m.log⟩

/-- A computation without events. -/
def lift (x : Except ε α) : Traced ε ω α := ⟨x, []⟩

/-- An event. -/
def emit (e : ω) : Traced ε ω Unit := ⟨.ok (), [e]⟩

/-! ## The result alone -/

@[simp] theorem val_pure (a : α) : (pure a : Traced ε ω α).val = pure a := rfl

@[simp] theorem val_lift (x : Except ε α) : (lift x : Traced ε ω α).val = x := rfl

@[simp] theorem val_bind (m : Traced ε ω α) (f : α → Traced ε ω β) :
    (m >>= f).val = m.val >>= fun a => (f a).val := by
  obtain ⟨val, log⟩ := m
  cases val <;> rfl

@[simp] theorem val_ite {p : Prop} [Decidable p] (m m' : Traced ε ω α) :
    (if p then m else m').val = if p then m.val else m'.val := apply_ite Traced.val p m m'

/-- What comes first stays in the list. -/
theorem mem_log_bind {m : Traced ε ω α} {f : α → Traced ε ω β} {e : ω} (h : e ∈ m.log) :
    e ∈ (m >>= f).log := by
  obtain ⟨val, log⟩ := m
  cases val with
  | error => exact h
  | ok a => exact List.mem_append_left _ h

/-! ## All events and the result -/

/-- All events have the property `P`, and the result has the property `Q`. -/
def Within (P : ω → Prop) (m : Traced ε ω α) (Q : α → Prop) : Prop :=
  (∀ e ∈ m.log, P e) ∧ ∀ a, m.val = .ok a → Q a

namespace Within

variable {P : ω → Prop} {Q : α → Prop} {R : β → Prop}

theorem pure {a : α} (h : Q a) : (Pure.pure a : Traced ε ω α).Within P Q := by
  refine ⟨fun e he => absurd he List.not_mem_nil, fun b hb => ?_⟩
  cases hb
  exact h

theorem lift {x : Except ε α} (h : ∀ a, x = .ok a → Q a) : (Traced.lift x).Within P Q :=
  ⟨fun _ he => absurd he List.not_mem_nil, h⟩

theorem emit {e : ω} (h : P e) : (Traced.emit e : Traced ε ω Unit).Within P fun _ => True := by
  refine ⟨fun e' he' => ?_, fun _ _ => trivial⟩
  rwa [List.mem_singleton.mp he']

theorem bind {m : Traced ε ω α} {f : α → Traced ε ω β} (h : m.Within P Q)
    (hf : ∀ a, Q a → (f a).Within P R) : (m >>= f).Within P R := by
  obtain ⟨val, log⟩ := m
  cases val with
  | error e =>
    refine ⟨h.1, fun b hb => ?_⟩
    cases hb
  | ok a =>
    obtain ⟨hlog, hval⟩ := hf a (h.2 a rfl)
    refine ⟨fun e he => ?_, hval⟩
    rcases List.mem_append.mp he with he | he
    · exact h.1 e he
    · exact hlog e he

/-- A computation without events of which the result is known. -/
theorem lift_bind {x : Except ε α} {a : α} {f : α → Traced ε ω β} (hx : x = .ok a)
    (hf : (f a).Within P R) : (Traced.lift x >>= f).Within P R := by
  subst hx
  exact hf

theorem ite {p : Prop} [Decidable p] {m m' : Traced ε ω α} (h : p → m.Within P Q)
    (h' : ¬p → m'.Within P Q) : (if p then m else m').Within P Q := by
  split
  next hp => exact h hp
  next hp => exact h' hp

end Within

/-- The computation does not end with the error `bad`, and the result has the property `Q`. -/
def Avoids (bad : ε) (m : Traced ε ω α) (Q : α → Prop) : Prop :=
  m.val ≠ .error bad ∧ ∀ a, m.val = .ok a → Q a

namespace Avoids

variable {bad : ε} {Q Q' : α → Prop} {R : β → Prop}

theorem mono {m : Traced ε ω α} (h : m.Avoids bad Q) (hQ : ∀ a, Q a → Q' a) : m.Avoids bad Q' :=
  ⟨h.1, fun a ha => hQ a (h.2 a ha)⟩

theorem pure {a : α} (h : Q a) : (Pure.pure a : Traced ε ω α).Avoids bad Q := by
  refine ⟨(fun hbad => nomatch hbad), fun b hb => ?_⟩
  cases hb
  exact h

theorem lift {x : Except ε α} (hbad : x ≠ .error bad) (h : ∀ a, x = .ok a → Q a) :
    (Traced.lift x : Traced ε ω α).Avoids bad Q := ⟨hbad, h⟩

theorem emit {e : ω} : (Traced.emit e : Traced ε ω Unit).Avoids bad fun _ => True :=
  ⟨(fun hbad => nomatch hbad), fun _ _ => trivial⟩

theorem bind {m : Traced ε ω α} {f : α → Traced ε ω β} (h : m.Avoids bad Q)
    (hf : ∀ a, Q a → (f a).Avoids bad R) : (m >>= f).Avoids bad R := by
  obtain ⟨val, log⟩ := m
  cases val with
  | error e =>
    refine ⟨fun hbad => h.1 ?_, fun b hb => nomatch hb⟩
    cases hbad
    rfl
  | ok a => exact hf a (h.2 a rfl)

/-- A computation without events of which the result is known. -/
theorem lift_bind {x : Except ε α} {a : α} {f : α → Traced ε ω β} (hx : x = .ok a)
    (hf : (f a).Avoids bad R) : (Traced.lift x >>= f).Avoids bad R := by
  subst hx
  exact hf

end Avoids

/-- All events have the property `P` exactly where the computation ends well and all events have
the property `B`, and then the result has the property `Q`. An end with the error `loop` says
nothing. -/
def Exact (P B : ω → Prop) (loop : ε) (m : Traced ε ω α) (Q : α → Prop) : Prop :=
  ((∀ e ∈ m.log, P e) → (∀ e ∈ m.log, B e) ∧ ∀ err, m.val = .error err → err = loop) ∧
    ∀ a, m.val = .ok a → (∀ e ∈ m.log, B e) → (∀ e ∈ m.log, P e) ∧ Q a

namespace Exact

variable {P B : ω → Prop} {loop : ε} {Q : α → Prop} {R : β → Prop}

/-- A computation that ends. -/
theorem iff {m : Traced ε ω α} (h : m.Exact P B loop Q) (hends : m.val ≠ .error loop) :
    ((∀ e ∈ m.log, B e) ∧ ∃ a, m.val = .ok a ∧ Q a) ↔ ∀ e ∈ m.log, P e := by
  constructor
  · rintro ⟨hB, a, ha, -⟩
    exact (h.2 a ha hB).1
  · intro hP
    obtain ⟨hB, herr⟩ := h.1 hP
    cases hval : m.val with
    | error err => exact absurd (hval.trans (congrArg _ (herr err hval))) hends
    | ok a => exact ⟨hB, a, rfl, (h.2 a hval hB).2⟩

theorem pure {a : α} (h : Q a) : (Pure.pure a : Traced ε ω α).Exact P B loop Q := by
  refine ⟨fun _ => ⟨fun _ he => absurd he List.not_mem_nil, (fun _ herr => nomatch herr)⟩,
    fun b hb _ => ?_⟩
  cases hb
  exact ⟨fun _ he => absurd he List.not_mem_nil, h⟩

theorem error : (Traced.lift (.error loop) : Traced ε ω α).Exact P B loop Q := by
  refine ⟨fun _ => ⟨fun _ he => absurd he List.not_mem_nil, fun err herr => ?_⟩,
    fun b hb => nomatch hb⟩
  cases herr
  rfl

theorem bind {m : Traced ε ω α} {f : α → Traced ε ω β} (h : m.Exact P B loop Q)
    (hf : ∀ a, Q a → (f a).Exact P B loop R) : (m >>= f).Exact P B loop R := by
  obtain ⟨val, log⟩ := m
  cases val with
  | error e =>
    refine ⟨fun hP => ?_, fun b hb => nomatch hb⟩
    obtain ⟨hB, herr⟩ := h.1 hP
    refine ⟨hB, fun err he => ?_⟩
    cases he
    exact herr e rfl
  | ok a =>
    refine ⟨fun hP => ?_, fun b hb hB => ?_⟩
    · have hPm : ∀ e ∈ log, P e := fun e he => hP e (List.mem_append_left _ he)
      obtain ⟨hB, -⟩ := h.1 hPm
      obtain ⟨hB', herr⟩ := (hf a (h.2 a rfl hB).2).1 fun e he => hP e (List.mem_append_right _ he)
      exact ⟨fun e he => (List.mem_append.mp he).elim (hB e) (hB' e), herr⟩
    · obtain ⟨hP, hq⟩ := h.2 a rfl fun e he => hB e (List.mem_append_left _ he)
      obtain ⟨hP', hr⟩ := (hf a hq).2 b hb fun e he => hB e (List.mem_append_right _ he)
      exact ⟨fun e he => (List.mem_append.mp he).elim (hP e) (hP' e), hr⟩

/-- A computation without events of which the result is known. -/
theorem lift_bind {x : Except ε α} {a : α} {f : α → Traced ε ω β} (hx : x = .ok a)
    (hf : (f a).Exact P B loop R) : (Traced.lift x >>= f).Exact P B loop R := by
  subst hx
  exact hf

/-- An event that says when the computation behind it fails. -/
theorem emit_lift_bind {e : ω} {x : Except ε α} {f : α → Traced ε ω β}
    (hP : P e → B e ∧ ∃ a, x = .ok a) (hB : ∀ a, x = .ok a → P e ∧ Q a)
    (hf : ∀ a, Q a → (f a).Exact P B loop R) :
    (Traced.emit e >>= fun _ => Traced.lift x >>= f).Exact P B loop R := by
  have hassoc : (Traced.emit e >>= fun _ => Traced.lift x >>= f) =
      ((Traced.emit e >>= fun _ => Traced.lift x) >>= f) := by
    cases x <;> rfl
  rw [hassoc]
  refine bind ⟨fun h => ?_, fun a ha _ => ?_⟩ hf
  · obtain ⟨hb, a, ha⟩ := hP (h e List.mem_cons_self)
    refine ⟨fun e' he' => ?_, fun err herr => nomatch ha.symm.trans herr⟩
    rwa [List.mem_singleton.mp he']
  · obtain ⟨hp, hq⟩ := hB a ha
    refine ⟨fun e' he' => ?_, hq⟩
    rwa [List.mem_singleton.mp he']

/-- The same where the result is an event as well. -/
theorem emit_lift_emit_bind {e : ω} {e' : α → ω} {x : Except ε α} {f : α → Traced ε ω β}
    (hP : P e → B e ∧ ∃ a, x = .ok a ∧ B (e' a)) (hB : ∀ a, x = .ok a → B (e' a) → P e ∧ Q a)
    (he' : ∀ a, P (e' a)) (hf : ∀ a, Q a → (f a).Exact P B loop R) :
    (Traced.emit e >>= fun _ => Traced.lift x >>= fun a => Traced.emit (e' a) >>= fun _ =>
      f a).Exact P B loop R := by
  have hassoc : (Traced.emit e >>= fun _ => Traced.lift x >>= fun a => Traced.emit (e' a) >>=
        fun _ => f a) =
      ((Traced.emit e >>= fun _ => Traced.lift x >>= fun a => Traced.emit (e' a) >>= fun _ =>
        Pure.pure a) >>= f) := by
    cases x <;> rfl
  rw [hassoc]
  refine bind ?_ hf
  cases x with
  | error err =>
    refine ⟨fun h => ?_, fun a ha => nomatch ha⟩
    obtain ⟨-, a, ha, -⟩ := hP (h e List.mem_cons_self)
    cases ha
  | ok a =>
    have hlog : ∀ F : ω → Prop, (∀ e'' ∈ [e] ++ ([] ++ ([e' a] ++ [])), F e'') ↔
        F e ∧ F (e' a) := by
      intro F
      simp
    refine ⟨fun h => ?_, fun b hb h => ?_⟩
    · obtain ⟨hb, b, hab, hb'⟩ := hP ((hlog P).mp h).1
      cases hab
      exact ⟨(hlog B).mpr ⟨hb, hb'⟩, fun err herr => nomatch herr⟩
    · cases hb
      obtain ⟨hp, hq⟩ := hB a rfl ((hlog B).mp h).2
      exact ⟨(hlog P).mpr ⟨hp, he' a⟩, hq⟩

end Exact

end Traced

end OsWorkbench
