import OsWorkbench.Dev.Input
import OsWorkbench.Dev.Tty

/-!
# From the keyboard to the terminals

`input_task` turns key codes into events, `tty_task` feeds the plain ones to the current
terminal, and readers take lines from the terminals. A line costs one token of `cooked`
and ends in one NUL. `keymap_shift` has no element for the return key, so that return
with shift gives an event with a NUL, which adds a NUL and no token.
-/

namespace OsWorkbench.Dev

/-! ## The console -/

/-- The modifiers, the event queue, the terminals and `ttydev`. -/
structure Console where
  mods : Modifiers
  queue : EventQueue
  ttys : Fin 4 → Tty
  current : Fin 4

/-- The terminal that alt and a digit switch to. -/
def switchTo (current : Fin 4) (data : UInt16) : Fin 4 :=
  if data = 49 then 0
  else if data = 50 then 1
  else if data = 51 then 2
  else if data = 52 then 3
  else current

/-- `input_keydown`. -/
def consoleKey (c : Console) (code : UInt32) : Except Fault Console := do
  let (m, ev) ← inputKeydown c.mods code
  match ev with
  | none => return { c with mods := m }
  | some ev =>
    let q ← pushLocked c.queue ev
    return { c with mods := m, queue := q }

/-- A plain event in `tty_task`. -/
def cookCurrent (c : Console) (ch : UInt8) : Except Fault Console := do
  let (_, t) ← ttyCook (c.ttys c.current) ch
  return { c with ttys := Function.update c.ttys c.current t }

/-- One round of `tty_task`. -/
def ttyTask (c : Console) : Except Fault Console := do
  let (ev, q) ← popLocked c.queue
  let c := { c with queue := q }
  if ev.alt then return { c with current := switchTo c.current ev.data }
  else if ev.ctrl then return c
  else cookCurrent c ev.data.toUInt8

def consoleRead (c : Console) (k : Fin 4) (count : Nat) : Except Fault Console := do
  let (_, _, t) ← ttyRead (c.ttys k) count
  return { c with ttys := Function.update c.ttys k t }

inductive ConsoleCall
  | key (code : UInt32)
  | task
  | read (k : Fin 4) (count : Nat)

def consoleStep (c : Console) : ConsoleCall → Except Fault Console
  | .key code => consoleKey c code
  | .task => ttyTask c
  | .read k count => consoleRead c k count

/-- The devices after `dev_init`, in memory with any contents. -/
def Console.init (m : Modifiers) (events : Nat → InputEvent) (bufs : Fin 4 → Nat → UInt8) :
    Console where
  mods := m
  queue := ⟨events, 0, 0⟩
  ttys k := ⟨.init (bufs k), 0⟩
  current := 0

/-- The call does not wait for a semaphore. -/
def Ready (c : Console) : ConsoleCall → Prop
  | .key _ => True
  | .task => c.queue.front ≠ c.queue.rear
  | .read k _ => 0 < (c.ttys k).cooked

/-- The states of all runs in which no call waits. -/
inductive ConsoleRun : Console → Prop
  | init (m : Modifiers) (events : Nat → InputEvent) (bufs : Fin 4 → Nat → UInt8) :
      ConsoleRun (.init m events bufs)
  | step {c c' : Console} {o : ConsoleCall} : ConsoleRun c → Ready c o →
      consoleStep c o = .ok c' → ConsoleRun c'

/-- The return key goes down while shift is held, and neither ctrl nor alt is. -/
def ShiftReturn (m : Modifiers) (code : UInt32) : Prop :=
  code &&& 0x8000 ≠ 0 ∧ code &&& ~~~0x8000 = Key.return.code ∧
    held m.shiftDown = true ∧ held m.ctrlDown = false ∧ held m.altDown = false

/-- No return with shift; and no backspace for a terminal with an empty queue, unless the
byte in front of the queue is NUL. -/
def Careful (c : Console) : ConsoleCall → Prop
  | .key code => ¬ShiftReturn c.mods code
  | .task => ∀ ev q, popLocked c.queue = .ok (ev, q) → ev.Plain → ev.data.toUInt8 = backspace →
      (c.ttys c.current).queue.front = (c.ttys c.current).queue.rear →
      Guarded (c.ttys c.current).queue
  | .read _ _ => True

/-- The states of all runs whose steps are careful. -/
inductive CarefulRun : Console → Prop
  | init (m : Modifiers) (events : Nat → InputEvent) (bufs : Fin 4 → Nat → UInt8) :
      CarefulRun (.init m events bufs)
  | step {c c' : Console} {o : ConsoleCall} : CarefulRun c → Ready c o → Careful c o →
      consoleStep c o = .ok c' → CarefulRun c'

/-! ## Events -/

theorem exists_of_charAt_ne {entries : List (Key × Char)} {key : UInt32}
    (h : charAt entries key ≠ 0) :
    ∃ e ∈ entries, e.1.code = key := by
  unfold charAt at h
  split at h
  next e he => exact ⟨e, List.mem_of_find?_eq_some he, by simpa using List.find?_some he⟩
  · exact absurd rfl h

/-- Every key with a character has one with shift too, but for return. -/
theorem keymapShift_ne {key : UInt32} (h : keymap key ≠ 0) (hr : key ≠ Key.return.code) :
    keymapShift key ≠ 0 := by
  have hall : ∀ e ∈ keymapEntries, e.1.code ≠ Key.return.code → keymapShift e.1.code ≠ 0 := by
    decide +kernel
  obtain ⟨e, he, rfl⟩ := exists_of_charAt_ne h
  exact hall e he hr

theorem toUInt8_toUInt16 (ch : UInt8) : ch.toUInt16.toUInt8 = ch := by simp

/-- A key that is not return with shift gives no plain event with a NUL. -/
theorem charEvent_ne {m : Modifiers} {key : UInt32} (hch : keymap key ≠ 0)
    (hplain : (charEvent m key (keymap key)).Plain)
    (hsafe : key = Key.return.code → held m.shiftDown = true → held m.ctrlDown = false →
      held m.altDown = false → False) : (charEvent m key (keymap key)).data.toUInt8 ≠ 0 := by
  unfold charEvent at hplain ⊢
  by_cases hmod : (held m.ctrlDown || held m.altDown) = true
  · rw [if_pos hmod] at hplain
    rw [show held m.ctrlDown = false from hplain.1, show held m.altDown = false from hplain.2]
      at hmod
    cases hmod
  · rw [if_neg hmod]
    rw [Bool.or_eq_true, not_or, Bool.not_eq_true, Bool.not_eq_true] at hmod
    by_cases hshift : shiftFor m (keymap key) ≠ 0
    · rw [if_pos hshift, toUInt8_toUInt16]
      refine keymapShift_ne hch fun hret => hsafe hret ?_ hmod.1 hmod.2
      -- return is no letter, so that capslock does not count
      have hkey : keymap key = newline := by
        rw [hret]
        decide +kernel
      rw [hkey, shiftFor, if_neg (by decide)] at hshift
      by_contra hheld
      rw [if_neg hheld] at hshift
      exact hshift rfl
    · rw [if_neg hshift, toUInt8_toUInt16]
      exact hch

theorem keyEvent_some {m : Modifiers} {key : UInt32} {ev : InputEvent}
    (h : keyEvent m key = .ok (some ev)) : keymap key ≠ 0 ∧ ev = charEvent m key (keymap key) := by
  unfold keyEvent at h
  obtain ⟨_, -, h⟩ := bind_eq_ok.mp h
  by_cases hch : keymap key = 0
  · rw [if_pos hch] at h
    cases h
  · rw [if_neg hch] at h
    cases h
    exact ⟨hch, rfl⟩

theorem inputKeydown_some {m m' : Modifiers} {code : UInt32} {ev : InputEvent}
    (h : inputKeydown m code = .ok (m', some ev)) :
    code &&& 0x8000 ≠ 0 ∧ keyEvent m (code &&& ~~~0x8000) = .ok (some ev) := by
  unfold inputKeydown at h
  dsimp only at h
  by_cases hdown : code &&& 0x8000 ≠ 0
  · refine ⟨hdown, ?_⟩
    rw [if_pos hdown] at h
    split_ifs at h
    all_goals try (simp at h; done)
    obtain ⟨ev', hev, h⟩ := bind_eq_ok.mp h
    cases h
    exact hev
  · rw [if_neg hdown] at h
    split_ifs at h
    all_goals simp at h

theorem inputKeydown_ne {m m' : Modifiers} {code : UInt32} {ev : InputEvent}
    (h : inputKeydown m code = .ok (m', some ev)) (hplain : ev.Plain)
    (hsafe : ¬ShiftReturn m code) :
    ev.data.toUInt8 ≠ 0 := by
  obtain ⟨hdown, hev⟩ := inputKeydown_some h
  obtain ⟨hch, rfl⟩ := keyEvent_some hev
  exact charEvent_ne hch hplain fun hret hs hc ha => hsafe ⟨hdown, hret, hs, hc, ha⟩

/-! ## Lines -/

/-- Every line ends in a newline, and there is no other one in it. -/
structure Typed.Lined (d : Typed) : Prop where
  completed : ∀ l ∈ d.completed, ∃ body, l = body ++ [newline] ∧ newline ∉ body
  current : newline ∉ d.current

theorem Typed.Lined.cook {d : Typed} (h : d.Lined) (ch : UInt8) : (d.cook ch).Lined := by
  unfold Typed.cook
  split_ifs with hn hb
  · refine ⟨fun l hl => ?_, List.not_mem_nil⟩
    rcases List.mem_append.mp hl with hl | hl
    · exact h.completed l hl
    · exact ⟨d.current, List.mem_singleton.mp hl, h.current⟩
  · exact ⟨h.completed, fun hc => h.current (List.dropLast_subset _ hc)⟩
  · refine ⟨h.completed, fun hc => ?_⟩
    rcases List.mem_append.mp hc with hc | hc
    · exact h.current hc
    · exact hn (List.mem_singleton.mp hc).symm

/-- The bytes between `front` and `rear`. -/
def TtyQueue.contents (q : TtyQueue) : List UInt8 :=
  ring ttyCookBufSz q.buf q.front ((q.rear + ttyCookBufSz - q.front) % ttyCookBufSz)

theorem Holds.contents_eq {q : TtyQueue} {l : List UInt8} (h : Holds q l) : q.contents = l := by
  have hf := h.front
  have hl := h.few
  have hsize : (q.rear + ttyCookBufSz - q.front) % ttyCookBufSz = l.length := by
    rw [h.rear]
    unfold ttyCookBufSz at *
    omega
  rw [TtyQueue.contents, hsize, h.cells]

theorem count_encode {lines : List (List UInt8)} (h : ∀ l ∈ lines, ∀ c ∈ l, c ≠ 0) :
    (encode lines).count 0 = lines.length := by
  induction lines with
  | nil => rfl
  | cons l lines ih =>
    have hl : l.count 0 = 0 := List.count_eq_zero.mpr fun h0 => h l (by simp) 0 h0 rfl
    rw [← List.singleton_append, encode_append, encode_singleton, List.count_append,
      List.count_append, hl, ih fun l' hl' => h l' (by simp [hl'])]
    simp [Nat.add_comm]

/-- The NULs in the queue are the tokens. -/
theorem Agrees.count_eq {t : Tty} {d : Typed} (h : Agrees t d) :
    (t.queue.contents.count 0 : Int) = t.cooked := by
  have hcur : d.current.count 0 = 0 := List.count_eq_zero.mpr fun h0 => h.current 0 h0 rfl
  have htaken := h.taken
  rw [h.holds.contents_eq, Typed.bytes, List.count_append, hcur,
    count_encode fun l hl => h.lines l (List.mem_of_mem_drop hl), List.length_drop, h.cooked]
  omega

/-! ## Runs -/

/-- One token for each line: the plain events carry characters; and in the queue of each
terminal there is a NUL for each token, so that a read takes one line. -/
def OneTokenPerLine (c : Console) : Prop :=
  (∀ ev ∈ ring nevents c.queue.events c.queue.front c.queue.size, ev.Plain → ev.data.toUInt8 ≠ 0) ∧
    ∀ k, ((c.ttys k).queue.contents.count 0 : Int) = (c.ttys k).cooked ∧
      (0 < (c.ttys k).cooked → ∃ line rest, newline ∉ line ∧ 0 ∉ line ∧
        (c.ttys k).queue.contents = line ++ [newline] ++ 0 :: rest ∧
        ∀ count, ∃ t', ttyRead (c.ttys k) count =
          .ok (line.length + 1, (line ++ [newline]).take count, t') ∧ t'.queue.contents = rest)

/-- The events in the queue and what was typed and read at each terminal. -/
structure Consistent (c : Console) (l : List InputEvent) (d : Fin 4 → Typed) : Prop where
  queue : c.queue.Holds l
  plain : ∀ ev ∈ l, ev.Plain → ev.data.toUInt8 ≠ 0
  agrees : ∀ k, Agrees (c.ttys k) (d k)
  lined : ∀ k, (d k).Lined

namespace Consistent

variable {c c' : Console} {l : List InputEvent} {d : Fin 4 → Typed}

theorem init (m : Modifiers) (events : Nat → InputEvent) (bufs : Fin 4 → Nat → UInt8) :
    Consistent (.init m events bufs) [] fun _ => .start where
  queue :=
    ⟨(by decide : 0 < nevents), (by decide : 0 < nevents), (Nat.zero_mod _).symm, Ring.ring_zero⟩
  plain ev hev := by cases hev
  agrees k := ⟨Holds.init _, rfl, le_rfl, fun l hl => absurd hl List.not_mem_nil,
    fun c hc => absurd hc List.not_mem_nil⟩
  lined k := ⟨fun l hl => absurd hl List.not_mem_nil, List.not_mem_nil⟩

theorem key {code : UInt32} (h : Consistent c l d) (hsafe : ¬ShiftReturn c.mods code)
    (hok : consoleKey c code = .ok c') : ∃ l', Consistent c' l' d := by
  unfold consoleKey at hok
  obtain ⟨⟨m, ev⟩, hkey, hok⟩ := bind_eq_ok.mp hok
  cases ev with
  | none =>
    cases hok
    exact ⟨l, h.queue, h.plain, h.agrees, h.lined⟩
  | some ev =>
    obtain ⟨q, hq, hok⟩ := bind_eq_ok.mp hok
    cases hok
    refine ⟨l ++ [ev], h.queue.push_inv hq, fun ev' hev' hplain => ?_, h.agrees, h.lined⟩
    rcases List.mem_append.mp hev' with hev' | hev'
    · exact h.plain ev' hev' hplain
    · rw [List.mem_singleton] at hev'
      subst hev'
      exact inputKeydown_ne hkey hplain hsafe

/-- A terminal is replaced by one that agrees with what was typed and read since. -/
theorem setTty {q : EventQueue} {l' : List InputEvent} {k : Fin 4} {t : Tty} {d' : Typed}
    (h : Consistent c l d) (hq : q.Holds l') (hplain : ∀ ev ∈ l', ev.Plain → ev.data.toUInt8 ≠ 0)
    (ha : Agrees t d') (hl : d'.Lined) :
    Consistent { c with queue := q, ttys := Function.update c.ttys k t } l'
      (Function.update d k d') := by
  refine ⟨hq, hplain, fun j => ?_, fun j => ?_⟩
  · dsimp only
    rcases eq_or_ne j k with rfl | hjk
    · rwa [Function.update_self, Function.update_self]
    · rw [Function.update_of_ne hjk, Function.update_of_ne hjk]
      exact h.agrees j
  · rcases eq_or_ne j k with rfl | hjk
    · rwa [Function.update_self]
    · rw [Function.update_of_ne hjk]
      exact h.lined j

theorem task (h : Consistent c l d) (hready : c.queue.front ≠ c.queue.rear)
    (hsafe : Careful c .task) (hok : ttyTask c = .ok c') : ∃ l' d', Consistent c' l' d' := by
  unfold ttyTask at hok
  obtain ⟨⟨ev, q⟩, hpop, hok⟩ := bind_eq_ok.mp hok
  cases l with
  | nil =>
    have hrear := h.queue.rear
    rw [List.length_nil, Nat.add_zero, Nat.mod_eq_of_lt h.queue.front] at hrear
    exact absurd hrear.symm hready
  | cons ev' l =>
    obtain ⟨q', hpop', hq⟩ := h.queue.pop
    rw [hpop] at hpop'
    cases hpop'
    have hplain : ∀ ev' ∈ l, ev'.Plain → ev'.data.toUInt8 ≠ 0 := fun ev' hev' =>
      h.plain ev' (by simp [hev'])
    dsimp only at hok
    split at hok
    · cases hok
      exact ⟨l, d, hq, hplain, h.agrees, h.lined⟩
    next halt =>
      split at hok
      · cases hok
        exact ⟨l, d, hq, hplain, h.agrees, h.lined⟩
      next hctrl =>
        unfold cookCurrent at hok
        obtain ⟨⟨r, t⟩, hcook, hok⟩ := bind_eq_ok.mp hok
        cases hok
        have hev : ev.Plain := ⟨by simpa using hctrl, by simpa using halt⟩
        have ha := h.agrees c.current
        have ha' := ha.cook_inv (h.plain ev (by simp) hev) (fun hb hnil => by
          refine hsafe ev q hpop hev hb ?_
          rw [ha.holds.rear, hnil, List.length_nil, Nat.add_zero, Nat.mod_eq_of_lt ha.holds.front])
            hcook
        exact ⟨l, _, h.setTty hq hplain ha' ((h.lined c.current).cook _)⟩

theorem read {k : Fin 4} {count : Nat} (h : Consistent c l d) (hpos : 0 < (c.ttys k).cooked)
    (hok : consoleRead c k count = .ok c') : ∃ d', Consistent c' l d' := by
  unfold consoleRead at hok
  obtain ⟨⟨n, out, t⟩, hread, hok⟩ := bind_eq_ok.mp hok
  cases hok
  obtain ⟨line, -, -, hline⟩ := (h.agrees k).read hpos
  obtain ⟨t', hok', ha, -⟩ := hline count
  rw [hread] at hok'
  cases hok'
  exact ⟨_, h.setTty h.queue h.plain ha ⟨(h.lined k).completed, (h.lined k).current⟩⟩

theorem of_run (h : CarefulRun c) : ∃ l d, Consistent c l d := by
  induction h with
  | init m events bufs => exact ⟨_, _, .init m events bufs⟩
  | @step c c' o _ hready hsafe hok ih =>
    obtain ⟨l, d, h⟩ := ih
    cases o with
    | key code =>
      obtain ⟨l', h'⟩ := h.key hsafe hok
      exact ⟨l', d, h'⟩
    | task => exact h.task hready hsafe hok
    | read k count =>
      obtain ⟨d', h'⟩ := h.read hready hok
      exact ⟨l, d', h'⟩

theorem oneTokenPerLine (h : Consistent c l d) : OneTokenPerLine c := by
  refine ⟨?_, fun k => ⟨(h.agrees k).count_eq, fun hpos => ?_⟩⟩
  · rw [h.queue.size_eq, h.queue.cells]
    exact h.plain
  · obtain ⟨line, hline, hbytes, hread⟩ := (h.agrees k).read hpos
    have hmem := List.mem_of_getElem? hline
    obtain ⟨body, rfl, hbody⟩ := (h.lined k).completed line hmem
    have hnul := (h.agrees k).lines _ hmem
    refine ⟨body, (d k).read.bytes, hbody, fun h0 => hnul 0 (by simp [h0]) rfl, ?_, fun count => ?_⟩
    · rw [(h.agrees k).holds.contents_eq, hbytes]
    · obtain ⟨t', hok, ha, -⟩ := hread count
      rw [List.length_append, List.length_singleton] at hok
      exact ⟨t', hok, ha.holds.contents_eq⟩

end Consistent

/-- In every careful run there is one token for each line. -/
theorem careful_one_token {c : Console} (h : CarefulRun c) : OneTokenPerLine c := by
  obtain ⟨l, d, hc⟩ := Consistent.of_run h
  exact hc.oneTokenPerLine

/-- The code of a key that goes down. -/
def down (key : Key) : UInt32 := 0x8000 ||| key.code

/-- No modifiers, no events and zero-filled queues. -/
def Console.zero : Console :=
  .init ⟨0, fun _ => 0, fun _ => 0, fun _ => 0⟩ (fun _ => ⟨false, false, 0⟩) fun _ _ => 0

/-- `tty_task` takes an event that is no backspace. -/
theorem CarefulRun.task {c c' : Console} (h : CarefulRun c)
    (hready : c.queue.front ≠ c.queue.rear ∧
      (popLocked c.queue).toOption.all fun r => r.1.data.toUInt8 != backspace)
    (hstep : consoleStep c .task = .ok c') : CarefulRun c' := by
  refine h.step (o := .task) hready.1 (fun ev q hpop _ hb => ?_) hstep
  have hne := hready.2
  rw [hpop] at hne
  simp [Except.toOption, hb] at hne

/-- An `a` and return at the first terminal: a line, and a token for it. -/
theorem careful_one_token_line : ∃ c, CarefulRun c ∧ OneTokenPerLine c ∧
    (c.ttys 0).queue.contents = [97, newline, 0] ∧ (c.ttys 0).cooked = 1 := by
  obtain ⟨⟨c₁, c₂, c₃, c₄⟩, hrun, htest⟩ := exists_of_test
    (x := do
      let c₁ ← consoleStep .zero (.key (down .a))
      let c₂ ← consoleStep c₁ .task
      let c₃ ← consoleStep c₂ (.key (down .return))
      let c₄ ← consoleStep c₃ .task
      return (c₁, c₂, c₃, c₄))
    (f := fun (c₁, c₂, c₃, c₄) =>
      ([c₁, c₃].all fun c => decide (c.queue.front ≠ c.queue.rear ∧
        (popLocked c.queue).toOption.all fun r => r.1.data.toUInt8 != backspace)) &&
      decide (held c₂.mods.shiftDown = false ∧
        (c₄.ttys 0).queue.contents = [97, newline, 0] ∧ (c₄.ttys 0).cooked = 1))
    (by decide +kernel)
  obtain ⟨c₁, h₁, c₂, h₂, c₃, h₃, c₄, h₄, hcs⟩ := by simpa only [bind_eq_ok] using hrun
  cases hcs
  simp only [List.all_cons, List.all_nil, Bool.and_true, Bool.and_eq_true, decide_eq_true_eq]
    at htest
  obtain ⟨⟨hready₁, hready₃⟩, hshift, hline⟩ := htest
  have hrun₁ : CarefulRun c₁ := .step (o := .key (down .a)) (.init _ _ _) trivial
    (fun h => absurd h.2.1 (by decide)) h₁
  have hrun₂ : CarefulRun c₂ := hrun₁.task hready₁ h₂
  have hrun₃ : CarefulRun c₃ := hrun₂.step (o := .key (down .return)) trivial
    (fun h => absurd (h.2.2.1.symm.trans hshift) (by decide)) h₃
  have hrun₄ : CarefulRun c₄ := hrun₃.task hready₃ h₄
  exact ⟨c₄, hrun₄, careful_one_token hrun₄, hline⟩

/-- Return with shift leaves a NUL in the queue, and no token for it. -/
theorem shift_return_no_token : ∃ c, ConsoleRun c ∧ ¬OneTokenPerLine c := by
  obtain ⟨c₁, h₁, -⟩ := exists_of_test (x := consoleStep .zero (.key (down .lshift)))
    (f := fun _ => true) (by decide +kernel)
  obtain ⟨c₂, h₂, hready⟩ := exists_of_test
    (x := consoleStep .zero (.key (down .lshift)) >>= fun c => consoleStep c (.key (down .return)))
    (f := fun c => decide (c.queue.front ≠ c.queue.rear)) (by decide +kernel)
  obtain ⟨c₃, h₃, hcount⟩ := exists_of_test
    (x := consoleStep .zero (.key (down .lshift)) >>= fun c =>
      consoleStep c (.key (down .return)) >>= fun c => consoleStep c .task)
    (f := fun c => decide ((c.ttys 0).queue.contents.count 0 = 1 ∧ (c.ttys 0).cooked = 0))
    (by decide +kernel)
  rw [h₁, ok_bind] at h₂ h₃
  rw [h₂, ok_bind] at h₃
  rw [decide_eq_true_eq] at hready hcount
  have hrun₁ : ConsoleRun c₁ := .step (o := .key (down .lshift)) (.init _ _ _) trivial h₁
  have hrun₂ : ConsoleRun c₂ := hrun₁.step (o := .key (down .return)) trivial h₂
  refine ⟨c₃, hrun₂.step (o := .task) hready h₃, fun h => ?_⟩
  have htoken := (h.2 0).1
  rw [hcount.1, hcount.2] at htoken
  cases htoken

end OsWorkbench.Dev
