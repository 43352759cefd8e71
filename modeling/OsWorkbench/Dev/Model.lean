import OsWorkbench.Basic

/-!
# The keyboard and the terminals

The model of `kernel/src/devices/input/input.c` and `keymaps.c`, of the cook queue in
`kernel/src/devices/tty/tty.c` and of the task `tty_task` between them. A section under
the spin lock of the event queue is one definition, and so is a call that runs under
`tty->lock`. What the terminals show is left out.
-/

namespace OsWorkbench.Dev

/-! ## Keys -/

/-- The key codes `_KEY_*`, in the order of the enumeration. -/
inductive Key
  | none
  | escape
  | f1 | f2 | f3 | f4 | f5 | f6 | f7 | f8 | f9 | f10 | f11 | f12
  | grave | d1 | d2 | d3 | d4 | d5 | d6 | d7 | d8 | d9 | d0
  | minus | equals | backspace
  | tab | q | w | e | r | t | y | u | i | o | p
  | leftbracket | rightbracket | backslash
  | capslock | a | s | d | f | g | h | j | k | l
  | semicolon | apostrophe | return
  | lshift | z | x | c | v | b | n | m
  | comma | period | slash | rshift
  | lctrl | application | lalt | space | ralt | rctrl
  | up | down | left | right | insert | delete
  | home | endKey | pageup | pagedown
  deriving DecidableEq, Repr

/-- The value of the enumerator. -/
def Key.code (key : Key) : UInt32 := .ofNat key.ctorIdx

def newline : UInt8 := 10
def backspace : UInt8 := 8

/-- The initialised elements of `keymap`. -/
def keymapEntries : List (Key × Char) :=
  [(.d0, '0'), (.d1, '1'), (.d2, '2'), (.d3, '3'), (.d4, '4'), (.d5, '5'), (.d6, '6'), (.d7, '7'),
   (.d8, '8'), (.d9, '9'), (.grave, '\x60'), (.minus, '-'), (.equals, '='), (.leftbracket, '['),
   (.rightbracket, ']'), (.backslash, '\x5c'), (.semicolon, ';'), (.apostrophe, '\x27'),
   (.return, '\n'), (.comma, ','), (.period, '.'), (.slash, '/'), (.space, ' '),
   (.backspace, '\x08'), (.a, 'a'), (.b, 'b'), (.c, 'c'), (.d, 'd'), (.e, 'e'), (.f, 'f'),
   (.g, 'g'), (.h, 'h'), (.i, 'i'), (.j, 'j'), (.k, 'k'), (.l, 'l'), (.m, 'm'), (.n, 'n'),
   (.o, 'o'), (.p, 'p'), (.q, 'q'), (.r, 'r'), (.s, 's'), (.t, 't'), (.u, 'u'), (.v, 'v'),
   (.w, 'w'), (.x, 'x'), (.y, 'y'), (.z, 'z')]

/-- The initialised elements of `keymap_shift`. -/
def keymapShiftEntries : List (Key × Char) :=
  [(.d0, ')'), (.d1, '!'), (.d2, '@'), (.d3, '#'), (.d4, '$'), (.d5, '%'), (.d6, '^'), (.d7, '&'),
   (.d8, '*'), (.d9, '('), (.grave, '~'), (.minus, '_'), (.equals, '+'), (.leftbracket, '\x7b'),
   (.rightbracket, '\x7d'), (.backslash, '|'), (.semicolon, ':'), (.apostrophe, '\x22'),
   (.comma, '<'), (.period, '>'), (.slash, '?'), (.space, ' '), (.backspace, '\x08'), (.a, 'A'),
   (.b, 'B'), (.c, 'C'), (.d, 'D'), (.e, 'E'), (.f, 'F'), (.g, 'G'), (.h, 'H'), (.i, 'I'),
   (.j, 'J'), (.k, 'K'), (.l, 'L'), (.m, 'M'), (.n, 'N'), (.o, 'O'), (.p, 'P'), (.q, 'Q'),
   (.r, 'R'), (.s, 'S'), (.t, 'T'), (.u, 'U'), (.v, 'V'), (.w, 'W'), (.x, 'X'), (.y, 'Y'),
   (.z, 'Z')]

/-- The element of an array of characters with these initialisers, and 0 elsewhere. -/
def charAt (entries : List (Key × Char)) (key : UInt32) : UInt8 :=
  match entries.find? fun e => e.1.code == key with
  | some e => .ofNat e.2.toNat
  | Option.none => 0

def keymap (key : UInt32) : UInt8 := charAt keymapEntries key

def keymapShift (key : UInt32) : UInt8 := charAt keymapShiftEntries key

/-! ## Input events -/

def nevents : Nat := 128

/-- `struct input_event`. -/
structure InputEvent where
  ctrl : Bool
  alt : Bool
  data : UInt16
  deriving DecidableEq

/-- An event that `tty_task` passes on to `tty_cook`. -/
def InputEvent.Plain (ev : InputEvent) : Prop := ev.ctrl = false ∧ ev.alt = false

instance (ev : InputEvent) : Decidable ev.Plain := inferInstanceAs (Decidable (_ ∧ _))

/-- `events`, `front` and `rear` of `input_t`. -/
structure EventQueue where
  events : Nat → InputEvent
  front : Nat
  rear : Nat

/-- The locked section of `push_event`. -/
def pushLocked (q : EventQueue) (ev : InputEvent) : Except Fault EventQueue := do
  inBounds (q.rear < nevents)
  let q := { q with events := Function.update q.events q.rear ev, rear := (q.rear + 1) % nevents }
  if q.rear = q.front then .error .exit else return q

/-- The locked section of `pop_event`. -/
def popLocked (q : EventQueue) : Except Fault (InputEvent × EventQueue) := do
  if q.rear = q.front then .error .exit
  inBounds (q.front < nevents)
  return (q.events q.front, { q with front := (q.front + 1) % nevents })

/-- The two elements of `ctrl_down`, `alt_down` and `shift_down`. -/
inductive Side
  | left
  | right
  deriving DecidableEq

/-- `capslock` and the keys held down. -/
structure Modifiers where
  capslock : UInt32
  shiftDown : Side → UInt32
  ctrlDown : Side → UInt32
  altDown : Side → UInt32

/-- `down[0] || down[1]`. -/
def held (down : Side → UInt32) : Bool := down .left != 0 || down .right != 0

/-- `shift`, which `capslock` inverts for a letter. -/
def shiftFor (m : Modifiers) (ch : UInt8) : UInt32 :=
  let shift := if held m.shiftDown then 1 else 0
  if 97 ≤ ch ∧ ch ≤ 122 then shift ^^^ m.capslock else shift

/-- The event of a key with the character `ch`. -/
def charEvent (m : Modifiers) (key : UInt32) (ch : UInt8) : InputEvent :=
  if held m.ctrlDown || held m.altDown then ⟨held m.ctrlDown, held m.altDown, ch.toUInt16⟩
  else if shiftFor m ch ≠ 0 then ⟨false, false, (keymapShift key).toUInt16⟩
  else ⟨false, false, ch.toUInt16⟩

/-- The `default` branch of `input_keydown`. -/
def keyEvent (m : Modifiers) (key : UInt32) : Except Fault (Option InputEvent) := do
  inBounds (key.toNat < 256)
  return if keymap key = 0 then none else some (charEvent m key (keymap key))

/-- `input_keydown` up to `push_event`: the modifiers after it and the event to push. -/
def inputKeydown (m : Modifiers) (code : UInt32) : Except Fault (Modifiers × Option InputEvent) :=
  let key := code &&& ~~~0x8000
  if code &&& 0x8000 ≠ 0 then
    if key = Key.capslock.code then .ok ({ m with capslock := m.capslock ^^^ 1 }, none)
    else if key = Key.lctrl.code then
      .ok ({ m with ctrlDown := Function.update m.ctrlDown .left 1 }, none)
    else if key = Key.rctrl.code then
      .ok ({ m with ctrlDown := Function.update m.ctrlDown .right 1 }, none)
    else if key = Key.lalt.code then
      .ok ({ m with altDown := Function.update m.altDown .left 1 }, none)
    else if key = Key.ralt.code then
      .ok ({ m with altDown := Function.update m.altDown .right 1 }, none)
    else if key = Key.lshift.code then
      .ok ({ m with shiftDown := Function.update m.shiftDown .left 1 }, none)
    else if key = Key.rshift.code then
      .ok ({ m with shiftDown := Function.update m.shiftDown .right 1 }, none)
    else do
      let ev ← keyEvent m key
      return (m, ev)
  else
    if code = Key.lctrl.code then
      .ok ({ m with ctrlDown := Function.update m.ctrlDown .left 0 }, none)
    else if code = Key.rctrl.code then
      .ok ({ m with ctrlDown := Function.update m.ctrlDown .right 0 }, none)
    else if code = Key.lalt.code then
      .ok ({ m with altDown := Function.update m.altDown .left 0 }, none)
    else if code = Key.ralt.code then
      .ok ({ m with altDown := Function.update m.altDown .right 0 }, none)
    else if code = Key.lshift.code then
      .ok ({ m with shiftDown := Function.update m.shiftDown .left 0 }, none)
    else if code = Key.rshift.code then
      .ok ({ m with shiftDown := Function.update m.shiftDown .right 0 }, none)
    else .ok (m, none)

/-! ## The cook queue -/

def ttyCookBufSz : Nat := 1024

/-- `struct tty_queue`, with pointers as indices into its buffer. -/
structure TtyQueue where
  buf : Nat → UInt8
  front : Nat
  rear : Nat

/-- The queue as `tty_init` leaves it, in a buffer with the contents `buf`. -/
def TtyQueue.init (buf : Nat → UInt8) : TtyQueue := ⟨buf, 0, 0⟩

def ttyEnqueue (q : TtyQueue) (ch : UInt8) : Except Fault TtyQueue := do
  inBounds (q.rear < ttyCookBufSz)
  let buf := Function.update q.buf q.rear ch
  let rear := if q.rear + 1 = ttyCookBufSz then 0 else q.rear + 1
  if rear = q.front then .error .exit
  else return { q with buf := Function.update buf rear 0, rear := rear }

def ttyPopBack (q : TtyQueue) : Nat × TtyQueue :=
  if q.front ≠ ttyCookBufSz then
    let pos := if q.rear = 0 then ttyCookBufSz else q.rear
    if q.buf (pos - 1) ≠ 0 then
      (0, { q with buf := Function.update q.buf (pos - 1) 0, rear := pos - 1 })
    else (1, q)
  else (1, q)

/-- The queue of a terminal and the value of its semaphore `cooked`. -/
structure Tty where
  queue : TtyQueue
  cooked : Int

def ttyCook (t : Tty) (ch : UInt8) : Except Fault (Nat × Tty) :=
  if ch = newline then do
    let q ← ttyEnqueue t.queue ch
    let q ← ttyEnqueue q 0
    return (0, { queue := q, cooked := t.cooked + 1 })
  else if ch = backspace then
    let r := ttyPopBack t.queue
    .ok (r.1, { t with queue := r.2 })
  else do
    let q ← ttyEnqueue t.queue ch
    return (0, { t with queue := q })

/-- The loop of `tty_read`: `nread`, what was stored in `buf` and the new `front`. A
buffer without a NUL keeps it going for ever. -/
def readLoop (buf : Nat → UInt8) (count : Nat) :
    Nat → Nat → Nat → List UInt8 → Except Fault (Nat × List UInt8 × Nat)
  | 0, _, _, _ => .error .diverges
  | fuel + 1, front, nread, out =>
    let ch := buf front
    let out := if nread < count ∧ ch ≠ 0 then out ++ [ch] else out
    let front := if front + 1 = ttyCookBufSz then 0 else front + 1
    if ch = 0 then .ok (nread, out, front) else readLoop buf count fuel front (nread + 1) out

/-- `tty_read` after a `sem_wait(&tty->cooked)` that does not block. The result is what it
returns and what it stores in `buf`. -/
def ttyRead (t : Tty) (count : Nat) : Except Fault (Nat × List UInt8 × Tty) := do
  let (nread, out, front) ← readLoop t.queue.buf count ttyCookBufSz t.queue.front 0 []
  return (nread, out, { queue := { t.queue with front := front }, cooked := t.cooked - 1 })

end OsWorkbench.Dev
