import OsWorkbench.Basic

/-!
# The typing game

The model of `apps/typing/game.c`, of the lists that `game.h` makes for it, and of the keys in
`keyboard.c`. A pointer into the pool is a number below its length and `NULL` is `none`. The key
events of a frame and the results of `rand` are arguments; the clock and the drawing are left
out. The counters are `int`s that must not overflow, and a loop over the list gets a turn for
each node of the pool.
-/

namespace OsWorkbench.Typing

/-- `W` and `H`. -/
def width : Nat := 320
def height : Int := 200

/-- The frames from one letter to the next, `HZ / CHARACTER_PER_SECOND`. -/
def letterFrames : Nat := 10

/-- `SIZE` of the list; the pool has one node more. -/
@[irreducible] def poolSize : Nat := 1000

/-- A pointer into `fly_pool`. -/
abbrev Node := Fin (poolSize + 1)

/-- The data of a `struct fly_t`. -/
structure Letter where
  x : Int
  y : Int
  text : Nat
  v : Int

/-- `struct fly_t`. -/
structure Fly where
  letter : Letter
  prev : Option Node
  next : Option Node

/-- The globals: `fly_pool`, `fly_free_head`, `head`, `hit`, `miss` and `letter_pressed`. -/
structure State where
  pool : Node → Fly
  freeHead : Option Node
  head : Option Node
  hit : Int
  miss : Int
  pressed : Nat → Bool

/-! ## The list -/

def setPrev (pool : Node → Fly) (i : Node) (q : Option Node) : Node → Fly :=
  Function.update pool i { pool i with prev := q }

def setNext (pool : Node → Fly) (i : Node) (q : Option Node) : Node → Fly :=
  Function.update pool i { pool i with next := q }

def setLetter (pool : Node → Fly) (i : Node) (l : Letter) : Node → Fly :=
  Function.update pool i { pool i with letter := l }

/-- `if (p != NULL) p->_next = q`. -/
def linkNext (pool : Node → Fly) (p q : Option Node) : Node → Fly :=
  match p with
  | none => pool
  | some i => setNext pool i q

/-- `if (p != NULL) p->_prev = q`. -/
def linkPrev (pool : Node → Fly) (p q : Option Node) : Node → Fly :=
  match p with
  | none => pool
  | some i => setPrev pool i q

/-- The loop of `fly_new` that chains the pool. -/
def threadLoop (pool : Node → Fly) : Node → Fly :=
  (List.finRange poolSize).foldl (fun pool i => setNext pool i.castSucc (some i.succ)) pool

/-- `fly_new`, with `ret` and the pool after the test for an empty list. -/
def State.take (s : State) (ret : Node) (pool : Node → Fly) : Node × State :=
  (ret, { s with
    pool := setNext (setPrev pool ret none) ret none
    freeHead := (pool ret).next })

def flyNew (s : State) : Node × State :=
  match s.freeHead with
  | none => s.take 0 (threadLoop s.pool)
  | some i => s.take i s.pool

def flyInsert (prev next : Option Node) (obj : Node) (s : State) : State :=
  { s with
    pool := linkPrev (linkNext (setNext (setPrev s.pool obj prev) obj next) prev (some obj)) next
      (some obj) }

def flyRemove (node : Node) (s : State) : State :=
  { s with
    pool := linkPrev (linkNext s.pool (s.pool node).prev (s.pool node).next) (s.pool node).next
      (s.pool node).prev }

def flyFree (node : Node) (s : State) : State :=
  { s with pool := setNext s.pool node s.freeHead, freeHead := some node }

/-! ## The keys -/

def pressKey (i : Nat) (s : State) : State :=
  { s with pressed := Function.update s.pressed i true }

def releaseKey (i : Nat) (s : State) : State :=
  { s with pressed := Function.update s.pressed i false }

/-- `keyboard_event` for the key of a letter. -/
def keyboardEvent (s : State) (e : Nat × Bool) : State :=
  if e.2 then pressKey e.1 s else releaseKey e.1 s

/-! ## The game -/

/-- The letter of `create_new_letter`, for the results of `rand`. -/
def newLetter (r : Nat × Nat × Nat) : Letter where
  x := (r.1 % (width / 8 - 2) * 8 + 8 : Nat)
  y := 0
  text := r.2.2 % 26
  v := (r.2.1 % 1000 / 2000 + 1 : Nat)

def createNewLetter (r : Nat × Nat × Nat) (s : State) : State :=
  let now := (flyNew s).1
  let s := match s.head with
    | none => (flyNew s).2
    | some h => flyInsert none (some h) now (flyNew s).2
  releaseKey (newLetter r).text
    { s with head := some now, pool := setLetter s.pool now (newLetter r) }

/-- `it->y += it->v`. -/
def Letter.moved (l : Letter) : Letter := { l with y := l.y + l.v }

/-- The letter is outside of the screen. -/
def Letter.Gone (l : Letter) : Prop := l.y < 0 ∨ height < l.y + 8

instance (l : Letter) : Decidable l.Gone := inferInstanceAs (Decidable (_ ∨ _))

/-- The counter for a letter that is gone. -/
def State.score (l : Letter) (s : State) : Except Fault State :=
  if l.y < 0 then do
    let hit ← int (s.hit + 1)
    return { s with hit := hit }
  else do
    let miss ← int (s.miss + 1)
    return { s with miss := miss }

/-- The body of the loop of `update_letter_pos`. -/
def updateOne (i : Node) (s : State) : Except Fault State :=
  let next := (s.pool i).next
  let l := (s.pool i).letter.moved
  let s := { s with pool := setLetter s.pool i l }
  if l.Gone then do
    let s ← s.score l
    let s := flyFree i (flyRemove i s)
    return if s.head = some i then { s with head := next } else s
  else return s

/-- The loop of `update_letter_pos`. -/
def updateLoop : Nat → Option Node → State → Except Fault State
  | _, none, s => .ok s
  | 0, some _, _ => .error .diverges
  | n + 1, some i, s => do
    let next := (s.pool i).next
    let s ← updateOne i s
    updateLoop n next s

def updateLetterPos (s : State) : Except Fault State := updateLoop (poolSize + 1) s.head s

/-- The letter falls and its key is pressed. -/
def Letter.Aimed (pressed : Nat → Bool) (l : Letter) : Prop := 0 < l.v ∧ pressed l.text = true

instance (pressed : Nat → Bool) (l : Letter) : Decidable (l.Aimed pressed) :=
  inferInstanceAs (Decidable (_ ∧ _))

/-- The loop of `update_keypress`, with `min` and `target`. -/
def keypressLoop (s : State) :
    Nat → Option Node → Int → Option Node → Except Fault (Option Node)
  | _, none, _, target => .ok target
  | 0, some _, _, _ => .error .diverges
  | n + 1, some i, min, target =>
    if (s.pool i).letter.Aimed s.pressed ∧ min < (s.pool i).letter.y then
      keypressLoop s n (s.pool i).next (s.pool i).letter.y (some i)
    else keypressLoop s n (s.pool i).next min target

def updateKeypress (s : State) : Except Fault (Bool × State) := do
  match ← keypressLoop s (poolSize + 1) s.head (-100) none with
  | none => return (false, s)
  | some i =>
    let s := releaseKey (s.pool i).letter.text s
    return (true, { s with pool := setLetter s.pool i { (s.pool i).letter with v := -3 } })

/-- `while (update_keypress());`, with a bound. -/
def keypresses : Nat → State → Except Fault State
  | 0, _ => .error .diverges
  | n + 1, s => do
    let r ← updateKeypress s
    if r.1 then keypresses n r.2 else return r.2

/-- What a frame is given: the events of the keys and the results of `rand`. -/
structure Input where
  events : List (Nat × Bool)
  rand : Nat × Nat × Nat

/-- A turn of the loop of `main`, after `frames` was counted. -/
def frame (frames : Int) (s : State) (input : Input) : Except Fault State := do
  let s ← keypresses 27 (input.events.foldl keyboardEvent s)
  let s := if frames % letterFrames = 0 then createNewLetter input.rand s else s
  updateLetterPos s

/-- The loop of `main`. -/
def frames : Int → State → List Input → Except Fault State
  | _, s, [] => .ok s
  | n, s, input :: inputs => do
    let n ← int (n + 1)
    let s ← frame n s input
    frames n s inputs

def State.start : State where
  pool := fun _ => ⟨⟨0, 0, 0, 0⟩, none, none⟩
  freeHead := none
  head := none
  hit := 0
  miss := 0
  pressed := fun _ => false

end OsWorkbench.Typing
