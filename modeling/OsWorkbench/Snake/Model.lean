import OsWorkbench.Basic

/-!
# The snake game

The model of `amgame/src/game.c`: the map, the ends of the snake, `init_game` and
`step_game`. The keyboard event of a step and the result of `rand` are arguments. What
`show` draws is left out; it also marks every cell as drawn.
-/

namespace OsWorkbench.Snake

def maxWidth : Nat := 40

def maxHeight : Nat := 40

/-- `enum map_ele`. -/
inductive MapEle
  | empty
  | apple
  | wall
  | bodyu
  | bodyr
  | bodyd
  | bodyl
  deriving DecidableEq, Repr

structure Pnt where
  x : Int
  y : Int
  deriving DecidableEq, Repr

/-- The globals of the game. The arrays are read at `p` as `snake_map[p.y][p.x]`. -/
structure Game where
  snakeMap : Pnt → MapEle
  unchange : Pnt → Nat
  emptyCnt : Nat
  head : Pnt
  tail : Pnt
  score : Int

/-- `p.y` and `p.x` are in range for the arrays. -/
def Pnt.InMap (p : Pnt) : Prop := (0 ≤ p.x ∧ p.x < maxWidth) ∧ 0 ≤ p.y ∧ p.y < maxHeight

instance (p : Pnt) : Decidable p.InMap := inferInstanceAs (Decidable ((_ ∧ _) ∧ _ ∧ _))

def Game.load (g : Game) (p : Pnt) : Except Fault MapEle :=
  if p.InMap then .ok (g.snakeMap p) else .error .badAccess

def Game.store (g : Game) (p : Pnt) (e : MapEle) : Except Fault Game :=
  if p.InMap then .ok { g with snakeMap := Function.update g.snakeMap p e }
  else .error .badAccess

/-- `unchange[p.y][p.x] = 0`. -/
def Game.touch (g : Game) (p : Pnt) : Except Fault Game :=
  if p.InMap then .ok { g with unchange := Function.update g.unchange p 0 }
  else .error .badAccess

/-- The cells in the order of the loops over `i` and `j`. -/
def cells : List Pnt :=
  (List.range maxHeight).flatMap fun (i : Nat) =>
    (List.range maxWidth).map fun (j : Nat) => ⟨(j : Int), (i : Int)⟩

/-! ## Apples -/

/-- The loops of `gen_apple`. -/
def genAppleLoop (g : Game) : List Pnt → Nat → Game
  | [], _ => g
  | p :: ps, index =>
    let index := if g.snakeMap p = .empty then sub32 index 1 else index
    if index = 0 then
      { g with
        snakeMap := Function.update g.snakeMap p .apple
        unchange := Function.update g.unchange p 0
        emptyCnt := sub32 g.emptyCnt 1 }
    else genAppleLoop g ps index

/-- `gen_apple`, when `rand` returns `r`. -/
def genApple (g : Game) (r : Nat) : Except Fault Game :=
  if g.emptyCnt = 0 then .error .divide
  else .ok (genAppleLoop g cells (add32 (r % g.emptyCnt) 1))

/-! ## The start -/

/-- The map after the first loops of `init_game`. -/
def initMap (g : Game) (p : Pnt) : MapEle :=
  if p.InMap then
    if p.y = 0 ∨ p.y = maxHeight - 1 ∨ p.x = 0 ∨ p.x = maxWidth - 1 then .wall else .empty
  else g.snakeMap p

def initGame (g : Game) (r : Nat) : Except Fault Game := do
  let g := { g with
    snakeMap := initMap g
    head := ⟨(maxWidth + 1) / 2, maxHeight / 2⟩
    tail := ⟨(maxWidth - 1) / 2, maxHeight / 2⟩ }
  let g ← g.store g.head .bodyr
  let g ← g.store g.tail .bodyr
  let g := { g with
    score := 0
    emptyCnt := cells.countP fun p => g.snakeMap p = .empty }
  genApple g r

/-! ## A step -/

/-- `x[e - bodyu]` and `y[e - bodyu]`. -/
def delta : MapEle → Except Fault (Int × Int)
  | .bodyu => .ok (0, -1)
  | .bodyr => .ok (1, 0)
  | .bodyd => .ok (0, 1)
  | .bodyl => .ok (-1, 0)
  | _ => .error .badAccess

/-- `step_game_do`, when `rand` returns `r`. -/
def stepGameDo (g : Game) (r : Nat) : Except Fault (Nat × Game) := do
  let (dx, dy) ← delta (← g.load g.head)
  let (tx, ty) ← delta (← g.load g.tail)
  let next : Pnt := ⟨g.head.x + dx, g.head.y + dy⟩
  let e ← g.load next
  if e ≠ .empty ∧ e ≠ .apple then return (0, g)
  else if e = .apple then
    let g ← genApple g r
    let g ← g.store next (← g.load g.head)
    let g ← g.touch g.head
    let g := { g with head := next }
    let g ← g.touch g.head
    let score ← int (g.score + 1)
    return (1, { g with score := score })
  else
    let g ← g.store next (← g.load g.head)
    let g ← g.touch g.head
    let g := { g with head := next }
    let g ← g.touch g.head
    let g ← g.store g.tail .empty
    let g ← g.touch g.tail
    let g := { g with tail := ⟨g.tail.x + tx, g.tail.y + ty⟩ }
    let g ← g.touch g.tail
    return (1, g)

/-- `show`, less what it draws. -/
def showGame (g : Game) : Game :=
  { g with unchange := fun p => if p.InMap then 1 else g.unchange p }

inductive KeyCode
  | none
  | w
  | d
  | s
  | a
  | q
  | other
  deriving DecidableEq, Repr

/-- `_DEV_INPUT_KBD_t`. -/
structure KbdEvent where
  keycode : KeyCode
  keydown : Bool
  deriving DecidableEq, Repr

/-- `if(_head != back) {_head = e;}`. -/
def turn (g : Game) (back e : MapEle) : Except Fault Game := do
  if (← g.load g.head) ≠ back then g.store g.head e else return g

/-- The `switch` of `step_game`, for a key that went down; `none` for its `return 0`. -/
def pressKey (g : Game) : KeyCode → Except Fault (Option Game)
  | .w => some <$> turn g .bodyd .bodyu
  | .d => some <$> turn g .bodyl .bodyr
  | .s => some <$> turn g .bodyu .bodyd
  | .a => some <$> turn g .bodyr .bodyl
  | .q => .ok none
  | _ => .ok (some g)

def stepGame (g : Game) (event : KbdEvent) (r : Nat) : Except Fault (Nat × Game) := do
  let turned ←
    if event.keycode ≠ .none ∧ event.keydown then pressKey g event.keycode else pure (some g)
  match turned with
  | none => return (0, g)
  | some g =>
    let (ret, g) ← stepGameDo g r
    return (ret, showGame g)

/-- The states that `step_game` reaches from `init_game` by calls that return 1. -/
inductive Played : Game → Prop
  | init {g₀ g : Game} {r : Nat} : initGame g₀ r = .ok g → Played g
  | step {g g' : Game} {event : KbdEvent} {r : Nat} :
      Played g → stepGame g event r = .ok (1, g') → Played g'

end OsWorkbench.Snake
