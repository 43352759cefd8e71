import OsWorkbench.Typing.Lists
import OsWorkbench.Lib.Count

/-!
# Every typing game

The game as it is meant: the letters, the newest first, with what a frame does to them. The
lists in the pool show it after every frame, whatever keys are pressed and whatever `rand`
returns; every letter created is on the screen or counted, and the pool is never used up,
since a letter lives for at most 258 frames. The count of the frames is an `int`, so a game
ends before the frame 2^31.
-/

namespace OsWorkbench.Typing

open Function

/-! ## The game as it is meant -/

structure Game where
  letters : List Letter
  hit : Nat
  miss : Nat
  pressed : Nat → Bool

def Game.start : Game := ⟨[], 0, 0, fun _ => false⟩

/-- The state of the keys after the events. -/
def Game.events (g : Game) (es : List (Nat × Bool)) : Game :=
  { g with pressed := es.foldl (fun p e => update p e.1 e.2) g.pressed }

/-- The lowest of the letters that can be hit, the newest among those, turns around. -/
def Game.Hits (g g' : Game) : Prop :=
  ∃ l a l', g.letters = l ++ a :: l' ∧ a.Aimed g.pressed ∧
    (∀ b ∈ l, b.Aimed g.pressed → b.y < a.y) ∧ (∀ b ∈ l', b.Aimed g.pressed → b.y ≤ a.y) ∧
    g' = { g with
      letters := l ++ { a with v := -3 } :: l'
      pressed := update g.pressed a.text false }

/-- No letter can be hit. -/
def Game.Idle (g : Game) : Prop := ∀ a ∈ g.letters, ¬a.Aimed g.pressed

def Game.create (g : Game) (r : Nat × Nat × Nat) : Game :=
  { g with
    letters := newLetter r :: g.letters
    pressed := update g.pressed (newLetter r).text false }

/-- Every letter moves, and those outside of the screen are counted. -/
def Game.update (g : Game) : Game :=
  { g with
    letters := moveAll g.letters
    hit := g.hit + hits (g.letters.map Letter.moved)
    miss := g.miss + misses (g.letters.map Letter.moved) }

/-- The frame with a number. -/
def Game.Frame (n : Nat) (input : Input) (g g' : Game) : Prop :=
  ∃ h : Game, Relation.ReflTransGen Game.Hits (g.events input.events) h ∧ h.Idle ∧
    g' = (if n % letterFrames = 0 then h.create input.rand else h).update

/-- The frames after the first `n`. -/
def Game.Frames : Nat → Game → List Input → Game → Prop
  | _, g, [], g' => g' = g
  | n, g, input :: inputs, g' => ∃ h, Game.Frame (n + 1) input g h ∧ Game.Frames (n + 1) h inputs g'

/-! ## How long a letter lives -/

/-- A letter on the screen. -/
structure Letter.Fine (a : Letter) : Prop where
  x : 8 ≤ a.x ∧ a.x + 8 < width
  y : 0 ≤ a.y ∧ a.y + 8 ≤ height
  text : a.text < 26
  v : a.v = 1 ∨ a.v = -3

/-- At most the frames until the letter is gone: it may fall to the bottom and rise again. -/
def Letter.lifeLeft (a : Letter) : Int := if a.v = 1 then 258 - a.y else a.y / 3 + 1

/-- The newest letter was created at least `m` frames ago, and every other one at least
`letterFrames` before the next. -/
def Spaced : Int → List Letter → Prop
  | _, [] => True
  | m, a :: as => a.lifeLeft + m ≤ 258 ∧ Spaced (m + letterFrames) as

structure Game.Inv (m : Int) (g : Game) : Prop where
  fine : ∀ a ∈ g.letters, a.Fine
  spaced : Spaced m g.letters

section Life

variable {a : Letter} {as as' : List Letter} {m m' : Int} {g g' : Game}

theorem Letter.Fine.lifeLeft_pos (h : a.Fine) : 0 < a.lifeLeft := by
  obtain ⟨hy, hy'⟩ := h.y
  unfold height at hy'
  unfold Letter.lifeLeft
  split <;> omega

theorem Letter.Fine.lifeLeft_moved (h : a.Fine) : a.moved.lifeLeft + 1 ≤ a.lifeLeft := by
  unfold Letter.lifeLeft Letter.moved
  obtain hv | hv := h.v
  · simp only [hv, if_true]
    omega
  · simp only [hv, if_neg (show ¬(-3 : Int) = 1 by decide)]
    omega

theorem Letter.Fine.lifeLeft_hit (h : a.Fine) :
    ({ a with v := -3 } : Letter).lifeLeft ≤ a.lifeLeft := by
  obtain ⟨hy, hy'⟩ := h.y
  unfold height at hy'
  unfold Letter.lifeLeft
  rw [if_neg (show ¬(-3 : Int) = 1 by decide)]
  split
  · show a.y / 3 + 1 ≤ 258 - a.y
    omega
  · exact le_rfl

theorem Letter.Fine.moved (h : a.Fine) (hstays : ¬a.moved.Gone) : a.moved.Fine := by
  obtain ⟨hy, hy'⟩ := not_or.mp hstays
  exact ⟨h.x, ⟨not_lt.mp hy, not_lt.mp hy'⟩, h.text, h.v⟩

theorem newLetter_fine (r : Nat × Nat × Nat) : (newLetter r).Fine := by
  obtain ⟨r₁, r₂, r₃⟩ := r
  have hx : r₁ % (width / 8 - 2) < 38 := Nat.mod_lt _ (by decide)
  have hv : r₂ % 1000 / 2000 = 0 := Nat.div_eq_of_lt ((Nat.mod_lt _ (by decide)).trans (by decide))
  refine ⟨⟨?_, ?_⟩, ⟨?_, ?_⟩, Nat.mod_lt _ (by decide), .inl ?_⟩
  · show (8 : Int) ≤ (r₁ % (width / 8 - 2) * 8 + 8 : Nat)
    omega
  · show ((r₁ % (width / 8 - 2) * 8 + 8 : Nat) : Int) + 8 < (320 : Nat)
    omega
  · show (0 : Int) ≤ 0
    decide
  · show (0 : Int) + 8 ≤ 200
    decide
  · show ((r₂ % 1000 / 2000 + 1 : Nat) : Int) = 1
    rw [hv]
    rfl

theorem newLetter_lifeLeft (r : Nat × Nat × Nat) : (newLetter r).lifeLeft ≤ 258 := by
  have hy : (newLetter r).y = 0 := rfl
  unfold Letter.lifeLeft
  split <;> omega

theorem Spaced.mono (h : Spaced m as) (hm : m' ≤ m) : Spaced m' as := by
  induction as generalizing m m' with
  | nil => trivial
  | cons a as ih =>
    refine ⟨?_, ih h.2 (Int.add_le_add_right hm _)⟩
    have hlife := h.1
    omega

theorem Spaced.replace {b : Letter} (h : Spaced m (as ++ a :: as')) (hb : b.lifeLeft ≤ a.lifeLeft) :
    Spaced m (as ++ b :: as') := by
  induction as generalizing m with
  | nil =>
    have hlife := h.1
    exact ⟨by omega, h.2⟩
  | cons c as ih => exact ⟨h.1, ih h.2⟩

theorem Spaced.moveAll (h : Spaced m as) (hfine : ∀ a ∈ as, a.Fine) :
    Spaced (m + 1) (moveAll as) := by
  induction as generalizing m with
  | nil => trivial
  | cons a as ih =>
    have hrest := ih h.2 fun b hb => hfine b (List.mem_cons_of_mem a hb)
    by_cases hgone : a.moved.Gone
    · rw [moveAll_cons_gone hgone]
      refine hrest.mono ?_
      unfold letterFrames
      omega
    · rw [moveAll_cons_stays hgone]
      refine ⟨?_, hrest.mono ?_⟩
      · have hmoved := (hfine a List.mem_cons_self).lifeLeft_moved
        have hlife := h.1
        omega
      · omega

/-- Letters that live as long cannot be many. -/
theorem Spaced.length_le (h : Spaced m as) (hfine : ∀ a ∈ as, a.Fine) (hm : m ≤ 257) :
    m + letterFrames * as.length ≤ 267 := by
  induction as generalizing m with
  | nil =>
    rw [List.length_nil]
    omega
  | cons a as ih =>
    have hpos := (hfine a List.mem_cons_self).lifeLeft_pos
    have hlife := h.1
    have hfine' : ∀ b ∈ as, b.Fine := fun b hb => hfine b (List.mem_cons_of_mem a hb)
    by_cases hm' : m + letterFrames ≤ 257
    · have hrest := ih h.2 hfine' hm'
      rw [List.length_cons]
      push_cast
      rw [Int.mul_add]
      omega
    · cases as with
      | nil =>
        unfold letterFrames
        rw [List.length_singleton]
        omega
      | cons b as =>
        have hpos' := (hfine' b List.mem_cons_self).lifeLeft_pos
        have hlife' := h.2.1
        omega

theorem Game.Inv.length_le (h : g.Inv m) (hm : 0 ≤ m) (hm' : m ≤ letterFrames) :
    g.letters.length ≤ 26 := by
  have hlen := h.spaced.length_le h.fine (by
    unfold letterFrames at hm'
    omega)
  unfold letterFrames at hlen
  omega

theorem Game.Inv.hit (h : g.Inv m) (hhits : g.Hits g') : g'.Inv m := by
  obtain ⟨l, a, l', hg, -, -, -, rfl⟩ := hhits
  have hfine := h.fine
  have hspaced := h.spaced
  rw [hg] at hfine hspaced
  have ha := hfine a (List.mem_append_right l List.mem_cons_self)
  refine ⟨fun b hb => ?_, hspaced.replace ha.lifeLeft_hit⟩
  obtain hb | hb := List.mem_append.mp hb
  · exact hfine b (List.mem_append_left _ hb)
  · obtain rfl | hb := List.mem_cons.mp hb
    · exact ⟨ha.x, ha.y, ha.text, .inr rfl⟩
    · exact hfine b (List.mem_append_right l (List.mem_cons_of_mem a hb))

theorem Game.Inv.create (h : g.Inv letterFrames) (r : Nat × Nat × Nat) : (g.create r).Inv 0 := by
  refine ⟨fun a ha => ?_, ?_, ?_⟩
  · obtain rfl | ha := List.mem_cons.mp ha
    · exact newLetter_fine r
    · exact h.fine a ha
  · exact (add_zero _).trans_le (newLetter_lifeLeft r)
  · rw [zero_add]
    exact h.spaced

theorem Game.Inv.update (h : g.Inv m) : g.update.Inv (m + 1) := by
  refine ⟨fun a ha => ?_, h.spaced.moveAll h.fine⟩
  obtain ⟨ha, hstays⟩ := List.mem_filter.mp ha
  obtain ⟨b, hb, rfl⟩ := List.mem_map.mp ha
  exact (h.fine b hb).moved (of_decide_eq_true hstays)

/-- Nothing is lost: a letter is on the screen or counted. -/
def Game.total (g : Game) : Nat := g.hit + g.miss + g.letters.length

theorem Game.total_hit (hhits : g.Hits g') : g'.total = g.total := by
  obtain ⟨l, a, l', hg, -, -, -, rfl⟩ := hhits
  simp [Game.total, hg]

theorem moveAll_length (as : List Letter) :
    hits (as.map Letter.moved) + misses (as.map Letter.moved) + (moveAll as).length =
      as.length := by
  induction as with
  | nil => rfl
  | cons a as ih =>
    rw [List.map_cons, hits_cons _ (List.map _ _), misses_cons _ (List.map _ _), List.length_cons]
    by_cases hgone : a.moved.Gone
    · have hone : hits [a.moved] + misses [a.moved] = 1 := by
        rw [hits, misses, List.countP_singleton, List.countP_singleton]
        by_cases hy : a.moved.y < 0
        · simp [hy]
        · simp [hy, hgone]
      rw [moveAll_cons_gone hgone]
      omega
    · obtain ⟨hhits, hmisses⟩ := counts_stays hgone
      rw [moveAll_cons_stays hgone, List.length_cons]
      omega

theorem Game.total_update (g : Game) : g.update.total = g.total := by
  have hlen := moveAll_length g.letters
  simp only [Game.total, Game.update]
  omega

end Life

/-! ## The pool shows the game -/

/-- The state shows the game: its letters are the nodes of `ls`. -/
structure Shows (s : State) (ls fs : List Node) (g : Game) : Prop where
  lists : Lists s ls fs
  whole : Whole s ls fs
  letters : s.letters ls = g.letters
  hit : s.hit = g.hit
  miss : s.miss = g.miss
  pressed : s.pressed = g.pressed

section Shows

variable {s : State} {ls fs l : List Node} {g : Game} {m : Int}

theorem Shows.length (h : Shows s ls fs g) : ls.length = g.letters.length := by
  rw [← h.letters, State.letters, List.length_map]

theorem foldl_keyboardEvent (es : List (Nat × Bool)) (s : State) :
    es.foldl keyboardEvent s =
      { s with pressed := es.foldl (fun p e => Function.update p e.1 e.2) s.pressed } := by
  induction es generalizing s with
  | nil => rfl
  | cons e es ih =>
    have he : keyboardEvent s e = { s with pressed := Function.update s.pressed e.1 e.2 } := by
      obtain ⟨i, b⟩ := e
      cases b <;> rfl
    rw [List.foldl_cons, he, ih]
    rfl

theorem Shows.events (h : Shows s ls fs g) (es : List (Nat × Bool)) :
    Shows (es.foldl keyboardEvent s) ls fs (g.events es) := by
  rw [foldl_keyboardEvent]
  obtain ⟨hhead, hlinked, hfree, hchained, hnd⟩ := h.lists
  refine ⟨⟨hhead, hlinked, hfree, hchained, hnd⟩, h.whole, h.letters, h.hit, h.miss, ?_⟩
  show es.foldl _ s.pressed = es.foldl _ g.pressed
  rw [h.pressed]

theorem Shows.create (h : Shows s ls fs g) (hroom : ls.length ≤ poolSize) (r : Nat × Nat × Nat) :
    ∃ ls' fs', Shows (createNewLetter r s) ls' fs' (g.create r) ∧
      ls'.length + fs'.length = poolSize + 1 := by
  obtain ⟨i, fs', hlists, hlen, hletters, hhit, hmiss, hpressed⟩ :=
    createNewLetter_spec r h.lists h.whole hroom
  refine ⟨i :: ls, fs', ⟨hlists, .inl hlen, ?_, hhit.trans h.hit, hmiss.trans h.miss, ?_⟩, hlen⟩
  · rw [hletters, h.letters]
    rfl
  · rw [hpressed, h.pressed]
    rfl

theorem Shows.countable (h : Shows s ls fs g) (htotal : g.total < 2 ^ 31) :
    Countable s ls.length := by
  rw [Game.total, ← h.length] at htotal
  have hhit := h.hit
  have hmiss := h.miss
  exact ⟨by omega, by omega, by omega⟩

theorem Shows.update (h : Shows s ls fs g) (hroom : ls.length ≤ poolSize)
    (htotal : g.total < 2 ^ 31) :
    ∃ s' ls' fs', updateLetterPos s = .ok s' ∧ Shows s' ls' fs' g.update ∧
      ls'.length + fs'.length = ls.length + fs.length := by
  have hlists : Lists s ([] ++ ls) fs := h.lists
  obtain ⟨s', ls', fs', hrun, hupdated⟩ :=
    updateLoop_spec hlists (h.countable htotal) (hroom.trans (Nat.le_succ poolSize))
  rw [← h.lists.head] at hrun
  have hlen := hupdated.length
  have hshown : s'.letters ls' = g.update.letters := by
    rw [← List.nil_append ls', hupdated.letters, h.letters]
    rfl
  refine ⟨s', ls', fs', hrun, ⟨hupdated.lists, ?_, hshown, ?_, ?_,
    hupdated.pressed.trans h.pressed⟩, hlen⟩
  · obtain hfull | ⟨rfl, rfl, hstart⟩ := h.whole
    · exact .inl (hlen.trans hfull)
    · -- no letter was created yet, so nothing happens
      rw [h.lists.head] at hrun
      cases hrun
      obtain ⟨hls, hfs⟩ := Nat.add_eq_zero_iff.mp hlen
      exact .inr ⟨List.eq_nil_of_length_eq_zero hls, List.eq_nil_of_length_eq_zero hfs, hstart⟩
  · rw [hupdated.hit, h.letters, h.hit]
    exact (Nat.cast_add ..).symm
  · rw [hupdated.miss, h.letters, h.miss]
    exact (Nat.cast_add ..).symm

/-- The loop finds the lowest of the letters that can be hit. -/
theorem keypressLoop_spec {n : Nat} {p : Option Node} (min : Int) (target : Option Node)
    (h : Linked s.pool p ls) (hn : ls.length ≤ n) :
    ∃ t, keypressLoop s n ls.head? min target = .ok t ∧
      (t = target ∧ (∀ j ∈ ls, (s.pool j).letter.Aimed s.pressed → (s.pool j).letter.y ≤ min) ∨
        ∃ l i l', ls = l ++ i :: l' ∧ t = some i ∧ (s.pool i).letter.Aimed s.pressed ∧
          min < (s.pool i).letter.y ∧
          (∀ j ∈ l, (s.pool j).letter.Aimed s.pressed →
            (s.pool j).letter.y < (s.pool i).letter.y) ∧
          ∀ j ∈ l', (s.pool j).letter.Aimed s.pressed →
            (s.pool j).letter.y ≤ (s.pool i).letter.y) := by
  induction ls generalizing n min target p with
  | nil =>
    refine ⟨target, ?_, .inl ⟨rfl, fun j hj => absurd hj List.not_mem_nil⟩⟩
    cases n <;> rfl
  | cons i ls ih =>
    cases n with
    | zero => exact absurd hn (Nat.not_succ_le_zero _)
    | succ n =>
      obtain ⟨-, hnext, hl⟩ := h
      rw [List.head?_cons, keypressLoop, hnext]
      by_cases hbetter : (s.pool i).letter.Aimed s.pressed ∧ min < (s.pool i).letter.y
      · rw [if_pos hbetter]
        obtain ⟨t, hrun, ⟨rfl, hle⟩ | ⟨l, k, l', rfl, rfl, hk, hlt, hl₁, hl₂⟩⟩ :=
          ih (s.pool i).letter.y (some i) hl (Nat.le_of_succ_le_succ hn)
        · exact ⟨_, hrun, .inr ⟨[], i, ls, rfl, rfl, hbetter.1, hbetter.2,
            fun j hj => absurd hj List.not_mem_nil, hle⟩⟩
        · refine ⟨_, hrun, .inr ⟨i :: l, k, l', rfl, rfl, hk, hbetter.2.trans hlt, ?_, hl₂⟩⟩
          intro j hj hjaimed
          obtain rfl | hj := List.mem_cons.mp hj
          · exact hlt
          · exact hl₁ j hj hjaimed
      · rw [if_neg hbetter]
        have hi : (s.pool i).letter.Aimed s.pressed → (s.pool i).letter.y ≤ min := fun hi =>
          not_lt.mp fun hlt => hbetter ⟨hi, hlt⟩
        obtain ⟨t, hrun, ⟨rfl, hle⟩ | ⟨l, k, l', rfl, rfl, hk, hlt, hl₁, hl₂⟩⟩ :=
          ih min target hl (Nat.le_of_succ_le_succ hn)
        · refine ⟨_, hrun, .inl ⟨rfl, fun j hj hjaimed => ?_⟩⟩
          obtain rfl | hj := List.mem_cons.mp hj
          · exact hi hjaimed
          · exact hle j hj hjaimed
        · refine ⟨_, hrun, .inr ⟨i :: l, k, l', rfl, rfl, hk, hlt, ?_, hl₂⟩⟩
          intro j hj hjaimed
          obtain rfl | hj := List.mem_cons.mp hj
          · exact (hi hjaimed).trans_lt hlt
          · exact hl₁ j hj hjaimed

/-- The letter of a node turns around. -/
theorem Shows.hitOne {l' : List Node} {i : Node} {a : Letter} (h : Shows s (l ++ i :: l') fs g) :
    Shows { releaseKey a.text s with pool := setLetter s.pool i { a with v := -3 } }
      (l ++ i :: l') fs
      { g with
        letters := s.letters l ++ { a with v := -3 } :: s.letters l'
        pressed := Function.update g.pressed a.text false } := by
  obtain ⟨hhead, hlinked, hfree, hchained, hnd⟩ := h.lists.setLetter i { a with v := -3 }
  refine ⟨⟨hhead, hlinked, hfree, hchained, hnd⟩, ?_, ?_, h.hit, h.miss, ?_⟩
  · obtain hfull | ⟨hls, -⟩ := h.whole
    · exact .inl hfull
    · exact absurd hls (List.append_ne_nil_of_right_ne_nil l (List.cons_ne_nil i l'))
  · rw [letters_append, letters_cons]
    refine congrArg₂ (· ++ ·) ?_ (congrArg₂ List.cons (setLetter_self ..) ?_)
    · exact letters_congr fun j hj =>
        congrArg Fly.letter (setLetter_of_ne _ _ (ne_of_mem_of_not_mem hj h.lists.notMem.1))
    · exact letters_congr fun j hj =>
        congrArg Fly.letter (setLetter_of_ne _ _ (ne_of_mem_of_not_mem hj h.lists.notMem.2))
  · show Function.update s.pressed a.text false = _
    rw [h.pressed]

theorem Shows.keypress (h : Shows s ls fs g) (hinv : g.Inv m) (hroom : ls.length ≤ poolSize) :
    updateKeypress s = .ok (false, s) ∧ g.Idle ∨
      ∃ s' g', updateKeypress s = .ok (true, s') ∧ Shows s' ls fs g' ∧ g.Hits g' := by
  obtain ⟨t, hrun, ⟨rfl, hle⟩ | ⟨l, i, l', rfl, rfl, hi, -, hl₁, hl₂⟩⟩ :=
    keypressLoop_spec (-100) none h.lists.linked (hroom.trans (Nat.le_succ poolSize))
  · rw [← h.lists.head] at hrun
    refine .inl ⟨?_, fun a ha haimed => ?_⟩
    · rw [updateKeypress, hrun]
      rfl
    · have hy := (hinv.fine a ha).y.1
      rw [← h.letters] at ha
      obtain ⟨j, hj, rfl⟩ := List.mem_map.mp ha
      have hlow := hle j hj (by
        rw [h.pressed]
        exact haimed)
      omega
  · rw [← h.lists.head] at hrun
    rw [h.pressed] at hi hl₁ hl₂
    refine .inr ⟨_, _, ?_, h.hitOne (a := (s.pool i).letter), s.letters l, (s.pool i).letter,
      s.letters l', ?_, hi, fun b hb hb' => ?_, fun b hb hb' => ?_, rfl⟩
    · rw [updateKeypress, hrun]
      rfl
    · rw [← h.letters, letters_append, letters_cons]
    · obtain ⟨j, hj, rfl⟩ := List.mem_map.mp hb
      exact hl₁ j hj hb'
    · obtain ⟨j, hj, rfl⟩ := List.mem_map.mp hb
      exact hl₂ j hj hb'

/-- The number of the letters whose keys are pressed. -/
def pressedCount (pressed : Nat → Bool) : Nat :=
  (List.range 26).countP fun i => pressed i = true

theorem Game.Hits.pressedCount_lt {g' : Game} (h : g.Hits g') (hinv : g.Inv m) :
    pressedCount g'.pressed < pressedCount g.pressed := by
  obtain ⟨l, a, l', hg, ha, -, -, rfl⟩ := h
  have hmem : a ∈ g.letters := by
    rw [hg]
    exact List.mem_append_right l List.mem_cons_self
  have hcount := Lib.countP_update (f := g.pressed) List.nodup_range
    (List.mem_range.mpr (hinv.fine a hmem).text) false true
  rw [if_pos ha.2, if_neg Bool.false_ne_true] at hcount
  exact Nat.lt_of_succ_le hcount.le

theorem Shows.keypresses {n : Nat} (h : Shows s ls fs g) (hinv : g.Inv m)
    (hroom : ls.length ≤ poolSize) (hn : pressedCount g.pressed < n) :
    ∃ s' g', keypresses n s = .ok s' ∧ Shows s' ls fs g' ∧ g'.Inv m ∧ g'.Idle ∧
      Relation.ReflTransGen Game.Hits g g' := by
  induction n generalizing s g with
  | zero => exact absurd hn (Nat.not_lt_zero _)
  | succ n ih =>
    rw [Typing.keypresses]
    obtain ⟨hrun, hidle⟩ | ⟨s', g', hrun, hshows, hhits⟩ := h.keypress hinv hroom
    · rw [hrun]
      exact ⟨s, g, rfl, h, hinv, hidle, .refl⟩
    · rw [hrun]
      have hlt := hhits.pressedCount_lt hinv
      obtain ⟨s'', g'', hrun', hshows', hinv', hidle, hmore⟩ :=
        ih hshows (hinv.hit hhits) (by omega)
      exact ⟨s'', g'', hrun', hshows', hinv', hidle, .head hhits hmore⟩

end Shows

/-! ## Frames -/

section Frames

variable {s : State} {ls fs : List Node} {g : Game} {m : Int}

theorem Game.total_hits {g' : Game} (h : Relation.ReflTransGen Game.Hits g g') :
    g'.total = g.total := by
  induction h with
  | refl => rfl
  | tail _ hhits ih => exact (Game.total_hit hhits).trans ih

theorem Shows.room (h : Shows s ls fs g) (hinv : g.Inv m) (hm : 0 ≤ m) (hm' : m ≤ letterFrames) :
    ls.length ≤ poolSize := by
  have hlen := hinv.length_le hm hm'
  rw [← h.length] at hlen
  unfold poolSize
  omega

theorem pressedCount_le (pressed : Nat → Bool) : pressedCount pressed < 27 :=
  Nat.lt_succ_of_le (List.countP_le_length.trans_eq List.length_range)

/-- What `n` frames lead to. -/
structure Played (n : Nat) (s : State) (ls fs : List Node) (g : Game) : Prop where
  displays : Shows s ls fs g
  inv : g.Inv (n % letterFrames + 1 : Nat)
  total : g.total = n / letterFrames
  full : n < letterFrames ∨ ls.length + fs.length = poolSize + 1

/-- What the letter of a frame leads to, when it is created and when it is not. -/
structure Created (n : Nat) (s : State) (ls fs : List Node) (g : Game) : Prop where
  displays : Shows s ls fs g
  inv : g.Inv (n % letterFrames : Nat)
  total : g.total = n / letterFrames
  full : n < letterFrames ∨ ls.length + fs.length = poolSize + 1

theorem Played.created {n : Nat} (h : Played n s ls fs g) (r : Nat × Nat × Nat) :
    ∃ s' ls' fs' g', (if (n + 1) % letterFrames = 0 then createNewLetter r s else s) = s' ∧
      (if (n + 1) % letterFrames = 0 then g.create r else g) = g' ∧
      Created (n + 1) s' ls' fs' g' := by
  have hinv := h.inv
  have htotal := h.total
  by_cases hnew : (n + 1) % letterFrames = 0
  · have hlast : n % letterFrames + 1 = letterFrames := by
      unfold letterFrames at *
      omega
    have hone : n / letterFrames + 1 = (n + 1) / letterFrames := by
      unfold letterFrames at *
      omega
    rw [hlast] at hinv
    obtain ⟨ls', fs', hshows, hfull⟩ := h.displays.create
      (h.displays.room hinv (by positivity) le_rfl) r
    rw [if_pos hnew, if_pos hnew]
    refine ⟨_, ls', fs', _, rfl, rfl, hshows, ?_, ?_, .inr hfull⟩
    · rw [hnew]
      exact hinv.create r
    · rw [← hone, ← htotal]
      exact (Nat.add_assoc ..).symm
  · have hnext : (n + 1) % letterFrames = n % letterFrames + 1 := by
      unfold letterFrames at *
      omega
    have hnone : n / letterFrames = (n + 1) / letterFrames := by
      unfold letterFrames at *
      omega
    rw [if_neg hnew, if_neg hnew]
    refine ⟨s, ls, fs, g, rfl, rfl, h.displays, ?_, htotal.trans hnone,
      h.full.imp_left fun hn => ?_⟩
    · rw [hnext]
      exact hinv
    · unfold letterFrames at *
      omega

theorem Played.keypresses {n : Nat} (h : Played n s ls fs g) (es : List (Nat × Bool)) :
    ∃ s' g', keypresses 27 (es.foldl keyboardEvent s) = .ok s' ∧ Played n s' ls fs g' ∧ g'.Idle ∧
      Relation.ReflTransGen Game.Hits (g.events es) g' := by
  have hlt : n % letterFrames < letterFrames := Nat.mod_lt n (by decide)
  have hinv : (g.events es).Inv (n % letterFrames + 1 : Nat) := ⟨h.inv.fine, h.inv.spaced⟩
  have hroom := h.displays.room h.inv (by positivity) (by exact_mod_cast hlt)
  obtain ⟨s', g', hrun, hshows, hinv', hidle, hhits⟩ :=
    (h.displays.events es).keypresses hinv hroom (pressedCount_le _)
  exact ⟨s', g', hrun, ⟨hshows, hinv', (Game.total_hits hhits).trans h.total, h.full⟩, hidle, hhits⟩

theorem Created.update {n : Nat} (h : Created n s ls fs g) (hn : n < 2 ^ 31) :
    ∃ s' ls' fs', updateLetterPos s = .ok s' ∧ Played n s' ls' fs' g.update := by
  have hlt : n % letterFrames < letterFrames := Nat.mod_lt n (by decide)
  have hroom := h.displays.room h.inv (by positivity) (by exact_mod_cast hlt.le)
  have htotal : g.total < 2 ^ 31 := by
    rw [h.total]
    exact (Nat.div_le_self n letterFrames).trans_lt hn
  obtain ⟨s', ls', fs', hrun, hshows, hlen⟩ := h.displays.update hroom htotal
  refine ⟨s', ls', fs', hrun, hshows, ?_, (Game.total_update g).trans h.total, ?_⟩
  · exact_mod_cast h.inv.update
  · rw [hlen]
    exact h.full

theorem Played.frame {n : Nat} (h : Played n s ls fs g) (hn : n + 1 < 2 ^ 31) (input : Input) :
    ∃ s' ls' fs' g', frame (n + 1 : Nat) s input = .ok s' ∧ Played (n + 1) s' ls' fs' g' ∧
      Game.Frame (n + 1) input g g' := by
  obtain ⟨s₁, g₁, hrun₁, hplayed₁, hidle, hhits⟩ := h.keypresses input.events
  obtain ⟨s₂, ls₂, fs₂, g₂, hs₂, hg₂, hcreated⟩ := hplayed₁.created input.rand
  obtain ⟨s₃, ls₃, fs₃, hrun₃, hplayed₃⟩ := hcreated.update hn
  refine ⟨s₃, ls₃, fs₃, g₂.update, ?_, hplayed₃, g₁, hhits, hidle, by rw [hg₂]⟩
  rw [Typing.frame, hrun₁, ok_bind]
  norm_cast
  rw [hs₂]
  exact hrun₃

theorem Played.frames {n : Nat} (h : Played n s ls fs g) (inputs : List Input)
    (hn : n + inputs.length < 2 ^ 31) :
    ∃ s' ls' fs' g', frames n s inputs = .ok s' ∧ Played (n + inputs.length) s' ls' fs' g' ∧
      Game.Frames n g inputs g' := by
  induction inputs generalizing n s ls fs g with
  | nil => exact ⟨s, ls, fs, g, rfl, h, rfl⟩
  | cons input inputs ih =>
    have hlen : n + (input :: inputs).length = n + 1 + inputs.length := by
      rw [List.length_cons]
      omega
    rw [hlen] at hn ⊢
    have hcount : int ((n : Int) + 1) = .ok (n + 1 : Nat) := if_pos ⟨by omega, by omega⟩
    obtain ⟨s₁, ls₁, fs₁, g₁, hrun₁, hplayed₁, hframe⟩ := h.frame (by omega) input
    obtain ⟨s₂, ls₂, fs₂, g₂, hrun₂, hplayed₂, hframes⟩ := ih hplayed₁ hn
    refine ⟨s₂, ls₂, fs₂, g₂, ?_, hplayed₂, g₁, hframe, hframes⟩
    rw [Typing.frames, hcount, ok_bind, hrun₁, ok_bind]
    exact hrun₂

/-- After every frame the list shows the letters of the game, at most 26 and all on the screen,
every letter created is on the list or was counted once, and from the first letter on every
other node of the pool is free. -/
theorem typed_letters (inputs : List Input) (h : inputs.length < 2 ^ 31) :
    ∃ s ls fs g, frames 0 .start inputs = .ok s ∧ Lists s ls fs ∧ s.letters ls = g.letters ∧
      Game.Frames 0 .start inputs g ∧ s.hit = g.hit ∧ s.miss = g.miss ∧ ls.length ≤ 26 ∧
      (∀ i ∈ ls, (s.pool i).letter.Fine) ∧
      s.hit + s.miss + ls.length = (inputs.length / letterFrames : Nat) ∧
      (inputs.length < letterFrames ∨ ls.length + fs.length = poolSize + 1) := by
  have hstart : Played 0 .start [] [] .start :=
    ⟨⟨⟨rfl, trivial, rfl, trivial, List.nodup_nil⟩, .inr ⟨rfl, rfl, rfl, rfl, rfl⟩, rfl, rfl, rfl,
      rfl⟩, ⟨fun a ha => absurd ha List.not_mem_nil, trivial⟩, rfl, .inl (by decide)⟩
  obtain ⟨s, ls, fs, g, hrun, ⟨hshows, hinv, htotal, hfull⟩, hframes⟩ :=
    hstart.frames inputs (by omega)
  rw [Nat.zero_add] at hinv htotal hfull
  have hlt : inputs.length % letterFrames < letterFrames := Nat.mod_lt _ (by decide)
  refine ⟨s, ls, fs, g, hrun, hshows.lists, hshows.letters, hframes, hshows.hit, hshows.miss, ?_,
    fun i hi => ?_, ?_, hfull⟩
  · rw [hshows.length]
    exact hinv.length_le (by positivity) (by exact_mod_cast hlt)
  · refine hinv.fine _ ?_
    rw [← hshows.letters]
    exact List.mem_map_of_mem hi
  · rw [hshows.hit, hshows.miss, hshows.length]
    exact_mod_cast htotal

/-- Twenty frames with the key of the first letter pressed: two letters, and no node lost. -/
theorem typed_letters_twenty :
    ∃ s ls fs, frames 0 .start (List.replicate 20 ⟨[(7, true)], (3, 5, 7)⟩) = .ok s ∧
      Lists s ls fs ∧ s.hit + s.miss + ls.length = 2 ∧ ls.length + fs.length = 1001 := by
  obtain ⟨s, ls, fs, -, hrun, hlists, -, -, -, -, -, -, hcount, hfull⟩ :=
    typed_letters (List.replicate 20 ⟨[(7, true)], (3, 5, 7)⟩) (by decide)
  refine ⟨s, ls, fs, hrun, hlists, hcount, ?_⟩
  obtain hfew | hall := hfull
  · exact absurd hfew (by decide)
  · rw [hall]
    unfold poolSize
    rfl

end Frames

end OsWorkbench.Typing
