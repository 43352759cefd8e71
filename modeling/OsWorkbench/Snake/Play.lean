import OsWorkbench.Snake.Body

/-!
# Every game

`Inv` is what holds between two steps: the body, the walls of the border, one apple, and
the number of empty cells. `init_game` establishes it and `step_game` keeps it, whatever
key is pressed and whatever `rand` returns; the only fault of a step is the division by
the number of empty cells when there are none.
-/

namespace OsWorkbench.Snake

/-- The number of cells with the element. -/
def countEle (m : Pnt → MapEle) (e : MapEle) : Nat := cells.countP fun p => m p = e

/-- The border is all wall, one cell is an apple, and `n` cells are empty. -/
structure Field (m : Pnt → MapEle) (n : Nat) : Prop where
  border : ∀ {p : Pnt}, p.InMap → ¬p.Inside → m p = .wall
  apple : countEle m .apple = 1
  count : n = countEle m .empty

/-- The states between two steps. -/
def Inv (g : Game) : Prop :=
  ∃ l, Body g.snakeMap l g.tail g.head ∧ (l.length : Int) = g.score + 2 ∧ 0 ≤ g.score ∧
    Field g.snakeMap g.emptyCnt

/-! ## The field -/

section Field

variable {m : Pnt → MapEle} {n : Nat} {c : Pnt} {e : MapEle}

theorem cells_length : cells.length = 1600 := by decide +kernel

theorem countEle_le : countEle m e ≤ 1600 := cells_length ▸ List.countP_le_length

theorem countEle_pos : 0 < countEle m e ↔ ∃ p : Pnt, p.InMap ∧ m p = e := by
  simp [countEle, List.countP_pos_iff, mem_cells]

theorem countEle_update (hc : c.InMap) (e v : MapEle) :
    countEle (Function.update m c e) v + (if m c = v then 1 else 0) =
      countEle m v + if e = v then 1 else 0 :=
  Lib.countP_update cells_nodup (mem_cells.mpr hc) e v

/-- A cell that is no wall is not on the border. -/
theorem Field.inside (h : Field m n) (hc : c.InMap) (hm : m c ≠ .wall) : c.Inside := by
  by_contra hno
  exact hm (h.border hc hno)

theorem border_update (h : ∀ {p : Pnt}, p.InMap → ¬p.Inside → m p = .wall) (hc : c.Inside)
    (e : MapEle) {p : Pnt} (hp : p.InMap) (hb : ¬p.Inside) :
    Function.update m c e p = .wall := by
  rw [Function.update_of_ne]
  · exact h hp hb
  · rintro rfl
    exact hb hc

theorem isBody_ne {v : MapEle} (h : e.IsBody) (hv : ¬v.IsBody) : e ≠ v := by
  rintro rfl
  exact hv h

/-- A body cell changes its direction. -/
theorem Field.turn (h : Field m n) (hc : c.InMap) (hm : (m c).IsBody) (he : e.IsBody) :
    Field (Function.update m c e) n := by
  have hwall : m c ≠ .wall := isBody_ne hm (by decide)
  refine ⟨border_update h.border (h.inside hc hwall) e, ?_, ?_⟩
  · have hcnt := countEle_update (m := m) hc e .apple
    rw [if_neg (isBody_ne hm (by decide)), if_neg (isBody_ne he (by decide))] at hcnt
    rw [← h.apple]
    exact hcnt
  · have hcnt := countEle_update (m := m) hc e .empty
    rw [if_neg (isBody_ne hm (by decide)), if_neg (isBody_ne he (by decide))] at hcnt
    rw [h.count]
    exact hcnt.symm

/-- An empty cell becomes part of the body and a body cell becomes empty. -/
theorem Field.exchange {t : Pnt} {e' : MapEle} (h : Field m n) (hc : c.InMap) (hm : m c = .empty)
    (he : e'.IsBody) (ht : t.InMap) (hmt : (Function.update m c e' t).IsBody) :
    Field (Function.update (Function.update m c e') t .empty) n := by
  have h1 : c.Inside := h.inside hc (by simp [hm])
  have hb1 : ∀ {p : Pnt}, p.InMap → ¬p.Inside → Function.update m c e' p = .wall := fun hp hb =>
    border_update h.border h1 e' hp hb
  have h2 : t.Inside := by
    by_contra hno
    exact isBody_ne hmt (by decide) (hb1 ht hno)
  refine ⟨border_update hb1 h2 .empty, ?_, ?_⟩
  · have hcnt := countEle_update (m := m) hc e' .apple
    have hcnt' := countEle_update (m := Function.update m c e') ht .empty .apple
    rw [if_neg (by simp [hm]), if_neg (isBody_ne he (by decide))] at hcnt
    rw [if_neg (isBody_ne hmt (by decide)), if_neg (by decide)] at hcnt'
    have := h.apple
    omega
  · have hcnt := countEle_update (m := m) hc e' .empty
    have hcnt' := countEle_update (m := Function.update m c e') ht .empty .empty
    rw [if_pos hm, if_neg (isBody_ne he (by decide))] at hcnt
    rw [if_neg (isBody_ne hmt (by decide)), if_pos rfl] at hcnt'
    have := h.count
    omega

/-- The apple is eaten, after a new one was put on an empty cell. -/
theorem Field.eat {t : Pnt} {e' : MapEle} (h : Field m n) (hc : c.InMap) (hm : m c = .empty)
    (he : e'.IsBody) (ht : t.InMap) (hmt : m t = .apple) :
    Field (Function.update (Function.update m c .apple) t e') (n - 1) := by
  have h1 : c.Inside := h.inside hc (by simp [hm])
  have h2 : t.Inside := h.inside ht (by simp [hmt])
  have htc : t ≠ c := by
    rintro rfl
    rw [hm] at hmt
    cases hmt
  have hmt' : Function.update m c .apple t = .apple := by rw [Function.update_of_ne htc, hmt]
  refine ⟨border_update (fun hp hb => border_update h.border h1 .apple hp hb) h2 e', ?_, ?_⟩
  · have hcnt := countEle_update (m := m) hc .apple .apple
    have hcnt' := countEle_update (m := Function.update m c .apple) ht e' .apple
    rw [if_neg (by simp [hm]), if_pos rfl] at hcnt
    rw [if_pos hmt', if_neg (isBody_ne he (by decide))] at hcnt'
    have := h.apple
    omega
  · have hcnt := countEle_update (m := m) hc .apple .empty
    have hcnt' := countEle_update (m := Function.update m c .apple) ht e' .empty
    rw [if_pos hm, if_neg (by decide)] at hcnt
    rw [if_neg (by simp [hmt']), if_neg (isBody_ne he (by decide))] at hcnt'
    have := h.count
    omega

end Field

/-! ## Apples -/

/-- An apple was put on the empty cell `c`. -/
def Game.withApple (g : Game) (c : Pnt) : Game :=
  { g with
    snakeMap := Function.update g.snakeMap c .apple
    unchange := Function.update g.unchange c 0
    emptyCnt := g.emptyCnt - 1 }

/-- The loop stops at the cell at which `index` empty cells have been met. -/
theorem genAppleLoop_spec {g : Game} {ps : List Pnt} {index : Nat} (hpos : 0 < index)
    (hle : index ≤ ps.countP fun p => g.snakeMap p = .empty) (hlt : index < 2 ^ 32)
    (hcnt : 0 < g.emptyCnt) (hcnt' : g.emptyCnt < 2 ^ 32) :
    ∃ c ∈ ps, g.snakeMap c = .empty ∧ genAppleLoop g ps index = g.withApple c := by
  induction ps generalizing index with
  | nil =>
    rw [List.countP_nil] at hle
    omega
  | cons p ps ih =>
    rw [List.countP_cons] at hle
    by_cases hp : g.snakeMap p = .empty
    · rw [if_pos (by simpa using hp)] at hle
      have hsub : sub32 index 1 = index - 1 := sub32_eq hlt hpos
      by_cases hone : index = 1
      · refine ⟨p, List.mem_cons_self, hp, ?_⟩
        subst hone
        simp only [genAppleLoop, if_pos hp, hsub, Nat.sub_self, if_pos, Game.withApple]
        rw [sub32_eq hcnt' hcnt]
      · have hpred : 0 < index - 1 := by omega
        obtain ⟨c, hc, hce, hloop⟩ := ih hpred (by omega) (by omega)
        refine ⟨c, List.mem_cons_of_mem _ hc, hce, ?_⟩
        simp only [genAppleLoop, if_pos hp, hsub]
        rw [if_neg (by omega), hloop]
    · rw [if_neg (by simpa using hp)] at hle
      obtain ⟨c, hc, hce, hloop⟩ := ih hpos (by omega) hlt
      refine ⟨c, List.mem_cons_of_mem _ hc, hce, ?_⟩
      simp only [genAppleLoop, if_neg hp]
      rw [if_neg (by omega), hloop]

theorem genApple_spec {g : Game} (hcount : g.emptyCnt = countEle g.snakeMap .empty) (r : Nat)
    (hpos : 0 < g.emptyCnt) :
    ∃ c : Pnt, c.InMap ∧ g.snakeMap c = .empty ∧ genApple g r = .ok (g.withApple c) := by
  have hle := countEle_le (m := g.snakeMap) (e := .empty)
  have hmod := Nat.mod_lt r hpos
  have hadd : add32 (r % g.emptyCnt) 1 = r % g.emptyCnt + 1 := add32_eq (by omega)
  have hindex : r % g.emptyCnt + 1 ≤ cells.countP fun p => g.snakeMap p = .empty := by
    unfold countEle at hcount
    omega
  obtain ⟨c, hc, hce, hloop⟩ := genAppleLoop_spec (by omega) hindex (by omega) hpos (by omega)
  refine ⟨c, mem_cells.mp hc, hce, ?_⟩
  rw [genApple, if_neg (by omega), hadd, hloop]

/-! ## The steps of a game -/

section Steps

variable {g g' : Game} {p : Pnt} {e : MapEle} {r : Nat}

theorem load_inMap (h : p.InMap) : g.load p = .ok (g.snakeMap p) := if_pos h

theorem store_inMap (h : p.InMap) :
    g.store p e = .ok { g with snakeMap := Function.update g.snakeMap p e } := if_pos h

theorem touch_inMap (h : p.InMap) :
    g.touch p = .ok { g with unchange := Function.update g.unchange p 0 } := if_pos h

/-- The state only differs in which cells are drawn. -/
theorem Inv.congr (h : Inv g) (hm : g'.snakeMap = g.snakeMap) (he : g'.emptyCnt = g.emptyCnt)
    (hh : g'.head = g.head) (ht : g'.tail = g.tail) (hs : g'.score = g.score) : Inv g' := by
  obtain ⟨l, hb, hl, hsc, hf⟩ := h
  refine ⟨l, ?_, by rw [hs]; exact hl, by rw [hs]; exact hsc, ?_⟩
  · rw [hm, hh, ht]
    exact hb
  · rw [hm, he]
    exact hf

theorem turn_spec (h : Inv g) (back : MapEle) (he : e.IsBody) :
    ∃ g', turn g back e = .ok g' ∧ Inv g' := by
  obtain ⟨l, hb, hl, hsc, hf⟩ := id h
  obtain ⟨hin, hbody⟩ := hb.mem.mp hb.head_mem
  unfold turn
  rw [load_inMap hin, ok_bind]
  split
  · exact ⟨_, store_inMap hin, l, hb.turn he, hl, hsc, hf.turn hin hbody he⟩
  · exact ⟨g, rfl, h⟩

theorem pressKey_spec (h : Inv g) (k : KeyCode) :
    pressKey g k = .ok none ∨ ∃ g', pressKey g k = .ok (some g') ∧ Inv g' := by
  have hturn : ∀ back e : MapEle, e.IsBody →
      ∃ g', (some <$> turn g back e : Except Fault (Option Game)) = .ok (some g') ∧ Inv g' := by
    intro back e he
    obtain ⟨g', hg', hinv⟩ := turn_spec h back he
    exact ⟨g', by rw [hg']; rfl, hinv⟩
  cases k with
  | w => exact .inr (hturn _ _ (by decide))
  | d => exact .inr (hturn _ _ (by decide))
  | s => exact .inr (hturn _ _ (by decide))
  | a => exact .inr (hturn _ _ (by decide))
  | q => exact .inl rfl
  | none => exact .inr ⟨g, rfl, h⟩
  | other => exact .inr ⟨g, rfl, h⟩

/-- The head moves to `c`, which was an apple. -/
def Game.eaten (g : Game) (c : Pnt) : Game :=
  { g with
    snakeMap := Function.update g.snakeMap c (g.snakeMap g.head)
    unchange := Function.update (Function.update g.unchange g.head 0) c 0
    head := c
    score := g.score + 1 }

/-- The head moves to `c`, and the tail to `t`. -/
def Game.slid (g : Game) (c t : Pnt) : Game :=
  { g with
    snakeMap := Function.update (Function.update g.snakeMap c (g.snakeMap g.head)) g.tail .empty
    unchange := Function.update (Function.update (Function.update (Function.update g.unchange
      g.head 0) c 0) g.tail 0) t 0
    head := c
    tail := t }

theorem Inv.eaten {c : Pnt} (h : Inv g) (hc : c.InMap) (hm : g.snakeMap c = .empty)
    (hnext : g.snakeMap (g.head.move (g.snakeMap g.head)) = .apple) :
    Inv ((g.withApple c).eaten (g.head.move (g.snakeMap g.head))) := by
  obtain ⟨l, hb, hl, hsc, hf⟩ := h
  obtain ⟨hin, hbody⟩ := hb.mem.mp hb.head_mem
  have hmove := (hf.inside hin (isBody_ne hbody (by decide))).move (g.snakeMap g.head)
  generalize hn : g.head.move (g.snakeMap g.head) = n at hnext hmove
  have hhc : g.head ≠ c := by
    rintro heq
    rw [heq, hm] at hbody
    exact absurd hbody (by decide)
  have hhead : (g.withApple c).snakeMap g.head = g.snakeMap g.head := Function.update_of_ne hhc _ _
  have hnc : n ≠ c := by
    rintro rfl
    rw [hm] at hnext
    cases hnext
  have hb' : Body (g.withApple c).snakeMap l g.tail g.head :=
    hb.off (by rw [hm]; decide) (by decide)
  have hoff : ¬((g.withApple c).snakeMap n).IsBody := by
    show ¬(Function.update g.snakeMap c .apple n).IsBody
    rw [Function.update_of_ne hnc, hnext]
    decide
  refine ⟨l ++ [n], hb'.grow hoff hmove (by rw [hhead, hn]), ?_, ?_, ?_⟩
  · rw [List.length_append, List.length_singleton, Nat.cast_add, hl]
    show g.score + 2 + 1 = g.score + 1 + 2
    ring
  · show 0 ≤ g.score + 1
    omega
  · have hfield := hf.eat hc hm hbody hmove hnext
    show Field (Function.update (Function.update g.snakeMap c .apple) n
      ((g.withApple c).snakeMap g.head)) (g.emptyCnt - 1)
    rw [hhead]
    exact hfield

theorem Inv.slid (h : Inv g) (hnext : g.snakeMap (g.head.move (g.snakeMap g.head)) = .empty) :
    Inv (g.slid (g.head.move (g.snakeMap g.head)) (g.tail.move (g.snakeMap g.tail))) ∧
      (g.tail.move (g.snakeMap g.tail)).InMap := by
  obtain ⟨l, hb, hl, hsc, hf⟩ := h
  obtain ⟨hin, hbody⟩ := hb.mem.mp hb.head_mem
  have hmove := (hf.inside hin (isBody_ne hbody (by decide))).move (g.snakeMap g.head)
  generalize hn : g.head.move (g.snakeMap g.head) = n at hnext hmove
  have hgrown := hb.grow (by rw [hnext]; decide) hmove hn.symm
  obtain ⟨hint, hbodyt⟩ := hgrown.mem.mp hgrown.tail_mem
  have htn : g.tail ≠ n := by
    rintro heq
    have := (hb.mem.mp hb.tail_mem).2
    rw [heq, hnext] at this
    exact absurd this (by decide)
  -- the body has two cells at least, so the tail has a successor
  obtain ⟨q, l', hl'⟩ : ∃ q l', l ++ [n] = g.tail :: q :: l' := by
    obtain ⟨l₁, rfl⟩ := hb.first
    cases l₁ with
    | nil =>
      rw [List.length_singleton] at hl
      omega
    | cons q l₂ => exact ⟨q, l₂ ++ [n], rfl⟩
  rw [hl'] at hgrown
  obtain ⟨hq, hshrunk⟩ := hgrown.shrink (e := .empty) (by decide)
  rw [Function.update_of_ne htn] at hq
  rw [← hq]
  refine ⟨⟨q :: l', hshrunk, ?_, hsc, hf.exchange hmove hnext hbody hint hbodyt⟩,
    (hgrown.mem.mp (by simp)).1⟩
  have hlen := congrArg List.length hl'
  simp only [List.length_append, List.length_cons, List.length_nil] at hlen
  simp only [List.length_cons]
  show ((l'.length + 1 : Nat) : Int) = g.score + 2
  omega

/-- The score is the number of cells of the body, less two. -/
theorem Inv.score_lt (h : Inv g) : g.score < 1600 := by
  obtain ⟨l, hb, hl, -, -⟩ := h
  have hsub : l ⊆ cells := fun p hp => mem_cells.mpr (hb.mem.mp hp).1
  have hlen := (hb.nodup.subperm hsub).length_le
  rw [cells_length] at hlen
  omega

/-- `step_game_do` ends the game, or divides by zero, or leads to a state of the game. -/
theorem stepGameDo_spec (h : Inv g) (r : Nat) :
    stepGameDo g r = .ok (0, g) ∨ (stepGameDo g r = .error .divide ∧ g.emptyCnt = 0) ∨
      ∃ g', stepGameDo g r = .ok (1, g') ∧ Inv g' := by
  obtain ⟨l, hb, -, -, hf⟩ := id h
  obtain ⟨hin, hbody⟩ := hb.mem.mp hb.head_mem
  obtain ⟨hint, hbodyt⟩ := hb.mem.mp hb.tail_mem
  have hmove := (hf.inside hin (isBody_ne hbody (by decide))).move (g.snakeMap g.head)
  obtain ⟨⟨dx, dy⟩, hd, hnext⟩ := delta_eq_ok hbody g.head
  obtain ⟨⟨tx, ty⟩, ht, htail⟩ := delta_eq_ok hbodyt g.tail
  simp only at hnext htail
  unfold stepGameDo
  rw [load_inMap hin, ok_bind, hd, ok_bind]
  simp only
  rw [load_inMap hint, ok_bind, ht, ok_bind]
  simp only
  rw [hnext, load_inMap hmove, ok_bind]
  split
  · exact .inl rfl
  · next hfree =>
    split
    · next happle =>
      refine .inr ?_
      rcases Nat.eq_zero_or_pos g.emptyCnt with hzero | hpos
      · refine .inl ⟨?_, hzero⟩
        rw [genApple, if_pos hzero]
        rfl
      · obtain ⟨c, hc, hce, hgen⟩ := genApple_spec hf.count r hpos
        refine .inr ⟨(g.withApple c).eaten (g.head.move (g.snakeMap g.head)), ?_,
          h.eaten hc hce happle⟩
        have hscore : IsInt (g.score + 1) := by
          obtain ⟨-, -, -, hnonneg, -⟩ := id h
          have hlt := h.score_lt
          exact ⟨by omega, by omega⟩
        have hhead : (g.withApple c).head.InMap := hin
        rw [hgen, ok_bind, load_inMap hhead, ok_bind, store_inMap hmove, ok_bind,
          touch_inMap hhead, ok_bind]
        simp only
        rw [touch_inMap hmove, ok_bind]
        simp only [Game.withApple]
        rw [int_eq_ok.mpr ⟨hscore, rfl⟩]
        rfl
    · next happle =>
      have hempty : g.snakeMap (g.head.move (g.snakeMap g.head)) = .empty := by
        by_contra hne
        exact hfree ⟨hne, happle⟩
      obtain ⟨hinv, htin⟩ := h.slid hempty
      refine .inr (.inr ⟨_, ?_, hinv⟩)
      rw [ok_bind, store_inMap hmove, ok_bind, touch_inMap hin, ok_bind]
      simp only
      rw [touch_inMap hmove, ok_bind, store_inMap hint, ok_bind, touch_inMap hint, ok_bind]
      simp only [htail]
      rw [touch_inMap htin]
      rfl

/-- `step_game` ends the game, or divides by zero, or leads to a state of the game. -/
theorem stepGame_spec (h : Inv g) (event : KbdEvent) (r : Nat) :
    (∃ g', stepGame g event r = .ok (0, g')) ∨ stepGame g event r = .error .divide ∨
      ∃ g', stepGame g event r = .ok (1, g') ∧ Inv g' := by
  have hdo : ∀ t, Inv t →
      (∃ g', (stepGameDo t r >>= fun x => pure (x.1, showGame x.2)) =
        (.ok (0, g') : Except Fault (Nat × Game))) ∨
      (stepGameDo t r >>= fun x => pure (x.1, showGame x.2)) = .error .divide ∨
      ∃ g', (stepGameDo t r >>= fun x => pure (x.1, showGame x.2)) =
        (.ok (1, g') : Except Fault (Nat × Game)) ∧ Inv g' := by
    intro t ht
    rcases stepGameDo_spec ht r with hend | ⟨hdiv, -⟩ | ⟨g', hgo, hinv⟩
    · exact .inl ⟨showGame t, by rw [hend]; rfl⟩
    · exact .inr (.inl (by rw [hdiv]; rfl))
    · exact .inr (.inr ⟨showGame g', by rw [hgo]; rfl, hinv.congr rfl rfl rfl rfl rfl⟩)
  unfold stepGame
  split
  · rcases pressKey_spec h event.keycode with hquit | ⟨t, hturn, hinv⟩
    · rw [hquit]
      exact .inl ⟨g, rfl⟩
    · rw [hturn]
      exact hdo t hinv
  · exact hdo g h

/-! ## The start -/

/-- The map of `init_game` without the apple. -/
def startMap (g : Game) : Pnt → MapEle :=
  Function.update (Function.update (initMap g) ⟨20, 20⟩ .bodyr) ⟨19, 20⟩ .bodyr

theorem startMap_isBody (hp : p.InMap) :
    (startMap g p).IsBody ↔ p = ⟨19, 20⟩ ∨ p = ⟨20, 20⟩ := by
  unfold startMap
  by_cases h1 : p = ⟨19, 20⟩
  · subst h1
    rw [Function.update_self]
    exact iff_of_true (by decide) (.inl rfl)
  · rw [Function.update_of_ne h1]
    by_cases h2 : p = ⟨20, 20⟩
    · subst h2
      rw [Function.update_self]
      exact iff_of_true (by decide) (.inr rfl)
    · rw [Function.update_of_ne h2, initMap, if_pos hp]
      refine iff_of_false ?_ (by simp [h1, h2])
      split <;> decide

theorem startMap_border (hp : p.InMap) (hb : ¬p.Inside) : startMap g p = .wall := by
  have h19 : p ≠ ⟨19, 20⟩ := by
    rintro rfl
    exact hb (by unfold Pnt.Inside maxWidth maxHeight; decide)
  have h20 : p ≠ ⟨20, 20⟩ := by
    rintro rfl
    exact hb (by unfold Pnt.Inside maxWidth maxHeight; decide)
  rw [startMap, Function.update_of_ne h19, Function.update_of_ne h20, initMap, if_pos hp, if_pos]
  unfold Pnt.InMap at hp
  unfold Pnt.Inside at hb
  omega

theorem startMap_no_apple : countEle (startMap g) .apple = 0 := by
  refine List.countP_eq_zero.mpr fun p hp => ?_
  have hp := mem_cells.mp hp
  unfold startMap
  rw [decide_eq_true_eq, Function.update_apply, Function.update_apply, initMap, if_pos hp]
  split_ifs <;> decide

theorem startMap_body : Body (startMap g) [⟨19, 20⟩, ⟨20, 20⟩] ⟨19, 20⟩ ⟨20, 20⟩ := by
  have htail : startMap g ⟨19, 20⟩ = .bodyr := Function.update_self _ _ _
  refine ⟨⟨_, rfl⟩, ⟨[⟨19, 20⟩], rfl⟩, ?_, by decide, fun {p} => ?_⟩
  · exact List.isChain_cons_cons.mpr ⟨by rw [htail]; rfl, List.isChain_singleton _⟩
  · rw [List.mem_cons, List.mem_singleton]
    constructor
    · rintro (rfl | rfl)
      · have hin : Pnt.InMap ⟨19, 20⟩ := by decide
        exact ⟨hin, (startMap_isBody hin).mpr (.inl rfl)⟩
      · have hin : Pnt.InMap ⟨20, 20⟩ := by decide
        exact ⟨hin, (startMap_isBody hin).mpr (.inr rfl)⟩
    · rintro ⟨hin, hbody⟩
      exact (startMap_isBody hin).mp hbody

-- the 1600 cells stay a name while the two states are compared
attribute [local irreducible] cells

/-- The state in front of the `gen_apple` of `init_game`. -/
theorem initGame_eq (g : Game) (r : Nat) :
    ∃ t, initGame g r = genApple t r ∧ t.snakeMap = startMap g ∧ t.head = ⟨20, 20⟩ ∧
      t.tail = ⟨19, 20⟩ ∧ t.score = 0 ∧ t.emptyCnt = countEle (startMap g) .empty := by
  have hhead : Pnt.InMap ⟨(maxWidth + 1) / 2, maxHeight / 2⟩ := by decide
  have htail : Pnt.InMap ⟨(maxWidth - 1) / 2, maxHeight / 2⟩ := by decide
  have hmap : Function.update (Function.update (initMap g) ⟨(maxWidth + 1) / 2, maxHeight / 2⟩
      .bodyr) ⟨(maxWidth - 1) / 2, maxHeight / 2⟩ .bodyr = startMap g := rfl
  unfold initGame
  simp only
  rw [store_inMap hhead, ok_bind, store_inMap htail, ok_bind]
  exact ⟨_, rfl, hmap, rfl, rfl, rfl, congrArg (fun m => countEle m .empty) hmap⟩

theorem startMap_empty : 0 < countEle (startMap g) .empty := by
  refine countEle_pos.mpr ⟨⟨1, 1⟩, by decide, ?_⟩
  rw [startMap, Function.update_of_ne (by decide), Function.update_of_ne (by decide), initMap,
    if_pos (by decide), if_neg (by decide)]

/-- `init_game` returns, with two cells of body and an apple. -/
theorem initGame_spec (g : Game) (r : Nat) : ∃ g', initGame g r = .ok g' ∧ Inv g' := by
  obtain ⟨t, hinit, hmap, hhead, htail, hscore, hcount⟩ := initGame_eq g r
  have hpos := startMap_empty (g := g)
  obtain ⟨c, hc, hce, hgen⟩ := genApple_spec (g := t) (by rw [hcount, hmap]) r (hcount ▸ hpos)
  rw [hmap] at hce
  refine ⟨_, hinit.trans hgen, [⟨19, 20⟩, ⟨20, 20⟩], ?_, ?_, hscore.ge, ?_, ?_, ?_⟩
  · show Body (Function.update t.snakeMap c .apple) _ t.tail t.head
    rw [hmap, htail, hhead]
    exact startMap_body.off (by rw [hce]; decide) (by decide)
  · show (2 : Int) = t.score + 2
    rw [hscore]
    rfl
  · have hin : c.Inside := by
      by_contra hno
      rw [startMap_border hc hno] at hce
      cases hce
    show ∀ {p : Pnt}, p.InMap → ¬p.Inside → Function.update t.snakeMap c .apple p = .wall
    rw [hmap]
    exact border_update startMap_border hin _
  · have hcnt := countEle_update (m := startMap g) hc .apple .apple
    rw [startMap_no_apple, if_neg (by simp [hce]), if_pos rfl] at hcnt
    show countEle (Function.update t.snakeMap c .apple) .apple = 1
    rw [hmap]
    exact hcnt
  · have hcnt := countEle_update (m := startMap g) hc .apple .empty
    rw [if_pos hce, if_neg (by decide)] at hcnt
    show t.emptyCnt - 1 = countEle (Function.update t.snakeMap c .apple) .empty
    rw [hmap, hcount]
    omega

theorem Played.inv (h : Played g) : Inv g := by
  induction h with
  | @init g₀ g r hinit =>
    obtain ⟨g', hg', hinv⟩ := initGame_spec g₀ r
    rw [hg'] at hinit
    cases hinit
    exact hinv
  | @step g g' event r _ hstep ih =>
    rcases stepGame_spec ih event r with ⟨t, ht⟩ | hdiv | ⟨t, ht, hinv⟩
    · rw [ht] at hstep
      cases hstep
    · rw [hdiv] at hstep
      cases hstep
    · rw [ht] at hstep
      cases hstep
      exact hinv

end Steps

/-- In every state of a game, the directions lead from the tail through `score + 2` cells,
which are all body cells, to the head; the border is all wall; there is one apple;
`empty_cnt` counts the empty cells; the ends are off the border; and no step reads or writes
outside the map. -/
theorem played_snake {g : Game} (h : Played g) :
    0 ≤ g.score ∧
    (g.follow (g.score + 2).toNat g.tail).Nodup ∧
    (g.follow (g.score + 2).toNat g.tail).length = g.score + 2 ∧
    (g.follow (g.score + 2).toNat g.tail).getLast? = some g.head ∧
    (∀ p, p ∈ g.follow (g.score + 2).toNat g.tail ↔ p.InMap ∧ (g.snakeMap p).IsBody) ∧
    (∀ p : Pnt, p.InMap → ¬p.Inside → g.snakeMap p = .wall) ∧
    (cells.countP fun p => g.snakeMap p = .apple) = 1 ∧
    g.emptyCnt = (cells.countP fun p => g.snakeMap p = .empty) ∧
    g.head.Inside ∧ g.tail.Inside ∧
    ∀ event r e, stepGame g event r = .error e → e = .divide := by
  obtain ⟨l, hb, hl, hsc, hf⟩ := h.inv
  have hfollow : g.follow (g.score + 2).toNat g.tail = l := by
    obtain ⟨l', rfl⟩ := hb.first
    have hlen : (g.score + 2).toNat = l'.length + 1 := by
      rw [List.length_cons] at hl
      omega
    rw [hlen]
    exact follow_eq hb.chain
  have hinside : ∀ p ∈ l, p.Inside := fun p hp =>
    hf.inside (hb.mem.mp hp).1 (isBody_ne (hb.mem.mp hp).2 (by decide))
  rw [hfollow]
  refine ⟨hsc, hb.nodup, hl, ?_, fun p => hb.mem, fun p hp hbord => hf.border hp hbord, hf.apple,
    hf.count, hinside _ hb.head_mem, hinside _ hb.tail_mem, fun event r e he => ?_⟩
  · obtain ⟨l', rfl⟩ := hb.last
    rw [List.getLast?_append, List.getLast?_singleton]
    rfl
  · rcases stepGame_spec h.inv event r with ⟨t, ht⟩ | hdiv | ⟨t, ht, -⟩
    · rw [ht] at he
      cases he
    · rw [hdiv] at he
      cases he
      rfl
    · rw [ht] at he
      cases he

/-- A turn and a step after the start. -/
theorem played_snake_one_turn : ∃ g, Played g ∧ g.score = 0 ∧ g.head.Inside := by
  let g₀ : Game := ⟨fun _ => .empty, fun _ => 0, 0, ⟨0, 0⟩, ⟨0, 0⟩, 0⟩
  obtain ⟨g, hg, ht⟩ := exists_of_test (f := fun r => r.1 == 1 && r.2.score == 0)
    (x := initGame g₀ 3 >>= fun g => stepGame g ⟨.w, true⟩ 5) (by decide +kernel)
  obtain ⟨g₁, hinit, hstep⟩ := bind_eq_ok.mp hg
  simp only [Bool.and_eq_true, beq_iff_eq] at ht
  have hturn : stepGame g₁ ⟨.w, true⟩ 5 = .ok (1, g.2) := by
    rw [hstep]
    exact congrArg Except.ok (Prod.ext ht.1 rfl)
  have hplayed : Played g.2 := .step (.init hinit) hturn
  exact ⟨g.2, hplayed, ht.2, (played_snake hplayed).2.2.2.2.2.2.2.2.1⟩

end OsWorkbench.Snake
