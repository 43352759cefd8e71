import OsWorkbench.Lib.Count
import OsWorkbench.Snake.Model

/-!
# The body of the snake

The body is stored as a direction in each of its cells and as the two ends. `Body` says
that the directions lead from the tail through all body cells, each of them once, to the
head. A step does one or more of four things to the map: it turns the head, it adds the
cell in front of the head, it takes the cell of the tail away, and it puts an apple on an
empty cell. Each of them keeps the body, up to the new ends.
-/

namespace OsWorkbench.Snake

def MapEle.IsBody (e : MapEle) : Prop := e = .bodyu ∨ e = .bodyr ∨ e = .bodyd ∨ e = .bodyl

instance (e : MapEle) : Decidable e.IsBody := inferInstanceAs (Decidable (_ ∨ _ ∨ _ ∨ _))

/-- The neighbour in the direction of a body cell. -/
def Pnt.move (p : Pnt) : MapEle → Pnt
  | .bodyu => ⟨p.x, p.y - 1⟩
  | .bodyr => ⟨p.x + 1, p.y⟩
  | .bodyd => ⟨p.x, p.y + 1⟩
  | .bodyl => ⟨p.x - 1, p.y⟩
  | _ => p

/-- Not on the border. -/
def Pnt.Inside (p : Pnt) : Prop :=
  (0 < p.x ∧ p.x < maxWidth - 1) ∧ 0 < p.y ∧ p.y < maxHeight - 1

/-- The first `n` cells met when following the directions from `p`. -/
def Game.follow (g : Game) : Nat → Pnt → List Pnt
  | 0, _ => []
  | n + 1, p => p :: g.follow n (p.move (g.snakeMap p))

theorem delta_eq_ok {e : MapEle} (h : e.IsBody) (p : Pnt) :
    ∃ d, delta e = .ok d ∧ (⟨p.x + d.1, p.y + d.2⟩ : Pnt) = p.move e := by
  rcases h with rfl | rfl | rfl | rfl <;> exact ⟨_, rfl, by simp [Pnt.move]; try rfl⟩

/-! ## Cells -/

section Cells

variable {p : Pnt} {e : MapEle}

theorem mem_cells : p ∈ cells ↔ p.InMap := by
  unfold cells Pnt.InMap
  simp only [List.mem_flatMap, List.mem_map, List.mem_range]
  constructor
  · rintro ⟨i, hi, j, hj, rfl⟩
    simp only
    omega
  · rintro ⟨⟨hx, hx'⟩, hy, hy'⟩
    refine ⟨p.y.toNat, by omega, p.x.toNat, by omega, ?_⟩
    cases p
    simp only [Int.toNat_of_nonneg hx, Int.toNat_of_nonneg hy]

theorem cells_nodup : cells.Nodup := by
  unfold cells
  refine List.nodup_flatMap.mpr ⟨fun i _ => ?_, ?_⟩
  · refine List.nodup_range.map fun j k hjk => ?_
    simpa using hjk
  · refine List.nodup_range.imp fun {i k} hik q hq hq' => ?_
    obtain ⟨_, _, rfl⟩ := List.mem_map.mp hq
    obtain ⟨_, _, he⟩ := List.mem_map.mp hq'
    simp only [Pnt.mk.injEq, Nat.cast_inj] at he
    exact hik he.2.symm

/-- The neighbours of an inner cell are on the map. -/
theorem Pnt.Inside.move (h : p.Inside) (e : MapEle) : (p.move e).InMap := by
  unfold Inside maxWidth maxHeight at h
  unfold InMap Pnt.move maxWidth maxHeight
  cases e <;> simp only <;> omega

end Cells

/-! ## The body -/

/-- The directions of `m` lead from `tail` through `l` to `head`, and `l` has all body cells. -/
structure Body (m : Pnt → MapEle) (l : List Pnt) (tail head : Pnt) : Prop where
  first : ∃ l', l = tail :: l'
  last : ∃ l', l = l' ++ [head]
  chain : l.IsChain fun p q => q = p.move (m p)
  nodup : l.Nodup
  mem : ∀ {p}, p ∈ l ↔ p.InMap ∧ (m p).IsBody

section Body

variable {m m' : Pnt → MapEle} {l l' : List Pnt} {tail head p c : Pnt} {e : MapEle}

theorem Body.tail_mem (h : Body m l tail head) : tail ∈ l := by
  obtain ⟨l', rfl⟩ := h.first
  exact List.mem_cons_self

theorem Body.head_mem (h : Body m l tail head) : head ∈ l := by
  obtain ⟨l', rfl⟩ := h.last
  exact List.mem_append_right l' List.mem_cons_self

/-- The chain of the cells in front of the last one depends on their directions only. -/
theorem isChain_congr (h : (l ++ [head]).IsChain fun p q => q = p.move (m p))
    (hm : ∀ p ∈ l, m' p = m p) : (l ++ [head]).IsChain fun p q => q = p.move (m' p) := by
  induction l with
  | nil => exact List.isChain_singleton _
  | cons p l ih =>
    have htail := ih h.tail fun q hq => hm q (by simp [hq])
    cases l with
    | nil =>
      have hp := (List.isChain_cons_cons.mp h).1
      exact List.isChain_cons_cons.mpr ⟨by rw [hm p (by simp)]; exact hp, htail⟩
    | cons q l =>
      have hp := (List.isChain_cons_cons.mp h).1
      exact List.isChain_cons_cons.mpr ⟨by rw [hm p (by simp)]; exact hp, htail⟩

/-- The head turns. -/
theorem Body.turn (h : Body m l tail head) (he : e.IsBody) :
    Body (Function.update m head e) l tail head := by
  obtain ⟨l', hl⟩ := h.last
  have hhead : head ∉ l' := by
    have hnd := h.nodup
    rw [hl] at hnd
    exact fun hmem => (List.nodup_append.mp hnd).2.2 head hmem head (by simp) rfl
  refine ⟨h.first, h.last, ?_, h.nodup, fun {p} => ?_⟩
  · have hchain := h.chain
    rw [hl] at hchain ⊢
    refine isChain_congr hchain fun p hp => Function.update_of_ne ?_ _ _
    rintro rfl
    exact hhead hp
  · by_cases hp : p = head
    · subst hp
      have := h.mem.mp h.head_mem
      rw [Function.update_self]
      exact iff_of_true h.head_mem ⟨this.1, he⟩
    · rw [Function.update_of_ne hp]
      exact h.mem

/-- A cell that is not of the body changes into another such cell. -/
theorem Body.off (h : Body m l tail head) (hc : ¬(m c).IsBody) (he : ¬e.IsBody) :
    Body (Function.update m c e) l tail head := by
  have hcl : c ∉ l := fun hmem => hc (h.mem.mp hmem).2
  refine ⟨h.first, h.last, ?_, h.nodup, fun {p} => ?_⟩
  · obtain ⟨l', hl⟩ := h.last
    have hchain := h.chain
    rw [hl] at hchain hcl ⊢
    refine isChain_congr hchain fun p hp => Function.update_of_ne ?_ _ _
    rintro rfl
    exact hcl (List.mem_append_left _ hp)
  · by_cases hp : p = c
    · subst hp
      rw [Function.update_self]
      exact iff_of_false hcl fun hb => he hb.2
    · rw [Function.update_of_ne hp]
      exact h.mem

/-- The cell in front of the head becomes the head. -/
theorem Body.grow (h : Body m l tail head) (hc : ¬(m c).IsBody) (hin : c.InMap)
    (hnext : c = head.move (m head)) :
    Body (Function.update m c (m head)) (l ++ [c]) tail c := by
  have hcl : c ∉ l := fun hmem => hc (h.mem.mp hmem).2
  have hsame : ∀ p ∈ l, Function.update m c (m head) p = m p := by
    intro p hp
    refine Function.update_of_ne ?_ _ _
    rintro rfl
    exact hcl hp
  obtain ⟨l', hl⟩ := h.first
  refine ⟨⟨l' ++ [c], by rw [hl]; rfl⟩, ⟨l, rfl⟩, ?_, ?_, fun {p} => ?_⟩
  · refine isChain_congr (List.isChain_append.mpr ⟨h.chain, List.isChain_singleton _, ?_⟩) hsame
    intro x hx y hy
    obtain ⟨l'', hl''⟩ := h.last
    rw [hl'', List.getLast?_append, List.getLast?_singleton] at hx
    cases hx
    cases hy
    exact hnext
  · exact List.nodup_append.mpr ⟨h.nodup, List.nodup_singleton _, fun x hx y hy => by
      rw [List.mem_singleton.mp hy]
      rintro rfl
      exact hcl hx⟩
  · rw [List.mem_append, List.mem_singleton]
    by_cases hp : p = c
    · subst hp
      rw [Function.update_self]
      exact iff_of_true (.inr rfl) ⟨hin, (h.mem.mp h.head_mem).2⟩
    · rw [Function.update_of_ne hp, ← h.mem]
      exact or_iff_left hp

/-- The cell of the tail is no longer of the body, and the next one is the tail. -/
theorem Body.shrink {q : Pnt} (h : Body m (tail :: q :: l) tail head) (he : ¬e.IsBody) :
    q = tail.move (m tail) ∧ Body (Function.update m tail e) (q :: l) q head := by
  obtain ⟨hq, hchain⟩ := List.isChain_cons_cons.mp h.chain
  obtain ⟨htail, hnd⟩ := List.nodup_cons.mp h.nodup
  have hsame : ∀ p ∈ q :: l, Function.update m tail e p = m p := by
    intro p hp
    refine Function.update_of_ne ?_ _ _
    rintro rfl
    exact htail hp
  obtain ⟨l', hl'⟩ := h.last
  have hlast : ∃ l'', q :: l = l'' ++ [head] := by
    cases l' with
    | nil => cases hl'
    | cons a l'' => exact ⟨l'', (List.cons.inj hl').2⟩
  refine ⟨hq, ⟨l, rfl⟩, hlast, ?_, hnd, fun {p} => ?_⟩
  · obtain ⟨l'', hl''⟩ := hlast
    rw [hl''] at hchain hsame ⊢
    exact isChain_congr hchain fun p hp => hsame p (List.mem_append_left _ hp)
  · by_cases hp : p = tail
    · subst hp
      rw [Function.update_self]
      exact iff_of_false htail fun hb => he hb.2
    · rw [Function.update_of_ne hp, ← h.mem, List.mem_cons (a := p) (b := tail)]
      exact ⟨.inr, fun hmem => hmem.resolve_left hp⟩

/-- Following the directions from the tail meets the cells of the body in order. -/
theorem follow_eq {g : Game} {l : List Pnt} {p : Pnt}
    (h : (p :: l).IsChain fun p q => q = p.move (g.snakeMap p)) :
    g.follow (l.length + 1) p = p :: l := by
  induction l generalizing p with
  | nil => rfl
  | cons q l ih =>
    obtain ⟨hq, hchain⟩ := List.isChain_cons_cons.mp h
    show p :: g.follow (l.length + 1) (p.move (g.snakeMap p)) = p :: q :: l
    rw [← hq, ih hchain]

end Body

end OsWorkbench.Snake
