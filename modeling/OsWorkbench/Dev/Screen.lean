import OsWorkbench.Dev.Model

/-!
# What a terminal shows

The model of the screen buffer in `kernel/src/devices/tty/tty.c`. It holds the last
`lines` rows of a screen without an end: when the cursor leaves the last row, `memmove`
moves the rows up by one. A pointer into `buf` or `dirty` is an index, and an access
outside of them is a fault.
-/

namespace OsWorkbench.Dev

/-! ## Moving memory -/

section Memmove

variable {α : Type}

/-- `while (n--) *_dest++ = *_src++`. -/
def copyForward (m : Nat → α) (dest src : Nat) : Nat → Nat → α
  | 0 => m
  | n + 1 => copyForward (Function.update m dest (m src)) (dest + 1) (src + 1) n

/-- `while (n--) *_dest-- = *_src--`, from the ends of the two parts on. -/
def copyBackward (m : Nat → α) (dest src : Nat) : Nat → Nat → α
  | 0 => m
  | n + 1 => copyBackward (Function.update m (dest + n) (m (src + n))) dest src n

/-- `memmove` of `n` elements of an array. -/
def memmove (m : Nat → α) (dest src n : Nat) : Nat → α :=
  if dest < src then copyForward m dest src n
  else if src < dest then copyBackward m dest src n
  else m

/-- A part is moved down, also onto itself. -/
theorem copyForward_apply {m : Nat → α} {dest src n : Nat} (h : dest < src) (i : Nat) :
    copyForward m dest src n i =
      if dest ≤ i ∧ i < dest + n then m (i + (src - dest)) else m i := by
  induction n generalizing m dest src with
  | zero => rw [copyForward, if_neg (by omega)]
  | succ n ih =>
    rw [copyForward, ih (by omega)]
    rcases Nat.lt_trichotomy i dest with hlt | heq | hgt
    · rw [if_neg (by omega), if_neg (by omega), Function.update_of_ne (by omega)]
    · rw [if_neg (by omega), if_pos (by omega), heq, Function.update_self,
        show dest + (src - dest) = src by omega]
    · rw [Function.update_of_ne (by omega), Function.update_of_ne (by omega),
        show i + (src + 1 - (dest + 1)) = i + (src - dest) by omega]
      exact ite_congr (propext (by omega)) (fun _ => rfl) fun _ => rfl

end Memmove

/-! ## The screen buffer -/

structure Character where
  metadata : UInt32
  ch : UInt8
  deriving DecidableEq

def ttyDefaultch : Character := ⟨0, 0⟩

def carriageReturn : UInt8 := 13

/-- The fields of `tty_t` for the screen, with pointers as indices into `buf`; `end` is
`size`. -/
structure Screen where
  lines : Nat
  columns : Nat
  size : Nat
  buf : Nat → Character
  dirty : Nat → UInt8
  cursor : Nat

/-- The screen as `tty_init` leaves it. -/
def Screen.init (lines columns : Nat) : Screen where
  lines := lines
  columns := columns
  size := columns * lines
  buf _ := ttyDefaultch
  dirty _ := 1
  cursor := 0

/-- `tty->cursor[i] = tty_defaultch()` for `i < tty->columns`. -/
def clearRow (t : Screen) : Nat → Character :=
  (List.range t.columns).foldl (fun b i => Function.update b (t.cursor + i) ttyDefaultch) t.buf

def ttyUpdScrollup (t : Screen) : Except Fault Screen := do
  let moveSz := t.columns * (t.lines - 1)
  inBounds (t.columns + moveSz ≤ t.size)
  let t := { t with
    buf := memmove t.buf 0 t.columns moveSz
    dirty := memmove t.dirty 0 t.columns moveSz
    cursor := t.cursor - t.columns }
  inBounds (t.cursor + t.columns ≤ t.size)
  return { t with buf := clearRow t }

def ttyUpdCr (t : Screen) : Screen :=
  let x := t.cursor % t.columns
  { t with cursor := t.cursor - x }

def ttyUpdLf (t : Screen) : Screen := { t with cursor := t.cursor + t.columns }

/-- `tty->cursor->ch = ch`. -/
def setCh (t : Screen) (ch : UInt8) : Except Fault Screen := do
  inBounds (t.cursor < t.size)
  return { t with buf := Function.update t.buf t.cursor { t.buf t.cursor with ch := ch } }

def ttyUpdBacksp (t : Screen) : Except Fault Screen :=
  if 0 < t.cursor then setCh { t with cursor := t.cursor - 1 } 0 else .ok t

def ttyUpdPutc (t : Screen) (ch : UInt8) : Except Fault Screen := do
  let t ← setCh t ch
  return { t with cursor := t.cursor + 1 }

/-- `tty_mark`, for the pointer `buf + ch`. -/
def ttyMark (t : Screen) (ch : Int) : Except Fault Screen := do
  let i ← index ch t.size
  return { t with dirty := Function.update t.dirty i 1 }

def ttyMarkLine (t : Screen) (ch : Int) : Except Fault Screen :=
  let x := ch.tmod t.columns
  (List.range t.columns).foldlM (fun t (i : Nat) => ttyMark t (ch - x + i)) t

def ttyMarkAll (t : Screen) : Except Fault Screen :=
  (List.range t.size).foldlM (fun t (i : Nat) => ttyMark t i) t

def ttyPutc (t : Screen) (ch : UInt8) : Except Fault Screen :=
  if ch = carriageReturn then
    let t := ttyUpdCr t
    ttyMarkLine t t.cursor
  else if ch = backspace then do
    let t ← ttyUpdBacksp t
    let t ← ttyMark t t.cursor
    ttyMark t (t.cursor + 1)
  else if ch = newline then
    let t := ttyUpdLf (ttyUpdCr t)
    if t.cursor = t.size then do
      let t ← ttyUpdScrollup t
      ttyMarkAll t
    else do
      let t ← ttyMarkLine t (t.cursor - t.columns)
      ttyMarkLine t t.cursor
  else do
    let t ← ttyUpdPutc t ch
    if t.cursor = t.size then
      let t ← ttyUpdScrollup t
      ttyMarkAll t
    else
      let t ← ttyMark t (t.cursor - 1)
      ttyMark t t.cursor

/-! ## The screen without an end -/

/-- The cells of a screen of unbounded length, row after row, the position in it, and the
furthest row the position has reached. -/
structure Scroll where
  cells : Nat → UInt8
  pos : Nat
  furthest : Nat

namespace Scroll

def start : Scroll := ⟨fun _ => 0, 0, 0⟩

/-- The first row of the window of `lines` rows that ends at row
`max (lines - 1) furthest`. -/
def base (r : Scroll) (lines : Nat) : Nat := max (lines - 1) r.furthest - (lines - 1)

/-- The position is moved. -/
def moveTo (r : Scroll) (columns pos : Nat) : Scroll :=
  { r with pos := pos, furthest := max r.furthest (pos / columns) }

/-- The cell `p` is written. -/
def put (r : Scroll) (p : Nat) (ch : UInt8) : Scroll :=
  { r with cells := Function.update r.cells p ch }

def putc (lines columns : Nat) (r : Scroll) (ch : UInt8) : Scroll :=
  if ch = carriageReturn then r.moveTo columns (r.pos / columns * columns)
  else if ch = backspace then
    if r.base lines * columns < r.pos then (r.put (r.pos - 1) 0).moveTo columns (r.pos - 1) else r
  else if ch = newline then r.moveTo columns ((r.pos / columns + 1) * columns)
  else (r.put r.pos ch).moveTo columns (r.pos + 1)

end Scroll

/-! ## The window -/

/-- The buffer is the window of the screen `r`, and the cursor is its position. -/
structure Shows (t : Screen) (r : Scroll) : Prop where
  lines : 2 ≤ t.lines
  columns : 2 ≤ t.columns
  size : t.size = t.columns * t.lines
  cursor : t.cursor < t.size
  pos : r.pos = r.base t.lines * t.columns + t.cursor
  below : r.pos / t.columns ≤ r.furthest
  blank : ∀ p, (r.furthest + 1) * t.columns ≤ p → r.cells p = 0
  cells : ∀ i, i < t.size → t.buf i = ⟨0, r.cells (r.base t.lines * t.columns + i)⟩

/-! ## Marks -/

theorem ttyMark_ok {t : Screen} {c : Int} (h : 0 ≤ c ∧ c < t.size) :
    ∃ d, ttyMark t c = .ok { t with dirty := d } := by
  obtain ⟨i, rfl⟩ := Int.eq_ofNat_of_zero_le h.1
  exact ⟨_, index_bind (Int.ofNat_lt.mp h.2)⟩

theorem foldlM_mark_ok {t : Screen} {is : List Nat} {f : Nat → Int}
    (h : ∀ i ∈ is, 0 ≤ f i ∧ f i < t.size) :
    ∃ d, is.foldlM (fun t i => ttyMark t (f i)) t = .ok { t with dirty := d } := by
  induction is generalizing t with
  | nil => exact ⟨t.dirty, rfl⟩
  | cons i is ih =>
    obtain ⟨d, hd⟩ := ttyMark_ok (h i List.mem_cons_self)
    obtain ⟨d', hd'⟩ := ih (t := { t with dirty := d }) fun j hj => h j (List.mem_cons_of_mem i hj)
    exact ⟨d', by rw [List.foldlM_cons, hd, ok_bind, hd']⟩

theorem ttyMarkAll_ok (t : Screen) : ∃ d, ttyMarkAll t = .ok { t with dirty := d } := by
  unfold ttyMarkAll
  exact foldlM_mark_ok (f := fun i => (i : Int)) fun i hi =>
    ⟨Int.natCast_nonneg i, Int.ofNat_lt.mpr (List.mem_range.mp hi)⟩

namespace Shows

variable {t : Screen} {r : Scroll} {k : Nat}

theorem withDirty (h : Shows t r) (d : Nat → UInt8) : Shows { t with dirty := d } r :=
  ⟨h.lines, h.columns, h.size, h.cursor, h.pos, h.below, h.blank, h.cells⟩

/-- A line of the window is marked. -/
theorem markLine (h : Shows t r) (hk : k < t.size) :
    ∃ d, ttyMarkLine t k = .ok { t with dirty := d } := by
  have hc : 0 < t.columns := by have := h.columns; omega
  have hrow : k / t.columns < t.lines := by
    rw [Nat.div_lt_iff_lt_mul hc, Nat.mul_comm, ← h.size]
    exact hk
  have hend : k / t.columns * t.columns + t.columns ≤ t.size := by
    rw [h.size, Nat.mul_comm t.columns, ← Nat.succ_mul]
    exact Nat.mul_le_mul_right _ hrow
  have hdiv := Nat.div_add_mod' k t.columns
  have hmod : (k : Int).tmod t.columns = ((k % t.columns : Nat) : Int) := rfl
  unfold ttyMarkLine
  rw [hmod]
  refine foldlM_mark_ok (f := fun i => (k : Int) - (k % t.columns : Nat) + i) fun i hi => ?_
  have hlt := List.mem_range.mp hi
  omega

/-! ## Moving in the window -/

theorem base_moveTo (h : Shows t r) (hk : k < t.size) :
    (r.moveTo t.columns (r.base t.lines * t.columns + k)).base t.lines = r.base t.lines := by
  have hc : 0 < t.columns := by have := h.columns; omega
  have hrow : k / t.columns < t.lines := by
    rw [Nat.div_lt_iff_lt_mul hc, Nat.mul_comm, ← h.size]
    exact hk
  have hdiv : (r.base t.lines * t.columns + k) / t.columns = k / t.columns + r.base t.lines := by
    rw [Nat.add_comm, Nat.add_mul_div_right _ _ hc]
  have hl := h.lines
  unfold Scroll.moveTo
  rw [hdiv]
  unfold Scroll.base
  dsimp only
  omega

/-- The cursor moves to a cell of the window. -/
theorem moveTo (h : Shows t r) (hk : k < t.size) :
    Shows { t with cursor := k } (r.moveTo t.columns (r.base t.lines * t.columns + k)) := by
  have hbase := h.base_moveTo hk
  refine ⟨h.lines, h.columns, h.size, hk, ?_, le_max_right _ _, fun p hp => ?_, fun i hi => ?_⟩
  · show r.base t.lines * t.columns + k = _
    rw [hbase]
  · refine h.blank p (le_trans (Nat.mul_le_mul_right _ ?_) hp)
    exact Nat.succ_le_succ (le_max_left _ _)
  · show t.buf i = ⟨0, r.cells _⟩
    rw [hbase]
    exact h.cells i hi

/-- A cell up to the cursor is written. -/
theorem put (h : Shows t r) (hk : k ≤ t.cursor) (ch : UInt8) :
    Shows { t with buf := Function.update t.buf k { t.buf k with ch := ch } }
      (r.put (r.base t.lines * t.columns + k) ch) := by
  have hc : 0 < t.columns := by have := h.columns; omega
  refine ⟨h.lines, h.columns, h.size, h.cursor, h.pos, h.below, fun p hp => ?_, fun i hi => ?_⟩
  · have hpos : r.pos < (r.furthest + 1) * t.columns := by
      rw [← Nat.div_lt_iff_lt_mul hc]
      exact Nat.lt_succ_of_le h.below
    have hposEq := h.pos
    have hp : (r.furthest + 1) * t.columns ≤ p := hp
    show Function.update r.cells _ ch p = 0
    rw [Function.update_of_ne (by omega)]
    exact h.blank p hp
  · show Function.update t.buf k _ i =
      ⟨0, Function.update r.cells (r.base t.lines * t.columns + k) ch _⟩
    by_cases hik : i = k
    · subst hik
      rw [Function.update_self]
      show _ = Character.mk 0 (Function.update r.cells _ ch (r.base t.lines * t.columns + i))
      rw [Function.update_self, h.cells i hi]
    · rw [Function.update_of_ne hik, h.cells i hi]
      show _ = Character.mk 0 (Function.update r.cells _ ch (r.base t.lines * t.columns + i))
      rw [Function.update_of_ne (by omega)]

/-! ## Scrolling -/

theorem foldl_clear {b : Nat → Character} {o n : Nat} (p : Nat) :
    (List.range n).foldl (fun b i => Function.update b (o + i) ttyDefaultch) b p =
      if o ≤ p ∧ p < o + n then ttyDefaultch else b p := by
  induction n with
  | zero => rw [List.range_zero, List.foldl_nil, if_neg (by omega)]
  | succ n ih =>
    rw [List.range_succ, List.foldl_append, List.foldl_cons, List.foldl_nil, Function.update_apply,
      ih]
    split_ifs <;> first | rfl | omega

/-- With the cursor at `end`, the rows move up by one and the last one is cleared. -/
theorem scrollup_eq (hc : 0 < t.columns) (hsize : t.size = t.columns * (t.lines - 1) + t.columns) :
    ∃ b d, ttyUpdScrollup { t with cursor := t.size } =
        .ok { t with buf := b, dirty := d, cursor := t.size - t.columns } ∧
      ∀ i, i < t.size →
        b i = if i < t.columns * (t.lines - 1) then t.buf (i + t.columns) else ttyDefaultch := by
  let moved : Screen := { t with
    buf := memmove t.buf 0 t.columns (t.columns * (t.lines - 1))
    cursor := t.size - t.columns }
  refine ⟨clearRow moved, memmove t.dirty 0 t.columns (t.columns * (t.lines - 1)), ?_,
    fun i hi => ?_⟩
  · unfold ttyUpdScrollup
    rw [inBounds_bind (show t.columns + t.columns * (t.lines - 1) ≤ t.size by omega)]
    exact inBounds_bind (show t.size - t.columns + t.columns ≤ t.size by omega)
  · show (List.range t.columns).foldl (fun b i => Function.update b (t.size - t.columns + i) _)
      (memmove t.buf 0 t.columns (t.columns * (t.lines - 1))) i = _
    rw [foldl_clear, memmove, if_pos hc, copyForward_apply hc]
    split_ifs <;> first | rfl | omega

/-- The position moves behind the last cell of the window, and the window moves down. -/
theorem scroll (h : Shows t r) (hlast : t.size ≤ t.cursor + t.columns) :
    ∃ t', ttyUpdScrollup { t with cursor := t.size } = .ok t' ∧
      Shows t' (r.moveTo t.columns (r.base t.lines * t.columns + t.size)) ∧
      t'.lines = t.lines ∧ t'.columns = t.columns := by
  have hc : 0 < t.columns := by have := h.columns; omega
  have hl := h.lines
  have hsize : t.size = t.columns * (t.lines - 1) + t.columns := by
    rw [h.size, ← Nat.mul_succ]
    congr 1
    omega
  -- the cursor is in the last row, so that the window ends at the furthest row
  have hrow : t.lines - 1 ≤ t.cursor / t.columns := by
    rw [Nat.le_div_iff_mul_le hc, Nat.mul_comm]
    omega
  have hbelow := h.below
  rw [h.pos, Nat.add_comm, Nat.add_mul_div_right _ _ hc] at hbelow
  have hbase : r.base t.lines + t.lines = r.furthest + 1 := by
    unfold Scroll.base at hbelow ⊢
    omega
  have hdiv : (r.base t.lines * t.columns + t.size) / t.columns = r.base t.lines + t.lines := by
    rw [h.size, Nat.mul_comm t.columns, ← Nat.add_mul, Nat.mul_div_cancel _ hc]
  have hbase' : (r.moveTo t.columns (r.base t.lines * t.columns + t.size)).base t.lines =
      r.base t.lines + 1 := by
    unfold Scroll.moveTo
    rw [hdiv]
    unfold Scroll.base at hbase ⊢
    dsimp only
    omega
  have hfirst : (r.base t.lines + 1) * t.columns = r.base t.lines * t.columns + t.columns :=
    Nat.succ_mul _ _
  have hend : (r.furthest + 1) * t.columns = r.base t.lines * t.columns + t.size := by
    rw [← hbase, Nat.add_mul, h.size, Nat.mul_comm t.lines]
  obtain ⟨b, d, hok, hb⟩ := scrollup_eq hc hsize
  refine ⟨_, hok, ⟨hl, h.columns, h.size, ?_, ?_, le_max_right _ _, fun p hp => ?_, fun i hi => ?_⟩,
    rfl, rfl⟩
  · show t.size - t.columns < t.size
    omega
  · show r.base t.lines * t.columns + t.size = _
    rw [hbase', hfirst]
    show _ = _ + (t.size - t.columns)
    omega
  · refine h.blank p (le_trans (Nat.mul_le_mul_right _ ?_) hp)
    exact Nat.succ_le_succ (le_max_left _ _)
  · show b i = ⟨0, r.cells _⟩
    rw [hb i hi, hbase', hfirst, Nat.add_assoc, Nat.add_comm t.columns]
    split
    next hlt => exact h.cells _ (by omega)
    next hge =>
      rw [h.blank _ (by omega)]
      rfl

/-! ## One character -/

/-- A character was written, and the buffer shows the screen after it. -/
def Wrote (t : Screen) (r : Scroll) (ch : UInt8) (x : Except Fault Screen) : Prop :=
  ∃ t', x = .ok t' ∧ Shows t' (r.putc t.lines t.columns ch) ∧ t'.lines = t.lines ∧
    t'.columns = t.columns

/-- The start of the cursor's line. -/
theorem line_start (h : Shows t r) :
    r.pos / t.columns * t.columns =
      r.base t.lines * t.columns + t.cursor / t.columns * t.columns := by
  have hc : 0 < t.columns := by have := h.columns; omega
  rw [h.pos, Nat.add_comm, Nat.add_mul_div_right _ _ hc, Nat.add_mul, Nat.add_comm]

theorem putc_carriageReturn (h : Shows t r) :
    Wrote t r carriageReturn (ttyPutc t carriageReturn) := by
  have hdiv := Nat.div_add_mod' t.cursor t.columns
  have hcur : t.cursor - t.cursor % t.columns = t.cursor / t.columns * t.columns := by omega
  have hlt : t.cursor / t.columns * t.columns < t.size := by
    have := h.cursor
    omega
  have hshows := h.moveTo hlt
  obtain ⟨d, hd⟩ := hshows.markLine hlt
  refine ⟨{ t with cursor := t.cursor / t.columns * t.columns, dirty := d }, ?_, ?_, rfl, rfl⟩
  · rw [ttyPutc, if_pos rfl]
    unfold ttyUpdCr
    dsimp only
    rw [hcur]
    exact hd
  · rw [Scroll.putc, if_pos rfl, h.line_start]
    exact hshows.withDirty d

theorem putc_backspace (h : Shows t r) : Wrote t r backspace (ttyPutc t backspace) := by
  have hc := h.columns
  have hl := h.lines
  have hsize : 4 ≤ t.size := by
    rw [h.size]
    exact Nat.mul_le_mul hc hl
  have hcur := h.cursor
  -- the screen after `tty_upd_backsp`
  obtain ⟨t', hok, hshows, hlt, heq⟩ : ∃ t', ttyUpdBacksp t = .ok t' ∧
      Shows t' (r.putc t.lines t.columns backspace) ∧ t'.cursor + 1 < t.size ∧
      t'.lines = t.lines ∧ t'.columns = t.columns ∧ t'.size = t.size := by
    rw [Scroll.putc, if_neg (by decide), if_pos rfl]
    by_cases hpos : 0 < t.cursor
    · have hmove := (h.put (Nat.sub_le t.cursor 1) 0).moveTo (k := t.cursor - 1)
        (show _ < t.size by omega)
      have hbase : r.base t.lines * t.columns + (t.cursor - 1) = r.pos - 1 := by
        rw [h.pos]
        omega
      let back : Screen := { t with
        buf := Function.update t.buf (t.cursor - 1) { t.buf (t.cursor - 1) with ch := 0 }
        cursor := t.cursor - 1 }
      refine ⟨back, ?_, ?_, show t.cursor - 1 + 1 < t.size by omega, rfl, rfl, rfl⟩
      · rw [ttyUpdBacksp, if_pos hpos]
        exact inBounds_bind (show t.cursor - 1 < t.size by omega)
      · rw [if_pos (by rw [h.pos]; omega)]
        rw [hbase] at hmove
        exact hbase ▸ hmove
    · refine ⟨t, if_neg hpos, ?_, by omega, rfl, rfl, rfl⟩
      rw [if_neg (by rw [h.pos]; omega)]
      exact h
  obtain ⟨hlines, hcolumns, hsz⟩ := heq
  obtain ⟨d, hd⟩ := ttyMark_ok (t := t') (c := t'.cursor) (by omega)
  obtain ⟨d', hd'⟩ := ttyMark_ok (t := { t' with dirty := d }) (c := t'.cursor + 1)
    (by dsimp only; omega)
  refine ⟨_, ?_, hshows.withDirty d', hlines, hcolumns⟩
  rw [ttyPutc, if_neg (by decide), if_pos rfl, hok, ok_bind, hd, ok_bind]
  exact hd'

/-- The cursor goes behind the last cell, and the screen scrolls. -/
theorem scroll_mark (h : Shows t r) (hlast : t.size ≤ t.cursor + t.columns) :
    ∃ t', (ttyUpdScrollup { t with cursor := t.size } >>= ttyMarkAll) = .ok t' ∧
      Shows t' (r.moveTo t.columns (r.base t.lines * t.columns + t.size)) ∧
      t'.lines = t.lines ∧ t'.columns = t.columns := by
  obtain ⟨t', hok, hshows, hlines, hcolumns⟩ := h.scroll hlast
  obtain ⟨d, hd⟩ := ttyMarkAll_ok t'
  exact ⟨_, by rw [hok, ok_bind, hd], hshows.withDirty d, hlines, hcolumns⟩

theorem putc_newline (h : Shows t r) : Wrote t r newline (ttyPutc t newline) := by
  have hc : 0 < t.columns := by have := h.columns; omega
  have hdiv := Nat.div_add_mod' t.cursor t.columns
  have hmod := Nat.mod_lt t.cursor hc
  have hcur : t.cursor - t.cursor % t.columns = t.cursor / t.columns * t.columns := by omega
  have hrow : (t.cursor / t.columns + 1) * t.columns ≤ t.size := by
    rw [h.size, Nat.mul_comm t.columns]
    refine Nat.mul_le_mul_right _ (Nat.succ_le_of_lt ?_)
    rw [Nat.div_lt_iff_lt_mul hc, Nat.mul_comm, ← h.size]
    exact h.cursor
  rw [Nat.succ_mul] at hrow
  have hpos : (r.pos / t.columns + 1) * t.columns =
      r.base t.lines * t.columns + (t.cursor / t.columns * t.columns + t.columns) := by
    rw [Nat.succ_mul, h.line_start, Nat.add_assoc]
  have hputc : r.putc t.lines t.columns newline = r.moveTo t.columns
      (r.base t.lines * t.columns + (t.cursor / t.columns * t.columns + t.columns)) := by
    rw [Scroll.putc, if_neg (by decide), if_neg (by decide), if_pos rfl, hpos]
  unfold Wrote
  rw [hputc, ttyPutc, if_neg (by decide), if_neg (by decide), if_pos rfl]
  unfold ttyUpdCr ttyUpdLf
  dsimp only
  rw [hcur]
  split
  next hend =>
    rw [hend]
    exact h.scroll_mark (by omega)
  next hne =>
    have hlt : t.cursor / t.columns * t.columns + t.columns < t.size := by omega
    have hshows := h.moveTo hlt
    obtain ⟨d, hd⟩ := hshows.markLine (k := t.cursor / t.columns * t.columns)
      (show _ < t.size by omega)
    obtain ⟨d', hd'⟩ := (hshows.withDirty d).markLine hlt
    refine ⟨_, ?_, hshows.withDirty d', rfl, rfl⟩
    have hcast : ((t.cursor / t.columns * t.columns + t.columns : Nat) : Int) - t.columns =
        (t.cursor / t.columns * t.columns : Nat) := by omega
    rw [hcast, hd, ok_bind]
    exact hd'

theorem putc_other (h : Shows t r) {ch : UInt8} (h1 : ch ≠ carriageReturn) (h2 : ch ≠ backspace)
    (h3 : ch ≠ newline) : Wrote t r ch (ttyPutc t ch) := by
  have hcur := h.cursor
  have hput := h.put le_rfl ch
  rw [← h.pos] at hput
  have hpos : r.pos + 1 = r.base t.lines * t.columns + (t.cursor + 1) := by
    rw [h.pos, Nat.add_assoc]
  have hset : ttyUpdPutc t ch = .ok { t with
      buf := Function.update t.buf t.cursor { t.buf t.cursor with ch := ch }
      cursor := t.cursor + 1 } := by
    unfold ttyUpdPutc setCh
    rw [inBounds_bind hcur]
    rfl
  unfold Wrote
  rw [ttyPutc, if_neg h1, if_neg h2, if_neg h3, Scroll.putc, if_neg h1, if_neg h2, if_neg h3,
    hset, ok_bind, hpos]
  dsimp only
  split
  next hend =>
    rw [hend]
    have hc := h.columns
    exact hput.scroll_mark (show t.size ≤ t.cursor + t.columns by omega)
  next hne =>
    have hlt : t.cursor + 1 < t.size := by omega
    have hshows := hput.moveTo (k := t.cursor + 1) hlt
    obtain ⟨d, hd⟩ := ttyMark_ok (t := { t with
      buf := Function.update t.buf t.cursor { t.buf t.cursor with ch := ch }
      cursor := t.cursor + 1 }) (c := ((t.cursor + 1 : Nat) : Int) - 1) (by dsimp only; omega)
    obtain ⟨d', hd'⟩ := ttyMark_ok (t := { t with
      buf := Function.update t.buf t.cursor { t.buf t.cursor with ch := ch }
      cursor := t.cursor + 1
      dirty := d }) (c := ((t.cursor + 1 : Nat) : Int)) (by dsimp only; omega)
    refine ⟨_, ?_, hshows.withDirty d', rfl, rfl⟩
    rw [hd, ok_bind]
    exact hd'

/-- Every character keeps the buffer a window of the screen. -/
theorem putc (h : Shows t r) (ch : UInt8) : Wrote t r ch (ttyPutc t ch) := by
  by_cases h1 : ch = carriageReturn
  · exact h1 ▸ h.putc_carriageReturn
  by_cases h2 : ch = backspace
  · exact h2 ▸ h.putc_backspace
  by_cases h3 : ch = newline
  · exact h3 ▸ h.putc_newline
  exact h.putc_other h1 h2 h3

theorem init {lines columns : Nat} (hl : 2 ≤ lines) (hc : 2 ≤ columns) :
    Shows (.init lines columns) .start where
  lines := hl
  columns := hc
  size := rfl
  cursor := Nat.mul_pos (by omega : 0 < columns) (by omega : 0 < lines)
  pos := by simp [Scroll.start, Scroll.base, Screen.init]
  below := by simp [Scroll.start]
  blank _ _ := rfl
  cells _ _ := rfl

theorem run (h : Shows t r) (bs : List UInt8) :
    ∃ t', OsWorkbench.run ttyPutc t bs = .ok t' ∧
      Shows t' (bs.foldl (Scroll.putc t.lines t.columns) r) ∧ t'.lines = t.lines ∧
      t'.columns = t.columns := by
  induction bs generalizing t r with
  | nil => exact ⟨t, rfl, h, rfl, rfl⟩
  | cons ch bs ih =>
    obtain ⟨t₁, hok, h₁, hlines, hcolumns⟩ := h.putc ch
    obtain ⟨t', hrun, h', hlines', hcolumns'⟩ := ih h₁
    refine ⟨t', run_cons.mpr ⟨t₁, hok, hrun⟩, ?_, hlines'.trans hlines, hcolumns'.trans hcolumns⟩
    rw [List.foldl_cons, ← hlines, ← hcolumns]
    rw [hlines, hcolumns] at h' ⊢
    exact h'

end Shows

/-- The screen buffer refines the screen without an end: whatever is written, no access and no
mark is outside of the buffer, the cursor is in it, and it holds the last rows of the screen. -/
theorem screen_refines {lines columns : Nat} (hl : 2 ≤ lines) (hc : 2 ≤ columns)
    (bs : List UInt8) :
    ∃ t, run ttyPutc (.init lines columns) bs = .ok t ∧ t.size = columns * lines ∧
      t.cursor < t.size ∧
      let r := bs.foldl (Scroll.putc lines columns) .start
      r.pos = r.base lines * columns + t.cursor ∧
      ∀ i, i < t.size → t.buf i = ⟨0, r.cells (r.base lines * columns + i)⟩ := by
  obtain ⟨t, hrun, h, hlines, hcolumns⟩ := (Shows.init hl hc).run bs
  have hlines : t.lines = lines := hlines
  have hcolumns : t.columns = columns := hcolumns
  have hpos := h.pos
  have hcells := h.cells
  have hsize := h.size
  rw [hlines, hcolumns] at hpos hsize
  rw [hlines, hcolumns] at hcells
  exact ⟨t, hrun, hsize, h.cursor, hpos, hcells⟩

/-- Three rows on a screen of two. -/
theorem screen_refines_three_rows :
    ∃ t, run ttyPutc (.init 2 2) [97, 10, 98, 10, 99] = .ok t ∧ t.size = 4 ∧ t.cursor < t.size ∧
      (List.range 4).map (fun i => (t.buf i).ch) = [98, 0, 99, 0] := by
  obtain ⟨t, hrun, hsize, hcursor, -, hcells⟩ :=
    screen_refines le_rfl le_rfl [97, 10, 98, 10, 99]
  refine ⟨t, hrun, hsize, hcursor, ?_⟩
  have hmap : (List.range 4).map (fun i => (t.buf i).ch) = (List.range 4).map fun i =>
      let r := [97, 10, 98, 10, 99].foldl (Scroll.putc 2 2) .start
      r.cells (r.base 2 * 2 + i) := by
    refine List.map_congr_left fun i hi => ?_
    rw [hcells i (by rw [hsize]; exact List.mem_range.mp hi)]
  rw [hmap]
  decide

end OsWorkbench.Dev
