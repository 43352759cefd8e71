import OsWorkbench.Dev.Keyboard
import OsWorkbench.Dev.Video

/-!
# The display shows the visible terminal

Nothing ever clears a mark in `dirty`, so that every rendering draws all cells, and the video
device only sees the tiles of the visible terminal. A cell that was drawn since the terminal
was last written to, and since it became visible, shows its character. This holds for every
interleaving of the tasks; and behind each complete `tty_write` to the visible terminal, and
each switch, the whole display shows it.
-/

namespace OsWorkbench.Dev

open Lib

variable {P : Type}

/-! ## The device of qemu -/

section Vga

variable {W H : Nat} {c : Fbctl} {fb : Nat → FBPixel} {x y j : Nat}

theorem pixel_of (p : UInt32) :
    pixel (FBPixel.of p).r (FBPixel.of p).g (FBPixel.of p).b = p &&& 0xffffff := by
  have hmask : (0xffffff : UInt32).toNat = 2 ^ 24 - 1 := rfl
  refine UInt32.toNat_inj.mp (Nat.eq_of_testBit_eq fun i => ?_)
  rw [UInt32.toNat_and, hmask, Nat.and_two_pow_sub_one_eq_mod, Nat.testBit_mod_two_pow]
  simp only [pixel, FBPixel.of, UInt32.toNat_or, UInt32.toNat_shiftLeft, UInt8.toNat_toUInt32,
    UInt32.toNat_toUInt8, UInt32.toNat_shiftRight, UInt32.toNat_ofNat, Nat.testBit_or,
    Nat.testBit_mod_two_pow, Nat.testBit_shiftLeft, Nat.testBit_shiftRight]
  grind

/-- A row of the request changes its part of one row of the screen. -/
theorem videoRow_apply (hx : x < W) (hy : y < H) :
    videoRow W H c fb j (x + y * W) =
      if y = c.y + j ∧ c.x ≤ x ∧ x < c.x + c.w then .of (c.pixels (j * c.w + (x - c.x)))
      else fb (x + y * W) := by
  obtain ⟨len, hlen⟩ : ∃ len, len = if W ≤ c.x + c.w then W - c.x else c.w := ⟨_, rfl⟩
  have hin : c.x + (j + c.y) * W ≤ x + y * W ∧ x + y * W < c.x + (j + c.y) * W + len ↔
      y = c.y + j ∧ c.x ≤ x ∧ x < c.x + c.w := by
    obtain hlt | rfl | hgt := lt_trichotomy y (c.y + j)
    · have hrow : (y + 1) * W ≤ (j + c.y) * W := Nat.mul_le_mul_right W (by omega)
      rw [Nat.succ_mul] at hrow
      omega
    · rw [Nat.add_comm j c.y]
      split at hlen <;> omega
    · have hrow : (j + c.y + 1) * W ≤ y * W := Nat.mul_le_mul_right W (by omega)
      rw [Nat.succ_mul] at hrow
      split at hlen <;> omega
  rw [videoRow, ← hlen]
  by_cases hj : c.y + j < H
  · rw [if_pos hj, fillSegment_apply]
    by_cases h : y = c.y + j ∧ c.x ≤ x ∧ x < c.x + c.w
    · rw [if_pos (hin.mpr h), if_pos h, h.1, Nat.add_comm c.y j, Nat.add_sub_add_right]
    · rw [if_neg (mt hin.mp h), if_neg h]
  · rw [if_neg hj, if_neg]
    rintro ⟨rfl, -⟩
    exact hj hy

theorem vga_paints (W H : Nat) : (vga W H).Paints W H := by
  intro fb c x y hx hy
  have hrows : ∀ n, (List.range n).foldl (videoRow W H c) fb (x + y * W) =
      if c.x ≤ x ∧ x < c.x + c.w ∧ c.y ≤ y ∧ y < c.y + n then
        .of (c.pixels ((y - c.y) * c.w + (x - c.x)))
      else fb (x + y * W) := by
    intro n
    induction n with
    | zero => rw [if_neg (by omega), List.range_zero, List.foldl_nil]
    | succ n ih =>
      rw [List.range_succ, List.foldl_append, List.foldl_cons, List.foldl_nil,
        videoRow_apply hx hy, ih]
      by_cases hrow : y = c.y + n
      · rw [hrow, Nat.add_sub_cancel_left]
        exact if_congr (by omega) rfl (if_neg (by omega))
      · rw [if_neg (fun h => hrow h.1)]
        exact if_congr (by omega) rfl rfl
  have hpixel : ∀ fb, (vga W H).pixel fb x y =
      pixel (fb (x + y * W)).r (fb (x + y * W)).g (fb (x + y * W)).b := fun _ => rfl
  have hdraw : (vga W H).draw fb c = (List.range c.h).foldl (videoRow W H c) fb := rfl
  rw [hpixel, hpixel, hdraw, hrows]
  split
  · exact pixel_of _
  · rfl

end Vga

/-! ## The font -/

/-- The colour of a pixel of a character of the font. -/
def glyph (font : Nat → UInt8) (c x y : Nat) : UInt32 :=
  if ((font (16 * c + y)).toNat >>> (7 - x)) &&& 1 ≠ 0 then 0xffffff else 0

theorem glyph_colour (font : Nat → UInt8) (c x y : Nat) :
    glyph font c x y &&& 0xffffff = glyph font c x y := by
  rw [glyph]
  split <;> rfl

/-- The textures hold the two halves of every character. -/
def Font (font : Nat → UInt8) (textures : Nat → Texture) (n : Nat) : Prop :=
  ∀ c < n, ∀ y < textureH, ∀ x < textureW,
    textures (c * 2 + 1) (y * textureW + x) = glyph font c x y ∧
    textures (c * 2 + 2) (y * textureW + x) = glyph font c x (y + textureH)

theorem textureFill_apply (top : Bool) (bits : Nat → UInt8) (fg bg : UInt32) (tx : Texture)
    {x y : Nat} (hx : x < textureW) (hy : y < textureH) :
    textureFill top bits fg bg tx (y * textureW + x) =
      if ((bits (if top then y + textureH else y)).toNat >>> (7 - x)) &&& 1 ≠ 0 then fg
      else bg := by
  rw [textureFill, fillRows_apply _ hx hy]
  cases top <;> rfl

theorem fontLoad_font (font : Nat → UInt8) (textures : Nat → Texture) :
    Font font (fontLoad font textures) 256 := by
  unfold fontLoad
  induction 256 with
  | zero => exact fun c hc => absurd hc (Nat.not_lt_zero c)
  | succ n ih =>
    rw [List.range_succ, List.foldl_append, List.foldl_cons, List.foldl_nil]
    intro c hc y hy x hx
    rcases Nat.lt_succ_iff_lt_or_eq.mp hc with hlt | rfl
    · rw [Function.update_of_ne (by omega), Function.update_of_ne (by omega),
        Function.update_of_ne (by omega), Function.update_of_ne (by omega)]
      exact ih c hlt y hy x hx
    · rw [Function.update_of_ne (by omega), Function.update_self, Function.update_self]
      exact ⟨textureFill_apply _ _ _ _ _ hx hy, textureFill_apply _ _ _ _ _ hx hy⟩

/-! ## The marks -/

/-- Every cell is marked. -/
def AllDirty (t : Screen) : Prop := ∀ k < t.size, t.dirty k = 1

section Marks

variable {t t' : Screen}

theorem AllDirty.mark (h : AllDirty t) {c : Int} (hm : ttyMark t c = .ok t') :
    AllDirty t' ∧ t'.size = t.size := by
  obtain ⟨i, -, hok⟩ := bind_eq_ok.mp hm
  cases hok
  refine ⟨fun k hk => ?_, rfl⟩
  show Function.update t.dirty i 1 k = 1
  by_cases hki : k = i
  · rw [hki, Function.update_self]
  · rw [Function.update_of_ne hki]
    exact h k hk

theorem AllDirty.marks (h : AllDirty t) {is : List Nat} {f : Nat → Int}
    (hm : is.foldlM (fun t i => ttyMark t (f i)) t = .ok t') : AllDirty t' ∧ t'.size = t.size := by
  induction is generalizing t with
  | nil =>
    cases hm
    exact ⟨h, rfl⟩
  | cons i is ih =>
    rw [List.foldlM_cons] at hm
    obtain ⟨u, hu, hm⟩ := bind_eq_ok.mp hm
    obtain ⟨hd, hsize⟩ := h.mark hu
    obtain ⟨hd', hsize'⟩ := ih hd hm
    exact ⟨hd', hsize'.trans hsize⟩

theorem AllDirty.congr (h : AllDirty t) (hd : t'.dirty = t.dirty) (hs : t'.size = t.size) :
    AllDirty t' := by
  intro k hk
  rw [hd]
  exact h k (hs ▸ hk)

theorem AllDirty.markLine (h : AllDirty t) {c : Int} (hm : ttyMarkLine t c = .ok t') :
    AllDirty t' ∧ t'.size = t.size := h.marks hm

theorem AllDirty.markAll (h : AllDirty t) (hm : ttyMarkAll t = .ok t') :
    AllDirty t' ∧ t'.size = t.size := h.marks hm

theorem setCh_marks {ch : UInt8} (h : setCh t ch = .ok t') :
    t'.dirty = t.dirty ∧ t'.size = t.size := by
  obtain ⟨-, -, hok⟩ := bind_eq_ok.mp h
  cases hok
  exact ⟨rfl, rfl⟩

theorem AllDirty.scrollup (h : AllDirty t) (hm : ttyUpdScrollup t = .ok t') :
    AllDirty t' ∧ t'.size = t.size := by
  obtain ⟨u, hroom, hm⟩ := bind_eq_ok.mp hm
  obtain ⟨v, -, hok⟩ := bind_eq_ok.mp hm
  cases hok
  rw [inBounds_eq_ok] at hroom
  refine ⟨fun k hk => ?_, rfl⟩
  show memmove t.dirty 0 t.columns (t.columns * (t.lines - 1)) k = 1
  by_cases hc : 0 < t.columns
  · rw [memmove, if_pos hc, copyForward_apply hc]
    split
    · exact h _ (by omega)
    · exact h k hk
  · rw [memmove, if_neg hc, if_neg (Nat.not_lt_zero _)]
    exact h k hk

theorem AllDirty.putc (h : AllDirty t) {ch : UInt8} (hm : ttyPutc t ch = .ok t') :
    AllDirty t' ∧ t'.size = t.size := by
  have hmoved : ∀ c, AllDirty { t with cursor := c } := fun _ => h
  rw [ttyPutc] at hm
  split at hm
  · exact AllDirty.markLine (t := ttyUpdCr t) (hmoved _) hm
  split at hm
  · obtain ⟨u, hu, hm⟩ := bind_eq_ok.mp hm
    obtain ⟨v, hv, hm⟩ := bind_eq_ok.mp hm
    have hmarks : u.dirty = t.dirty ∧ u.size = t.size := by
      rw [ttyUpdBacksp] at hu
      split at hu
      · have hset := setCh_marks hu
        exact hset
      · cases hu
        exact ⟨rfl, rfl⟩
    obtain ⟨hdv, hsv⟩ := (h.congr hmarks.1 hmarks.2).mark hv
    obtain ⟨hd, hs⟩ := hdv.mark hm
    exact ⟨hd, hs.trans (hsv.trans hmarks.2)⟩
  split at hm
  · dsimp only at hm
    split at hm
    · obtain ⟨u, hu, hm⟩ := bind_eq_ok.mp hm
      obtain ⟨hdu, hsu⟩ := AllDirty.scrollup (hmoved _) hu
      obtain ⟨hd, hs⟩ := hdu.markAll hm
      exact ⟨hd, hs.trans hsu⟩
    · obtain ⟨u, hu, hm⟩ := bind_eq_ok.mp hm
      obtain ⟨hdu, hsu⟩ := AllDirty.markLine (hmoved _) hu
      obtain ⟨hd, hs⟩ := hdu.markLine hm
      exact ⟨hd, hs.trans hsu⟩
  · obtain ⟨u, hu, hm⟩ := bind_eq_ok.mp hm
    obtain ⟨v, hv, hu⟩ := bind_eq_ok.mp hu
    cases hu
    obtain ⟨hdv, hsv⟩ := setCh_marks hv
    have hdu : AllDirty { v with cursor := v.cursor + 1 } := h.congr hdv hsv
    split at hm
    · obtain ⟨w, hw, hm⟩ := bind_eq_ok.mp hm
      obtain ⟨hdw, hsw⟩ := hdu.scrollup hw
      obtain ⟨hd, hs⟩ := hdw.markAll hm
      exact ⟨hd, hs.trans (hsw.trans hsv)⟩
    · obtain ⟨w, hw, hm⟩ := bind_eq_ok.mp hm
      obtain ⟨hdw, hsw⟩ := hdu.mark hw
      obtain ⟨hd, hs⟩ := hdw.mark hm
      exact ⟨hd, hs.trans (hsw.trans hsv)⟩

end Marks

/-! ## One cell -/

/-- What is drawn for a cell. -/
def cellChar (t : Screen) (k : Nat) : Nat := if k = t.cursor then 0xdb else (t.buf k).ch.toNat

/-- The device shows the character `c` in row `y` and column `x`. -/
def ShowsChar (panel : Panel P) (font : Nat → UInt8) (p : P) (c y x : Nat) : Prop :=
  ∀ i < textureW, ∀ j < 2 * textureH,
    panel.pixel p (x * textureW + i) (y * (2 * textureH) + j) = glyph font c i j

/-- A display of this size, and the terminals on it. -/
structure Geometry (width height : Nat) : Prop where
  columns : 2 ≤ width / 8
  lines : 2 ≤ height / 16
  width : width ≤ 2 ^ 16
  height : height ≤ 2 ^ 16

section Cell

variable {panel : Panel P} {width height : Nat} {font : Nat → UInt8} {fb : Fb P} {i : TtyId}
  {t : Screen} {y x : Nat}

theorem cellChar_lt (t : Screen) (k : Nat) : cellChar t k < 256 := by
  rw [cellChar]
  split
  · decide
  · exact (t.buf k).ch.toNat_lt

theorem TtyId.display_toNat (i : TtyId) : i.display.toNat = i.val := by
  have := i.isLt
  rw [TtyId.display, BitVec.toNat_ofNat, Nat.mod_eq_of_lt (by omega)]

/-- The two requests for a character. -/
def charCtls (fb : Fb P) (c y x : Nat) : List Fbctl :=
  [⟨x * 8, y * 16, textureW, textureH, fb.textures (c * 2 + 1)⟩,
    ⟨x * 8, y * 16 + 8, textureW, textureH, fb.textures (c * 2 + 2)⟩]

theorem toNat_ofNat16 {n : Nat} (h : n < 2 ^ 16) : (UInt16.ofNat n).toNat = n := by
  rw [UInt16.toNat_ofNat']
  exact Nat.mod_eq_of_lt h

theorem drawSprite_visible {n a b : Nat} (hn : 0 < n) (hlt : n < nTexture) (ha : a < 2 ^ 16)
    (hb : b < 2 ^ 16) (hcur : fb.current = i.val) :
    drawSprite panel fb ⟨UInt16.ofNat n, UInt16.ofNat a, UInt16.ofNat b, i.display⟩ =
      .ok { fb with
        device := panel.draw fb.device ⟨a, b, textureW, textureH, fb.textures n⟩ } := by
  have hn16 : (UInt16.ofNat n).toNat = n := toNat_ofNat16 (hlt.trans (by decide))
  have hpos : 0 < UInt16.ofNat n := by
    rw [UInt16.lt_iff_toNat_lt, hn16]
    exact hn
  rw [drawSprite, if_pos ⟨hpos, by rw [i.display_toNat, hcur]⟩, hn16, inBounds_bind hlt,
    toNat_ofNat16 ha, toNat_ofNat16 hb]
  rfl

theorem drawSprite_hidden {n a b : UInt16} (hcur : fb.current ≠ i.val) :
    drawSprite panel fb ⟨n, a, b, i.display⟩ = .ok fb := by
  rw [drawSprite, if_neg]
  rintro ⟨-, heq⟩
  rw [i.display_toNat] at heq
  exact hcur heq.symm

/-- A cell of a terminal that is not visible. -/
theorem renderCell_hidden (hcur : fb.current ≠ i.val) (hk : y * t.columns + x < t.size) :
    renderCell panel fb i t y x = .ok fb := by
  rw [renderCell, inBounds_bind hk]
  split
  · show fbWrite panel fb (charSprites i x y _) = _
    rw [fbWrite, charSprites, List.foldlM_cons, drawSprite_hidden hcur, ok_bind, List.foldlM_cons,
      drawSprite_hidden hcur, ok_bind]
    rfl
  · rfl

/-- A cell of the visible terminal. -/
theorem renderCell_visible (hg : Geometry width height) (hcur : fb.current = i.val)
    (hd : AllDirty t) (hk : y * t.columns + x < t.size) (hx : x < width / 8)
    (hy : y < height / 16) :
    renderCell panel fb i t y x = .ok { fb with
      device :=
        (charCtls fb (cellChar t (y * t.columns + x)) y x).foldl panel.draw fb.device } := by
  have hw := hg.width
  have hh := hg.height
  have hc := cellChar_lt t (y * t.columns + x)
  rw [renderCell, inBounds_bind hk, if_pos (by rw [hd _ hk]; decide)]
  show fbWrite panel fb (charSprites i x y (cellChar t (y * t.columns + x))) = _
  generalize cellChar t (y * t.columns + x) = c at hc
  have hupper : drawSprite panel fb _ = _ := drawSprite_visible (Nat.succ_pos (c * 2))
    (by unfold nTexture; omega) (by omega : x * 8 < 2 ^ 16) (by omega : y * 16 < 2 ^ 16) hcur
  have hlower : ∀ p, drawSprite panel { fb with device := p } _ = _ := fun p =>
    drawSprite_visible (Nat.succ_pos (c * 2 + 1)) (by unfold nTexture; omega)
      (by omega : x * 8 < 2 ^ 16) (by omega : y * 16 + 8 < 2 ^ 16) hcur
  rw [fbWrite, charSprites, List.foldlM_cons, hupper, ok_bind, List.foldlM_cons, hlower, ok_bind]
  rfl

/-- The character that was drawn is shown. -/
theorem showsChar_draw (hp : panel.Paints width height) (hfont : Font font fb.textures 256)
    {c : Nat} (hc : c < 256) (hx : x < width / 8) (hy : y < height / 16) (p : P) :
    ShowsChar panel font ((charCtls fb c y x).foldl panel.draw p) c y x := by
  intro i hi j hj
  unfold textureW at hi
  unfold textureH at hj
  have hpx : x * textureW + i < width := by unfold textureW; omega
  have hpy : y * (2 * textureH) + j < height := by unfold textureH; omega
  show panel.pixel (panel.draw (panel.draw p _) _) _ _ = _
  rw [hp _ _ _ _ hpx hpy, hp _ _ _ _ hpx hpy]
  dsimp only
  by_cases hlow : 8 ≤ j
  · have hfont := (hfont c hc (j - 8) (by unfold textureH; omega) i hi).2
    rw [if_pos (by unfold textureW textureH; omega)]
    unfold textureW textureH at hfont ⊢
    rw [show y * (2 * 8) + j - (y * 16 + 8) = j - 8 by omega, show x * 8 + i - x * 8 = i by omega,
      hfont, glyph_colour]
    congr 1
    omega
  · have hfont := (hfont c hc j (by unfold textureH; omega) i hi).1
    rw [if_neg (by unfold textureW textureH; omega), if_pos (by unfold textureW textureH; omega)]
    unfold textureW at hfont
    unfold textureW textureH
    rw [show y * (2 * 8) + j - y * 16 = j by omega, show x * 8 + i - x * 8 = i by omega, hfont,
      glyph_colour]

/-- The other cells stay as they are. -/
theorem ShowsChar.draw (hp : panel.Paints width height) {p : P} {c c' y' x' : Nat}
    (h : ShowsChar panel font p c y x) (hx : x < width / 8) (hy : y < height / 16)
    (hne : (y', x') ≠ (y, x)) :
    ShowsChar panel font ((charCtls fb c' y' x').foldl panel.draw p) c y x := by
  intro i hi j hj
  have hold := h i hi j hj
  unfold textureW at hi
  unfold textureH at hj
  have hpx : x * textureW + i < width := by unfold textureW; omega
  have hpy : y * (2 * textureH) + j < height := by unfold textureH; omega
  have hapart : y' ≠ y ∨ x' ≠ x := by
    by_contra hno
    rw [not_or, not_not, not_not] at hno
    exact hne (by rw [hno.1, hno.2])
  show panel.pixel (panel.draw (panel.draw p _) _) _ _ = _
  rw [hp _ _ _ _ hpx hpy, hp _ _ _ _ hpx hpy, ← hold]
  dsimp only
  unfold textureW textureH
  rw [if_neg (by omega), if_neg (by omega)]

end Cell

/-! ## All tasks -/

/-- The visible terminal, and its cells that were drawn since its last character. -/
structure Watch where
  current : TtyId
  drawn : List (Nat × Nat)

theorem TtyId.zero_lt : 0 < 4 := by decide

def Watch.start : Watch := ⟨⟨0, TtyId.zero_lt⟩, []⟩

/-- A character makes the cells of the visible terminal stale, and so does a switch. -/
def watch (w : Watch) : Event → Watch
  | .putc i _ => if i = w.current then ⟨w.current, []⟩ else w
  | .cell i y x => if i = w.current then ⟨w.current, (y, x) :: w.drawn⟩ else w
  | .markAll _ => w
  | .current i => if i = w.current then w else ⟨i, []⟩

/-- The screens without an end of the terminals. -/
def scrolls (lines columns : Nat) (rs : TtyId → Scroll) : Event → TtyId → Scroll
  | .putc i ch => Function.update rs i ((rs i).putc lines columns ch)
  | _ => rs

/-- The loops of `tty_render` only reach the cells of the terminal. -/
def Event.Proper (lines columns : Nat) : Event → Prop
  | .cell _ y x => y < lines ∧ x < columns
  | _ => True

/-- What the display shows of a screen in row `y` and column `x`. -/
def visibleChar (lines columns : Nat) (r : Scroll) (y x : Nat) : Nat :=
  let p := r.base lines * columns + (y * columns + x)
  if p = r.pos then 0xdb else (r.cells p).toNat

theorem Shows.cellChar_eq {t : Screen} {r : Scroll} (h : Shows t r) {y x : Nat}
    (hk : y * t.columns + x < t.size) :
    cellChar t (y * t.columns + x) = visibleChar t.lines t.columns r y x := by
  rw [cellChar, visibleChar, h.pos]
  by_cases hc : y * t.columns + x = t.cursor
  · rw [if_pos hc, if_pos (by rw [hc])]
  · rw [if_neg hc, if_neg (by omega), h.cells _ hk]

/-- A terminal that shows the last rows of `r`, with all cells marked. -/
structure Terminal (width height : Nat) (t : Screen) (r : Scroll) : Prop where
  shows : Shows t r
  lines : t.lines = height / 16
  columns : t.columns = width / 8
  dirty : AllDirty t

section Terminals

variable {width height : Nat} {t : Screen} {r : Scroll}

theorem Terminal.init (hg : Geometry width height) :
    Terminal width height (.init (height / 16) (width / 8)) .start where
  shows := .init hg.lines hg.columns
  lines := rfl
  columns := rfl
  dirty _ _ := rfl

theorem Terminal.cell_lt (h : Terminal width height t r) {y x : Nat} (hy : y < height / 16)
    (hx : x < width / 8) : y * t.columns + x < t.size := by
  have hrow : (y + 1) * (width / 8) ≤ height / 16 * (width / 8) := Nat.mul_le_mul_right _ hy
  rw [Nat.succ_mul] at hrow
  rw [h.shows.size, h.lines, h.columns, Nat.mul_comm (width / 8)]
  omega

theorem Terminal.cellChar_eq (h : Terminal width height t r) {y x : Nat} (hy : y < height / 16)
    (hx : x < width / 8) :
    cellChar t (y * t.columns + x) = visibleChar (height / 16) (width / 8) r y x := by
  rw [h.shows.cellChar_eq (h.cell_lt hy hx), h.lines, h.columns]

theorem Terminal.putc (h : Terminal width height t r) (ch : UInt8) :
    ∃ t', ttyPutc t ch = .ok t' ∧
      Terminal width height t' (r.putc (height / 16) (width / 8) ch) := by
  obtain ⟨t', hok, hshows, hlines, hcolumns⟩ := h.shows.putc ch
  rw [h.lines, h.columns] at hshows
  exact ⟨t', hok, hshows, hlines.trans h.lines, hcolumns.trans h.columns, (h.dirty.putc hok).1⟩

theorem Terminal.markAll (h : Terminal width height t r) :
    ∃ t', ttyMarkAll t = .ok t' ∧ Terminal width height t' r := by
  obtain ⟨d, hok⟩ := ttyMarkAll_ok t
  exact ⟨_, hok, h.shows.withDirty d, h.lines, h.columns, (h.dirty.markAll hok).1⟩

/-- One of the terminals changes. -/
theorem Terminal.update {tty : TtyId → Screen} {rs : TtyId → Scroll}
    (h : ∀ i, Terminal width height (tty i) (rs i)) (i : TtyId) (ht : Terminal width height t r)
    (j : TtyId) :
    Terminal width height (Function.update tty i t j) (Function.update rs i r j) := by
  by_cases hj : j = i
  · rw [hj, Function.update_self, Function.update_self]
    exact ht
  · rw [Function.update_of_ne hj, Function.update_of_ne hj]
    exact h j

end Terminals

/-- The cells that were drawn show the visible terminal. -/
structure Shown (panel : Panel P) (font : Nat → UInt8) (width height : Nat) (s : Sys P)
    (rs : TtyId → Scroll) (w : Watch) : Prop where
  glyphs : Font font s.fb.textures 256
  current : s.fb.current = w.current.val
  tty : ∀ i, Terminal width height (s.tty i) (rs i)
  inside : ∀ y x, (y, x) ∈ w.drawn → y < height / 16 ∧ x < width / 8
  drawn : ∀ y x, (y, x) ∈ w.drawn →
    ShowsChar panel font s.fb.device (visibleChar (height / 16) (width / 8) (rs w.current) y x) y x

namespace Shown

variable {panel : Panel P} {font : Nat → UInt8} {width height : Nat} {s : Sys P}
  {rs : TtyId → Scroll} {w : Watch} {i : TtyId}

theorem boot (hg : Geometry width height) (textures : Nat → Texture) (p : P) :
    Shown panel font width height (.boot font textures width height p) (fun _ => .start)
      .start where
  glyphs := by
    have hload : (Sys.boot font textures width height p).fb.textures = fontLoad font textures := by
      rw [Sys.boot]
    rw [hload]
    exact fontLoad_font font textures
  current := rfl
  tty _ := .init hg
  inside _ _ h := absurd h List.not_mem_nil
  drawn _ _ h := absurd h List.not_mem_nil

theorem putc (h : Shown panel font width height s rs w) (i : TtyId) (ch : UInt8) :
    ∃ s', step panel s (.putc i ch) = .ok s' ∧
      Shown panel font width height s' (scrolls (height / 16) (width / 8) rs (.putc i ch))
        (watch w (.putc i ch)) := by
  obtain ⟨t, hok, ht⟩ := (h.tty i).putc ch
  refine ⟨{ s with tty := Function.update s.tty i t }, ?_, h.glyphs, ?_, Terminal.update h.tty i ht,
    fun y x hyx => ?_, fun y x hyx => ?_⟩
  · rw [step, hok]
    rfl
  · rw [watch]
    split
    · exact h.current
    · exact h.current
  · rw [watch] at hyx
    split at hyx
    · cases hyx
    · exact h.inside y x hyx
  · rw [watch] at hyx ⊢
    split at hyx
    · cases hyx
    · next hne =>
      rw [if_neg hne, scrolls, Function.update_of_ne (Ne.symm hne)]
      exact h.drawn y x hyx

theorem cell (h : Shown panel font width height s rs w) (hp : panel.Paints width height)
    (hg : Geometry width height) (i : TtyId) {y x : Nat} (hy : y < height / 16)
    (hx : x < width / 8) :
    ∃ s', step panel s (.cell i y x) = .ok s' ∧
      Shown panel font width height s' rs (watch w (.cell i y x)) := by
  have hk := (h.tty i).cell_lt hy hx
  by_cases hi : i = w.current
  · have hcell := (h.tty i).cellChar_eq hy hx
    have hrender : renderCell panel s.fb i (s.tty i) y x = _ :=
      renderCell_visible hg (h.current.trans (congrArg _ hi.symm)) (h.tty i).dirty hk hx hy
    have hw : watch w (.cell i y x) = ⟨w.current, (y, x) :: w.drawn⟩ := if_pos hi
    rw [hcell] at hrender
    refine ⟨_, by rw [step, hrender, ok_bind]; rfl, ?_⟩
    rw [hw]
    refine ⟨h.glyphs, h.current, h.tty, fun y' x' hyx => ?_, fun y' x' hyx => ?_⟩
    · rcases List.mem_cons.mp hyx with heq | hmem
      · cases heq
        exact ⟨hy, hx⟩
      · exact h.inside y' x' hmem
    · by_cases heq : (y', x') = (y, x)
      · cases heq
        have hc : visibleChar (height / 16) (width / 8) (rs i) y x < 256 := by
          rw [← hcell]
          exact cellChar_lt _ _
        rw [← hi]
        exact showsChar_draw hp h.glyphs hc hx hy _
      · have hmem := (List.mem_cons.mp hyx).resolve_left heq
        obtain ⟨hy', hx'⟩ := h.inside y' x' hmem
        exact (h.drawn y' x' hmem).draw hp hx' hy' (Ne.symm heq)
  · have hne : s.fb.current ≠ i.val := by
      rw [h.current]
      exact fun heq => hi (Fin.ext heq.symm)
    have hw : watch w (.cell i y x) = w := if_neg hi
    refine ⟨s, ?_, by rwa [hw]⟩
    rw [step, renderCell_hidden hne hk]
    rfl

theorem markAll (h : Shown panel font width height s rs w) (i : TtyId) :
    ∃ s', step panel s (.markAll i) = .ok s' ∧
      Shown panel font width height s' rs (watch w (.markAll i)) := by
  obtain ⟨t, hok, ht⟩ := (h.tty i).markAll
  have htty := Terminal.update h.tty i ht
  rw [Function.update_eq_self] at htty
  refine ⟨{ s with tty := Function.update s.tty i t }, ?_, h.glyphs, h.current, htty, h.inside,
    h.drawn⟩
  rw [step, hok]
  rfl

theorem choose (h : Shown panel font width height s rs w) (i : TtyId) :
    Shown panel font width height { s with fb := { s.fb with current := i.display.toNat } } rs
      (watch w (.current i)) := by
  rw [watch]
  by_cases hi : i = w.current
  · rw [if_pos hi]
    exact ⟨h.glyphs, i.display_toNat.trans (congrArg _ hi), h.tty, h.inside, h.drawn⟩
  · rw [if_neg hi]
    exact ⟨h.glyphs, i.display_toNat, h.tty, fun _ _ hyx => absurd hyx List.not_mem_nil,
      fun _ _ hyx => absurd hyx List.not_mem_nil⟩

/-- Every step of every task. -/
theorem step (h : Shown panel font width height s rs w) (hp : panel.Paints width height)
    (hg : Geometry width height) (e : Event) (he : e.Proper (height / 16) (width / 8)) :
    ∃ s', Dev.step panel s e = .ok s' ∧
      Shown panel font width height s' (scrolls (height / 16) (width / 8) rs e) (watch w e) := by
  cases e with
  | putc i ch => exact h.putc i ch
  | cell i y x => exact h.cell hp hg i he.1 he.2
  | markAll i => exact h.markAll i
  | current i => exact ⟨_, rfl, h.choose i⟩

theorem run (h : Shown panel font width height s rs w) (hp : panel.Paints width height)
    (hg : Geometry width height) (es : List Event)
    (hes : ∀ e ∈ es, e.Proper (height / 16) (width / 8)) :
    ∃ s', OsWorkbench.run (Dev.step panel) s es = .ok s' ∧
      Shown panel font width height s' (es.foldl (scrolls (height / 16) (width / 8)) rs)
        (es.foldl watch w) := by
  induction es generalizing s rs w with
  | nil => exact ⟨s, rfl, h⟩
  | cons e es ih =>
    obtain ⟨m, hstep, hm⟩ := h.step hp hg e (hes e List.mem_cons_self)
    obtain ⟨s', hrun, hs'⟩ := ih hm fun e' he' => hes e' (List.mem_cons_of_mem e he')
    exact ⟨s', run_cons.mpr ⟨m, hstep, hrun⟩, hs'⟩

end Shown

/-- Whatever the tasks do and in whichever order, nothing fails, and the display shows the
visible terminal in all cells that were drawn since the last character and the last switch. -/
theorem display_shows {panel : Panel P} {width height : Nat} (hp : panel.Paints width height)
    (hg : Geometry width height) (font : Nat → UInt8) (textures : Nat → Texture) (p : P)
    (es : List Event) (hes : ∀ e ∈ es, e.Proper (height / 16) (width / 8)) :
    ∃ s, run (step panel) (.boot font textures width height p) es = .ok s ∧
      let w := es.foldl watch .start
      let r := es.foldl (scrolls (height / 16) (width / 8)) (fun _ => .start) w.current
      ∀ y x, (y, x) ∈ w.drawn →
        ShowsChar panel font s.fb.device (visibleChar (height / 16) (width / 8) r y x) y x := by
  obtain ⟨s, hrun, hs⟩ := (Shown.boot hg textures p).run hp hg es hes
  exact ⟨s, hrun, hs.drawn⟩

theorem geometry_two : Geometry 16 32 := ⟨by decide, by decide, by decide, by decide⟩

/-- The first terminal is drawn between two characters on the second one. -/
theorem display_shows_one_cell :
    ∃ s, run (step (vga 16 32))
        (.boot (fun n => UInt8.ofNat n) (fun _ _ => 0) 16 32 fun _ => .of 0)
        [.putc 0 97, .putc 1 98, .cell 0 0 0, .cell 1 0 0, .putc 1 99] = .ok s ∧
      ShowsChar (vga 16 32) (fun n => UInt8.ofNat n) s.fb.device 97 0 0 := by
  obtain ⟨s, hrun, hshown⟩ := display_shows (vga_paints 16 32) geometry_two
    (fun n => UInt8.ofNat n) (fun _ _ => 0) (fun _ => .of 0)
    [.putc 0 97, .putc 1 98, .cell 0 0 0, .cell 1 0 0, .putc 1 99]
    (by simp [Event.Proper])
  exact ⟨s, hrun, hshown 0 0 List.mem_cons_self⟩

/-! ## Whole operations -/

/-- The cells in the order of the loops of `tty_render`. -/
def cellsOf (lines columns : Nat) : List (Nat × Nat) :=
  (List.range lines).flatMap fun y => (List.range columns).map fun x => (y, x)

def renderEvents (i : TtyId) (cs : List (Nat × Nat)) : List Event := cs.map fun c => .cell i c.1 c.2

theorem mem_cellsOf {lines columns y x : Nat} :
    (y, x) ∈ cellsOf lines columns ↔ y < lines ∧ x < columns := by
  simp [cellsOf]

section Ops

variable {panel : Panel P} {s : Sys P} {i : TtyId}

theorem run_putcs (bs : List UInt8) :
    run (step panel) s (bs.map (.putc i)) = do
      let t ← run ttyPutc (s.tty i) bs
      return { s with tty := Function.update s.tty i t } := by
  induction bs generalizing s with
  | nil =>
    show Except.ok s = .ok { s with tty := Function.update s.tty i (s.tty i) }
    rw [Function.update_eq_self]
  | cons b bs ih =>
    rw [List.map_cons, run, run, step, bind_assoc, bind_assoc]
    refine bind_congr fun t => ?_
    rw [pure_eq_ok, ok_bind, ih]
    show (run ttyPutc (Function.update s.tty i t i) bs >>= fun u =>
      pure { s with tty := Function.update (Function.update s.tty i t) i u }) = _
    rw [Function.update_self]
    refine bind_congr fun u => ?_
    rw [Function.update_idem]

theorem run_cells (cs : List (Nat × Nat)) :
    run (step panel) s (renderEvents i cs) = do
      let fb ← cs.foldlM (fun fb c => renderCell panel fb i (s.tty i) c.1 c.2) s.fb
      return { s with fb := fb } := by
  induction cs generalizing s with
  | nil => rfl
  | cons c cs ih =>
    rw [renderEvents, List.map_cons, run, step, List.foldlM_cons, bind_assoc, bind_assoc]
    refine bind_congr fun fb => ?_
    rw [pure_eq_ok, ok_bind, ← renderEvents, ih]

theorem ttyRender_eq (panel : Panel P) (fb : Fb P) (i : TtyId) (t : Screen) :
    ttyRender panel fb i t =
      (cellsOf t.lines t.columns).foldlM (fun fb c => renderCell panel fb i t c.1 c.2) fb := by
  rw [ttyRender, cellsOf]
  generalize List.range t.lines = ys
  induction ys generalizing fb with
  | nil => rfl
  | cons y ys ih =>
    rw [List.foldlM_cons, List.flatMap_cons, List.foldlM_append, List.foldlM_map]
    exact bind_congr fun fb => ih fb

/-- `tty_write` is a run of the steps that it is made of. -/
theorem ttyWrite_of_run {s' : Sys P} {bs : List UInt8} {lines columns : Nat}
    (h : run (step panel) s (bs.map (.putc i) ++ renderEvents i (cellsOf lines columns)) = .ok s')
    (hsize : ∀ t, run ttyPutc (s.tty i) bs = .ok t → t.lines = lines ∧ t.columns = columns) :
    ttyWrite panel s i bs = .ok s' := by
  obtain ⟨m, hputcs, hcells⟩ := run_append.mp h
  rw [run_putcs] at hputcs
  obtain ⟨t, ht, hm⟩ := bind_eq_ok.mp hputcs
  cases hm
  rw [run_cells] at hcells
  obtain ⟨fb, hfb, hs'⟩ := bind_eq_ok.mp hcells
  cases hs'
  obtain ⟨hlines, hcolumns⟩ := hsize t ht
  simp only [Function.update_self] at hfb
  rw [ttyWrite, ht, ok_bind, ttyRender_eq, hlines, hcolumns, hfb]
  rfl

theorem scrolls_putcs (lines columns : Nat) (rs : TtyId → Scroll) (bs : List UInt8) :
    (bs.map (Event.putc i)).foldl (scrolls lines columns) rs =
      Function.update rs i (bs.foldl (Scroll.putc lines columns) (rs i)) := by
  induction bs generalizing rs with
  | nil => exact (Function.update_eq_self _ _).symm
  | cons b bs ih =>
    rw [List.map_cons, List.foldl_cons, ih, scrolls, Function.update_self, Function.update_idem]
    rfl

theorem scrolls_cells (lines columns : Nat) (rs : TtyId → Scroll) (cs : List (Nat × Nat)) :
    (renderEvents i cs).foldl (scrolls lines columns) rs = rs := by
  induction cs with
  | nil => rfl
  | cons c cs ih => exact ih

theorem watch_putcs (w : Watch) (bs : List UInt8) :
    ((bs.map (Event.putc i)).foldl watch w).current = w.current ∧
      (i ≠ w.current → (bs.map (Event.putc i)).foldl watch w = w) := by
  induction bs generalizing w with
  | nil => exact ⟨rfl, fun _ => rfl⟩
  | cons b bs ih =>
    rw [List.map_cons, List.foldl_cons, watch]
    split
    · next hi => exact ⟨(ih _).1, fun hne => absurd hi hne⟩
    · exact ih w

theorem watch_cells (w : Watch) (cs : List (Nat × Nat)) :
    (renderEvents i cs).foldl watch w =
      if i = w.current then ⟨w.current, cs.reverse ++ w.drawn⟩ else w := by
  induction cs generalizing w with
  | nil => split <;> rfl
  | cons c cs ih =>
    rw [renderEvents, List.map_cons, List.foldl_cons, ← renderEvents, ih, watch]
    by_cases hi : i = w.current
    · rw [if_pos hi, if_pos hi, if_pos hi, List.reverse_cons, List.append_assoc]
      rfl
    · rw [if_neg hi, if_neg hi, if_neg hi]

end Ops

/-- The whole display shows terminal `i`. -/
def Complete (panel : Panel P) (font : Nat → UInt8) (width height : Nat) (s : Sys P)
    (rs : TtyId → Scroll) (i : TtyId) : Prop :=
  ∃ w, Shown panel font width height s rs w ∧ w.current = i ∧
    ∀ y x, y < height / 16 → x < width / 8 → (y, x) ∈ w.drawn

section Complete

variable {panel : Panel P} {font : Nat → UInt8} {width height : Nat} {s : Sys P}
  {rs : TtyId → Scroll} {w : Watch}

theorem proper_write (i : TtyId) (bs : List UInt8) (lines columns : Nat) :
    ∀ e ∈ bs.map (.putc i) ++ renderEvents i (cellsOf lines columns), e.Proper lines columns := by
  intro e he
  rcases List.mem_append.mp he with he | he
  · obtain ⟨b, -, rfl⟩ := List.mem_map.mp he
    trivial
  · obtain ⟨c, hc, rfl⟩ := List.mem_map.mp he
    exact mem_cellsOf.mp hc

/-- A `tty_write` to a terminal; the visible one is drawn completely. -/
theorem Shown.write (h : Shown panel font width height s rs w) (hp : panel.Paints width height)
    (hg : Geometry width height) (i : TtyId) (bs : List UInt8) :
    ∃ s' w', ttyWrite panel s i bs = .ok s' ∧
      Shown panel font width height s'
        (Function.update rs i (bs.foldl (Scroll.putc (height / 16) (width / 8)) (rs i))) w' ∧
      w'.current = w.current ∧ (i ≠ w.current → w' = w) ∧
      (i = w.current → ∀ y x, y < height / 16 → x < width / 8 → (y, x) ∈ w'.drawn) := by
  obtain ⟨s', hrun, hs'⟩ := h.run hp hg _ (proper_write i bs _ _)
  rw [List.foldl_append, List.foldl_append, scrolls_putcs, scrolls_cells, watch_cells] at hs'
  obtain ⟨hcur, hother⟩ := watch_putcs (i := i) w bs
  have hsize : ∀ t, OsWorkbench.run ttyPutc (s.tty i) bs = .ok t →
      t.lines = height / 16 ∧ t.columns = width / 8 := by
    intro t ht
    obtain ⟨t', ht', -, hlines, hcolumns⟩ := (h.tty i).shows.run bs
    rw [ht', Except.ok.injEq] at ht
    rw [← ht, hlines, hcolumns]
    exact ⟨(h.tty i).lines, (h.tty i).columns⟩
  refine ⟨s', _, ttyWrite_of_run hrun hsize, hs', ?_, fun hi => ?_, fun hi y x hy hx => ?_⟩
  · split
    · exact hcur
    · exact hcur
  · rw [hother hi, if_neg hi]
  · rw [if_pos (hi.trans hcur.symm)]
    exact List.mem_append_left _ (List.mem_reverse.mpr (mem_cellsOf.mpr ⟨hy, hx⟩))

/-- Where the visible terminal is drawn completely, it is so behind each operation. -/
theorem Complete.write {i : TtyId} (h : Complete panel font width height s rs i)
    (hp : panel.Paints width height) (hg : Geometry width height) (j : TtyId) (bs : List UInt8) :
    ∃ s', ttyWrite panel s j bs = .ok s' ∧ Complete panel font width height s'
      (Function.update rs j (bs.foldl (Scroll.putc (height / 16) (width / 8)) (rs j))) i := by
  obtain ⟨w, hw, hi, hall⟩ := h
  obtain ⟨s', w', hok, hs', hcur, hother, hsame⟩ := hw.write hp hg j bs
  refine ⟨s', hok, w', hs', hcur.trans hi, fun y x hy hx => ?_⟩
  by_cases hj : j = w.current
  · exact hsame hj y x hy hx
  · rw [hother hj]
    exact hall y x hy hx

theorem Shown.switch (h : Shown panel font width height s rs w) (hp : panel.Paints width height)
    (hg : Geometry width height) (i : TtyId) :
    ∃ s', ttySwitch panel s i = .ok s' ∧ Complete panel font width height s' rs i := by
  obtain ⟨t, ht, -⟩ := (h.tty i).markAll
  obtain ⟨m, hm, hmark⟩ := h.markAll i
  rw [Dev.step, ht] at hm
  cases hm
  have hchosen := hmark.choose i
  have hcur : (watch (watch w (.markAll i)) (.current i)).current = i := by
    show (watch w (.current i)).current = i
    rw [watch]
    split
    · next hi => exact hi.symm
    · rfl
  obtain ⟨s', w', hok, hs', hcur', -, hsame⟩ := hchosen.write hp hg i []
  rw [List.foldl_nil, Function.update_eq_self] at hs'
  refine ⟨s', ?_, w', hs', hcur'.trans hcur, hsame hcur.symm⟩
  rw [ttySwitch, ht]
  exact hok

end Complete

/-- The terminal that is visible behind an operation. -/
def Op.visible (i : TtyId) : Op → TtyId
  | .write _ _ => i
  | .switch j => j

/-- What an operation writes to terminal `i`. -/
def Op.textOn (i : TtyId) : Op → List UInt8
  | .write j bs => if j = i then bs else []
  | .switch _ => []

theorem Complete.run {panel : Panel P} {font : Nat → UInt8} {width height : Nat} {s : Sys P}
    {rs : TtyId → Scroll} {i : TtyId} (h : Complete panel font width height s rs i)
    (hp : panel.Paints width height) (hg : Geometry width height) (ops : List Op) :
    ∃ s', OsWorkbench.run (opStep panel) s ops = .ok s' ∧
      Complete panel font width height s'
        (fun j => (ops.flatMap (Op.textOn j)).foldl (Scroll.putc (height / 16) (width / 8)) (rs j))
        (ops.foldl Op.visible i) := by
  induction ops generalizing s rs i with
  | nil => exact ⟨s, rfl, h⟩
  | cons o ops ih =>
    have hstep : ∃ m, opStep panel s o = .ok m ∧ Complete panel font width height m
        (fun j => (o.textOn j).foldl (Scroll.putc (height / 16) (width / 8)) (rs j))
        (o.visible i) := by
      cases o with
      | write j bs =>
        obtain ⟨m, hok, hm⟩ := h.write hp hg j bs
        have htexts : (fun k => ((Op.write j bs).textOn k).foldl
              (Scroll.putc (height / 16) (width / 8)) (rs k)) =
            Function.update rs j (bs.foldl (Scroll.putc (height / 16) (width / 8)) (rs j)) := by
          funext k
          by_cases hk : j = k
          · subst hk
            rw [Op.textOn, if_pos rfl, Function.update_self]
          · rw [Op.textOn, if_neg hk, Function.update_of_ne (Ne.symm hk)]
            rfl
        exact ⟨m, hok, by rwa [htexts]⟩
      | switch j =>
        obtain ⟨w, hw, -⟩ := h
        exact hw.switch hp hg j
    obtain ⟨m, hok, hm⟩ := hstep
    obtain ⟨s', hrun, hs'⟩ := ih hm
    refine ⟨s', run_cons.mpr ⟨m, hok, hrun⟩, ?_⟩
    simpa only [List.flatMap_cons, List.foldl_append, List.foldl_cons] using hs'

/-- From the first rendering in `tty_task` on, the whole display shows the visible terminal behind
every operation on any of the terminals. -/
theorem visible_terminal {panel : Panel P} {width height : Nat} (hp : panel.Paints width height)
    (hg : Geometry width height) (font : Nat → UInt8) (textures : Nat → Texture) (p : P)
    (ops : List Op) :
    ∃ s, run (opStep panel) (.boot font textures width height p) (.write 0 [] :: ops) = .ok s ∧
      let i := ops.foldl Op.visible 0
      let r := (ops.flatMap (Op.textOn i)).foldl (Scroll.putc (height / 16) (width / 8)) .start
      ∀ y x, y < height / 16 → x < width / 8 →
        ShowsChar panel font s.fb.device (visibleChar (height / 16) (width / 8) r y x) y x := by
  obtain ⟨m, w, hok, hm, hcur, -, hall⟩ := (Shown.boot hg textures p).write hp hg 0 []
  rw [List.foldl_nil, Function.update_eq_self] at hm
  have hcomplete : Complete panel font width height m (fun _ => .start) 0 :=
    ⟨w, hm, hcur, hall rfl⟩
  obtain ⟨s, hrun, w', hs, hvisible, hall'⟩ := hcomplete.run hp hg ops
  refine ⟨s, run_cons.mpr ⟨m, hok, hrun⟩, fun y x hy hx => ?_⟩
  rw [← hvisible]
  exact hs.drawn y x (hall' y x hy hx)

/-- Both terminals are written to, and the second one becomes visible. -/
theorem visible_terminal_two :
    ∃ s, run (opStep (vga 16 32))
        (.boot (fun n => UInt8.ofNat n) (fun _ _ => 0) 16 32 fun _ => .of 0)
        [.write 0 [], .write 1 [98], .write 0 [97], .switch 1] = .ok s ∧
      ShowsChar (vga 16 32) (fun n => UInt8.ofNat n) s.fb.device 98 0 0 ∧
      ShowsChar (vga 16 32) (fun n => UInt8.ofNat n) s.fb.device 0xdb 0 1 := by
  obtain ⟨s, hrun, hshown⟩ := visible_terminal (vga_paints 16 32) geometry_two
    (fun n => UInt8.ofNat n) (fun _ _ => 0) (fun _ => .of 0)
      [.write 1 [98], .write 0 [97], .switch 1]
  exact ⟨s, hrun, hshown 0 0 (by decide) (by decide), hshown 0 1 (by decide) (by decide)⟩

end OsWorkbench.Dev
