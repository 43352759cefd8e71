import OsWorkbench.Lib.Fill
import OsWorkbench.Dev.Screen

/-!
# The display

The model of `kernel/src/devices/video/video.c` and of `tty_render`, `tty_write` and the
switching between the terminals in `kernel/src/devices/tty/tty.c`. A character is drawn with
two tiles of 8 by 8 pixels; the tiles of the font are the textures `2 * ch + 1` and
`2 * ch + 2`. The font is a parameter, and so is the video device behind `_io_write`, of which
there is one for each platform; that of `am/src/x86/qemu/devices/video.c` is modelled here.
-/

namespace OsWorkbench.Dev

open Lib

/-- `TEXTURE_W` -/
def textureW : Nat := 8

/-- `TEXTURE_H` -/
def textureH : Nat := 8

/-- `NTEXTURE` -/
def nTexture : Nat := 16384

/-- The pixels of a texture, row after row. -/
abbrev Texture := Nat → UInt32

/-- `texture_fill`. -/
def textureFill (top : Bool) (bits : Nat → UInt8) (fg bg : UInt32) (tx : Texture) : Texture :=
  fillRows (fun y x =>
    let bitmask := if top then bits (y + textureH) else bits y
    if (bitmask.toNat >>> (7 - x)) &&& 1 ≠ 0 then fg else bg) textureW textureH tx

/-- `font_load`. -/
def fontLoad (font : Nat → UInt8) (textures : Nat → Texture) : Nat → Texture :=
  (List.range 256).foldl (fun textures ch =>
    let bits i := font (16 * ch + i)
    let textures := Function.update textures (ch * 2 + 1)
      (textureFill false bits 0xffffff 0 (textures (ch * 2 + 1)))
    Function.update textures (ch * 2 + 2)
      (textureFill true bits 0xffffff 0 (textures (ch * 2 + 2)))) textures

/-- A request to the register `_DEVREG_VIDEO_FBCTL`. -/
structure Fbctl where
  x : Nat
  y : Nat
  w : Nat
  h : Nat
  pixels : Nat → UInt32

/-- The video device. -/
structure Panel (P : Type) where
  draw : P → Fbctl → P
  pixel : P → Nat → Nat → UInt32

/-- On a display of this size the device paints the rectangle of the request with the red, green
and blue of its pixels, and nothing else. -/
def Panel.Paints {P : Type} (panel : Panel P) (width height : Nat) : Prop :=
  ∀ p c x y, x < width → y < height →
    panel.pixel (panel.draw p c) x y =
      if c.x ≤ x ∧ x < c.x + c.w ∧ c.y ≤ y ∧ y < c.y + c.h then
        c.pixels ((y - c.y) * c.w + (x - c.x)) &&& 0xffffff
      else panel.pixel p x y

/-! ## The device of qemu -/

/-- `struct FBPixel`. -/
structure FBPixel where
  b : UInt8
  g : UInt8
  r : UInt8

def pixel (r g b : UInt8) : UInt32 := r.toUInt32 <<< 16 ||| g.toUInt32 <<< 8 ||| b.toUInt32

/-- The pixel with the colours `R(p)`, `G(p)` and `B(p)`. -/
def FBPixel.of (p : UInt32) : FBPixel where
  b := p.toUInt8
  g := (p >>> 8).toUInt8
  r := (p >>> 16).toUInt8

/-- The body of the outer loop of `video_write`, on a screen of `W` by `H` pixels. -/
def videoRow (W H : Nat) (c : Fbctl) (fb : Nat → FBPixel) (j : Nat) : Nat → FBPixel :=
  let len := if W ≤ c.x + c.w then W - c.x else c.w
  if c.y + j < H then
    fillSegment (fun i => .of (c.pixels (j * c.w + i))) (c.x + (j + c.y) * W) len fb
  else fb

/-- `video_write` to the register `_DEVREG_VIDEO_FBCTL`. -/
def videoWrite (W H : Nat) (fb : Nat → FBPixel) (c : Fbctl) : Nat → FBPixel :=
  (List.range c.h).foldl (videoRow W H c) fb

/-- The device with its frame buffer. -/
def vga (W H : Nat) : Panel (Nat → FBPixel) where
  draw := videoWrite W H
  pixel fb x y := pixel (fb (x + y * W)).r (fb (x + y * W)).g (fb (x + y * W)).b

/-! ## The kernel -/

/-- `fb_t`, with the display that is visible and the state of the device. -/
structure Fb (P : Type) where
  textures : Nat → Texture
  current : Nat
  device : P

/-- `struct sprite`. -/
structure Sprite where
  texture : UInt16
  x : UInt16
  y : UInt16
  display : BitVec 4

variable {P : Type}

/-- The body of the loop of `fb_write`. -/
def drawSprite (panel : Panel P) (fb : Fb P) (sp : Sprite) : Except Fault (Fb P) :=
  if 0 < sp.texture ∧ sp.display.toNat = fb.current then do
    inBounds (sp.texture.toNat < nTexture)
    let ctl : Fbctl :=
      ⟨sp.x.toNat, sp.y.toNat, textureW, textureH, fb.textures sp.texture.toNat⟩
    return { fb with device := panel.draw fb.device ctl }
  else .ok fb

/-- `fb_write` of sprites. -/
def fbWrite (panel : Panel P) (fb : Fb P) (sps : List Sprite) : Except Fault (Fb P) :=
  sps.foldlM (drawSprite panel) fb

/-- The terminals, by their number from 0 on. -/
abbrev TtyId := Fin 4

/-- `tty->display`, which `tty_init` sets to `dev->id - 1`. -/
def TtyId.display (i : TtyId) : BitVec 4 := BitVec.ofNat 4 i.val

/-- The two halves of a character at row `y` and column `x`. -/
def charSprites (i : TtyId) (x y draw : Nat) : List Sprite :=
  [⟨UInt16.ofNat (draw * 2 + 1), UInt16.ofNat (x * 8), UInt16.ofNat (y * 16), i.display⟩,
    ⟨UInt16.ofNat (draw * 2 + 2), UInt16.ofNat (x * 8), UInt16.ofNat (y * 16 + 8), i.display⟩]

/-- The body of the loops of `tty_render`. -/
def renderCell (panel : Panel P) (fb : Fb P) (i : TtyId) (t : Screen) (y x : Nat) :
    Except Fault (Fb P) := do
  let k := y * t.columns + x
  inBounds (k < t.size)
  if t.dirty k ≠ 0 then
    let draw := if k = t.cursor then 0xdb else (t.buf k).ch.toNat
    fbWrite panel fb (charSprites i x y draw)
  else return fb

/-- `tty_render`. -/
def ttyRender (panel : Panel P) (fb : Fb P) (i : TtyId) (t : Screen) : Except Fault (Fb P) :=
  (List.range t.lines).foldlM (fun fb y =>
    (List.range t.columns).foldlM (fun fb x => renderCell panel fb i t y x) fb) fb

/-- The display and the terminals. -/
structure Sys (P : Type) where
  fb : Fb P
  tty : TtyId → Screen

/-- The state after `fb_init` and `tty_init` on a display of this size. -/
def Sys.boot (font : Nat → UInt8) (textures : Nat → Texture) (width height : Nat) (p : P) :
    Sys P where
  fb := ⟨fontLoad font textures, 0, p⟩
  tty _ := .init (height / 16) (width / 8)

/-- What is atomic: a character in `tty_write`, the body of the loops of `tty_render`, and in
`tty_task` the marking of a terminal and the choice of the visible display. -/
inductive Event
  | putc (i : TtyId) (ch : UInt8)
  | cell (i : TtyId) (y x : Nat)
  | markAll (i : TtyId)
  | current (i : TtyId)

def step (panel : Panel P) (s : Sys P) : Event → Except Fault (Sys P)
  | .putc i ch => do
    let t ← ttyPutc (s.tty i) ch
    return { s with tty := Function.update s.tty i t }
  | .cell i y x => do
    let fb ← renderCell panel s.fb i (s.tty i) y x
    return { s with fb := fb }
  | .markAll i => do
    let t ← ttyMarkAll (s.tty i)
    return { s with tty := Function.update s.tty i t }
  | .current i => .ok { s with fb := { s.fb with current := i.display.toNat } }

/-- `tty_write`. -/
def ttyWrite (panel : Panel P) (s : Sys P) (i : TtyId) (bs : List UInt8) :
    Except Fault (Sys P) := do
  let t ← run ttyPutc (s.tty i) bs
  let fb ← ttyRender panel s.fb i t
  return { fb := fb, tty := Function.update s.tty i t }

/-- The switch to a terminal in `tty_task`. -/
def ttySwitch (panel : Panel P) (s : Sys P) (i : TtyId) : Except Fault (Sys P) := do
  let t ← ttyMarkAll (s.tty i)
  let s := { s with
    fb := { s.fb with current := i.display.toNat }
    tty := Function.update s.tty i t }
  ttyWrite panel s i []

/-- What happens to the display: a terminal is written to, or becomes the visible one. -/
inductive Op
  | write (i : TtyId) (bs : List UInt8)
  | switch (i : TtyId)

def opStep (panel : Panel P) (s : Sys P) : Op → Except Fault (Sys P)
  | .write i bs => ttyWrite panel s i bs
  | .switch i => ttySwitch panel s i

end OsWorkbench.Dev
