import Mathlib.Logic.Function.Basic
import Laomb.Base.ForLoop
import Laomb.Base.Word

/-! The console of `framebuffer.c`. Video memory is counted from `framebuffer_address`; what is
done to it is written down as it happens. -/
namespace Laomb.Fshell
open Word ForLoop

/-- `ULTRA_FB_FORMAT_*`. -/
inductive Format where
  | invalid
  | rgb888
  | bgr888
  | rgbx8888
  | xrgb8888
deriving DecidableEq, Repr

/-- `struct ultra_framebuffer`, with the fields that are read. -/
structure Framebuffer where
  width : Nat
  height : Nat
  pitch : Nat
  bpp : Nat
  format : Format
deriving DecidableEq, Repr

/-- A call of `set_pixel`, an access to a byte of `framebuffer_address`, and the cursor as a
character leaves it. -/
inductive Effect where
  | setPixel (x y : Nat)
  | access (offset : Nat)
  | cursor (x y : Nat)
deriving DecidableEq, Repr

structure Screen where
  memory : Nat → BitVec 8
  cursorX : Nat
  cursorY : Nat
  foregroundColor : BitVec 32
  backgroundColor : BitVec 32
  effects : List Effect

/-- `FONT_WIDTH`, `FONT_HEIGHT` and `SCREEN_TAB_SIZE`. -/
def fontWidth : Nat := 8

def fontHeight : Nat := 8

def screenTabSize : Nat := 4

namespace Screen

variable (fb : Framebuffer) (font8x8 : BitVec 8 → Nat → BitVec 8)

def log (e : Effect) (s : Screen) : Screen := { s with effects := s.effects ++ [e] }

/-- `framebuffer_address[offset] = b`. -/
def poke (offset : Nat) (b : BitVec 8) (s : Screen) : Screen :=
  { s with memory := Function.update s.memory offset b, effects := s.effects ++ [.access offset] }

/-- `framebuffer_address[dest] = framebuffer_address[src]`. -/
def copyByte (dest src : Nat) (s : Screen) : Screen := (s.log (.access src)).poke dest (s.memory src)

/-- Eight bits of a color. -/
def channel (color : BitVec 32) (shift : Nat) : BitVec 8 := (color >>> shift).setWidth 8

def setPixel (x y : Nat) (color : BitVec 32) (s : Screen) : Screen :=
  let s := s.log (.setPixel x y)
  let pixelOffset := u32 (y * fb.pitch + x * (fb.bpp / 8))
  match fb.format with
  | .rgb888 =>
    ((s.poke pixelOffset (channel color 16)).poke (u32 (pixelOffset + 1)) (channel color 8)).poke
      (u32 (pixelOffset + 2)) (channel color 0)
  | .bgr888 =>
    ((s.poke pixelOffset (channel color 0)).poke (u32 (pixelOffset + 1)) (channel color 8)).poke
      (u32 (pixelOffset + 2)) (channel color 16)
  | .rgbx8888 | .xrgb8888 =>
    -- a store of four bytes, the lowest first
    let index := u32 (y * fb.width + x)
    (((s.poke (4 * index) (channel color 0)).poke (4 * index + 1) (channel color 8)).poke
      (4 * index + 2) (channel color 16)).poke (4 * index + 3) (channel color 24)
  | .invalid => s

/-- `draw_char`; `font8x8` has rows for the characters that are not negative. -/
def drawChar (x y : Nat) (c : BitVec 8) (color : BitVec 32) (s : Screen) : Screen :=
  if 0x80 ≤ c then s
  else
    forRange fontHeight (fun row => forRange fontWidth fun col s =>
      if (font8x8 c row >>> (7 - col)) &&& 1 ≠ 0 then s.setPixel fb (u32 (x + col)) (u32 (y + row)) color
      else s) s

def clearScreen (s : Screen) : Screen :=
  forRange fb.height (fun y => forRange fb.width fun x s => s.setPixel fb x y s.backgroundColor) s

/-- The body of the loops of `scroll_screen`. -/
def scrollPixel (y x : Nat) (s : Screen) : Screen :=
  let srcOffset := u32 ((y + fontHeight) * fb.pitch + x * (fb.bpp / 8))
  let destOffset := u32 (y * fb.pitch + x * (fb.bpp / 8))
  ((s.copyByte destOffset srcOffset).copyByte (u32 (destOffset + 1)) (u32 (srcOffset + 1))).copyByte
    (u32 (destOffset + 2)) (u32 (srcOffset + 2))

def scrollScreen (s : Screen) : Screen :=
  let s := forRange (sub32 fb.height fontHeight) (fun y => forRange fb.width (scrollPixel fb y)) s
  let s := forRange fb.width
    (fun x s => s.setPixel fb x (sub32 fb.height fontHeight) s.backgroundColor) s
  { s with cursorY := sub32 s.cursorY fontHeight }

def handleBackspace (s : Screen) : Screen :=
  let s :=
    if fontWidth ≤ s.cursorX then { s with cursorX := s.cursorX - fontWidth }
    else if fontHeight ≤ s.cursorY then
      { s with cursorY := s.cursorY - fontHeight, cursorX := sub32 fb.width fontWidth }
    else s
  s.drawChar fb font8x8 s.cursorX s.cursorY 127 s.backgroundColor

/-- The cursor moves right, and into the next line from the end of one. -/
def moveRight (columns : Nat) (s : Screen) : Screen :=
  let x := u32 (s.cursorX + columns * fontWidth)
  if fb.width ≤ x then { s with cursorX := 0, cursorY := u32 (s.cursorY + fontHeight) }
  else { s with cursorX := x }

def advanceCursor (s : Screen) : Screen := s.moveRight fb 1

/-- The check at the end of what puts the cursor further down. -/
def scrollAtBottom (s : Screen) : Screen := if fb.height ≤ s.cursorY then s.scrollScreen fb else s

def putc (s : Screen) (c : BitVec 8) : Screen :=
  let s :=
    if c = 0x0A then
      { s with cursorX := 0, cursorY := u32 (s.cursorY + fontHeight) }.scrollAtBottom fb
    else if c = 0x09 then (s.moveRight fb screenTabSize).scrollAtBottom fb
    else if c = 0x7F then s.handleBackspace fb font8x8
    else
      ((s.drawChar fb font8x8 s.cursorX s.cursorY c s.foregroundColor).advanceCursor fb).scrollAtBottom fb
  s.log (.cursor s.cursorX s.cursorY)

/-- `puts` of a string, which ends before a zero. -/
def puts (str : List (BitVec 8)) (s : Screen) : Screen := (str.takeWhile (· ≠ 0)).foldl (putc fb font8x8) s

def cls (s : Screen) : Screen := { s.clearScreen fb with cursorX := 0, cursorY := 0 }

def setCursor (x y : Nat) (s : Screen) : Screen := { s with cursorX := x, cursorY := y }

end Screen
end Laomb.Fshell
