import TrazelOs.Kernel.Font
import TrazelOs.Kernel.MemUtils

/-! # The framebuffer driver (`drivers/framebuffer_print/framebuffer.c`)

The pixels are an array of 32-bit numbers. -/

namespace TrazelOs

def charPixelWidth : Nat := 8
def charPixelHeight : Nat := 16

/-- `struct limine_framebuffer`, with room for a character. The pixels are in memory, so that no 64-bit
number of the driver overflows. -/
structure Framebuffer where
  width : Nat
  height : Nat
  pitch : Nat
  width_ge : charPixelWidth ≤ width
  height_ge : charPixelHeight ≤ height
  pitch_ge : width ≤ pitch / 4
  fits : height * (pitch / 4) * 4 ≤ 2 ^ 64

/-- `g_curr_cursor_index` and the pixels. -/
structure Screen where
  cursor : Nat
  pixels : List Nat

/-- `is_pixel_on`. -/
def isPixelOn (c : Byte) (x y : Nat) : Exec Bool := do
  let bytesPerRow := (charPixelWidth + 7) / 8
  let byteIndex := y * bytesPerRow + x / 8
  let bitIndex := 7 - x % 8
  let glyph ← arrayGet font8x16 c.toNat
  let byte ← arrayGet glyph byteIndex
  return byte / 2 ^ bitIndex % 2 = 1

namespace Framebuffer

variable (fb : Framebuffer)

def charsPerRow : Nat := fb.width / charPixelWidth
def charsPerCol : Nat := fb.height / charPixelHeight

section Write
variable (isPixelOn : Byte → Nat → Nat → Exec Bool)

def printLetter (letter : Byte) (screen : Screen) : Exec (List Nat) :=
  let charX := screen.cursor % fb.charsPerRow
  let charY := screen.cursor / fb.charsPerRow
  (List.range charPixelHeight).foldlM (fun pixels y =>
    (List.range charPixelWidth).foldlM (fun pixels x => do
      let on ← isPixelOn letter x y
      let pixelColor := if on then 0x00FF00 else 0x000000
      let pixelY := charY * charPixelHeight + y
      let pixelX := charX * charPixelWidth + x
      arraySet pixels (pixelY * (fb.pitch / 4) + pixelX) pixelColor) pixels) screen.pixels

/-- The pixels of a row and the product with the height of a character are `uint32_t`. -/
def slideFramebuffer (pixels : List Nat) : Exec (List Nat) := do
  let pixelsPerRow := u32 (fb.pitch / 4)
  let pixelsToCopy := (fb.height - charPixelHeight) * pixelsPerRow
  let pixels ← memcpyWithin pixels 0 (u32 (charPixelHeight * pixelsPerRow)) pixelsToCopy
  memsetArray pixels pixelsToCopy 0 (u32 (charPixelHeight * pixelsPerRow))

/-- The end of a turn of the loop: the text goes up when the cursor has left the screen. -/
def checkOverflow (screen : Screen) : Exec Screen :=
  if screen.cursor ≥ fb.charsPerRow * fb.charsPerCol then do
    let pixels ← fb.slideFramebuffer screen.pixels
    return ⟨screen.cursor - fb.charsPerRow, pixels⟩
  else return screen

/-- One turn of the loop. -/
def writeChar (screen : Screen) (ch : Byte) : Exec Screen :=
  if ch = 0x0A then
    let cursor := screen.cursor + fb.charsPerRow
    fb.checkOverflow { screen with cursor := cursor - cursor % fb.charsPerRow }
  else do
    let pixels ← fb.printLetter isPixelOn ch screen
    fb.checkOverflow ⟨screen.cursor + 1, pixels⟩

/-- `framebuffer_write`. -/
def write (screen : Screen) (buffer : List Byte) : Exec Screen :=
  buffer.foldlM (fb.writeChar isPixelOn) screen

end Write

end Framebuffer

end TrazelOs
