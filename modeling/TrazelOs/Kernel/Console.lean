import TrazelOs.Kernel.Framebuffer
import TrazelOs.Kernel.Task

/-! # The output devices (`drivers/vga_text/vga_text_ch_device.c`, `kernel/vfs/devfs.c`)

The text mode memory of the VGA controller has two bytes for each cell, the character and its color. -/

namespace TrazelOs

/-! ## The VGA driver -/

def vgaWidth : Nat := 80
def vgaHeight : Nat := 25
def vgaMaxCursorPosition : Nat := vgaWidth * vgaHeight - 1

/-- The bytes of `VGA_EMPTY_CELL`. -/
def vgaEmptyChar : Byte := 0x20
def vgaEmptyColor : Byte := 0x0A

def u16 (n : Nat) : Nat := n % 2 ^ 16

/-- `a - b` on `uint16_t`. -/
def u16Sub (a b : Nat) : Nat := u16 (a + 2 ^ 16 - b)

/-- The cursor of `struct vga_data` and the memory from `VGA_MEMORY` on. -/
structure VgaText where
  cursor : Nat
  memory : List Byte

namespace VgaText

def outputChar (memory : List Byte) (outputCh : Byte) (offset : Nat) : Exec (List Byte) :=
  arraySet memory (offset * 2) outputCh

def slideWindow (memory : List Byte) : Exec (List Byte) := do
  let rowSize := vgaWidth * 2
  let memory ← (List.range (vgaHeight - 1)).foldlM (fun memory i =>
    memcpyWithin memory (i * rowSize) ((i + 1) * rowSize) rowSize) memory
  let lastLine := (vgaHeight - 1) * rowSize
  (List.range vgaWidth).foldlM (fun memory i => do
    let memory ← arraySet memory (lastLine + 2 * i) vgaEmptyChar
    arraySet memory (lastLine + 2 * i + 1) vgaEmptyColor) memory

/-- The text goes up when the cursor has come to the last cell. -/
def makeRoom (vga : VgaText) : Exec VgaText :=
  if vga.cursor ≥ vgaMaxCursorPosition then do
    let memory ← slideWindow vga.memory
    return ⟨u16Sub vga.cursor vgaWidth, memory⟩
  else return vga

/-- The `switch` of `vga_text_write`. -/
def putChar (vga : VgaText) (ch : Byte) : Exec VgaText :=
  if ch = 0x0A then
    let cursor := u16 (vga.cursor + vgaWidth)
    return { vga with cursor := u16Sub cursor (cursor % vgaWidth + 1) }
  else if ch = 0x08 then do
    let cursor := u16Sub vga.cursor 1
    let memory ← outputChar vga.memory 0x20 cursor
    return ⟨u16Sub cursor 1, memory⟩
  else do
    let memory ← outputChar vga.memory ch vga.cursor
    return { vga with memory }

/-- One turn of the loop. -/
def writeChar (vga : VgaText) (ch : Byte) : Exec VgaText := do
  let vga ← vga.makeRoom
  let vga ← vga.putChar ch
  return { vga with cursor := u16 (vga.cursor + 1) }

/-- The cells after `cls`. -/
def cls : List Byte := (List.replicate (vgaWidth * vgaHeight) [vgaEmptyChar, vgaEmptyColor]).flatten

/-- `vga_text_init`. -/
def init : VgaText := ⟨0, cls⟩

/-- `vga_text_write`. -/
def write (vga : VgaText) (buffer : List Byte) : Exec VgaText := buffer.foldlM writeChar vga

end VgaText

/-! ## The devices -/

/-- The state of the output devices. -/
structure Console where
  vga : VgaText
  screen : Screen

namespace Console

variable (fb : Framebuffer)

def writeVga (console : Console) (buffer : List Byte) : Exec Console := do
  let vga ← console.vga.write buffer
  return { console with vga }

def writeFramebuffer (console : Console) (buffer : List Byte) : Exec Console := do
  let screen ← fb.write isPixelOn console.screen buffer
  return { console with screen }

/-- `char_dev_write`. The serial port keeps nothing, and `tty` writes to it and to the framebuffer. -/
def write (console : Console) (dev : CharDevice) (buffer : List Byte) : Exec Console :=
  match dev with
  | .com1 => .ok console
  | .vgaText => console.writeVga buffer
  | .framebuffer | .tty => console.writeFramebuffer fb buffer
  | .ps2Keyboard => .error (.panic "PS/2 Keyboard driver does not support write operation.")

/-- The calls of the processes, in their order. -/
def writes (console : Console) (calls : List (CharDevice × List Byte)) : Exec Console :=
  calls.foldlM (fun console call => console.write fb call.1 call.2) console

end Console

end TrazelOs
