import TrazelOs.Kernel.Console
import TrazelOs.Verify.Framebuffer

/-! # The accesses of the output devices

The cursor of the VGA driver stays on the screen, or on the place behind it, until a backspace comes
while it is on the first cell: it is then the largest number of 16 bits. The framebuffer driver has a
glyph for each character below 0x80, and reads behind the table for the others. -/

namespace TrazelOs

/-- Either `p` holds and the call keeps the invariant `valid`, if it does not stop the kernel, or `p`
does not hold and the call makes a wild access. -/
inductive Exec.Guarded (valid : α → Prop) : Exec α → Prop → Prop
  | ok {a : α} {p : Prop} (hp : p) (h : valid a) : Guarded valid (.ok a) p
  | panic {msg : String} {p : Prop} (hp : p) : Guarded valid (.error (.panic msg)) p
  | wild {p : Prop} (hp : ¬p) : Guarded valid (.error .wild) p

namespace Exec.Guarded

variable {valid : α → Prop} {valid' : β → Prop} {x : Exec α} {p p' : Prop}

theorem ne_wild_iff (h : Guarded valid x p) : x ≠ .error .wild ↔ p := by
  cases h with
  | ok hp _ => exact ⟨fun _ => hp, fun _ h => nomatch h⟩
  | panic hp => exact ⟨fun _ => hp, fun _ h => nomatch h⟩
  | wild hp => exact ⟨fun h => absurd rfl h, fun h => absurd h hp⟩

theorem congr (h : Guarded valid x p) (hp : p ↔ p') : Guarded valid x p' := by
  rwa [propext hp] at h

theorem map (h : Guarded valid x p) {f : α → β} (hf : ∀ a, valid a → valid' (f a)) :
    Guarded valid' (x >>= fun a => pure (f a)) p := by
  cases h with
  | ok hp h => exact .ok hp (hf _ h)
  | panic hp => exact .panic hp
  | wild hp => exact .wild hp

theorem bind (h : Guarded valid x p) {f : α → Exec β} {q : α → Prop}
    (hf : ∀ a, valid a → Guarded valid' (f a) (q a)) :
    Guarded valid' (x >>= f) (p ∧ ∀ a, x = .ok a → q a) := by
  cases h with
  | ok hp h =>
    refine (hf _ h).congr ⟨fun hq => ⟨hp, ?_⟩, fun hq => hq.2 _ rfl⟩
    intro a ha
    cases ha
    exact hq
  | panic hp => exact .panic ⟨hp, fun _ h => nomatch h⟩
  | wild hp => exact .wild fun h => hp h.1

end Exec.Guarded

/-! ## The VGA driver -/

namespace VgaText

variable {vga : VgaText} {memory : List Byte} {ch : Byte}

def memorySize : Nat := vgaWidth * vgaHeight * 2

theorem length_cls : cls.length = memorySize := by
  rw [cls, List.length_flatten, List.map_replicate, List.sum_replicate_nat]
  rfl

theorem slideLines_returns (h : memory.length = memorySize) :
    ∃ memory', (List.range (vgaHeight - 1)).foldlM (fun memory i =>
      memcpyWithin memory (i * (vgaWidth * 2)) ((i + 1) * (vgaWidth * 2)) (vgaWidth * 2)) memory =
        .ok memory' ∧ memory'.length = memorySize := by
  refine Exec.foldlM_range_total (p := fun _ (memory : List Byte) => memory.length = memorySize)
    (fun i memory hi hlength => ?_) h
  have hle : i * (vgaWidth * 2) ≤ (i + 1) * (vgaWidth * 2) := Nat.mul_le_mul_right _ (Nat.le_succ i)
  have hroom : (i + 1) * (vgaWidth * 2) + vgaWidth * 2 ≤ memory.length := by
    unfold memorySize at hlength
    unfold vgaHeight vgaWidth at *
    omega
  obtain ⟨memory', hrun, hreplaced⟩ := memcpyWithin_replaced hle hroom
  exact ⟨memory', hrun, hreplaced.length_eq.trans hlength⟩

theorem clearLastLine_returns (h : memory.length = memorySize) :
    ∃ memory', (List.range vgaWidth).foldlM (fun memory i => do
      let memory ← arraySet memory ((vgaHeight - 1) * (vgaWidth * 2) + 2 * i) vgaEmptyChar
      arraySet memory ((vgaHeight - 1) * (vgaWidth * 2) + 2 * i + 1) vgaEmptyColor) memory =
        .ok memory' ∧ memory'.length = memorySize := by
  refine Exec.foldlM_range_total (p := fun _ (memory : List Byte) => memory.length = memorySize)
    (fun i memory hi hlength => ?_) h
  have hlt : (vgaHeight - 1) * (vgaWidth * 2) + 2 * i + 1 < memory.length := by
    rw [hlength, memorySize]
    unfold vgaHeight vgaWidth at *
    omega
  rw [arraySet_lt (Nat.lt_of_succ_lt hlt), Exec.ok_bind, arraySet_lt (by rwa [List.length_set])]
  exact ⟨_, rfl, by rw [List.length_set, List.length_set, hlength]⟩

theorem slideWindow_returns (h : memory.length = memorySize) :
    ∃ memory', slideWindow memory = .ok memory' ∧ memory'.length = memorySize := by
  obtain ⟨memory₁, hlines, h₁⟩ := slideLines_returns h
  obtain ⟨memory', hclear, h'⟩ := clearLastLine_returns h₁
  refine ⟨memory', ?_, h'⟩
  unfold slideWindow
  dsimp only
  rw [hlines, Exec.ok_bind, hclear]

/-- The cursor is on the screen or on the place behind it. -/
structure OnScreen (vga : VgaText) : Prop where
  cursor_le : vga.cursor ≤ vgaWidth * vgaHeight
  length_eq : vga.memory.length = memorySize

theorem onScreen_init : OnScreen init := ⟨Nat.zero_le _, length_cls⟩

theorem u16_of_lt {n : Nat} (h : n < 2 ^ 16) : u16 n = n := Nat.mod_eq_of_lt h

theorem u16Sub_of_le {a b : Nat} (ha : a < 2 ^ 16) (h : b ≤ a) : u16Sub a b = a - b := by
  unfold u16Sub u16
  omega

theorem OnScreen.makeRoom (h : OnScreen vga) : ∃ vga', vga.makeRoom = .ok vga' ∧
    vga'.cursor < vgaMaxCursorPosition ∧ vga'.memory.length = memorySize ∧
    (vga'.cursor = 0 ↔ vga.cursor = 0) := by
  obtain ⟨hcursor, hlength⟩ := h
  unfold VgaText.makeRoom
  by_cases hlast : vga.cursor ≥ vgaMaxCursorPosition
  · obtain ⟨memory', hslide, hlength'⟩ := slideWindow_returns hlength
    rw [if_pos hlast, hslide, Exec.ok_bind]
    unfold vgaMaxCursorPosition vgaWidth vgaHeight at *
    rw [u16Sub_of_le (by omega) (by omega)]
    exact ⟨_, rfl, by dsimp only; omega, hlength', by dsimp only; omega⟩
  · rw [if_neg hlast]
    exact ⟨vga, rfl, Nat.lt_of_not_le hlast, hlength, .rfl⟩

theorem outputChar_lt {offset : Nat} (hlength : memory.length = memorySize)
    (h : offset < vgaWidth * vgaHeight) :
    outputChar memory ch offset = .ok (memory.set (offset * 2) ch) := by
  apply arraySet_lt
  rw [hlength, memorySize]
  exact Nat.mul_lt_mul_of_pos_right h Nat.two_pos

theorem outputChar_ge {offset : Nat} (hlength : memory.length = memorySize)
    (h : vgaWidth * vgaHeight ≤ offset) : outputChar memory ch offset = .error .wild := by
  apply if_neg
  rw [hlength, memorySize]
  exact Nat.not_lt_of_le (Nat.mul_le_mul_right 2 h)

/-- The place of the cursor after the `switch` is one before the next one, modulo `2 ^ 16`. -/
def BeforeScreen (vga : VgaText) : Prop :=
  u16 (vga.cursor + 1) ≤ vgaWidth * vgaHeight ∧ vga.memory.length = memorySize

theorem newline_le {cursor : Nat} (h : cursor < vgaMaxCursorPosition) :
    u16 (u16Sub (u16 (cursor + vgaWidth)) (u16 (cursor + vgaWidth) % vgaWidth + 1) + 1) ≤
      vgaWidth * vgaHeight := by
  unfold vgaMaxCursorPosition vgaWidth vgaHeight at *
  rw [show u16 (cursor + 80) = cursor + 80 from u16_of_lt (by omega),
    u16Sub_of_le (by omega) (by omega), u16_of_lt (by omega)]
  omega

/-- From the second cell the cursor goes twice down and is the largest number of 16 bits, and the
increment takes it back to the first cell. -/
theorem backspace_le {cursor : Nat} (h : cursor < vgaMaxCursorPosition) :
    u16 (u16Sub (cursor - 1) 1 + 1) ≤ vgaWidth * vgaHeight := by
  unfold u16Sub u16 vgaMaxCursorPosition vgaWidth vgaHeight at *
  omega

theorem putChar_guarded (hcursor : vga.cursor < vgaMaxCursorPosition)
    (hlength : vga.memory.length = memorySize) :
    Exec.Guarded BeforeScreen (vga.putChar ch) (ch = 0x08 → vga.cursor ≠ 0) := by
  have hlt : vga.cursor + 1 < vgaWidth * vgaHeight := Nat.add_lt_of_lt_sub hcursor
  unfold putChar
  dsimp only
  by_cases hnewline : ch = 0x0A
  · rw [if_pos hnewline]
    exact .ok (fun h => absurd (hnewline.symm.trans h) (by decide)) ⟨newline_le hcursor, hlength⟩
  rw [if_neg hnewline]
  by_cases hback : ch = 0x08
  · rw [if_pos hback]
    by_cases hzero : vga.cursor = 0
    · -- The cursor goes from the first cell to the largest number of 16 bits.
      have hwild : vgaWidth * vgaHeight ≤ u16Sub vga.cursor 1 := by rw [hzero]; decide
      rw [outputChar_ge hlength hwild, Exec.error_bind]
      exact .wild fun h => h hback hzero
    · rw [u16Sub_of_le (Nat.lt_trans (Nat.lt_of_succ_lt hlt) (by decide)) (Nat.pos_of_ne_zero hzero),
        outputChar_lt hlength (Nat.lt_of_le_of_lt (Nat.sub_le _ _) (Nat.lt_of_succ_lt hlt)),
        Exec.ok_bind]
      refine .ok (fun _ => hzero) ⟨backspace_le hcursor, ?_⟩
      rw [List.length_set, hlength]
  · rw [if_neg hback, outputChar_lt hlength (Nat.lt_of_succ_lt hlt), Exec.ok_bind]
    refine .ok (fun h => absurd h hback) ⟨?_, ?_⟩
    · rw [u16_of_lt (Nat.lt_trans hlt (by decide))]
      exact Nat.le_of_lt hlt
    · rw [List.length_set, hlength]

theorem OnScreen.writeChar (h : OnScreen vga) (ch : Byte) :
    Exec.Guarded OnScreen (vga.writeChar ch) (ch = 0x08 → vga.cursor ≠ 0) := by
  obtain ⟨vga', hroom, hcursor, hlength, hzero⟩ := h.makeRoom
  unfold VgaText.writeChar
  rw [hroom, Exec.ok_bind, Ne, ← hzero]
  exact (putChar_guarded hcursor hlength).map fun vga h => ⟨h.1, h.2⟩

theorem write_singleton : vga.write [ch] = vga.writeChar ch := by
  rw [write, List.foldlM_cons]
  exact bind_pure _

end VgaText

/-! ## The framebuffer driver -/

theorem font8x16_length : font8x16.length = 0x80 := by decide +kernel

theorem font8x16_rows : ∀ glyph ∈ font8x16, glyph.length = charPixelHeight := by decide +kernel

theorem isPixelOn_returns {ch : Byte} {x y : Nat} (hch : ch.toNat < 0x80) (hx : x < charPixelWidth)
    (hy : y < charPixelHeight) : ∃ on, isPixelOn ch x y = .ok on := by
  obtain ⟨glyph, hglyph, hget⟩ := arrayGet_lt (font8x16_length ▸ hch)
  have hrow : y * ((charPixelWidth + 7) / 8) + x / 8 < glyph.length := by
    rw [font8x16_rows glyph (List.mem_of_getElem? hglyph)]
    unfold charPixelWidth at *
    omega
  obtain ⟨byte, -, hbyte⟩ := arrayGet_lt hrow
  unfold isPixelOn
  dsimp only
  rw [hget, Exec.ok_bind, hbyte]
  exact ⟨_, rfl⟩

theorem isPixelOn_wild {ch : Byte} {x y : Nat} (hch : 0x80 ≤ ch.toNat) :
    isPixelOn ch x y = .error .wild := by
  unfold isPixelOn
  dsimp only
  rw [arrayGet_none (font8x16_length ▸ hch), Exec.error_bind]

namespace Framebuffer

variable {fb : Framebuffer} {ch : Byte} {screen : Screen} {pixels : List Nat} {cursor : Nat}

/-- The next character has a place. -/
structure OnText (fb : Framebuffer) (screen : Screen) : Prop where
  cursor_lt : screen.cursor < fb.charsPerRow * fb.charsPerCol
  length_eq : screen.pixels.length = fb.height * (fb.pitch / 4)

theorem checkOverflow_returns (hcursor : cursor < fb.charsPerRow * fb.charsPerCol + fb.charsPerRow)
    (hlength : pixels.length = fb.height * (fb.pitch / 4)) :
    ∃ screen', fb.checkOverflow ⟨cursor, pixels⟩ = .ok screen' ∧ OnText fb screen' := by
  unfold checkOverflow
  by_cases hover : cursor ≥ fb.charsPerRow * fb.charsPerCol
  · obtain ⟨pixels₁, pixels', hrun, hcopy, hclear⟩ := slideFramebuffer_replaced hlength
    rw [if_pos hover, hrun, Exec.ok_bind]
    have hpos : 0 < fb.charsPerRow * fb.charsPerCol := Nat.mul_pos charsPerRow_pos charsPerCol_pos
    refine ⟨_, rfl, ?_, by rw [hclear.length_eq, hcopy.length_eq, hlength]⟩
    dsimp only
    omega
  · rw [if_neg hover]
    exact ⟨_, rfl, Nat.lt_of_not_le hover, hlength⟩

theorem printLetter_wild (hch : 0x80 ≤ ch.toNat) :
    fb.printLetter isPixelOn ch screen = .error .wild := by
  unfold printLetter
  dsimp only
  rw [show List.range charPixelHeight = 0 :: (List.range 15).map Nat.succ from
      List.range_succ_eq_map, List.foldlM_cons,
    show List.range charPixelWidth = 0 :: (List.range 7).map Nat.succ from List.range_succ_eq_map,
    List.foldlM_cons, isPixelOn_wild hch]
  rfl

theorem printLetter_returns (h : OnText fb screen) (hch : ch.toNat < 0x80) :
    ∃ pixels', fb.printLetter isPixelOn ch screen = .ok pixels' ∧
      pixels'.length = fb.height * (fb.pitch / 4) := by
  have hon : ∀ x < charPixelWidth, ∀ y < charPixelHeight,
      isPixelOn ch x y = .ok ((isPixelOn ch x y).toOption.getD false) := by
    intro x hx y hy
    obtain ⟨on, hon⟩ := isPixelOn_returns hch hx hy
    rw [hon]
    rfl
  obtain ⟨pixels', hrun, hdrawn⟩ := printLetter_drawn hon h.cursor_lt h.length_eq
  exact ⟨pixels', hrun, hdrawn.length_eq.trans h.length_eq⟩

theorem OnText.writeChar (h : OnText fb screen) (ch : Byte) :
    Exec.Guarded (OnText fb) (fb.writeChar isPixelOn screen ch) (ch.toNat < 0x80) := by
  have hcursor := h.cursor_lt
  unfold Framebuffer.writeChar
  by_cases hnewline : ch = 0x0A
  · rw [if_pos hnewline]
    dsimp only
    obtain ⟨screen', hrun, h'⟩ : ∃ screen', fb.checkOverflow
        ⟨screen.cursor + fb.charsPerRow - (screen.cursor + fb.charsPerRow) % fb.charsPerRow,
          screen.pixels⟩ = .ok screen' ∧ OnText fb screen' :=
      checkOverflow_returns (by omega) h.length_eq
    rw [hrun]
    exact .ok (hnewline ▸ by decide) h'
  rw [if_neg hnewline]
  by_cases hch : ch.toNat < 0x80
  · obtain ⟨pixels', hprint, hlength⟩ := printLetter_returns h hch
    have hpos : 0 < fb.charsPerRow := charsPerRow_pos
    obtain ⟨screen', hrun, h'⟩ : ∃ screen', fb.checkOverflow ⟨screen.cursor + 1, pixels'⟩ =
        .ok screen' ∧ OnText fb screen' := checkOverflow_returns (by omega) hlength
    rw [hprint, Exec.ok_bind, hrun]
    exact .ok hch h'
  · rw [printLetter_wild (Nat.le_of_not_lt hch), Exec.error_bind]
    exact .wild hch

end Framebuffer

/-! ## The devices -/

namespace Console

variable {fb : Framebuffer} {console : Console} {dev : CharDevice} {ch : Byte}

structure Valid (fb : Framebuffer) (console : Console) : Prop where
  vga : console.vga.OnScreen
  screen : fb.OnText console.screen

/-- What a byte has to meet in the state that it comes to. -/
def Accepts (console : Console) (ch : Byte) : CharDevice → Prop
  | .vgaText => ch = 0x08 → console.vga.cursor ≠ 0
  | .framebuffer | .tty => ch.toNat < 0x80
  | .com1 | .ps2Keyboard => True

def AcceptsAll (fb : Framebuffer) (dev : CharDevice) : Console → List Byte → Prop
  | _, [] => True
  | console, ch :: buffer => console.Accepts ch dev ∧
    ∀ console', console.write fb dev [ch] = .ok console' → AcceptsAll fb dev console' buffer

/-- Each byte of each call meets the condition in the state that it comes to. -/
def AcceptsCalls (fb : Framebuffer) : Console → List (CharDevice × List Byte) → Prop
  | _, [] => True
  | console, (dev, buffer) :: calls => AcceptsAll fb dev console buffer ∧
    ∀ console', console.write fb dev buffer = .ok console' → AcceptsCalls fb console' calls

theorem write_cons (buffer : List Byte) : console.write fb dev (ch :: buffer) =
    (console.write fb dev [ch] >>= fun console => console.write fb dev buffer) := by
  cases dev with
  | com1 | ps2Keyboard => rfl
  | vgaText =>
    simp only [write, writeVga, VgaText.write, List.foldlM_cons, List.foldlM_nil, bind_assoc,
      bind_pure, pure_bind]
  | framebuffer | tty =>
    simp only [write, writeFramebuffer, Framebuffer.write, List.foldlM_cons, List.foldlM_nil,
      bind_assoc, bind_pure, pure_bind]

theorem Valid.writeByte (h : Valid fb console) (ch : Byte) (dev : CharDevice) :
    Exec.Guarded (Valid fb) (console.write fb dev [ch]) (console.Accepts ch dev) := by
  cases dev with
  | com1 => exact .ok trivial h
  | ps2Keyboard => exact .panic trivial
  | vgaText =>
    dsimp only [Console.write, writeVga]
    rw [VgaText.write_singleton]
    exact (h.vga.writeChar ch).map fun _ hvga => ⟨hvga, h.screen⟩
  | framebuffer | tty =>
    dsimp only [Console.write, writeFramebuffer]
    rw [Framebuffer.write_singleton]
    exact (h.screen.writeChar ch).map fun _ hscreen => ⟨h.vga, hscreen⟩

theorem Valid.write (h : Valid fb console) (buffer : List Byte) :
    Exec.Guarded (Valid fb) (console.write fb dev buffer) (AcceptsAll fb dev console buffer) := by
  induction buffer generalizing console with
  | nil =>
    cases dev with
    | com1 | vgaText | framebuffer | tty => exact .ok trivial h
    | ps2Keyboard => exact .panic trivial
  | cons ch buffer ih =>
    rw [write_cons]
    exact (h.writeByte ch dev).bind fun console' h' => ih h'

theorem Valid.writes (h : Valid fb console) (calls : List (CharDevice × List Byte)) :
    Exec.Guarded (Valid fb) (console.writes fb calls) (AcceptsCalls fb console calls) := by
  induction calls generalizing console with
  | nil => exact .ok trivial h
  | cons call calls ih =>
    obtain ⟨dev, buffer⟩ := call
    rw [Console.writes, List.foldlM_cons]
    exact (h.write buffer).bind fun console' h' => ih h'

/-- Every access of every write is in range just if no backspace comes to the VGA driver with the
cursor on the first cell and no byte from 0x80 on comes to the framebuffer driver. -/
theorem writes_inRange_iff (h : Valid fb console) (calls : List (CharDevice × List Byte)) :
    console.writes fb calls ≠ .error .wild ↔ AcceptsCalls fb console calls :=
  (h.writes calls).ne_wild_iff

/-- A framebuffer with as many characters as the VGA screen. -/
def textScreen : Framebuffer where
  width := 640
  height := 400
  pitch := 2560
  width_ge := by decide
  height_ge := by decide
  pitch_ge := by decide
  fits := by decide

def boot : Console := ⟨.init, ⟨0, List.replicate (400 * 640) 0⟩⟩

theorem valid_boot : Valid textScreen boot :=
  ⟨VgaText.onScreen_init, by decide, List.length_replicate⟩

theorem writes_inRange_letters :
    boot.writes textScreen [(.vgaText, [0x41, 0x42]), (.tty, [0x41])] ≠ .error .wild := by
  refine (writes_inRange_iff valid_boot _).mpr ⟨⟨?_, fun _ _ => ⟨?_, fun _ _ => trivial⟩⟩, fun _ _ =>
    ⟨⟨?_, fun _ _ => trivial⟩, fun _ _ => trivial⟩⟩
  · exact fun h => absurd h (by decide)
  · exact fun h => absurd h (by decide)
  · show BitVec.toNat 0x41 < 0x80
    decide

/-- A backspace as the first byte for the VGA driver, and a byte that the font does not have. -/
theorem writes_outOfRange : boot.writes textScreen [(.vgaText, [0x08])] = .error .wild ∧
    boot.writes textScreen [(.framebuffer, [0x80])] = .error .wild := by
  constructor
  · by_contra h
    exact ((valid_boot.writes _).ne_wild_iff.mp h).1.1 rfl rfl
  · by_contra h
    have hlt : BitVec.toNat (0x80 : Byte) < 0x80 := ((valid_boot.writes _).ne_wild_iff.mp h).1.1
    exact absurd hlt (by decide)

end Console

end TrazelOs
