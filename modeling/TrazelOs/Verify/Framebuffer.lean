import TrazelOs.Kernel.Framebuffer
import TrazelOs.Theory.Terminal
import TrazelOs.Verify.MemUtils

/-! # The framebuffer is a terminal

The cells of the text are pictures of 8 by 16 pixels, and the cursor of the driver is the number of a
cell. Every store is inside of the array, and every write is one on a terminal whose cells are the
pictures, where the 32-bit numbers of `slide_framebuffer` do not overflow; they do for rows of `2 ^ 28`
pixels and more. -/

namespace TrazelOs

open Theory

/-! ## Pixels by rows and columns -/

section Pixels
variable {P x x' y y' H a k Y : Nat}

theorem pixel_lt (hx : x < P) (hy : y < H) : y * P + x < H * P :=
  calc y * P + x
    _ < y * P + P := Nat.add_lt_add_left hx _
    _ = (y + 1) * P := (Nat.succ_mul y P).symm
    _ ≤ H * P := Nat.mul_le_mul_right P hy

/-- The pixels in part of a row. -/
theorem pixel_mem_iff (hx : x < P) (hk : a + k ≤ P) :
    (Y * P + a ≤ y * P + x ∧ y * P + x < Y * P + a + k) ↔ y = Y ∧ a ≤ x ∧ x < a + k := by
  constructor
  · rintro ⟨hle, hlt⟩
    rcases Nat.lt_trichotomy y Y with hy | rfl | hy
    · have := pixel_lt hx hy
      omega
    · omega
    · have : (Y + 1) * P ≤ y * P := Nat.mul_le_mul_right P hy
      rw [Nat.succ_mul] at this
      omega
  · rintro ⟨rfl, hle, hlt⟩
    omega

theorem pixel_lt_iff (hx : x < P) : y * P + x < H * P ↔ y < H := by
  refine ⟨fun h => ?_, pixel_lt hx⟩
  by_contra hy
  have := Nat.mul_le_mul_right P (Nat.le_of_not_lt hy)
  omega

end Pixels

namespace Framebuffer

variable {fb : Framebuffer} {isOn : Byte → Nat → Nat → Exec Bool} {glyph : Byte → Nat → Nat → Bool}
  {ch : Byte} {screen : Screen} {pixels pixels' : List Nat} {cursor r c n : Nat}

theorem charsPerRow_pos : 0 < fb.charsPerRow := Nat.div_pos fb.width_ge (by decide)

theorem charsPerCol_pos : 0 < fb.charsPerCol := Nat.div_pos fb.height_ge (by decide)

/-- The cells of a row are in it. -/
theorem col_lt {c : Nat} (hc : c < fb.charsPerRow) : c * charPixelWidth + charPixelWidth ≤ fb.pitch / 4 := by
  have hpitch := fb.pitch_ge
  unfold charsPerRow charPixelWidth at hc
  unfold charPixelWidth
  omega

theorem row_lt {r : Nat} (hr : r < fb.charsPerCol) :
    r * charPixelHeight + charPixelHeight ≤ fb.height := by
  unfold charsPerCol charPixelHeight at hr
  unfold charPixelHeight
  omega

/-! ## One letter -/

/-- The color of a pixel. -/
def color (on : Bool) : Nat := if on then 0x00FF00 else 0x000000

/-- The first `n` rows of a picture have been drawn in the cell in row `r` and column `c`. -/
structure Drawn (fb : Framebuffer) (r c n : Nat) (picture : Nat → Nat → Nat) (pixels pixels' : List Nat) :
    Prop where
  length_eq : pixels'.length = pixels.length
  pixel : ∀ y x, x < fb.pitch / 4 → pixels'[y * (fb.pitch / 4) + x]? =
    if (r * charPixelHeight ≤ y ∧ y < r * charPixelHeight + n) ∧
      (c * charPixelWidth ≤ x ∧ x < c * charPixelWidth + charPixelWidth)
    then some (picture (x - c * charPixelWidth) (y - r * charPixelHeight))
    else pixels[y * (fb.pitch / 4) + x]?

theorem Drawn.zero {picture : Nat → Nat → Nat} : Drawn fb r c 0 picture pixels pixels :=
  ⟨rfl, fun y x _ => by rw [if_neg]; omega⟩

/-- A loop that stores consecutive elements. -/
theorem storeRow_replaced {on : Nat → Exec Bool} {picture : Nat → Nat} {base w : Nat}
    (hon : ∀ x < w, ∃ b, on x = .ok b ∧ picture x = color b) (hlength : base + w ≤ pixels.length) :
    ∃ pixels', (List.range w).foldlM (fun pixels x => do
      let b ← on x
      arraySet pixels (base + x) (if b then 0x00FF00 else 0x000000)) pixels = .ok pixels' ∧
      Replaced pixels base w (fun x => some (picture x)) pixels' := by
  refine Exec.foldlM_range_total (p := fun i pixels' => Replaced pixels base i (fun x => some (picture x)) pixels')
    (fun x pixels' hx hr => ?_) .zero
  obtain ⟨b, hb, hpicture⟩ := hon x hx
  refine ⟨_, ?_, hr.set (by omega) rfl⟩
  rw [hb, Exec.ok_bind, arraySet_lt (by rw [hr.length_eq]; omega), hpicture]
  rfl

/-- One more row of the picture. -/
theorem Drawn.row {picture : Nat → Nat → Nat} {pixels'' : List Nat}
    (h : Drawn fb r c n picture pixels pixels') (hc : c < fb.charsPerRow)
    (hrow : Replaced pixels' ((r * charPixelHeight + n) * (fb.pitch / 4) + c * charPixelWidth)
      charPixelWidth (fun x => some (picture x n)) pixels'') :
    Drawn fb r c (n + 1) picture pixels pixels'' := by
  refine ⟨hrow.length_eq.trans h.length_eq, fun y x hx => ?_⟩
  rw [hrow.getElem?, h.pixel y x hx]
  have hmem := pixel_mem_iff (y := y) (Y := r * charPixelHeight + n) hx (col_lt hc)
  by_cases hin : y = r * charPixelHeight + n ∧
      c * charPixelWidth ≤ x ∧ x < c * charPixelWidth + charPixelWidth
  · rw [if_pos (hmem.mpr hin), if_pos (by omega)]
    obtain ⟨rfl, -⟩ := hin
    rw [Nat.add_sub_add_left, Nat.add_sub_cancel_left]
  · rw [if_neg (mt hmem.mp hin)]
    exact if_congr (by omega) rfl rfl

theorem printLetter_drawn {on : Nat → Nat → Bool}
    (hon : ∀ x < charPixelWidth, ∀ y < charPixelHeight, isOn ch x y = .ok (on x y))
    (hcursor : screen.cursor < fb.charsPerRow * fb.charsPerCol)
    (hlength : screen.pixels.length = fb.height * (fb.pitch / 4)) :
    ∃ pixels', fb.printLetter isOn ch screen = .ok pixels' ∧
      Drawn fb (screen.cursor / fb.charsPerRow) (screen.cursor % fb.charsPerRow) charPixelHeight
        (fun x y => color (on x y)) screen.pixels pixels' := by
  have hr : screen.cursor / fb.charsPerRow < fb.charsPerCol := Nat.div_lt_of_lt_mul hcursor
  have hc : screen.cursor % fb.charsPerRow < fb.charsPerRow := Nat.mod_lt _ charsPerRow_pos
  unfold printLetter
  dsimp only
  generalize screen.cursor / fb.charsPerRow = r at hr ⊢
  generalize screen.cursor % fb.charsPerRow = c at hc ⊢
  refine Exec.foldlM_range_total
    (p := fun n pixels' => Drawn fb r c n (fun x y => color (on x y)) screen.pixels pixels')
    (fun y pixels' hy hdrawn => ?_) .zero
  have hin : (r * charPixelHeight + y) * (fb.pitch / 4) + c * charPixelWidth + charPixelWidth ≤
      pixels'.length := by
    have hrow : (r * charPixelHeight + y + 1) * (fb.pitch / 4) ≤ fb.height * (fb.pitch / 4) :=
      Nat.mul_le_mul_right _ (by have := row_lt hr; omega)
    have hcol := col_lt hc
    rw [Nat.succ_mul] at hrow
    rw [hdrawn.length_eq, hlength]
    omega
  have hrow (x : Nat) (hx : x < charPixelWidth) : ∃ b, isOn ch x y = .ok b ∧ color (on x y) = color b :=
    ⟨on x y, hon x hx y hy, rfl⟩
  obtain ⟨pixels'', hrun, hreplaced⟩ := storeRow_replaced hrow hin
  refine ⟨pixels'', ?_, hdrawn.row hc hreplaced⟩
  simp only [← Nat.add_assoc]
  exact hrun

/-! ## Scrolling -/

/-- The pixels go up by the height of a character, and the last rows are black. -/
structure Slid (fb : Framebuffer) (pixels pixels' : List Nat) : Prop where
  length_eq : pixels'.length = pixels.length
  pixel : ∀ y x, y < fb.height → x < fb.pitch / 4 → pixels'[y * (fb.pitch / 4) + x]? =
    if y + charPixelHeight < fb.height then pixels[(y + charPixelHeight) * (fb.pitch / 4) + x]?
    else some 0

theorem u32_le (n : Nat) : u32 n ≤ n := Nat.mod_le ..

/-- The two operations of `slide_framebuffer` stay in the array. -/
theorem slideFramebuffer_replaced (hlength : pixels.length = fb.height * (fb.pitch / 4)) :
    ∃ pixels₁ pixels', fb.slideFramebuffer pixels = .ok pixels' ∧
      Replaced pixels 0 ((fb.height - charPixelHeight) * u32 (fb.pitch / 4))
        (fun i => pixels[u32 (charPixelHeight * u32 (fb.pitch / 4)) + i]?) pixels₁ ∧
      Replaced pixels₁ ((fb.height - charPixelHeight) * u32 (fb.pitch / 4))
        (u32 (charPixelHeight * u32 (fb.pitch / 4))) (fun _ => some 0) pixels' := by
  have hin : u32 (charPixelHeight * u32 (fb.pitch / 4)) +
      (fb.height - charPixelHeight) * u32 (fb.pitch / 4) ≤ pixels.length :=
    calc u32 (charPixelHeight * u32 (fb.pitch / 4)) + (fb.height - charPixelHeight) * u32 (fb.pitch / 4)
      _ ≤ charPixelHeight * u32 (fb.pitch / 4) + (fb.height - charPixelHeight) * u32 (fb.pitch / 4) :=
        Nat.add_le_add_right (u32_le _) _
      _ = fb.height * u32 (fb.pitch / 4) := by
        rw [← Nat.add_mul, Nat.add_sub_cancel' fb.height_ge]
      _ ≤ fb.height * (fb.pitch / 4) := Nat.mul_le_mul_left _ (u32_le _)
      _ = pixels.length := hlength.symm
  obtain ⟨pixels₁, hcopy, h₁⟩ := memcpyWithin_replaced (Nat.zero_le _) hin
  obtain ⟨pixels', hclear, h₂⟩ : ∃ pixels', memsetArray pixels₁
      ((fb.height - charPixelHeight) * u32 (fb.pitch / 4)) 0
        (u32 (charPixelHeight * u32 (fb.pitch / 4))) = .ok pixels' ∧ Replaced pixels₁ _ _ _ pixels' :=
    memsetArray_replaced (by rw [h₁.length_eq, Nat.add_comm]; exact hin)
  refine ⟨pixels₁, pixels', ?_, h₁, h₂⟩
  unfold slideFramebuffer
  dsimp only
  rw [hcopy, Exec.ok_bind, hclear]

theorem slideFramebuffer_slid (hpitch : fb.pitch / 4 < 2 ^ 28)
    (hlength : pixels.length = fb.height * (fb.pitch / 4)) :
    ∃ pixels', fb.slideFramebuffer pixels = .ok pixels' ∧ Slid fb pixels pixels' := by
  obtain ⟨pixels₁, pixels', hrun, h₁, h₂⟩ := slideFramebuffer_replaced hlength
  have hrow : u32 (fb.pitch / 4) = fb.pitch / 4 := u32_of_lt (by omega)
  have hchars : u32 (charPixelHeight * (fb.pitch / 4)) = charPixelHeight * (fb.pitch / 4) :=
    u32_of_lt (by unfold charPixelHeight; omega)
  rw [hrow, hchars] at h₁ h₂
  refine ⟨pixels', hrun, h₂.length_eq.trans h₁.length_eq, fun y x hy hx => ?_⟩
  have hlt := pixel_lt_iff (y := y) (H := fb.height - charPixelHeight) hx
  have hend : y * (fb.pitch / 4) + x < (fb.height - charPixelHeight) * (fb.pitch / 4) +
      charPixelHeight * (fb.pitch / 4) := by
    rw [← Nat.add_mul, Nat.sub_add_cancel fb.height_ge]
    exact pixel_lt hx hy
  rw [h₂.getElem?]
  by_cases hup : y + charPixelHeight < fb.height
  · have hy' := hlt.mpr (by omega)
    rw [if_neg (by omega), h₁.getElem?, if_pos ⟨Nat.zero_le _, by omega⟩, if_pos hup, Nat.sub_zero,
      Nat.add_comm y, Nat.add_mul, Nat.add_assoc]
  · have hy' := mt hlt.mp (by omega)
    rw [if_pos ⟨Nat.le_of_not_lt hy', hend⟩, if_neg hup]

/-! ## The cells -/

/-- A picture of 8 by 16 pixels, by columns and rows. -/
abbrev Picture := Nat → Nat → Nat

def blank : Picture := fun _ _ => 0

/-- The pixels are those of the pictures in the cells, and black below the last row of text. -/
structure ShowsCells (fb : Framebuffer) (pixels : List Nat) (cell : Nat → Nat → Picture) : Prop where
  length_eq : pixels.length = fb.height * (fb.pitch / 4)
  cell : ∀ r < fb.charsPerCol, ∀ c < fb.charsPerRow, ∀ x < charPixelWidth, ∀ y < charPixelHeight,
    pixels[(r * charPixelHeight + y) * (fb.pitch / 4) + (c * charPixelWidth + x)]? = some (cell r c x y)
  below : ∀ y x, fb.charsPerCol * charPixelHeight ≤ y → y < fb.height → x < fb.width →
    pixels[y * (fb.pitch / 4) + x]? = some 0

theorem width_le {x : Nat} (hx : x < fb.width) : x < fb.pitch / 4 := Nat.lt_of_lt_of_le hx fb.pitch_ge

theorem cell_lt_width {c x : Nat} (hc : c < fb.charsPerRow) (hx : x < charPixelWidth) :
    c * charPixelWidth + x < fb.width := by
  unfold charsPerRow charPixelWidth at *
  omega

theorem height_lt : fb.height < fb.charsPerCol * charPixelHeight + charPixelHeight := by
  unfold charsPerCol charPixelHeight
  omega

namespace ShowsCells

variable {cell : Nat → Nat → Picture}

theorem drawn {picture : Picture} (h : ShowsCells fb pixels cell)
    (hdrawn : Drawn fb r c charPixelHeight picture pixels pixels') (hr : r < fb.charsPerCol) :
    ShowsCells fb pixels' fun r' c' => if r' = r ∧ c' = c then picture else cell r' c' where
  length_eq := hdrawn.length_eq.trans h.length_eq
  cell := by
    intro r' hr' c' hc' x hx y hy
    rw [hdrawn.pixel _ _ (width_le (cell_lt_width hc' hx)), h.cell r' hr' c' hc' x hx y hy]
    unfold charPixelHeight charPixelWidth at *
    by_cases hhere : r' = r ∧ c' = c
    · obtain ⟨rfl, rfl⟩ := hhere
      rw [if_pos (by omega), if_pos ⟨rfl, rfl⟩, Nat.add_sub_cancel_left, Nat.add_sub_cancel_left]
    · rw [if_neg (by omega), if_neg hhere]
  below := by
    intro y x hy hlt hx
    have hrow : r * charPixelHeight + charPixelHeight ≤ fb.charsPerCol * charPixelHeight := by
      rw [← Nat.succ_mul]
      exact Nat.mul_le_mul_right _ hr
    rw [hdrawn.pixel y x (width_le hx), if_neg (by omega), h.below y x hy hlt hx]

/-- The last row of text is blank, because what comes up from below is black. -/
theorem slid (h : ShowsCells fb pixels cell) (hslid : Slid fb pixels pixels') :
    ShowsCells fb pixels' fun r c => if r + 1 < fb.charsPerCol then cell (r + 1) c else blank where
  length_eq := hslid.length_eq.trans h.length_eq
  cell := by
    intro r hr c hc x hx y hy
    have hrow := row_lt hr
    have hwidth := cell_lt_width hc hx
    rw [hslid.pixel _ _ (by omega) (width_le hwidth)]
    by_cases hlast : r + 1 < fb.charsPerCol
    · have hnext := row_lt hlast
      rw [Nat.succ_mul] at hnext
      rw [if_pos (by omega), if_pos hlast, ← h.cell (r + 1) hlast c hc x hx y hy, Nat.succ_mul,
        Nat.add_right_comm]
    · rw [if_neg hlast]
      split
      · refine h.below _ _ ?_ ‹_› hwidth
        have hend : fb.charsPerCol = r + 1 := by omega
        rw [hend, Nat.succ_mul]
        omega
      · rfl
  below := by
    intro y x hy hlt hx
    have hheight : fb.height < fb.charsPerCol * charPixelHeight + charPixelHeight := height_lt
    rw [hslid.pixel y x hlt (width_le hx), if_neg (by omega)]

end ShowsCells

/-! ## The cursor -/

/-- The screen shows the cells of the terminal, and its cursor is the number of a cell. -/
structure Shows (fb : Framebuffer) (screen : Screen) (t : Terminal Picture) : Prop where
  cells : ShowsCells fb screen.pixels t.cell
  row_lt : t.row < fb.charsPerCol
  col_lt : t.col < fb.charsPerRow
  cursor_eq : screen.cursor = t.row * fb.charsPerRow + t.col

variable {t : Terminal Picture}

theorem Shows.cursor_lt (h : Shows fb screen t) : screen.cursor < fb.charsPerRow * fb.charsPerCol := by
  rw [h.cursor_eq, Nat.mul_comm fb.charsPerRow]
  exact pixel_lt h.col_lt h.row_lt

/-- The cursor has come to the start of the next row. -/
theorem checkOverflow_newline (hpitch : fb.pitch / 4 < 2 ^ 28) (h : ShowsCells fb pixels t.cell)
    (hrow : t.row < fb.charsPerCol) : ∃ screen',
      fb.checkOverflow ⟨(t.row + 1) * fb.charsPerRow, pixels⟩ = .ok screen' ∧
      Shows fb screen' (t.newline fb.charsPerCol blank) := by
  have hpos : 0 < fb.charsPerRow := charsPerRow_pos
  unfold checkOverflow Terminal.newline
  by_cases hlast : t.row + 1 < fb.charsPerCol
  · have hlt : (t.row + 1) * fb.charsPerRow < fb.charsPerRow * fb.charsPerCol := by
      rw [Nat.mul_comm fb.charsPerRow]
      exact Nat.mul_lt_mul_of_pos_right hlast hpos
    rw [if_neg (Nat.not_le.mpr hlt), if_pos hlast]
    exact ⟨_, rfl, h, hlast, hpos, rfl⟩
  · have hle : fb.charsPerRow * fb.charsPerCol ≤ (t.row + 1) * fb.charsPerRow := by
      rw [Nat.mul_comm fb.charsPerRow]
      exact Nat.mul_le_mul_right _ (Nat.le_of_not_lt hlast)
    obtain ⟨pixels', hslide, hslid⟩ := slideFramebuffer_slid hpitch h.length_eq
    rw [if_pos hle, if_neg hlast, hslide, Exec.ok_bind]
    refine ⟨_, rfl, h.slid hslid, hrow, hpos, ?_⟩
    change (t.row + 1) * fb.charsPerRow - fb.charsPerRow = t.row * fb.charsPerRow + 0
    rw [Nat.succ_mul, Nat.add_sub_cancel, Nat.add_zero]

/-- What a byte is for the terminal. -/
def input (glyph : Byte → Nat → Nat → Bool) (ch : Byte) : Terminal.Input Picture :=
  if ch = 0x0A then .newline else .char fun x y => color (glyph ch x y)

theorem Shows.mod_eq (h : Shows fb screen t) : screen.cursor % fb.charsPerRow = t.col := by
  rw [h.cursor_eq, Nat.mul_add_mod_self_right, Nat.mod_eq_of_lt h.col_lt]

theorem Shows.div_eq (h : Shows fb screen t) : screen.cursor / fb.charsPerRow = t.row := by
  rw [h.cursor_eq, Nat.mul_comm, Nat.mul_add_div charsPerRow_pos, Nat.div_eq_of_lt h.col_lt, Nat.add_zero]

theorem Shows.newline (hpitch : fb.pitch / 4 < 2 ^ 28) (h : Shows fb screen t) : ∃ screen',
    fb.writeChar isOn screen 0x0A = .ok screen' ∧
      Shows fb screen' (t.newline fb.charsPerCol blank) := by
  have hcursor : screen.cursor + fb.charsPerRow - t.col = (t.row + 1) * fb.charsPerRow := by
    rw [h.cursor_eq, Nat.succ_mul]
    omega
  unfold Framebuffer.writeChar
  rw [if_pos rfl]
  dsimp only
  rw [Nat.add_mod_right, h.mod_eq, hcursor]
  exact checkOverflow_newline hpitch h.cells h.row_lt

/-- After the letter the cursor is in the next column, or at the start of the next row. -/
theorem Shows.letter {on : Nat → Nat → Bool} (hpitch : fb.pitch / 4 < 2 ^ 28) (h : Shows fb screen t)
    (hch : ch ≠ 0x0A)
    (hon : ∀ x < charPixelWidth, ∀ y < charPixelHeight, isOn ch x y = .ok (on x y)) : ∃ screen',
    fb.writeChar isOn screen ch = .ok screen' ∧
      Shows fb screen' ((t.place fun x y => color (on x y)).advance fb.charsPerCol fb.charsPerRow blank) := by
  obtain ⟨pixels', hprint, hdrawn⟩ := printLetter_drawn hon h.cursor_lt h.cells.length_eq
  rw [h.mod_eq, h.div_eq] at hdrawn
  have hcells := h.cells.drawn hdrawn h.row_lt
  unfold Framebuffer.writeChar Terminal.advance
  rw [if_neg hch, hprint, Exec.ok_bind]
  by_cases hcol : t.col + 1 < fb.charsPerRow
  · have hcursor : screen.cursor + 1 = t.row * fb.charsPerRow + (t.col + 1) := by
      rw [h.cursor_eq, Nat.add_assoc]
    have hlt : screen.cursor + 1 < fb.charsPerRow * fb.charsPerCol := by
      rw [hcursor, Nat.mul_comm fb.charsPerRow]
      exact pixel_lt hcol h.row_lt
    refine ⟨⟨screen.cursor + 1, pixels'⟩, if_neg (Nat.not_le.mpr hlt), ?_⟩
    rw [if_pos (show (t.place _).col + 1 < fb.charsPerRow from hcol)]
    exact ⟨hcells, h.row_lt, hcol, hcursor⟩
  · have hcursor : screen.cursor + 1 = (t.row + 1) * fb.charsPerRow := by
      have hend := h.col_lt
      rw [h.cursor_eq, Nat.succ_mul]
      omega
    rw [hcursor, if_neg (show ¬ (t.place _).col + 1 < fb.charsPerRow from hcol)]
    exact checkOverflow_newline (t := t.place fun x y => color (on x y)) hpitch hcells h.row_lt

theorem Shows.writeChar (hpitch : fb.pitch / 4 < 2 ^ 28) (h : Shows fb screen t) (ch : Byte) : ∃ screen',
    fb.writeChar (fun ch x y => .ok (glyph ch x y)) screen ch = .ok screen' ∧
      Shows fb screen' (t.step fb.charsPerCol fb.charsPerRow blank (input glyph ch)) := by
  unfold input
  by_cases hch : ch = 0x0A
  · rw [if_pos hch, hch]
    exact h.newline hpitch
  · rw [if_neg hch]
    exact h.letter hpitch hch fun _ _ _ _ => rfl

theorem Shows.write (hpitch : fb.pitch / 4 < 2 ^ 28) (h : Shows fb screen t) (buffer : List Byte) :
    ∃ screen', fb.write (fun ch x y => .ok (glyph ch x y)) screen buffer = .ok screen' ∧
      Shows fb screen' (t.run fb.charsPerCol fb.charsPerRow blank (buffer.map (input glyph))) := by
  induction buffer generalizing screen t with
  | nil => exact ⟨screen, rfl, h⟩
  | cons ch buffer ih =>
    obtain ⟨screen₁, hchar, h₁⟩ := h.writeChar hpitch ch
    obtain ⟨screen', hrest, h'⟩ := ih h₁
    refine ⟨screen', ?_, h'⟩
    rw [Framebuffer.write, List.foldlM_cons, hchar, Exec.ok_bind]
    exact hrest

/-- The writes of all processes, one after the other. -/
def writes (fb : Framebuffer) (isOn : Byte → Nat → Nat → Exec Bool) (screen : Screen)
    (buffers : List (List Byte)) : Exec Screen := buffers.foldlM (fb.write isOn) screen

theorem Shows.writes (hpitch : fb.pitch / 4 < 2 ^ 28) (h : Shows fb screen t)
    (buffers : List (List Byte)) :
    ∃ screen', fb.writes (fun ch x y => .ok (glyph ch x y)) screen buffers = .ok screen' ∧
      Shows fb screen' (t.run fb.charsPerCol fb.charsPerRow blank (buffers.flatten.map (input glyph))) := by
  induction buffers generalizing screen t with
  | nil => exact ⟨screen, rfl, h⟩
  | cons buffer buffers ih =>
    obtain ⟨screen₁, hwrite, h₁⟩ := h.write hpitch buffer
    obtain ⟨screen', hrest, h'⟩ := ih h₁
    refine ⟨screen', ?_, ?_⟩
    · rw [Framebuffer.writes, List.foldlM_cons, hwrite, Exec.ok_bind]
      exact hrest
    · rw [List.flatten_cons, List.map_append, Terminal.run_append]
      exact h'

/-! ## From the first write on -/

/-- The pictures on a screen. -/
def pictures (fb : Framebuffer) (pixels : List Nat) (r c : Nat) : Picture := fun x y =>
  pixels.getD ((r * charPixelHeight + y) * (fb.pitch / 4) + (c * charPixelWidth + x)) 0

/-- The terminal before the first write: its cells are the pictures that are on the screen. -/
def initialTerminal (fb : Framebuffer) (pixels : List Nat) : Terminal Picture := ⟨0, 0, fb.pictures pixels⟩

/-- The pixels are those of the framebuffer, and black below the last row of text. -/
structure Initial (fb : Framebuffer) (pixels : List Nat) : Prop where
  length_eq : pixels.length = fb.height * (fb.pitch / 4)
  below : ∀ y x, fb.charsPerCol * charPixelHeight ≤ y → y < fb.height → x < fb.width →
    pixels[y * (fb.pitch / 4) + x]? = some 0

theorem Initial.shows (h : Initial fb pixels) : Shows fb ⟨0, pixels⟩ (fb.initialTerminal pixels) where
  cells := by
    refine ⟨h.length_eq, fun r hr c hc x hx y hy => ?_, h.below⟩
    have hrow := Framebuffer.row_lt hr
    have hlt : (r * charPixelHeight + y) * (fb.pitch / 4) + (c * charPixelWidth + x) < pixels.length := by
      rw [h.length_eq]
      exact pixel_lt (width_le (cell_lt_width hc hx)) (by omega)
    unfold initialTerminal pictures
    dsimp only
    rw [List.getD_eq_getElem?_getD, List.getElem?_eq_getElem hlt]
    rfl
  row_lt := charsPerCol_pos
  col_lt := charsPerRow_pos
  cursor_eq := (Nat.zero_mul _).symm

/-- Whatever is written, the cursor is in the text, no store leaves the array, and the cells of the
screen are those of the terminal. A state before a character is the state after the ones before it. -/
def FollowsTerminal (fb : Framebuffer) (glyph : Byte → Nat → Nat → Bool) : Prop :=
  ∀ pixels, Initial fb pixels → ∀ buffers : List (List Byte), ∃ screen,
    fb.writes (fun ch x y => .ok (glyph ch x y)) ⟨0, pixels⟩ buffers = .ok screen ∧
    screen.cursor < fb.charsPerRow * fb.charsPerCol ∧
    ∀ r < fb.charsPerCol, ∀ c < fb.charsPerRow, ∀ x < charPixelWidth, ∀ y < charPixelHeight,
      screen.pixels[(r * charPixelHeight + y) * (fb.pitch / 4) + (c * charPixelWidth + x)]? =
        some (((fb.initialTerminal pixels).run fb.charsPerCol fb.charsPerRow blank
          (buffers.flatten.map (input glyph))).cell r c x y)

theorem followsTerminal_of_lt (hpitch : fb.pitch / 4 < 2 ^ 28) : FollowsTerminal fb glyph := by
  intro pixels hinitial buffers
  obtain ⟨screen, hrun, hshows⟩ := hinitial.shows.writes hpitch buffers
  exact ⟨screen, hrun, hshows.cursor_lt, hshows.cells.cell⟩

/-! ## Rows of too many pixels

A newline in the last row is the first write that scrolls. One white pixel in the first row of text
shows whether the pixels of the rows that go up are the right ones. -/

theorem writeChar_newline {k : Nat} : fb.writeChar isOn ⟨k * fb.charsPerRow, pixels⟩ 0x0A =
    fb.checkOverflow ⟨(k + 1) * fb.charsPerRow, pixels⟩ := by
  unfold Framebuffer.writeChar
  rw [if_pos rfl]
  dsimp only
  rw [Nat.add_mod_right, Nat.mul_mod_left, Nat.sub_zero, Nat.succ_mul]

theorem write_append {buffer buffer' : List Byte} : fb.write isOn screen (buffer ++ buffer') =
    (fb.write isOn screen buffer >>= fun screen => fb.write isOn screen buffer') := List.foldlM_append

theorem write_singleton : fb.write isOn screen [ch] = fb.writeChar isOn screen ch := by
  rw [Framebuffer.write, List.foldlM_cons]
  exact bind_pure _

theorem write_newlines {k : Nat} (hk : k < fb.charsPerCol) :
    fb.write isOn ⟨0, pixels⟩ (List.replicate k 0x0A) = .ok ⟨k * fb.charsPerRow, pixels⟩ := by
  induction k with
  | zero => rw [Nat.zero_mul]; rfl
  | succ k ih =>
    have hlt : (k + 1) * fb.charsPerRow < fb.charsPerRow * fb.charsPerCol := by
      rw [Nat.mul_comm fb.charsPerRow]
      exact Nat.mul_lt_mul_of_pos_right hk charsPerRow_pos
    rw [List.replicate_succ', write_append, ih (Nat.lt_of_succ_lt hk), Exec.ok_bind, write_singleton,
      writeChar_newline, checkOverflow, if_neg (Nat.not_le.mpr hlt)]
    rfl

/-- As many newlines as there are rows scroll once. -/
theorem FollowsTerminal.slide (h : FollowsTerminal fb glyph) (hinitial : Initial fb pixels) :
    ∃ pixels', fb.slideFramebuffer pixels = .ok pixels' ∧ ∀ y < charPixelHeight,
      pixels'[y * (fb.pitch / 4)]? =
        some ((if 1 < fb.charsPerCol then fb.pictures pixels 1 0 else blank) 0 y) := by
  have hpos : 0 < fb.charsPerCol := charsPerCol_pos
  obtain ⟨k, hk⟩ : ∃ k, fb.charsPerCol = k + 1 := ⟨fb.charsPerCol - 1, by omega⟩
  have hlt : k < fb.charsPerCol := by omega
  obtain ⟨screen, hrun, -, hcells⟩ := h pixels hinitial [List.replicate (k + 1) 0x0A]
  obtain ⟨pixels', hslide, rfl⟩ : ∃ pixels', fb.slideFramebuffer pixels = .ok pixels' ∧
      pixels' = screen.pixels := by
    have hle : fb.charsPerRow * fb.charsPerCol ≤ (k + 1) * fb.charsPerRow := by rw [hk, Nat.mul_comm]
    rw [Framebuffer.writes, List.foldlM_cons, List.replicate_succ', write_append, write_newlines hlt,
      Exec.ok_bind, write_singleton, writeChar_newline, checkOverflow, if_pos hle] at hrun
    obtain ⟨screen₁, hrun, hpure⟩ := Exec.bind_eq_ok.mp hrun
    cases hpure
    obtain ⟨pixels', hslide, hpure⟩ := Exec.bind_eq_ok.mp hrun
    cases hpure
    exact ⟨pixels', hslide, rfl⟩
  refine ⟨_, hslide, fun y hy => ?_⟩
  have hcell := hcells 0 hpos 0 charsPerRow_pos 0 (by decide) y hy
  have hinputs : [List.replicate (k + 1) (0x0A : Byte)].flatten.map (input glyph) =
      List.replicate k .newline ++ [.newline] := by
    rw [List.flatten_singleton, List.map_replicate, List.replicate_succ']
    rfl
  have hlast : ¬ k + 1 < fb.charsPerCol := by omega
  rw [hinputs, Terminal.run_append, initialTerminal, Terminal.run_newlines hlt] at hcell
  change _ = some ((Terminal.newline fb.charsPerCol blank _).cell 0 0 0 y) at hcell
  rw [Terminal.newline, if_neg hlast, Nat.zero_mul, Nat.zero_mul, Nat.zero_add] at hcell
  exact hcell

/-- Only the pixel with the index `w` is not black. -/
def whitePixel (fb : Framebuffer) (w : Nat) : List Nat :=
  (List.replicate (fb.height * (fb.pitch / 4)) 0).set w 0xFFFFFF

theorem length_whitePixel {w : Nat} : (fb.whitePixel w).length = fb.height * (fb.pitch / 4) := by
  rw [whitePixel, List.length_set, List.length_replicate]

theorem whitePixel_self {w : Nat} (hw : w < fb.height * (fb.pitch / 4)) :
    (fb.whitePixel w)[w]? = some 0xFFFFFF := by
  rw [whitePixel, getElem?_set (by rwa [List.length_replicate]), if_pos rfl]

theorem whitePixel_of_ne {w j : Nat} (hw : w < fb.height * (fb.pitch / 4))
    (hj : j < fb.height * (fb.pitch / 4)) (hne : j ≠ w) : (fb.whitePixel w)[j]? = some 0 := by
  rw [whitePixel, getElem?_set (by rwa [List.length_replicate]), if_neg hne,
    List.getElem?_replicate_of_lt hj]

variable {w : Nat}

/-- The first row of text is above the pixels that are black. -/
theorem firstRow_le (hw : w < charPixelHeight * (fb.pitch / 4)) : w < fb.height * (fb.pitch / 4) :=
  Nat.lt_of_lt_of_le hw (Nat.mul_le_mul_right _ fb.height_ge)

theorem whitePixel_initial (hw : w < charPixelHeight * (fb.pitch / 4)) : Initial fb (fb.whitePixel w) := by
  refine ⟨length_whitePixel, fun y x hy hlt hx => ?_⟩
  refine whitePixel_of_ne (firstRow_le hw) (pixel_lt (width_le hx) hlt) (Nat.ne_of_gt ?_)
  have hrow : charPixelHeight ≤ y :=
    Nat.le_trans (Nat.le_mul_of_pos_left _ charsPerCol_pos) hy
  exact Nat.lt_of_lt_of_le hw (Nat.le_add_right_of_le (Nat.mul_le_mul_right _ hrow))

/-- A white pixel in the first row of text goes away with the row. -/
theorem FollowsTerminal.whitePixel (h : FollowsTerminal fb glyph)
    (hw : w < charPixelHeight * (fb.pitch / 4)) :
    ∃ pixels', fb.slideFramebuffer (fb.whitePixel w) = .ok pixels' ∧
      ∀ y < charPixelHeight, pixels'[y * (fb.pitch / 4)]? = some 0 := by
  obtain ⟨pixels', hslide, hcell⟩ := h.slide (whitePixel_initial hw)
  refine ⟨pixels', hslide, fun y hy => (hcell y hy).trans (congrArg some ?_)⟩
  split
  · rename_i hrows
    have hrow := row_lt hrows
    have hpos : 0 < fb.pitch / 4 := Nat.lt_of_lt_of_le (by decide) (Nat.le_trans fb.width_ge fb.pitch_ge)
    have hlt : (1 * charPixelHeight + y) * (fb.pitch / 4) + (0 * charPixelWidth + 0) <
        fb.height * (fb.pitch / 4) := by
      rw [Nat.zero_mul]
      exact pixel_lt hpos (by omega)
    have hne : (1 * charPixelHeight + y) * (fb.pitch / 4) + (0 * charPixelWidth + 0) ≠ w := by
      refine Nat.ne_of_gt (Nat.lt_of_lt_of_le hw (Nat.le_add_right_of_le (Nat.mul_le_mul_right _ ?_)))
      rw [Nat.one_mul]
      exact Nat.le_add_right ..
    rw [pictures, List.getD_eq_getElem?_getD, whitePixel_of_ne (firstRow_le hw) hlt hne]
    rfl
  · rfl

/-- The number of pixels to skip, which is too small. -/
theorem skip_le (hpitch : 2 ^ 28 ≤ fb.pitch / 4) :
    u32 (charPixelHeight * u32 (fb.pitch / 4)) ≤ 15 * (fb.pitch / 4) := by
  unfold u32 charPixelHeight
  omega

theorem lastPixelRow_lt (hpitch : 2 ^ 28 ≤ fb.pitch / 4) :
    15 * (fb.pitch / 4) < charPixelHeight * (fb.pitch / 4) := by
  unfold charPixelHeight
  omega

/-- Nothing is copied, and too little is cleared. -/
theorem slideFramebuffer_keeps (hpitch : 2 ^ 28 ≤ fb.pitch / 4)
    (hcopy : (fb.height - charPixelHeight) * u32 (fb.pitch / 4) = 0) :
    ∃ pixels', fb.slideFramebuffer (fb.whitePixel (15 * (fb.pitch / 4))) = .ok pixels' ∧
      pixels'[15 * (fb.pitch / 4)]? = some 0xFFFFFF := by
  have hskip := skip_le hpitch
  obtain ⟨pixels₁, pixels', hslide, h₁, h₂⟩ := slideFramebuffer_replaced
    (length_whitePixel : (fb.whitePixel (15 * (fb.pitch / 4))).length = _)
  rw [hcopy] at h₁ h₂
  refine ⟨pixels', hslide, ?_⟩
  rw [h₂.outside _ (.inr (by omega)), h₁.outside _ (.inr (by omega)),
    whitePixel_self (firstRow_le (lastPixelRow_lt hpitch))]

/-- The first pixel is copied from the wrong place. -/
theorem slideFramebuffer_moves (hpitch : 2 ^ 28 ≤ fb.pitch / 4)
    (hcopy : 0 < (fb.height - charPixelHeight) * u32 (fb.pitch / 4)) :
    ∃ pixels', fb.slideFramebuffer (fb.whitePixel (u32 (charPixelHeight * u32 (fb.pitch / 4)))) =
      .ok pixels' ∧ pixels'[0]? = some 0xFFFFFF := by
  have hw := Nat.lt_of_le_of_lt (skip_le hpitch) (lastPixelRow_lt hpitch)
  obtain ⟨pixels₁, pixels', hslide, h₁, h₂⟩ := slideFramebuffer_replaced
    (length_whitePixel : (fb.whitePixel (u32 (charPixelHeight * u32 (fb.pitch / 4)))).length = _)
  have hfirst := h₁.inside 0 hcopy
  rw [Nat.add_zero, Nat.add_zero, whitePixel_self (firstRow_le hw)] at hfirst
  exact ⟨pixels', hslide, (h₂.outside 0 (.inl hcopy)).trans hfirst⟩

theorem FollowsTerminal.pitch_lt (h : FollowsTerminal fb glyph) : fb.pitch / 4 < 2 ^ 28 := by
  by_contra hge
  have hpitch := Nat.le_of_not_lt hge
  -- In both cases a pixel of the first row of text is white that is to be black.
  obtain ⟨w, pixels', y, hw, hslide, hy, hwhite⟩ : ∃ w pixels' y, w < charPixelHeight * (fb.pitch / 4) ∧
      fb.slideFramebuffer (fb.whitePixel w) = .ok pixels' ∧ y < charPixelHeight ∧
      pixels'[y * (fb.pitch / 4)]? = some 0xFFFFFF := by
    rcases Nat.eq_zero_or_pos ((fb.height - charPixelHeight) * u32 (fb.pitch / 4)) with hcopy | hcopy
    · obtain ⟨pixels', hslide, hwhite⟩ := slideFramebuffer_keeps hpitch hcopy
      exact ⟨_, pixels', 15, lastPixelRow_lt hpitch, hslide, by decide, hwhite⟩
    · obtain ⟨pixels', hslide, hwhite⟩ := slideFramebuffer_moves hpitch hcopy
      exact ⟨_, pixels', 0, Nat.lt_of_le_of_lt (skip_le hpitch) (lastPixelRow_lt hpitch), hslide, by decide,
        by rwa [Nat.zero_mul]⟩
  obtain ⟨pixels'', hslide', hblack⟩ := h.whitePixel hw
  obtain rfl : pixels' = pixels'' := Except.ok.inj (hslide.symm.trans hslide')
  rw [hblack y hy] at hwhite
  cases hwhite

/-- The framebuffer is a terminal for rows of less than `2 ^ 28` pixels, and for no others. -/
theorem followsTerminal_iff (fb : Framebuffer) (glyph : Byte → Nat → Nat → Bool) :
    FollowsTerminal fb glyph ↔ fb.pitch / 4 < 2 ^ 28 :=
  ⟨FollowsTerminal.pitch_lt, followsTerminal_of_lt⟩

/-- One character, with rows of `2 ^ 28` pixels. -/
def wideRows : Framebuffer where
  width := 8
  height := 16
  pitch := 2 ^ 30
  width_ge := by decide
  height_ge := by decide
  pitch_ge := by decide
  fits := by decide

/-- A newline is to blank the only row of text, but nothing is cleared. -/
theorem wideRows_not_cleared : Initial wideRows (wideRows.whitePixel (15 * 2 ^ 28)) ∧
    ((wideRows.initialTerminal (wideRows.whitePixel (15 * 2 ^ 28))).run wideRows.charsPerCol
      wideRows.charsPerRow blank [.newline]).cell 0 0 0 15 = 0 ∧
    ∃ screen, wideRows.writes isPixelOn ⟨0, wideRows.whitePixel (15 * 2 ^ 28)⟩ [[0x0A]] = .ok screen ∧
      screen.pixels[15 * 2 ^ 28]? = some 0xFFFFFF := by
  have hpitch : 2 ^ 28 ≤ wideRows.pitch / 4 := by decide
  obtain ⟨pixels', hslide, hwhite⟩ := slideFramebuffer_keeps hpitch (by decide)
  refine ⟨whitePixel_initial (lastPixelRow_lt hpitch), rfl, ⟨0, pixels'⟩, ?_, hwhite⟩
  have hnewline : wideRows.writeChar isPixelOn ⟨0 * wideRows.charsPerRow, wideRows.whitePixel (15 * 2 ^ 28)⟩
      0x0A = wideRows.checkOverflow ⟨1 * wideRows.charsPerRow, wideRows.whitePixel (15 * 2 ^ 28)⟩ :=
    writeChar_newline
  rw [Nat.zero_mul, checkOverflow, if_pos (by decide)] at hnewline
  rw [Framebuffer.writes, List.foldlM_cons, write_singleton, hnewline]
  change ((wideRows.slideFramebuffer (wideRows.whitePixel (15 * (wideRows.pitch / 4))) >>= _) >>= _) = _
  rw [hslide]
  rfl

end Framebuffer

end TrazelOs
