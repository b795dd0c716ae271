import Laomb.Fshell.Console

/-! What `scroll_screen` makes of the picture, in the formats with three bytes for a pixel. The
rows are copied from the top down; of the last eight, only the first is cleared. -/
namespace Laomb.Fshell
open Word ForLoop

/-- Where the bytes of a pixel start. -/
def Framebuffer.place (fb : Framebuffer) (x y : Nat) : Nat := y * fb.pitch + x * (fb.bpp / 8)

/-- Three bytes as the color that they are in a format. -/
def Format.color (format : Format) (bytes : Nat → BitVec 8) : Nat :=
  if format = .bgr888 then (bytes 2).toNat * 2 ^ 16 + (bytes 1).toNat * 2 ^ 8 + (bytes 0).toNat
  else (bytes 0).toNat * 2 ^ 16 + (bytes 1).toNat * 2 ^ 8 + (bytes 2).toNat

/-- The color of a pixel. -/
def Screen.colorAt (fb : Framebuffer) (s : Screen) (x y : Nat) : Nat :=
  fb.format.color fun k => s.memory (fb.place x y + k)

/-- The background color as a pixel has it. -/
def Screen.background (s : Screen) : Nat := s.backgroundColor.toNat % 2 ^ 24

/-- A picture that can be scrolled, with three bytes for each pixel. -/
structure Framebuffer.Picture (fb : Framebuffer) : Prop extends fb.Addressed where
  tall : 8 < fb.height
  format : fb.format = .rgb888 ∨ fb.format = .bgr888

namespace Framebuffer.Addressed

variable {fb : Framebuffer} {x x' y y' k k' : Nat}

theorem radix_inj {n a a' r r' : Nat} (less : r < n) (less' : r' < n) (same : a * n + r = a' * n + r') :
    a = a' ∧ r = r' := by
  have quotient : ∀ a r, r < n → (a * n + r) / n = a := fun a r less => by
    rw [Nat.mul_comm, Nat.mul_add_div (Nat.zero_lt_of_lt less), Nat.div_eq_of_lt less, Nat.add_zero]
  have equal : a = a' := by rw [← quotient a r less, same, quotient a' r' less']
  subst equal
  exact ⟨rfl, Nat.add_left_cancel same⟩

/-- No two bytes of the picture are in the same place. -/
theorem place_inj (addressed : fb.Addressed) (column : x < fb.width) (column' : x' < fb.width) (small : k < 3)
    (small' : k' < 3) (same : fb.place x y + k = fb.place x' y' + k') : x = x' ∧ y = y' ∧ k = k' := by
  have three : 3 ≤ fb.bpp / 8 := by
    have bpp := addressed.bpp
    omega
  have line := (line_end column (fb.bpp / 8)).trans addressed.width_mul_le
  have line' := (line_end column' (fb.bpp / 8)).trans addressed.width_mul_le
  rw [Framebuffer.place, Framebuffer.place, Nat.add_assoc, Nat.add_assoc] at same
  obtain ⟨row, rest⟩ := radix_inj (by omega) (by omega) same
  obtain ⟨cell, byte⟩ := radix_inj (by omega) (by omega) rest
  exact ⟨cell, row, byte⟩

/-- Rows are counted without a carry, if there is a column at all. -/
theorem height_lt (addressed : fb.Addressed) (column : x < fb.width) : fb.height < 2 ^ 32 := by
  have line := (line_end column (fb.bpp / 8)).trans addressed.width_mul_le
  have one : 1 ≤ fb.pitch := by
    have bpp := addressed.bpp
    omega
  exact (Nat.le_mul_of_pos_left fb.height one).trans_lt addressed.size

end Framebuffer.Addressed

namespace Screen

variable {fb : Framebuffer} {s t : Screen} {x x' y y' n : Nat} {color : BitVec 32} {b : BitVec 8}

@[simp]
theorem poke_memory (n : Nat) (b : BitVec 8) (s : Screen) :
    (s.poke n b).memory = Function.update s.memory n b := rfl

@[simp]
theorem log_memory (e : Effect) (s : Screen) : (s.log e).memory = s.memory := rfl

@[simp]
theorem copyByte_memory (dest src : Nat) (s : Screen) :
    (s.copyByte dest src).memory = Function.update s.memory dest (s.memory src) := rfl

/-- Three bytes are written where a pixel is. -/
def paint (fb : Framebuffer) (x y : Nat) (bytes : Nat → BitVec 8) (memory : Nat → BitVec 8) :
    Nat → BitVec 8 :=
  Function.update (Function.update (Function.update memory (fb.place x y) (bytes 0))
    (fb.place x y + 1) (bytes 1)) (fb.place x y + 2) (bytes 2)

/-- A pixel is changed, and no other. -/
theorem paint_place (addressed : fb.Addressed) (column : x < fb.width) (column' : x' < fb.width)
    (bytes memory : Nat → BitVec 8) {k : Nat} (small : k < 3) :
    paint fb x y bytes memory (fb.place x' y' + k) =
      if x' = x ∧ y' = y then bytes k else memory (fb.place x' y' + k) := by
  split
  · rename_i same
    obtain ⟨rfl, rfl⟩ := same
    obtain rfl | rfl | rfl : k = 0 ∨ k = 1 ∨ k = 2 := by omega
    · rw [paint, Function.update_of_ne (by omega), Function.update_of_ne (by omega), Nat.add_zero,
        Function.update_self]
    · rw [paint, Function.update_of_ne (by omega), Function.update_self]
    · rw [paint, Function.update_self]
  · rename_i other
    have apart : ∀ j < 3, fb.place x' y' + k ≠ fb.place x y + j := fun j less same => by
      have both := addressed.place_inj column' column small less same
      exact other ⟨both.1, both.2.1⟩
    have first : fb.place x' y' + k ≠ fb.place x y := apart 0 (by omega)
    rw [paint, Function.update_of_ne (apart 2 (by omega)), Function.update_of_ne (apart 1 (by omega)),
      Function.update_of_ne first]

/-! ## One pixel -/

/-- The bytes that `set_pixel` stores. -/
def pixelBytes (format : Format) (color : BitVec 32) (k : Nat) : BitVec 8 :=
  if format = .bgr888 then channel color (8 * k) else channel color (16 - 8 * k)

theorem color_pixelBytes (format : Format) (color : BitVec 32) :
    format.color (pixelBytes format color) = color.toNat % 2 ^ 24 := by
  have byte : ∀ n, (channel color n).toNat = color.toNat / 2 ^ n % 2 ^ 8 := fun n => by
    rw [channel, BitVec.toNat_setWidth, BitVec.toNat_ushiftRight, Nat.shiftRight_eq_div_pow]
  unfold Format.color pixelBytes
  split
  · rw [byte, byte, byte]
    omega
  · rw [byte, byte, byte]
    omega

theorem setPixel_memory (picture : fb.Picture) (column : x < fb.width) (row : y < fb.height)
    (color : BitVec 32) (s : Screen) :
    (s.setPixel fb x y color).memory = paint fb x y (pixelBytes fb.format color) s.memory := by
  have first := pixel_byte picture.toAddressed column row (k := 0) (by omega)
  have second := pixel_byte picture.toAddressed column row (k := 1) (by omega)
  have third := pixel_byte picture.toAddressed column row (k := 2) (by omega)
  rw [Nat.add_zero] at first
  rcases picture.format with format | format
  · simp only [setPixel, format, first, second, third, poke_memory, log_memory]
    rfl
  · simp only [setPixel, format, first, second, third, poke_memory, log_memory]
    rfl

theorem scrollPixel_memory (addressed : fb.Addressed) (column : x < fb.width) (row : y + 8 < fb.height)
    (s : Screen) :
    (s.scrollPixel fb y x).memory = paint fb x y (fun k => s.memory (fb.place x (y + 8) + k)) s.memory := by
  have from_below : ∀ k < 3, u32 (fb.place x (y + 8) + k) = fb.place x (y + 8) + k := fun k small =>
    pixel_byte addressed column row small
  have here : ∀ k < 3, u32 (fb.place x y + k) = fb.place x y + k := fun k small =>
    pixel_byte addressed column (by omega) small
  have apart : ∀ j < 3, ∀ k < 3, fb.place x (y + 8) + k ≠ fb.place x y + j := fun j less k small same => by
    have rows := (addressed.place_inj column column small less same).2.1
    omega
  have source : u32 ((y + fontHeight) * fb.pitch + x * (fb.bpp / 8)) = fb.place x (y + 8) :=
    from_below 0 (by omega)
  have target : u32 (y * fb.pitch + x * (fb.bpp / 8)) = fb.place x y := here 0 (by omega)
  -- What is read has not been written before.
  have first : ∀ k < 3, fb.place x (y + 8) + k ≠ fb.place x y := apart 0 (by omega)
  simp only [scrollPixel, source, target, copyByte_memory, from_below 1 (by omega), from_below 2 (by omega),
    here 1 (by omega), here 2 (by omega), Function.update_of_ne (first 1 (by omega)),
    Function.update_of_ne (first 2 (by omega)), Function.update_of_ne (apart 1 (by omega) 2 (by omega))]
  rfl

/-! ## The colors -/

theorem colorAt_congr (same : t.memory = s.memory) : t.colorAt fb x y = s.colorAt fb x y := by
  unfold colorAt
  rw [same]

theorem colorAt_paint (addressed : fb.Addressed) (column : x < fb.width) (column' : x' < fb.width)
    {bytes : Nat → BitVec 8} (painted : t.memory = paint fb x y bytes s.memory) :
    t.colorAt fb x' y' = if x' = x ∧ y' = y then fb.format.color bytes else s.colorAt fb x' y' := by
  have byte : ∀ k < 3, t.memory (fb.place x' y' + k) =
      if x' = x ∧ y' = y then bytes k else s.memory (fb.place x' y' + k) := fun k small => by
    rw [painted]
    exact paint_place addressed column column' bytes s.memory small
  unfold colorAt Format.color
  dsimp only
  rw [byte 0 (by omega), byte 1 (by omega), byte 2 (by omega)]
  by_cases here : x' = x ∧ y' = y
  · simp only [if_pos here]
  · simp only [if_neg here]

theorem setPixel_colorAt (picture : fb.Picture) (column : x < fb.width) (row : y < fb.height)
    (column' : x' < fb.width) (color : BitVec 32) (s : Screen) (y' : Nat) :
    (s.setPixel fb x y color).colorAt fb x' y' =
      if x' = x ∧ y' = y then color.toNat % 2 ^ 24 else s.colorAt fb x' y' := by
  rw [colorAt_paint picture.toAddressed column column' (setPixel_memory picture column row color s),
    color_pixelBytes]

theorem scrollPixel_colorAt (addressed : fb.Addressed) (column : x < fb.width) (row : y + 8 < fb.height)
    (column' : x' < fb.width) (s : Screen) (y' : Nat) :
    (s.scrollPixel fb y x).colorAt fb x' y' =
      if x' = x ∧ y' = y then s.colorAt fb x (y + 8) else s.colorAt fb x' y' :=
  colorAt_paint addressed column column' (scrollPixel_memory addressed column row s)

theorem setPixel_backgroundColor (fb : Framebuffer) (x y : Nat) (color : BitVec 32) (s : Screen) :
    (s.setPixel fb x y color).backgroundColor = s.backgroundColor := by
  unfold setPixel
  cases fb.format with
  | invalid => rfl
  | rgb888 => rfl
  | bgr888 => rfl
  | rgbx8888 => rfl
  | xrgb8888 => rfl

/-! ## The loops -/

/-- The pixels of row `y` up to the `n`-th have new colors. -/
structure RowDone (fb : Framebuffer) (s : Screen) (y : Nat) (value : Nat → Nat) (n : Nat)
    (t : Screen) : Prop where
  colors : ∀ x' < fb.width, ∀ y', t.colorAt fb x' y' =
    if x' < n ∧ y' = y then value x' else s.colorAt fb x' y'
  background : t.backgroundColor = s.backgroundColor

/-- A loop over a row whose body changes one pixel. -/
theorem forRange_row {f : Nat → Screen → Screen} {value : Nat → Nat}
    (each : ∀ i < fb.width, ∀ t, RowDone fb s y value i t → ∀ x' < fb.width, ∀ y',
      (f i t).colorAt fb x' y' = if x' = i ∧ y' = y then value i else t.colorAt fb x' y')
    (kept : ∀ i t, (f i t).backgroundColor = t.backgroundColor) :
    RowDone fb s y value fb.width (forRange fb.width f s) := by
  refine forRange_rule (P := RowDone fb s y value) ?_ fun i less t done => ?_
  · refine ⟨fun x' column y' => ?_, rfl⟩
    rw [if_neg (by omega)]
  · refine ⟨fun x' column y' => ?_, (kept i t).trans done.background⟩
    rw [each i less t done x' column y', done.colors x' column y']
    by_cases here : x' = i ∧ y' = y
    · obtain ⟨rfl, rfl⟩ := here
      rw [if_pos ⟨rfl, rfl⟩, if_pos ⟨Nat.lt_succ_self x', rfl⟩]
    · have same : x' < i + 1 ∧ y' = y ↔ x' < i ∧ y' = y := by omega
      rw [if_neg here]
      simp only [same]

/-- The rows up to the `n`-th have the colors from eight rows below. -/
structure RowsMoved (fb : Framebuffer) (s : Screen) (n : Nat) (t : Screen) : Prop where
  colors : ∀ x' < fb.width, ∀ y', t.colorAt fb x' y' =
    if y' < n then s.colorAt fb x' (y' + 8) else s.colorAt fb x' y'
  background : t.backgroundColor = s.backgroundColor

theorem scrollRows_moved (addressed : fb.Addressed) (s : Screen) :
    RowsMoved fb s (fb.height - 8)
      (forRange (fb.height - 8) (fun y => forRange fb.width (scrollPixel fb y)) s) := by
  refine forRange_rule (P := RowsMoved fb s) ?_ fun y less t moved => ?_
  · refine ⟨fun x' column y' => ?_, rfl⟩
    rw [if_neg (by omega)]
  · have row : RowDone fb t y (fun x => t.colorAt fb x (y + 8)) fb.width
        (forRange fb.width (scrollPixel fb y) t) := by
      refine forRange_row (fun i inside u done x' column y' => ?_) fun _ _ => rfl
      rw [scrollPixel_colorAt addressed inside (by omega) column, done.colors i inside (y + 8),
        if_neg (show ¬ (i < i ∧ y + 8 = y) by omega)]
    refine ⟨fun x' column y' => ?_, row.background.trans moved.background⟩
    rw [row.colors x' column y', moved.colors x' column y', moved.colors x' column (y + 8)]
    by_cases here : y' = y
    · subst here
      rw [if_pos ⟨column, rfl⟩, if_neg (by omega), if_pos (Nat.lt_succ_self y')]
    · have same : y' < y + 1 ↔ y' < y := by omega
      rw [if_neg (fun both => here both.2)]
      simp only [same]

theorem scrollScreen_memory (fb : Framebuffer) (s : Screen) : (s.scrollScreen fb).memory =
    (forRange fb.width (fun x u => u.setPixel fb x (sub32 fb.height fontHeight) u.backgroundColor)
      (forRange (sub32 fb.height fontHeight) (fun y => forRange fb.width (scrollPixel fb y)) s)).memory := by
  have frame : ∀ (t : Screen) (cursorY : Nat), { t with cursorY := cursorY }.memory = t.memory :=
    fun _ _ => rfl
  exact frame _ _

/-- The picture afterwards. -/
theorem scrollScreen_colorAt (picture : fb.Picture) (s : Screen) (column : x < fb.width) (y : Nat) :
    (s.scrollScreen fb).colorAt fb x y =
      if y + 8 < fb.height then s.colorAt fb x (y + 8)
      else if y + 8 = fb.height then s.background
      else s.colorAt fb x y := by
  have tall := picture.tall
  have small := picture.toAddressed.height_lt column
  have last : sub32 fb.height fontHeight = fb.height - 8 := sub_small (by rw [fontHeight]; omega) (by omega)
  have moved := scrollRows_moved picture.toAddressed s
  rw [colorAt_congr (scrollScreen_memory fb s), last]
  generalize forRange (fb.height - 8) (fun y => forRange fb.width (scrollPixel fb y)) s = t at moved
  have cleared : RowDone fb t (fb.height - 8) (fun _ => t.background) fb.width
      (forRange fb.width (fun x u => u.setPixel fb x (fb.height - 8) u.backgroundColor) t) := by
    refine forRange_row (fun i inside u done x' column' y' => ?_) fun i u =>
      setPixel_backgroundColor fb _ _ _ u
    rw [setPixel_colorAt picture inside (by omega) column', done.background]
    rfl
  have background : t.background = s.background := congrArg (fun c => c.toNat % 2 ^ 24) moved.background
  rw [cleared.colors x column y, moved.colors x column y, background]
  by_cases bottom : y + 8 = fb.height
  · rw [if_pos ⟨column, by omega⟩, if_neg (by omega), if_pos bottom]
  · rw [if_neg (show ¬ (x < fb.width ∧ y = fb.height - 8) by omega), if_neg bottom]
    have same : y < fb.height - 8 ↔ y + 8 < fb.height := by omega
    simp only [same]

/-- The picture is shifted up by a line of text, and the last line has the background color. -/
def Scrolled (fb : Framebuffer) (s t : Screen) : Prop :=
  (∀ x < fb.width, ∀ y < fb.height - 8, t.colorAt fb x y = s.colorAt fb x (y + 8)) ∧
    ∀ x < fb.width, ∀ y < fb.height, fb.height - 8 ≤ y → t.colorAt fb x y = s.background

/-- That is so exactly if the last seven rows have had the background color before. -/
theorem scrollScreen_scrolled_iff (picture : fb.Picture) (s : Screen) : Scrolled fb s (s.scrollScreen fb) ↔
    ∀ x < fb.width, ∀ y < fb.height, fb.height - 7 ≤ y → s.colorAt fb x y = s.background := by
  have tall := picture.tall
  constructor
  · rintro ⟨_, cleared⟩ x column y row low
    have same := cleared x column y row (by omega)
    rwa [scrollScreen_colorAt picture s column, if_neg (by omega), if_neg (by omega)] at same
  · intro plain
    constructor
    · intro x column y row
      rw [scrollScreen_colorAt picture s column, if_pos (by omega)]
    · intro x column y row low
      rw [scrollScreen_colorAt picture s column, if_neg (by omega)]
      split
      · rfl
      · exact plain x column y row (by omega)

theorem smallScreen_picture : smallScreen.Picture where
  toAddressed := smallScreen_usable.toAddressed
  tall := by decide
  format := .inl rfl

/-- A screen with all pixels of one color, at the beginning of its last line. -/
def plainScreen (b : BitVec 8) : Screen := ⟨fun _ => b, 0, 16, 0xFFFFFF, 0, []⟩

/-- Pixels of all kinds in the first nine rows, and black ones below. -/
def writtenScreen : Screen := ⟨fun a => if a < 9 * 50 then BitVec.ofNat 8 a else 0, 0, 16, 0xFFFFFF, 0, []⟩

theorem writtenScreen_plain : ∀ x < smallScreen.width, ∀ y < smallScreen.height, smallScreen.height - 7 ≤ y →
    writtenScreen.colorAt smallScreen x y = writtenScreen.background := by
  decide +kernel

theorem scrollScreen_scrolled_written :
    Scrolled smallScreen writtenScreen (writtenScreen.scrollScreen smallScreen) ∧
      writtenScreen.colorAt smallScreen 3 8 ≠ writtenScreen.background :=
  ⟨(scrollScreen_scrolled_iff smallScreen_picture _).mpr writtenScreen_plain, by decide +kernel⟩

/-- The bottom row of a white screen stays white on a black background. -/
theorem scrollScreen_leaves :
    ¬ Scrolled smallScreen (plainScreen 0xFF) ((plainScreen 0xFF).scrollScreen smallScreen) := by
  rintro ⟨_, cleared⟩
  have bottom := cleared 0 (by decide) 15 (by decide) (by decide)
  rw [scrollScreen_colorAt smallScreen_picture _ (by decide), if_neg (by decide),
    if_neg (by decide)] at bottom
  revert bottom
  decide

end Screen
end Laomb.Fshell
