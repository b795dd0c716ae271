import Laomb.Fshell.Framebuffer

/-! The console draws on the screen and nowhere else: whatever is put, the cursor stays at a
cell, pixels are set inside the picture and memory is reached inside the buffer. -/
namespace Laomb.Fshell
open Word ForLoop

/-- Lines that hold their pixels, and no more memory than 32 bits can count. -/
structure Framebuffer.Addressed (fb : Framebuffer) : Prop where
  pitch : fb.width * fb.bpp / 8 ≤ fb.pitch
  bpp : 24 ≤ fb.bpp
  size : fb.pitch * fb.height < 2 ^ 32

/-- A geometry for the console, in whole cells. -/
structure Framebuffer.Usable (fb : Framebuffer) : Prop extends fb.Addressed where
  width_pos : 0 < fb.width
  width_cells : fb.width % 8 = 0
  height_pos : 0 < fb.height
  height_cells : fb.height % 8 = 0
  bpp32 : fb.format = .rgbx8888 ∨ fb.format = .xrgb8888 → 32 ≤ fb.bpp

/-- Pixels of the picture and bytes of the buffer. -/
def Effect.Inside (fb : Framebuffer) : Effect → Prop
  | setPixel x y => x < fb.width ∧ y < fb.height
  | access offset => offset < fb.pitch * fb.height
  | cursor _ _ => True

/-- The cursor has room for a character. -/
def Effect.Legible (fb : Framebuffer) : Effect → Prop
  | cursor x y => x + 8 ≤ fb.width ∧ y + 8 ≤ fb.height
  | _ => True

namespace Framebuffer.Addressed

variable {fb : Framebuffer} {x y k : Nat}

theorem width_mul_le (usable : fb.Addressed) : fb.width * (fb.bpp / 8) ≤ fb.pitch :=
  (Nat.mul_div_le_mul_div_assoc _ _ _).trans usable.pitch

/-- Where a line ends that has `n` bytes for each pixel. -/
theorem line_end (inside : x < fb.width) (n : Nat) : x * n + n ≤ fb.width * n := by
  rw [← Nat.succ_mul]
  exact Nat.mul_le_mul_right n inside

theorem offset_lt (usable : fb.Addressed) (column : x < fb.width) (row : y < fb.height) (small : k < 3) :
    y * fb.pitch + x * (fb.bpp / 8) + k < fb.pitch * fb.height := by
  have three : 3 ≤ fb.bpp / 8 := by
    have bpp := usable.bpp
    omega
  have line := (line_end column (fb.bpp / 8)).trans usable.width_mul_le
  have lines : y * fb.pitch + fb.pitch ≤ fb.height * fb.pitch := by
    rw [← Nat.succ_mul]
    exact Nat.mul_le_mul_right _ row
  rw [Nat.mul_comm fb.pitch]
  omega

end Framebuffer.Addressed

namespace Framebuffer.Usable

variable {fb : Framebuffer} {x y k : Nat}

theorem index_lt (usable : fb.Usable) (wide : 32 ≤ fb.bpp) (column : x < fb.width) (row : y < fb.height)
    (small : k < 4) :
    4 * (y * fb.width + x) + k < fb.pitch * fb.height := by
  have four : fb.width * 4 ≤ fb.pitch :=
    (Nat.mul_le_mul_left _ (by omega)).trans usable.width_mul_le
  have lines : (y * fb.width + fb.width) * 4 ≤ fb.height * fb.pitch := by
    rw [← Nat.succ_mul, Nat.mul_assoc]
    exact Nat.mul_le_mul row four
  rw [Nat.mul_comm fb.pitch]
  omega

/-- The cursor moves without a carry. -/
theorem small (usable : fb.Usable) : fb.width + 32 < 2 ^ 32 ∧ fb.height + 8 < 2 ^ 32 := by
  have width := usable.width_pos
  have cells := usable.height_cells
  have height := usable.height_pos
  have line : fb.width * 3 ≤ fb.pitch :=
    (Nat.mul_le_mul_left _ (by have bpp := usable.bpp; omega)).trans usable.width_mul_le
  have tall : fb.pitch * 8 ≤ fb.pitch * fb.height := Nat.mul_le_mul_left _ (by omega)
  have wide : 3 * fb.height ≤ fb.pitch * fb.height := Nat.mul_le_mul_right _ (by omega)
  have size := usable.size
  omega

end Framebuffer.Usable

namespace Screen

variable {fb : Framebuffer} {font8x8 : BitVec 8 → Nat → BitVec 8} {s t u : Screen} {x y n : Nat}
  {c b : BitVec 8} {color : BitVec 32}

/-! ## Drawing -/

/-- Nothing that is done on the way reaches out of the screen. -/
def Tame (fb : Framebuffer) (s t : Screen) : Prop :=
  ∀ e ∈ t.effects, e ∈ s.effects ∨ e.Inside fb ∧ e.Legible fb

theorem Tame.trans (first : Tame fb s t) (second : Tame fb t u) : Tame fb s u := by
  intro e member
  rcases second e member with old | new
  · exact first e old
  · exact .inr new

/-- Drawing leaves the cursor where it is. -/
structure Draws (fb : Framebuffer) (s t : Screen) : Prop where
  cursorX : t.cursorX = s.cursorX
  cursorY : t.cursorY = s.cursorY
  tame : Tame fb s t

namespace Draws

theorem refl (s : Screen) : Draws fb s s := ⟨rfl, rfl, fun _ old => .inl old⟩

theorem trans (first : Draws fb s t) (second : Draws fb t u) : Draws fb s u :=
  ⟨second.cursorX.trans first.cursorX, second.cursorY.trans first.cursorY, first.tame.trans second.tame⟩

/-- The rule for the loops that draw. -/
theorem forRange {f : Nat → Screen → Screen} (step : ∀ i < n, ∀ s, Draws fb s (f i s)) (s : Screen) :
    Draws fb s (forRange n f s) :=
  forRange_keeps (.refl s) fun i less _ draws => draws.trans (step i less _)

theorem log {e : Effect} (inside : e.Inside fb) (legible : e.Legible fb) (s : Screen) :
    Draws fb s (s.log e) := by
  refine ⟨rfl, rfl, fun e' member => ?_⟩
  rcases List.mem_append.mp member with old | new
  · exact .inl old
  · rw [List.mem_singleton.mp new]
    exact .inr ⟨inside, legible⟩

theorem poke (inside : n < fb.pitch * fb.height) (b : BitVec 8) (s : Screen) : Draws fb s (s.poke n b) :=
  let logged := Draws.log (e := .access n) inside trivial s
  ⟨rfl, rfl, logged.tame⟩

theorem copyByte {dest src : Nat} (written : dest < fb.pitch * fb.height) (read : src < fb.pitch * fb.height)
    (s : Screen) : Draws fb s (s.copyByte dest src) :=
  (Draws.log (e := .access src) read trivial s).trans (Draws.poke written _ _)

end Draws

/-- The offsets of a pixel's bytes are computed without a carry. -/
theorem pixel_byte (usable : fb.Addressed) (column : x < fb.width) (row : y < fb.height) {k : Nat}
    (small : k < 3) :
    u32 (y * fb.pitch + x * (fb.bpp / 8) + k) = y * fb.pitch + x * (fb.bpp / 8) + k := by
  have inside := usable.offset_lt column row small
  exact u32_of_lt (inside.trans usable.size)

theorem setPixel_draws (usable : fb.Usable) (column : x < fb.width) (row : y < fb.height)
    (color : BitVec 32) (s : Screen) : Draws fb s (s.setPixel fb x y color) := by
  have called : Draws fb s (s.log (.setPixel x y)) := by
    apply Draws.log
    · exact ⟨column, row⟩
    · trivial
  have byte : ∀ k < 3, ∀ b (s : Screen),
      Draws fb s (s.poke (u32 (y * fb.pitch + x * (fb.bpp / 8) + k)) b) := fun k small b s => by
    rw [pixel_byte usable.toAddressed column row small]
    exact .poke (usable.offset_lt column row small) b s
  have first : u32 (y * fb.pitch + x * (fb.bpp / 8)) = y * fb.pitch + x * (fb.bpp / 8) :=
    pixel_byte usable.toAddressed column row (k := 0) (by omega)
  have word : fb.format = .rgbx8888 ∨ fb.format = .xrgb8888 → ∀ s : Screen,
      let index := u32 (y * fb.width + x)
      Draws fb s ((((s.poke (4 * index) (channel color 0)).poke (4 * index + 1) (channel color 8)).poke
        (4 * index + 2) (channel color 16)).poke (4 * index + 3) (channel color 24)) := fun format s => by
    have byte : ∀ k < 4, 4 * (y * fb.width + x) + k < fb.pitch * fb.height := fun k small =>
      usable.index_lt (usable.bpp32 format) column row small
    have last := byte 3 (by omega)
    have size := usable.size
    dsimp only
    rw [u32_of_lt (by omega)]
    exact (((Draws.poke (byte 0 (by omega)) _ s).trans (.poke (byte 1 (by omega)) _ _)).trans
      (.poke (byte 2 (by omega)) _ _)).trans (.poke last _ _)
  unfold setPixel
  dsimp only
  rw [first]
  cases format : fb.format with
  | invalid => exact called
  | rgb888 =>
    refine ((called.trans ?_).trans (byte 1 (by omega) _ _)).trans (byte 2 (by omega) _ _)
    exact .poke (usable.offset_lt column row (k := 0) (by omega)) _ _
  | bgr888 =>
    refine ((called.trans ?_).trans (byte 1 (by omega) _ _)).trans (byte 2 (by omega) _ _)
    exact .poke (usable.offset_lt column row (k := 0) (by omega)) _ _
  | rgbx8888 => exact called.trans (word (.inl format) _)
  | xrgb8888 => exact called.trans (word (.inr format) _)

theorem drawChar_draws (font8x8 : BitVec 8 → Nat → BitVec 8) (usable : fb.Usable)
    (column : x + 8 ≤ fb.width) (row : y + 8 ≤ fb.height)
    (c : BitVec 8) (color : BitVec 32) (s : Screen) : Draws fb s (s.drawChar fb font8x8 x y c color) := by
  have small := usable.small
  unfold drawChar
  split
  · exact .refl s
  · refine .forRange (fun r less _ => .forRange (fun k within s => ?_) _) s
    rw [fontHeight] at less
    rw [fontWidth] at within
    dsimp only
    split
    · rw [u32_of_lt (by omega), u32_of_lt (by omega)]
      exact setPixel_draws usable (by omega) (by omega) color s
    · exact .refl s

theorem clearScreen_draws (usable : fb.Usable) (s : Screen) : Draws fb s (s.clearScreen fb) :=
  .forRange (fun _ row _ => .forRange (fun _ column s => setPixel_draws usable column row _ s) _) s

theorem scrollPixel_draws (usable : fb.Usable) (column : x < fb.width) (row : y + 8 < fb.height)
    (s : Screen) :
    Draws fb s (s.scrollPixel fb y x) := by
  have from_below :
      ∀ k < 3, u32 ((y + fontHeight) * fb.pitch + x * (fb.bpp / 8) + k) < fb.pitch * fb.height :=
    fun k small => by
    rw [pixel_byte usable.toAddressed column (y := y + fontHeight) row small]
    exact usable.offset_lt column row small
  have here : ∀ k < 3, u32 (y * fb.pitch + x * (fb.bpp / 8) + k) < fb.pitch * fb.height := fun k small => by
    rw [pixel_byte usable.toAddressed column (by omega) small]
    exact usable.offset_lt column (by omega) small
  have first := pixel_byte usable.toAddressed column (y := y + fontHeight) row (k := 0) (by omega)
  have second := pixel_byte usable.toAddressed column (y := y) (by omega) (k := 0) (by omega)
  rw [Nat.add_zero] at first second
  unfold scrollPixel
  dsimp only
  rw [first, second]
  refine (Draws.trans ?_ (.copyByte (here 1 (by omega)) (from_below 1 (by omega)) _)).trans
    (.copyByte (here 2 (by omega)) (from_below 2 (by omega)) _)
  exact .copyByte (usable.offset_lt column (by omega) (k := 0) (by omega))
    (usable.offset_lt column row (k := 0) (by omega)) s

/-! ## The cursor -/

/-- There is room for a character at the cursor. -/
structure Room (fb : Framebuffer) (s : Screen) : Prop where
  column : s.cursorX + 8 ≤ fb.width
  row : s.cursorY + 8 ≤ fb.height

/-- The cursor is at a cell of the screen. -/
structure AtCell (fb : Framebuffer) (s : Screen) : Prop extends Room fb s where
  column_cells : s.cursorX % 8 = 0
  row_cells : s.cursorY % 8 = 0

theorem Room.draws (room : Room fb s) (draws : Draws fb s t) : Room fb t :=
  ⟨draws.cursorX ▸ room.column, draws.cursorY ▸ room.row⟩

theorem AtCell.draws (cell : AtCell fb s) (draws : Draws fb s t) : AtCell fb t :=
  ⟨cell.toRoom.draws draws, draws.cursorX ▸ cell.column_cells, draws.cursorY ▸ cell.row_cells⟩

theorem sub_small {n k : Nat} (less : k ≤ n) (word : n < 2 ^ 32) : sub32 n k = n - k := by
  simp only [sub32, u32]
  omega

theorem moveRight_effects (fb : Framebuffer) (columns : Nat) (s : Screen) :
    (s.moveRight fb columns).effects = s.effects := by
  unfold Screen.moveRight
  dsimp only
  split
  · rfl
  · rfl

theorem scrollScreen_spec (usable : fb.Usable) (s : Screen) : Tame fb s (s.scrollScreen fb) ∧
    (s.scrollScreen fb).cursorX = s.cursorX ∧
    (s.scrollScreen fb).cursorY = sub32 s.cursorY 8 := by
  have small := usable.small
  have height : 8 ≤ fb.height := by
    have pos := usable.height_pos
    have cells := usable.height_cells
    omega
  have last : sub32 fb.height fontHeight = fb.height - 8 := sub_small height (by omega)
  have moved : Draws fb s (forRange (fb.height - 8) (fun y => forRange fb.width (scrollPixel fb y)) s) :=
    .forRange (fun y row _ => .forRange (fun x column s =>
      scrollPixel_draws usable column (by omega) s) _) s
  have cleared := moved.trans (.forRange (n := fb.width)
    (f := fun x s => s.setPixel fb x (fb.height - 8) s.backgroundColor)
    (fun x column s => setPixel_draws usable column (by omega) _ s) _)
  unfold scrollScreen
  rw [last]
  refine ⟨fun e member => cleared.tame e member, cleared.cursorX, ?_⟩
  dsimp only
  rw [cleared.cursorY, fontHeight]

/-- The line below the last is scrolled in. -/
theorem scrollAtBottom_spec (usable : fb.Usable) (s : Screen) : Tame fb s (s.scrollAtBottom fb) ∧
    (s.cursorX % 8 = 0 → s.cursorX + 8 ≤ fb.width → s.cursorY % 8 = 0 → s.cursorY ≤ fb.height →
      AtCell fb (s.scrollAtBottom fb)) := by
  have small := usable.small
  have cells := usable.height_cells
  have pos := usable.height_pos
  unfold scrollAtBottom
  split
  · obtain ⟨tame, x, y⟩ := scrollScreen_spec usable s
    refine ⟨tame, fun column_cells column row_cells row => ?_⟩
    rw [sub_small (by omega) (by omega)] at y
    exact ⟨⟨by omega, by omega⟩, by omega, by omega⟩
  · refine ⟨fun _ old => .inl old, fun column_cells column row_cells row => ?_⟩
    exact ⟨⟨column, by omega⟩, column_cells, row_cells⟩

/-- From a cell, the cursor comes to a cell or below the last line. -/
theorem AtCell.moveRight (cell : AtCell fb s) (usable : fb.Usable) (columns : Nat) (few : columns ≤ 4) :
    (s.moveRight fb columns).cursorX % 8 = 0 ∧ (s.moveRight fb columns).cursorX + 8 ≤ fb.width ∧
      (s.moveRight fb columns).cursorY % 8 = 0 ∧ (s.moveRight fb columns).cursorY ≤ fb.height := by
  have small := usable.small
  have width := usable.width_cells
  have height := usable.height_cells
  have pos := usable.width_pos
  obtain ⟨⟨column, row⟩, column_cells, row_cells⟩ := cell
  have x : u32 (s.cursorX + columns * fontWidth) = s.cursorX + columns * 8 :=
    u32_of_lt (by rw [fontWidth]; omega)
  have y : u32 (s.cursorY + fontHeight) = s.cursorY + 8 := u32_of_lt (by rw [fontHeight]; omega)
  unfold Screen.moveRight
  rw [x, y]
  dsimp only
  split
  · dsimp only
    omega
  · dsimp only
    omega

/-- Where `handle_backspace` puts the cursor. -/
theorem backspace_room (font8x8 : BitVec 8 → Nat → BitVec 8) (usable : fb.Usable)
    (room : Room fb s) : ∃ t : Screen,
    t.effects = s.effects ∧ Room fb t ∧ (AtCell fb s → AtCell fb t) ∧
      s.handleBackspace fb font8x8 = t.drawChar fb font8x8 t.cursorX t.cursorY 127 t.backgroundColor := by
  have small := usable.small
  have cells := usable.width_cells
  obtain ⟨column, row⟩ := room
  have back : sub32 fb.width fontWidth = fb.width - 8 := sub_small (by rw [fontWidth]; omega) (by omega)
  unfold handleBackspace
  rw [back, fontWidth, fontHeight]
  by_cases left : 8 ≤ s.cursorX
  · rw [if_pos left]
    refine ⟨{ s with cursorX := s.cursorX - 8 }, rfl, ⟨?_, row⟩, fun cell =>
      ⟨⟨?_, row⟩, ?_, cell.row_cells⟩, rfl⟩
    · exact (Nat.add_le_add_right (Nat.sub_le _ 8) 8).trans column
    · exact (Nat.add_le_add_right (Nat.sub_le _ 8) 8).trans column
    · have column_cells := cell.column_cells
      change (s.cursorX - 8) % 8 = 0
      omega
  · rw [if_neg left]
    by_cases up : 8 ≤ s.cursorY
    · rw [if_pos up]
      have right : fb.width - 8 + 8 ≤ fb.width := by omega
      have above : s.cursorY - 8 + 8 ≤ fb.height := by omega
      refine ⟨{ s with cursorY := s.cursorY - 8, cursorX := fb.width - 8 }, rfl, ⟨right, above⟩,
        fun cell => ⟨⟨right, above⟩, ?_, ?_⟩, rfl⟩
      · change (fb.width - 8) % 8 = 0
        omega
      · have row_cells := cell.row_cells
        change (s.cursorY - 8) % 8 = 0
        omega
    · rw [if_neg up]
      exact ⟨s, rfl, ⟨column, row⟩, id, rfl⟩

/-- What one character does before the cursor is looked at, from a place with room for one. -/
theorem putc_spec (font8x8 : BitVec 8 → Nat → BitVec 8) (usable : fb.Usable) (room : Room fb s)
    (c : BitVec 8) : ∃ t : Screen,
    s.putc fb font8x8 c = t.log (.cursor t.cursorX t.cursorY) ∧ Tame fb s t ∧
      (AtCell fb s → AtCell fb t) := by
  have small := usable.small
  have below : u32 (s.cursorY + fontHeight) = s.cursorY + 8 :=
    u32_of_lt (by have row := room.row; rw [fontHeight]; omega)
  unfold putc
  refine ⟨_, rfl, ?_⟩
  split
  · -- newline
    obtain ⟨tame, bottom⟩ :=
      scrollAtBottom_spec usable { s with cursorX := 0, cursorY := u32 (s.cursorY + fontHeight) }
    refine ⟨fun e member => tame e member, fun cell => bottom rfl ?_ ?_ ?_⟩
    · have column := room.column
      change 0 + 8 ≤ fb.width
      omega
    · have row_cells := cell.row_cells
      change u32 (s.cursorY + fontHeight) % 8 = 0
      omega
    · have row := room.row
      change u32 (s.cursorY + fontHeight) ≤ fb.height
      omega
  split
  · -- tab
    obtain ⟨tame, bottom⟩ := scrollAtBottom_spec usable (s.moveRight fb screenTabSize)
    refine ⟨fun e member => ?_, fun cell => ?_⟩
    · rw [← moveRight_effects fb screenTabSize s]
      exact tame e member
    · obtain ⟨column_cells, column, row_cells, row⟩ := cell.moveRight usable screenTabSize (Nat.le_refl 4)
      exact bottom column_cells column row_cells row
  split
  · obtain ⟨t, effects, room', cell, same⟩ := backspace_room font8x8 usable room
    have draws := drawChar_draws font8x8 usable room'.column room'.row 127 t.backgroundColor t
    rw [same]
    refine ⟨fun e member => ?_, fun at_cell => (cell at_cell).draws draws⟩
    rw [← effects]
    exact draws.tame e member
  · have draws := drawChar_draws font8x8 usable room.column room.row c s.foregroundColor s
    obtain ⟨tame, bottom⟩ := scrollAtBottom_spec usable
      ((s.drawChar fb font8x8 s.cursorX s.cursorY c s.foregroundColor).advanceCursor fb)
    refine ⟨draws.tame.trans fun e member => ?_, fun cell => ?_⟩
    · rw [← moveRight_effects fb 1]
      exact tame e member
    · obtain ⟨column_cells, column, row_cells, row⟩ := (cell.draws draws).moveRight usable 1 (by omega)
      exact bottom column_cells column row_cells row

/-! ## Runs -/

end Screen

/-- What is put on the console. -/
inductive Output where
  | putc (c : BitVec 8)
  | puts (str : List (BitVec 8))
  | cls
deriving DecidableEq, Repr

namespace Screen

variable {fb : Framebuffer} {font8x8 : BitVec 8 → Nat → BitVec 8} {s t : Screen} {outputs : List Output}

def exec (fb : Framebuffer) (font8x8 : BitVec 8 → Nat → BitVec 8) (s : Screen) : Output → Screen
  | .putc c => s.putc fb font8x8 c
  | .puts str => s.puts fb font8x8 str
  | .cls => s.cls fb

theorem AtCell.putc (cell : AtCell fb s) (usable : fb.Usable) (font8x8 : BitVec 8 → Nat → BitVec 8)
    (c : BitVec 8) :
    AtCell fb (s.putc fb font8x8 c) ∧ Tame fb s (s.putc fb font8x8 c) := by
  obtain ⟨t, same, tame, keeps⟩ := putc_spec font8x8 usable cell.toRoom c
  have cell' := keeps cell
  have logged : Draws fb t (t.log (.cursor t.cursorX t.cursorY)) := by
    apply Draws.log
    · trivial
    · exact ⟨cell'.column, cell'.row⟩
  rw [same]
  exact ⟨cell'.draws logged, tame.trans logged.tame⟩

/-- `cls` puts the cursor into the first cell, wherever it was. -/
theorem cls_spec (usable : fb.Usable) (s : Screen) : AtCell fb (s.cls fb) ∧ Tame fb s (s.cls fb) := by
  have draws := clearScreen_draws usable s
  have width := usable.width_cells
  have height := usable.height_cells
  have wide := usable.width_pos
  have tall := usable.height_pos
  refine ⟨⟨⟨?_, ?_⟩, rfl, rfl⟩, fun e member => draws.tame e member⟩
  · change 0 + 8 ≤ fb.width
    omega
  · change 0 + 8 ≤ fb.height
    omega

theorem AtCell.exec (cell : AtCell fb s) (usable : fb.Usable) (font8x8 : BitVec 8 → Nat → BitVec 8)
    (output : Output) :
    AtCell fb (s.exec fb font8x8 output) ∧ Tame fb s (s.exec fb font8x8 output) := by
  cases output with
  | putc c => exact cell.putc usable font8x8 c
  | puts str =>
    change AtCell fb ((str.takeWhile (· ≠ 0)).foldl _ s) ∧ Tame fb s ((str.takeWhile (· ≠ 0)).foldl _ s)
    induction str.takeWhile (· ≠ 0) generalizing s with
    | nil => exact ⟨cell, fun _ old => .inl old⟩
    | cons c str ih =>
      have first := cell.putc usable font8x8 c
      have rest := ih first.1
      exact ⟨rest.1, first.2.trans rest.2⟩
  | cls => exact cls_spec usable s

theorem AtCell.run (cell : AtCell fb s) (usable : fb.Usable) (font8x8 : BitVec 8 → Nat → BitVec 8)
    (outputs : List Output) :
    AtCell fb (outputs.foldl (Screen.exec fb font8x8) s) ∧
      Tame fb s (outputs.foldl (Screen.exec fb font8x8) s) := by
  induction outputs generalizing s with
  | nil => exact ⟨cell, fun _ old => .inl old⟩
  | cons output outputs ih =>
    have first := cell.exec usable font8x8 output
    have rest := ih first.1
    exact ⟨rest.1, first.2.trans rest.2⟩

/-- From the first cell on, whatever is put: all that is done is done on the screen, and every
character leaves the cursor where there is room for one more. -/
theorem run_onScreen (usable : fb.Usable) (font8x8 : BitVec 8 → Nat → BitVec 8) (column : s.cursorX = 0)
    (row : s.cursorY = 0) (nothing : s.effects = []) (outputs : List Output) :
    ∀ e ∈ (outputs.foldl (exec fb font8x8) s).effects, e.Inside fb ∧ e.Legible fb := by
  have wide := usable.width_pos
  have tall := usable.height_pos
  have width := usable.width_cells
  have height := usable.height_cells
  have cell : AtCell fb s := ⟨⟨by omega, by omega⟩, by omega, by omega⟩
  intro e member
  rcases (cell.run usable font8x8 outputs).2 e member with old | good
  · rw [nothing] at old
    cases old
  · exact good

/-- Two lines of two characters, each in a line of memory with some bytes to spare. -/
def smallScreen : Framebuffer := ⟨16, 16, 50, 24, .rgb888⟩

theorem smallScreen_usable : smallScreen.Usable where
  width_pos := by decide
  width_cells := by decide
  height_pos := by decide
  height_cells := by decide
  pitch := by decide
  bpp := by decide
  bpp32 := by decide
  size := by decide

theorem run_onScreen_small :
    ¬ ∃ e ∈ ([Output.puts [0x41, 0x0A, 0x42], .putc 0x09, .putc 0x7F, .cls].foldl
      (exec smallScreen fun _ _ => 0xFF) ⟨fun _ => 0, 0, 0, 0xFFFFFF, 0, []⟩).effects,
      ¬ (e.Inside smallScreen ∧ e.Legible smallScreen) := by
  rintro ⟨e, member, out⟩
  apply out
  exact run_onScreen smallScreen_usable _ rfl rfl rfl _ e member

end Screen
end Laomb.Fshell
