import Mathlib.Data.List.DropRight
import Laomb.Base.Steps
import Laomb.Fshell.Console
import Laomb.Fshell.Lines

/-! The cursor of `text_editor`. It is the editor's own, signed and bounded by nothing; each key
puts the one of the console where it is. -/
namespace Laomb.Fshell
open VFS Word Steps

/-- The locals of `text_editor`, on a screen. -/
structure Editor where
  screen : Screen
  cursorX : Int
  cursorY : Int
  buffer : List Byte
  bufferPos : Nat
  running : Bool

/-- A place on the screen with room for a character. -/
structure Framebuffer.OnScreen (fb : Framebuffer) (x y : Int) : Prop where
  left : 0 ≤ x
  right : x + 8 ≤ fb.width
  top : 0 ≤ y
  bottom : y + 8 ≤ fb.height

namespace Framebuffer.OnScreen

variable {fb : Framebuffer} {x y : Int}

theorem right_iff (on : fb.OnScreen x y) : fb.OnScreen (x + fontWidth) y ↔ x + 16 ≤ fb.width := by
  have left := on.left
  rw [fontWidth]
  constructor
  · intro moved
    have right := moved.right
    omega
  · intro room
    exact ⟨by omega, by omega, on.top, on.bottom⟩

theorem down_iff (on : fb.OnScreen x y) : fb.OnScreen x (y + fontHeight) ↔ y + 16 ≤ fb.height := by
  have top := on.top
  rw [fontHeight]
  constructor
  · intro moved
    have bottom := moved.bottom
    omega
  · intro room
    exact ⟨on.left, on.right, by omega, by omega⟩

theorem left_iff (on : fb.OnScreen x y) : fb.OnScreen (x - 1) y ↔ 0 < x := by
  have right := on.right
  constructor
  · intro moved
    have left := moved.left
    omega
  · intro room
    exact ⟨by omega, by omega, on.top, on.bottom⟩

theorem lineStart (on : fb.OnScreen x y) : fb.OnScreen 0 y := by
  have left := on.left
  have right := on.right
  exact ⟨by omega, by omega, on.top, on.bottom⟩

theorem up (on : fb.OnScreen x y) (some : 0 < y) : fb.OnScreen x (y - 1) := by
  have bottom := on.bottom
  exact ⟨on.left, on.right, by omega, by omega⟩

end Framebuffer.OnScreen

namespace Editor

variable (fb : Framebuffer) (font8x8 : BitVec 8 → Nat → BitVec 8)

/-- A byte of the file is shown. -/
def showByte (ed : Editor) (b : Byte) : Editor :=
  if b = 0x0A then
    { ed with screen := ed.screen.putc fb font8x8 b, cursorX := 0, cursorY := ed.cursorY + fontHeight }
  else { ed with screen := ed.screen.putc fb font8x8 b, cursorX := ed.cursorX + fontWidth }

def dashes : List (BitVec 8) := [0x20] ++ List.replicate 12 0x2D ++ [0x20]

/-- What is on the screen before the first key: the path and the file, which is at the front of
`buffer`. -/
def start (path : List (BitVec 8)) (buffer : List Byte) (fileSize : Nat) (s : Screen) : Editor :=
  let s := (((s.cls fb).puts fb font8x8 dashes).puts fb font8x8 path).puts fb font8x8 (dashes ++ [0x0A])
  (buffer.take fileSize).foldl (showByte fb font8x8) ⟨s, 0, 0, buffer, 0, true⟩

/-- The switch over a key. -/
def handle (ed : Editor) (key : Char) : Editor :=
  if key = 'w' then if 0 < ed.cursorY then { ed with cursorY := ed.cursorY - 1 } else ed
  else if key = 's' then { ed with cursorY := ed.cursorY + fontHeight }
  else if key = 'a' then if 0 < ed.cursorX then { ed with cursorX := ed.cursorX - 1 } else ed
  else if key = 'd' then { ed with cursorX := ed.cursorX + fontWidth }
  else if key = '\n' then
    if ed.bufferPos < editorSize - 1 then
      { ed with
        buffer := ed.buffer.set ed.bufferPos (BitVec.ofNat 8 '\n'.toNat)
        bufferPos := ed.bufferPos + 1
        cursorX := 0
        cursorY := ed.cursorY + fontHeight }
    else ed
  else if key = '\x7F' then
    if 0 < ed.bufferPos then
      { ed with
        buffer := ed.buffer.set (ed.bufferPos - 1) (BitVec.ofNat 8 ' '.toNat)
        bufferPos := ed.bufferPos - 1
        cursorX := ed.cursorX - 1 }
    else ed
  else if key = '\t' then ed -- the file is written, as far as `bufferPos`
  else if key = '\x1B' then { ed with running := false }
  else if ed.bufferPos < editorSize - 1 then
    { ed with
      buffer := ed.buffer.set ed.bufferPos (BitVec.ofNat 8 key.toNat)
      bufferPos := ed.bufferPos + 1
      cursorX := ed.cursorX + fontWidth
      screen := ed.screen.putc fb font8x8 (BitVec.ofNat 8 key.toNat) }
  else ed

/-- `set_cursor`, which takes the coordinates as unsigned. -/
def place (ed : Editor) : Editor :=
  { ed with screen := ed.screen.setCursor (ed.cursorX % 2 ^ 32).toNat (ed.cursorY % 2 ^ 32).toNat }

/-- One pass of the loop; there is none after the escape key. -/
def press (ed : Editor) (key : Char) : Editor :=
  if ed.running then (ed.handle fb font8x8 key).place else ed

/-- There is room for what the key does: a line below, a column to the right, or one to go back
to. Keys that move the cursor up or left look at the edge themselves. -/
def HasRoom (ed : Editor) (key : Char) : Prop :=
  if key = 'w' then True
  else if key = 's' then ed.cursorY + 16 ≤ fb.height
  else if key = 'a' then True
  else if key = 'd' then ed.cursorX + 16 ≤ fb.width
  else if key = '\n' then ed.bufferPos < editorSize - 1 → ed.cursorY + 16 ≤ fb.height
  else if key = '\x7f' then 0 < ed.bufferPos → 0 < ed.cursorX
  else if key = '\t' then True
  else if key = '\x1b' then True
  else ed.bufferPos < editorSize - 1 → ed.cursorX + 16 ≤ fb.width

variable {fb : Framebuffer} {font8x8 : BitVec 8 → Nat → BitVec 8} {ed ed' : Editor} {key : Char}

/-- Where a key takes the cursor, and what it has to have room for. -/
inductive Moves (fb : Framebuffer) (ed : Editor) (key : Char) : (x y : Int) → (room : Prop) → Prop
  | stays : Moves fb ed key ed.cursorX ed.cursorY True
  | up : 0 < ed.cursorY → Moves fb ed key ed.cursorX (ed.cursorY - 1) True
  | left : 0 < ed.cursorX → Moves fb ed key (ed.cursorX - 1) ed.cursorY True
  | down : Moves fb ed key ed.cursorX (ed.cursorY + fontHeight) (ed.cursorY + 16 ≤ fb.height)
  | right : Moves fb ed key (ed.cursorX + fontWidth) ed.cursorY (ed.cursorX + 16 ≤ fb.width)
  | newline : key = '\n' → Moves fb ed key 0 (ed.cursorY + fontHeight) (ed.cursorY + 16 ≤ fb.height)
  | back : 0 < ed.bufferPos → Moves fb ed key (ed.cursorX - 1) ed.cursorY (0 < ed.cursorX)

/-- The cases of the switch, said once. -/
theorem handle_moves (fb : Framebuffer) (font8x8 : BitVec 8 → Nat → BitVec 8) (ed : Editor) (key : Char) :
    ∃ room, Moves fb ed key (ed.handle fb font8x8 key).cursorX (ed.handle fb font8x8 key).cursorY room ∧
      (ed.HasRoom fb key ↔ room) := by
  unfold handle HasRoom
  by_cases up : key = 'w'
  · rw [if_pos up, if_pos up]
    refine ⟨True, ?_, Iff.rfl⟩
    split
    · exact .up (by assumption)
    · exact .stays
  rw [if_neg up, if_neg up]
  by_cases down : key = 's'
  · rw [if_pos down, if_pos down]
    exact ⟨_, .down, Iff.rfl⟩
  rw [if_neg down, if_neg down]
  by_cases left : key = 'a'
  · rw [if_pos left, if_pos left]
    refine ⟨True, ?_, Iff.rfl⟩
    split
    · exact .left (by assumption)
    · exact .stays
  rw [if_neg left, if_neg left]
  by_cases right : key = 'd'
  · rw [if_pos right, if_pos right]
    exact ⟨_, .right, Iff.rfl⟩
  rw [if_neg right, if_neg right]
  by_cases newline : key = '\n'
  · rw [if_pos newline, if_pos newline]
    split
    · exact ⟨_, .newline newline, imp_iff_right (by assumption)⟩
    · rename_i full
      exact ⟨_, .stays, iff_true_intro fun room => absurd room full⟩
  rw [if_neg newline, if_neg newline]
  by_cases delete : key = '\x7f'
  · rw [if_pos delete, if_pos delete]
    split
    · exact ⟨_, .back (by assumption), imp_iff_right (by assumption)⟩
    · rename_i empty
      exact ⟨_, .stays, iff_true_intro fun some => absurd some empty⟩
  rw [if_neg delete, if_neg delete]
  by_cases tab : key = '\t'
  · rw [if_pos tab, if_pos tab]
    exact ⟨_, .stays, Iff.rfl⟩
  rw [if_neg tab, if_neg tab]
  by_cases escape : key = '\x1b'
  · rw [if_pos escape, if_pos escape]
    exact ⟨_, .stays, Iff.rfl⟩
  rw [if_neg escape, if_neg escape]
  split
  · exact ⟨_, .right, imp_iff_right (by assumption)⟩
  · rename_i full
    exact ⟨_, .stays, iff_true_intro fun room => absurd room full⟩

/-- From the screen, a key takes the cursor to the screen exactly if there is room. -/
theorem handle_onScreen_iff (font8x8 : BitVec 8 → Nat → BitVec 8)
    (on : fb.OnScreen ed.cursorX ed.cursorY) (key : Char) :
    fb.OnScreen (ed.handle fb font8x8 key).cursorX (ed.handle fb font8x8 key).cursorY ↔
      ed.HasRoom fb key := by
  obtain ⟨room, moves, same⟩ := handle_moves fb font8x8 ed key
  rw [same]
  generalize (ed.handle fb font8x8 key).cursorX = x, (ed.handle fb font8x8 key).cursorY = y at moves ⊢
  cases moves with
  | stays => exact iff_true_intro on
  | up some => exact iff_true_intro (on.up some)
  | left some => exact iff_true_intro (on.left_iff.mpr some)
  | down => exact on.down_iff
  | right => exact on.right_iff
  | newline => exact on.lineStart.down_iff
  | back => exact on.left_iff

/-! ## The screen -/

/-- The screen stays as it is, or one character is put. -/
def Puts (fb : Framebuffer) (font8x8 : BitVec 8 → Nat → BitVec 8) (ed ed' : Editor) : Prop :=
  ed'.screen = ed.screen ∨ ∃ c, ed'.screen = ed.screen.putc fb font8x8 c

theorem Puts.ite {p : Prop} [Decidable p] {left right : Editor} (first : Puts fb font8x8 ed left)
    (second : Puts fb font8x8 ed right) : Puts fb font8x8 ed (if p then left else right) := by
  split
  · exact first
  · exact second

/-- Only a character that goes into the buffer is put. -/
theorem handle_puts (fb : Framebuffer) (font8x8 : BitVec 8 → Nat → BitVec 8) (ed : Editor) (key : Char) :
    Puts fb font8x8 ed (ed.handle fb font8x8 key) := by
  have kept : ∀ {ed' : Editor}, ed'.screen = ed.screen → Puts fb font8x8 ed ed' := .inl
  unfold handle
  refine .ite (.ite (kept rfl) (kept rfl)) (.ite (kept rfl) ?_)
  refine .ite (.ite (kept rfl) (kept rfl)) (.ite (kept rfl) ?_)
  refine .ite (.ite (kept rfl) (kept rfl)) (.ite (.ite (kept rfl) (kept rfl)) ?_)
  refine .ite (kept rfl) (.ite (kept rfl) (.ite ?_ (kept rfl)))
  exact .inr ⟨_, rfl⟩

theorem putc_inside {s : Screen} (usable : fb.Usable) (room : s.Room fb) (c : BitVec 8) :
    ∀ e ∈ (s.putc fb font8x8 c).effects, e ∈ s.effects ∨ e.Inside fb := by
  obtain ⟨t, same, tame, _⟩ := Screen.putc_spec font8x8 usable room c
  rw [same]
  intro e member
  rcases List.mem_append.mp member with old | new
  · exact (tame e old).imp_right And.left
  · rw [List.mem_singleton.mp new]
    exact .inr trivial

theorem handle_inside (usable : fb.Usable) (room : ed.screen.Room fb) (key : Char) :
    ∀ e ∈ (ed.handle fb font8x8 key).screen.effects, e ∈ ed.screen.effects ∨ e.Inside fb := by
  rcases handle_puts fb font8x8 ed key with same | ⟨c, put⟩
  · rw [same]
    exact fun e old => .inl old
  · rw [put]
    exact putc_inside usable room c

theorem place_room (usable : fb.Usable) (on : fb.OnScreen ed.cursorX ed.cursorY) :
    ed.place.screen.Room fb := by
  have small := usable.small
  obtain ⟨left, right, top, bottom⟩ := on
  constructor
  · change (ed.cursorX % 2 ^ 32).toNat + 8 ≤ fb.width
    omega
  · change (ed.cursorY % 2 ^ 32).toNat + 8 ≤ fb.height
    omega

/-! ## Before the first key -/

/-- What is behind the last newline. -/
def lastLine (file : List Byte) : List Byte := file.rtakeWhile (· ≠ 0x0A)

theorem showBytes_cursor (file : List Byte) (s : Screen) (buffer : List Byte) :
    (file.foldl (showByte fb font8x8) ⟨s, 0, 0, buffer, 0, true⟩).cursorX = 8 * (lastLine file).length ∧
      (file.foldl (showByte fb font8x8) ⟨s, 0, 0, buffer, 0, true⟩).cursorY = 8 * file.count 0x0A := by
  induction file using List.reverseRecOn with
  | nil => exact ⟨rfl, rfl⟩
  | append_singleton file b ih =>
    rw [List.foldl_concat]
    generalize file.foldl (showByte fb font8x8) ⟨s, 0, 0, buffer, 0, true⟩ = ed at ih
    obtain ⟨x, y⟩ := ih
    unfold showByte lastLine
    by_cases newline : b = 0x0A
    · rw [if_pos newline, List.rtakeWhile_concat_neg _ _ _ (by simpa using newline), newline,
        List.count_append,
        List.count_singleton_self, y]
      refine ⟨rfl, ?_⟩
      dsimp only
      rw [fontHeight]
      omega
    · have other : ¬ (b == 0x0A) = true := by simpa using newline
      rw [if_neg newline, List.rtakeWhile_concat_pos _ _ _ (by simpa using newline), List.count_append,
        List.count_singleton, if_neg other, List.length_append, List.length_singleton]
      change ed.cursorX + fontWidth = _ ∧ ed.cursorY = _
      rw [x, y, fontWidth, lastLine]
      exact ⟨by omega, by omega⟩

theorem showBytes_room {s : Screen} (usable : fb.Usable) (cell : s.AtCell fb) (x y : Int)
    (file buffer : List Byte) :
    (file.foldl (showByte fb font8x8) ⟨s, x, y, buffer, 0, true⟩).screen.AtCell fb := by
  induction file using List.reverseRecOn with
  | nil => exact cell
  | append_singleton file b ih =>
    rw [List.foldl_concat]
    unfold showByte
    split
    · exact (ih.putc usable font8x8 b).1
    · exact (ih.putc usable font8x8 b).1

theorem showBytes_running (s : Screen) (x y : Int) (file buffer : List Byte) :
    (file.foldl (showByte fb font8x8) ⟨s, x, y, buffer, 0, true⟩).running = true ∧
      (file.foldl (showByte fb font8x8) ⟨s, x, y, buffer, 0, true⟩).bufferPos = 0 := by
  induction file using List.reverseRecOn with
  | nil => exact ⟨rfl, rfl⟩
  | append_singleton file b ih =>
    rw [List.foldl_concat]
    unfold showByte
    split
    · exact ih
    · exact ih

theorem start_spec (font8x8 : BitVec 8 → Nat → BitVec 8) (usable : fb.Usable) (path : List (BitVec 8))
    (buffer : List Byte) (fileSize : Nat) (s : Screen) :
    (start fb font8x8 path buffer fileSize s).screen.AtCell fb ∧
      (start fb font8x8 path buffer fileSize s).cursorX = 8 * (lastLine (buffer.take fileSize)).length ∧
      (start fb font8x8 path buffer fileSize s).cursorY = 8 * (buffer.take fileSize).count 0x0A ∧
      (start fb font8x8 path buffer fileSize s).running = true ∧
      (start fb font8x8 path buffer fileSize s).bufferPos = 0 := by
  have cleared := (Screen.cls_spec usable s).1
  have first := (cleared.exec usable font8x8 (.puts dashes)).1
  have second := (first.exec usable font8x8 (.puts path)).1
  have third := (second.exec usable font8x8 (.puts (dashes ++ [0x0A]))).1
  exact ⟨showBytes_room usable third 0 0 _ buffer, (showBytes_cursor _ _ buffer).1,
    (showBytes_cursor _ _ buffer).2,
    showBytes_running _ 0 0 _ buffer⟩

/-! ## Runs -/

/-- The key leaves the cursor on the screen, and draws nothing beside it. -/
def StaysOn (fb : Framebuffer) (font8x8 : BitVec 8 → Nat → BitVec 8) (ed : Editor) (key : Char) : Prop :=
  fb.OnScreen (press fb font8x8 ed key).cursorX (press fb font8x8 ed key).cursorY ∧
    ∀ e ∈ (press fb font8x8 ed key).screen.effects, e ∈ ed.screen.effects ∨ e.Inside fb

theorem staysOn_iff (usable : fb.Usable) (room : ed.screen.Room fb) (running : ed.running = true) :
    StaysOn fb font8x8 ed key ↔
      fb.OnScreen (ed.handle fb font8x8 key).cursorX (ed.handle fb font8x8 key).cursorY := by
  unfold StaysOn press
  rw [if_pos running]
  exact and_iff_left (handle_inside usable room key)

/-- From the screen on, each key stays there exactly as long as each finds room. -/
theorem throughout_staysOn_iff (usable : fb.Usable) (on : fb.OnScreen ed.cursorX ed.cursorY)
    (room : ed.screen.Room fb) (keys : List Char) :
    Throughout (press fb font8x8) (StaysOn fb font8x8) ed keys ↔
      Throughout (press fb font8x8) (fun ed key => ed.running = true → ed.HasRoom fb key) ed keys := by
  refine throughout_iff (I := fun ed => fb.OnScreen ed.cursorX ed.cursorY ∧ ed.screen.Room fb) ?_ ?_
    ⟨on, room⟩
  · rintro ed ⟨on, room⟩ key _
    by_cases running : ed.running = true
    · rw [imp_iff_right running, ← handle_onScreen_iff font8x8 on key]
      exact staysOn_iff usable room running
    · have same : press fb font8x8 ed key = ed := if_neg running
      unfold StaysOn
      rw [same]
      exact iff_of_true ⟨on, fun e old => .inl old⟩ fun runs => absurd runs running
  · rintro ed ⟨on, room⟩ key _ finds
    unfold press
    split
    · rename_i running
      have on' := (handle_onScreen_iff font8x8 on key).mpr (finds running)
      exact ⟨on', place_room usable on'⟩
    · exact ⟨on, room⟩

/-- A cursor that is off the screen by a cell does not come back with any key but a newline. -/
theorem handle_offScreen (usable : fb.Usable) (off : ¬ fb.OnScreen ed.cursorX ed.cursorY)
    {column line : Nat} (x : ed.cursorX = 8 * column) (y : ed.cursorY = 8 * line) (empty : ed.bufferPos = 0)
    (other : key ≠ '\n') :
    ¬ fb.OnScreen (ed.handle fb font8x8 key).cursorX (ed.handle fb font8x8 key).cursorY := by
  have columns := usable.width_cells
  have lines := usable.height_cells
  have wide := usable.width_pos
  have high := usable.height_pos
  -- the cursor would have been there before a key that moves it by less than a cell
  have back : ∀ {x' y' : Int}, ed.cursorX ≤ x' + 1 → ed.cursorY ≤ y' + 1 → ¬ fb.OnScreen x' y' := by
    intro x' y' across down on
    obtain ⟨left, right, top, bottom⟩ := on
    exact off ⟨by omega, by omega, by omega, by omega⟩
  obtain ⟨room, moves, _⟩ := handle_moves fb font8x8 ed key
  generalize (ed.handle fb font8x8 key).cursorX = x', (ed.handle fb font8x8 key).cursorY = y' at moves ⊢
  cases moves with
  | stays => exact off
  | up => exact back (by omega) (by omega)
  | left => exact back (by omega) (by omega)
  | down => exact back (by omega) (by rw [fontHeight]; omega)
  | right => exact back (by rw [fontWidth]; omega) (by omega)
  | newline first => exact absurd first other
  | back some => omega

/-- A newline comes back to the start of a line. -/
theorem handle_newline_iff (font8x8 : BitVec 8 → Nat → BitVec 8) (usable : fb.Usable)
    (top : 0 ≤ ed.cursorY) (empty : ed.bufferPos = 0) :
    fb.OnScreen (ed.handle fb font8x8 '\n').cursorX (ed.handle fb font8x8 '\n').cursorY ↔
      ed.HasRoom fb '\n' := by
  have columns := usable.width_cells
  have wide := usable.width_pos
  have free : ed.bufferPos < editorSize - 1 := by
    rw [empty]
    decide
  have moved : ed.handle fb font8x8 '\n' = { ed with
      buffer := ed.buffer.set ed.bufferPos (BitVec.ofNat 8 '\n'.toNat)
      bufferPos := ed.bufferPos + 1
      cursorX := 0
      cursorY := ed.cursorY + fontHeight } := if_pos free
  have room : ed.HasRoom fb '\n' ↔ (ed.bufferPos < editorSize - 1 → ed.cursorY + 16 ≤ fb.height) := Iff.rfl
  rw [moved, room, imp_iff_right free]
  constructor
  · rintro ⟨_, _, _, bottom⟩
    dsimp only [fontHeight] at bottom
    omega
  · intro below
    refine ⟨Int.le_refl 0, ?_, ?_, ?_⟩ <;> dsimp only [fontHeight] <;> omega

/-- What has been shown of the file ends on the screen. -/
def Shown (fb : Framebuffer) (file : List Byte) : Prop :=
  8 * (lastLine file).length + 8 ≤ fb.width ∧ 8 * file.count 0x0A + 8 ≤ fb.height

/-- Each key leaves the cursor on the screen, and draws nothing beside it, exactly as long as each
finds room for what it does and the first starts from the screen or comes back to it. -/
theorem run_onScreen_iff (usable : fb.Usable) (path : List (BitVec 8)) (buffer : List Byte) (fileSize : Nat)
    (s : Screen) (keys : List Char) :
    Throughout (press fb font8x8) (StaysOn fb font8x8) (start fb font8x8 path buffer fileSize s) keys ↔
      (keys = [] ∨ Shown fb (buffer.take fileSize) ∨ keys.head? = some '\n') ∧
        Throughout (press fb font8x8) (fun ed key => ed.running = true → ed.HasRoom fb key)
          (start fb font8x8 path buffer fileSize s) keys := by
  obtain ⟨cell, x, y, running, empty⟩ := start_spec font8x8 usable path buffer fileSize s
  have shown : fb.OnScreen (start fb font8x8 path buffer fileSize s).cursorX
      (start fb font8x8 path buffer fileSize s).cursorY ↔ Shown fb (buffer.take fileSize) := by
    constructor
    · rintro ⟨_, right, _, bottom⟩
      exact ⟨by omega, by omega⟩
    · rintro ⟨right, bottom⟩
      exact ⟨by omega, by omega, by omega, by omega⟩
  generalize start fb font8x8 path buffer fileSize s = ed at *
  cases keys with
  | nil => exact iff_of_true trivial ⟨.inl rfl, trivial⟩
  | cons key rest =>
    by_cases on : fb.OnScreen ed.cursorX ed.cursorY
    · rw [throughout_staysOn_iff usable on cell.toRoom, and_iff_right (.inr (.inl (shown.mp on)))]
    · rw [throughout_cons, throughout_cons, staysOn_iff usable cell.toRoom running, imp_iff_right running]
      by_cases newline : key = '\n'
      · subst newline
        have begins : '\n' :: rest = [] ∨ Shown fb (buffer.take fileSize) ∨ ('\n' :: rest).head? =
            some '\n' :=
          .inr (.inr rfl)
        have back := handle_newline_iff font8x8 usable (by omega) empty
        rw [and_iff_right begins, ← back]
        refine and_congr_right fun on' => ?_
        have moved : press fb font8x8 ed '\n' = (ed.handle fb font8x8 '\n').place := if_pos running
        have placed : fb.OnScreen (ed.handle fb font8x8 '\n').place.cursorX
            (ed.handle fb font8x8 '\n').place.cursorY :=
          on'
        rw [moved]
        exact throughout_staysOn_iff usable placed (place_room usable on') rest
      · refine iff_of_false (fun both => handle_offScreen usable on x y empty newline both.1) ?_
        rintro ⟨none_pressed | fits | first, _⟩
        · exact List.cons_ne_nil key rest none_pressed
        · exact on (shown.mpr fits)
        · exact newline (Option.some.inj first)

/-- The buffer is the one that the editor has without its screen, for every key but the escape
key, which it is not asked about. -/
theorem handle_editKey {env : Env} {handle : Addr} {sh sh' : Shell} {buffer : List Byte} {bufferPos : Nat}
    (other : key ≠ '\x1b')
    (done : sh.editKey env handle ed.buffer ed.bufferPos key = .ok (sh', buffer, bufferPos)) :
    buffer = (ed.handle fb font8x8 key).buffer ∧ bufferPos = (ed.handle fb font8x8 key).bufferPos := by
  unfold Shell.editKey at done
  unfold Editor.handle
  by_cases moves : key = 'w' ∨ key = 's' ∨ key = 'a' ∨ key = 'd'
  · rw [if_pos moves] at done
    cases done
    rcases moves with rfl | rfl | rfl | rfl
    · rw [if_pos rfl]
      split
      · exact ⟨rfl, rfl⟩
      · exact ⟨rfl, rfl⟩
    · rw [if_neg (by decide), if_pos rfl]
      exact ⟨rfl, rfl⟩
    · rw [if_neg (by decide), if_neg (by decide), if_pos rfl]
      split
      · exact ⟨rfl, rfl⟩
      · exact ⟨rfl, rfl⟩
    · rw [if_neg (by decide), if_neg (by decide), if_neg (by decide), if_pos rfl]
      exact ⟨rfl, rfl⟩
  · rw [if_neg moves] at done
    obtain ⟨up, down, left, right⟩ : key ≠ 'w' ∧ key ≠ 's' ∧ key ≠ 'a' ∧ key ≠ 'd' := by tauto
    rw [if_neg up, if_neg down, if_neg left, if_neg right]
    by_cases newline : key = '\n'
    · subst newline
      rw [if_neg (by decide), if_neg (by decide)] at done
      rw [if_pos rfl]
      split at done
      · rw [if_pos (by assumption)]
        cases done
        exact ⟨rfl, rfl⟩
      · rw [if_neg (by assumption)]
        cases done
        exact ⟨rfl, rfl⟩
    rw [if_neg newline]
    by_cases delete : key = '\x7f'
    · rw [if_pos delete] at done ⊢
      split at done
      · rw [if_pos (by assumption)]
        cases done
        exact ⟨rfl, rfl⟩
      · rw [if_neg (by assumption)]
        cases done
        exact ⟨rfl, rfl⟩
    rw [if_neg delete] at done ⊢
    by_cases tab : key = '\t'
    · rw [if_pos tab] at done ⊢
      cases written : sh.vfs.write handle 0 ed.bufferPos ed.buffer (env.junk 0) with
      | error e =>
        rw [written] at done
        cases done
      | ok result =>
        rw [written] at done
        cases done
        exact ⟨rfl, rfl⟩
    rw [if_neg tab] at done
    rw [if_neg tab, if_neg other]
    split at done
    · rw [if_pos (by assumption)]
      cases done
      exact ⟨rfl, rfl⟩
    · rw [if_neg (by assumption)]
      cases done
      exact ⟨rfl, rfl⟩

/-- An empty file on a screen of two lines and two columns. -/
def emptyFile : Editor :=
  start Screen.smallScreen (fun _ _ => 0xFF) [] [] 0 ⟨fun _ => 0, 0, 0, 0xFFFFFF, 0, []⟩

/-- A newline and two keys in the line that it starts. -/
theorem run_onScreen_empty :
    Throughout (press Screen.smallScreen fun _ _ => 0xFF) (StaysOn Screen.smallScreen fun _ _ => 0xFF)
        emptyFile ['\n', 'x', '\x7f'] ↔
      (['\n', 'x', '\x7f'] = [] ∨ Shown Screen.smallScreen [] ∨ ['\n', 'x', '\x7f'].head? = some '\n') ∧
        Throughout (press Screen.smallScreen fun _ _ => 0xFF)
          (fun ed key => ed.running = true → ed.HasRoom Screen.smallScreen key) emptyFile
            ['\n', 'x', '\x7f'] :=
  run_onScreen_iff Screen.smallScreen_usable [] [] 0 _ _

/-- Going back from the start of the second line takes the cursor a column left of the screen,
and `set_cursor` far to the right of it. -/
theorem backspace_leaves :
    ¬ Throughout (press Screen.smallScreen fun _ _ => 0xFF) (StaysOn Screen.smallScreen fun _ _ => 0xFF)
        emptyFile ['\n', '\x7f'] ∧
      (['\n', '\x7f'].foldl (press Screen.smallScreen fun _ _ => 0xFF) emptyFile).screen.cursorX =
        4294967295 := by
  have column :
      (['\n', '\x7f'].foldl (press Screen.smallScreen fun _ _ => 0xFF) emptyFile).cursorX = -1 := rfl
  refine ⟨?_, rfl⟩
  rintro ⟨_, ⟨out, _⟩, _⟩
  have left : 0 ≤
      (['\n', '\x7f'].foldl (press Screen.smallScreen fun _ _ => 0xFF) emptyFile).cursorX := out.left
  rw [column] at left
  omega

end Editor

end Laomb.Fshell
