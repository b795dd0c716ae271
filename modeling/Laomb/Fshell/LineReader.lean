import Mathlib.Data.List.DropRight
import Mathlib.Data.List.Induction
import Laomb.Base.Terminated
import Laomb.Fshell.Lines

/-! The loop of `fshell_callback` that puts a line together. The line has 512 bytes and its
first word 64, and only the first bound is looked at. -/
namespace Laomb.Fshell
open VFS Terminated

/-- A character that `getchar_locking` returns, and what a command that it starts leaves of the
line, in which `args` points. -/
structure Stroke where
  key : Char
  left : Int → Char

/-- `buffer` and `index`, which is signed; `buffer` goes on at both ends. -/
structure LineReader where
  buffer : Int → Char
  index : Int

namespace LineReader

variable {s : LineReader} {stroke : Stroke} {strokes : List Stroke} {text : CString}

/-- The string at `buffer + start`. -/
def string (buffer : Int → Char) (start : Int) : CString :=
  stringOf '\x00' (fun k => buffer (start + k)) bufferSize

/-- `buffer[index] = '\0'`. -/
def terminated (s : LineReader) : Int → Char := Function.update s.buffer s.index '\x00'

/-- The line that a newline ends. -/
def line (s : LineReader) : CString := string s.terminated 0

/-- The string that is copied into `command`, and `args`. -/
def splitLine (s : LineReader) : CString × Option CString :=
  match s.line.findIdx? (· = ' ') with
  | none => (s.line, none)
  | some space =>
    let buffer := Function.update s.terminated space '\x00'
    (string buffer 0, some (string buffer (space + 1)))

/-- What one character does; `'\xff'` is `-1` there. -/
def press (s : LineReader) (stroke : Stroke) : LineReader :=
  if stroke.key = '\xff' then s
  else if stroke.key = '\n' then ⟨stroke.left, 0⟩
  else if stroke.key = '\x7F' then
    if s.index ≤ 0 then s else ⟨Function.update s.buffer (s.index - 1) '\x00', s.index - 1⟩
  else if s.index < bufferSize - 1 then ⟨Function.update s.buffer s.index stroke.key, s.index + 1⟩
  else s

/-! ## What has been typed -/

/-- The line after one more edit. -/
def edit (text : CString) (stroke : Stroke) : CString :=
  if stroke.key = '\xff' then text
  else if stroke.key = '\n' then []
  else if stroke.key = '\x7F' then text.dropLast
  else if text.length < 511 then text ++ [stroke.key]
  else text

/-- The edits since the last newline, one after another. -/
def typed (strokes : List Stroke) : CString := strokes.foldl edit []

/-- The reader has this line so far. -/
structure Reads (s : LineReader) (text : CString) : Prop where
  index : s.index = text.length
  short : text.length ≤ 511
  holds : ∀ i (h : i < text.length), s.buffer i = text[i]
  nonzero : ∀ c ∈ text, c ≠ '\x00'

theorem start_reads (buffer : Int → Char) : Reads ⟨buffer, 0⟩ [] :=
  ⟨rfl, Nat.zero_le _, fun i inside => absurd inside (Nat.not_lt_zero i), fun c member => by cases member⟩

theorem Reads.erase {c : Char} (reads : Reads s (text ++ [c])) :
    Reads ⟨Function.update s.buffer (s.index - 1) '\x00', s.index - 1⟩ text := by
  have index := reads.index
  have short := reads.short
  rw [List.length_append, List.length_singleton] at index short
  constructor
  · dsimp only
    omega
  · omega
  · intro i inside
    have before : (i : Int) ≠ s.index - 1 := by omega
    have same := reads.holds i (by rw [List.length_append, List.length_singleton]; omega)
    dsimp only
    rw [Function.update_of_ne before, same, List.getElem_append_left inside]
  · exact fun d member => reads.nonzero d (List.mem_append_left _ member)

theorem Reads.insert {c : Char} (reads : Reads s text) (room : text.length < 511) (nonzero : c ≠ '\x00') :
    Reads ⟨Function.update s.buffer s.index c, s.index + 1⟩ (text ++ [c]) := by
  have index := reads.index
  constructor
  · rw [List.length_append, List.length_singleton]
    dsimp only
    omega
  · rw [List.length_append, List.length_singleton]
    omega
  · intro i inside
    rw [List.length_append, List.length_singleton] at inside
    dsimp only
    by_cases last : i = text.length
    · subst last
      rw [index, Function.update_self, List.getElem_concat_length rfl]
    · have before : (i : Int) ≠ s.index := by omega
      rw [Function.update_of_ne before, reads.holds i (by omega), List.getElem_append_left]
  · intro d member
    rcases List.mem_append.mp member with old | new
    · exact reads.nonzero d old
    · rw [List.mem_singleton.mp new]
      exact nonzero

/-- One character edits the line. -/
theorem Reads.press (reads : Reads s text) (nonzero : stroke.key ≠ '\x00') :
    Reads (s.press stroke) (edit text stroke) := by
  have index := reads.index
  unfold LineReader.press edit
  split
  · exact reads
  split
  · exact start_reads stroke.left
  split
  · cases text using List.reverseRecOn with
    | nil =>
      rw [if_pos (show s.index ≤ 0 from Int.le_of_eq index)]
      exact reads
    | append_singleton text c =>
      rw [List.length_append, List.length_singleton] at index
      rw [if_neg (by omega), List.dropLast_concat]
      exact reads.erase
  · by_cases room : text.length < 511
    · rw [if_pos (by rw [index, bufferSize]; omega), if_pos room]
      exact reads.insert room nonzero
    · rw [if_neg (by rw [index, bufferSize]; omega), if_neg room]
      exact reads

theorem run_typed (buffer : Int → Char) (nonzero : ∀ stroke ∈ strokes, stroke.key ≠ '\x00') :
    Reads (strokes.foldl press ⟨buffer, 0⟩) (typed strokes) := by
  induction strokes using List.reverseRecOn with
  | nil => exact start_reads buffer
  | append_singleton strokes stroke ih =>
    rw [typed, List.foldl_concat, List.foldl_concat]
    exact (ih fun stroke member => nonzero stroke (List.mem_append_left _ member)).press
      (nonzero stroke (List.mem_append_right _ List.mem_cons_self))

/-! ## The newline -/

theorem Reads.terminated (reads : Reads s text) :
    Terminated.Holds '\x00' (fun k => s.terminated (0 + k)) text := by
  constructor
  · intro i inside
    have before : (0 + i : Int) ≠ s.index := by
      rw [reads.index]
      omega
    rw [LineReader.terminated, Function.update_of_ne before, Int.zero_add, reads.holds i inside]
  · exact reads.nonzero
  · rw [LineReader.terminated, Int.zero_add, ← reads.index, Function.update_self]

theorem Reads.room (reads : Reads s text) : text.length < bufferSize := by
  have short := reads.short
  rw [bufferSize]
  omega

theorem Reads.line (reads : Reads s text) : s.line = text :=
  reads.terminated.stringOf_eq reads.room

theorem findIdx?_space {front rest : CString} (plain : ∀ c ∈ front, c ≠ ' ') :
    (front ++ ' ' :: rest).findIdx? (· = ' ') = some front.length := by
  have none : front.findIdx? (· = ' ') = none := by
    rw [List.findIdx?_eq_none_iff]
    exact fun c member => decide_eq_false (plain c member)
  rw [List.findIdx?_append, none, List.findIdx?_cons]
  simp

/-- The line is split as the command gets it. -/
theorem Reads.splitLine (reads : Reads s text) (env : Env) (keys : List Char) :
    s.splitLine = ((⟨text, env, keys⟩ : Line).command, (⟨text, env, keys⟩ : Line).args) := by
  have whole := List.takeWhile_append_dropWhile (p := (· ≠ ' ')) (l := text)
  have plain : ∀ c ∈ text.takeWhile (· ≠ ' '), c ≠ ' ' := fun c member => by
    simpa using List.mem_takeWhile_imp member
  unfold LineReader.splitLine Line.command Line.args
  simp only [reads.line]
  generalize text.takeWhile (· ≠ ' ') = front at whole plain
  cases split : text.dropWhile (· ≠ ' ') with
  | nil =>
    rw [split, List.append_nil] at whole
    have none : text.findIdx? (· = ' ') = none := by
      rw [← whole, List.findIdx?_eq_none_iff]
      exact fun c member => decide_eq_false (plain c member)
    rw [none, whole]
  | cons c rest =>
    have space : c = ' ' := by
      have head := List.head?_dropWhile_not (fun c : Char => decide (c ≠ ' ')) text
      rw [split] at head
      simpa using head
    rw [split, space] at whole
    subst whole
    have room := reads.room
    rw [List.length_append, List.length_cons] at room
    rw [findIdx?_space plain]
    have first : Terminated.Holds '\x00'
        (fun k => Function.update s.terminated front.length '\x00' (0 + k)) front := by
      refine reads.terminated.front (fun i inside => ?_) ?_
      · have before : (0 + i : Int) ≠ front.length := by omega
        exact Function.update_of_ne before _ _
      · rw [Int.zero_add, Function.update_self]
    have second : Terminated.Holds '\x00'
        (fun k => Function.update s.terminated front.length '\x00' (front.length + 1 + k)) rest := by
      refine reads.terminated.back fun i _ => ?_
      have past : (front.length + 1 + i : Int) ≠ front.length := by omega
      have place : (0 + (front.length + 1 + i : Nat) : Int) = front.length + 1 + i := by omega
      rw [place]
      exact Function.update_of_ne past _ _
    dsimp only
    rw [string, string, first.stringOf_eq (by omega), second.stringOf_eq (by omega)]

/-- The reader after some characters; the line holds anything when the loop starts. -/
def run (buffer : Int → Char) (strokes : List Stroke) : LineReader := strokes.foldl press ⟨buffer, 0⟩

/-- What is copied into `command`, up to the terminator. -/
theorem Reads.copied (reads : Reads s text) : s.splitLine.1 = text.takeWhile (· ≠ ' ') := by
  have split := reads.splitLine ⟨0, fun _ _ => 0, fun _ => 0⟩ []
  rw [split]
  rfl

/-- `index` never leaves the line and each newline ends the line that has been typed, and the
first word fits into `command` with its terminator, exactly if no line is ended whose first
word has more than 63 characters. -/
theorem run_bounded_iff (buffer : Int → Char) (nonzero : ∀ stroke ∈ strokes, stroke.key ≠ '\x00') :
    ((∀ before, before <+: strokes → 0 ≤ (run buffer before).index ∧ (run buffer before).index ≤ 511) ∧
      ∀ before stroke, before ++ [stroke] <+: strokes → stroke.key = '\n' →
        (run buffer before).line = typed before ∧ (run buffer before).splitLine.1.length + 1 ≤ 64) ↔
      ∀ before stroke, before ++ [stroke] <+: strokes → stroke.key = '\n' →
        ((typed before).takeWhile (· ≠ ' ')).length ≤ 63 := by
  have reads : ∀ before, before <+: strokes → Reads (run buffer before) (typed before) := fun before front =>
    run_typed buffer fun stroke member => nonzero stroke (front.subset member)
  have shorter : ∀ {before : List Stroke} {stroke}, before ++ [stroke] <+: strokes → before <+: strokes :=
    fun front => (List.prefix_append _ _).trans front
  constructor
  · rintro ⟨_, newlines⟩ before stroke front newline
    have fits := (newlines before stroke front newline).2
    rw [(reads before (shorter front)).copied] at fits
    omega
  · intro words
    constructor
    · intro before front
      have index := (reads before front).index
      have short := (reads before front).short
      omega
    · intro before stroke front newline
      have held := reads before (shorter front)
      have word := words before stroke front newline
      rw [held.line, held.copied]
      exact ⟨rfl, by omega⟩

/-- Typing these, with commands that clear the line. -/
def strokesOf (keys : List Char) : List Stroke := keys.map (⟨·, fun _ => '\x00'⟩)

theorem run_bounded_ls :
    ((∀ before, before <+: strokesOf ['l', 'x', '\x7f', 's', '\n'] →
        0 ≤ (run (fun _ => 'j') before).index ∧ (run (fun _ => 'j') before).index ≤ 511) ∧
      ∀ before stroke, before ++ [stroke] <+: strokesOf ['l', 'x', '\x7f', 's', '\n'] → stroke.key = '\n' →
        (run (fun _ => 'j') before).line = typed before ∧
          (run (fun _ => 'j') before).splitLine.1.length + 1 ≤ 64) ↔
      ∀ before stroke, before ++ [stroke] <+: strokesOf ['l', 'x', '\x7f', 's', '\n'] → stroke.key = '\n' →
        ((typed before).takeWhile (· ≠ ' ')).length ≤ 63 := by
  refine run_bounded_iff _ fun stroke member => ?_
  have keys : '\x00' ∉ ['l', 'x', '\x7f', 's', '\n'] := by decide
  obtain ⟨c, inside, rfl⟩ := List.mem_map.mp member
  intro zero
  have zero : c = '\x00' := zero
  exact keys (zero ▸ inside)

/-- Sixty-four letters and a newline: the terminator is put behind `command`. -/
theorem run_overflows : ∃ before stroke,
    before ++ [stroke] = strokesOf (List.replicate 64 'a' ++ ['\n']) ∧ stroke.key = '\n' ∧
      ¬ (run (fun _ => 'j') before).splitLine.1.length + 1 ≤ 64 := by
  refine ⟨strokesOf (List.replicate 64 'a'), ⟨'\n', fun _ => '\x00'⟩, ?_, rfl, ?_⟩
  · rw [strokesOf, strokesOf, List.map_append]
    rfl
  have reads : Reads (run (fun _ => 'j') (strokesOf (List.replicate 64 'a')))
      (typed (strokesOf (List.replicate 64 'a'))) := by
    refine run_typed _ fun stroke member => ?_
    obtain ⟨c, inside, rfl⟩ := List.mem_map.mp member
    rw [List.eq_of_mem_replicate inside]
    decide
  have word : ((typed (strokesOf (List.replicate 64 'a'))).takeWhile (· ≠ ' ')).length = 64 := by
    decide +kernel
  rw [reads.copied, word]
  decide

end LineReader
end Laomb.Fshell
