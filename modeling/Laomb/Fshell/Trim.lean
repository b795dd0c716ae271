import Laomb.Fshell.NormalForm
import Laomb.Libc.Move
import Laomb.Libc.Numbers
import Laomb.VFS.TokenWalk

/-! `trim_whitespace` in memory. The string is moved over the whitespace in front of it, and cut behind
its last visible character. -/
namespace Laomb.Fshell
open VFS Libc

/-- `isspace((unsigned char)c)`. -/
def isspaceByte (b : VFS.Byte) : Bool := Libc.isspace b.toNat

/-- `while (isspace(*start)) start++`. -/
def startLoop : (s : List VFS.Byte) → Nat
  | [] => 0
  | c :: s => if isspaceByte c then startLoop s + 1 else 0

/-- `while (end > str && isspace(*end)) end--`, from `str + k`. -/
def endLoop (m : Memory) (str : Nat) : (k : Nat) → Nat
  | 0 => str
  | k + 1 => if isspaceByte (m (str + (k + 1))) then endLoop m str k else str + (k + 1)

/-- `trim_whitespace`. -/
def trimInPlace (m : Memory) (str : Nat) : Memory :=
  let start := str + startLoop (stringAt m str)
  if m start = 0 then Function.update m str 0
  else
    let m := (memmove m str start ((stringAt m start).length + 1)).2
    let last := endLoop m str ((stringAt m str).length - 1)
    Function.update m (last + 1) 0

variable {m : Memory} {str : Nat} {c : Char} {text front body : CString}

theorem isspaceByte_byte (small : c.toNat < 2 ^ 8) : isspaceByte (byte c) = isspace c := by
  have all : ∀ b : VFS.Byte, isspaceByte b = isspace (Char.ofNat b.toNat) := by decide +kernel
  rw [all, byte_toNat small, Char.ofNat_toNat]

theorem startLoop_eq (bytes : ∀ c ∈ text, c.toNat < 2 ^ 8) :
    startLoop (text.map byte) = (text.takeWhile isspace).length := by
  induction text with
  | nil => rfl
  | cons c text ih =>
    obtain ⟨small, bytes⟩ := List.forall_mem_cons.mp bytes
    rw [List.map_cons, startLoop, isspaceByte_byte small, List.takeWhile_cons]
    split
    · rw [ih bytes, List.length_cons]
    · rfl

/-- From the end of a text that begins with a visible character, back to its last one. -/
theorem endLoop_eq (elements : ∀ i (inside : i < text.length), m (str + i) = byte text[i])
    (bytes : ∀ c ∈ text, c.toNat < 2 ^ 8) (visible : ∃ c ∈ text.head?, isspace c = false) :
    endLoop m str (text.length - 1) + 1 = str + (text.rdropWhile isspace).length := by
  induction text using List.reverseRecOn with
  | nil => simp at visible
  | append_singleton text x ih =>
    have small := bytes x (List.mem_append_right text List.mem_cons_self)
    cases text with
    | nil =>
      obtain ⟨c, first, visible⟩ := visible
      obtain rfl : x = c := Option.some.inj first
      rw [List.rdropWhile_concat_neg _ _ _ (by simp [visible])]
      rfl
    | cons d text =>
      have final : m (str + (text.length + 1)) = byte x := by
        rw [elements (text.length + 1) (by simp)]
        simp
      have length : (d :: text ++ [x]).length - 1 = text.length + 1 := by simp
      rw [length, endLoop, final, isspaceByte_byte small]
      by_cases space : isspace x
      · rw [if_pos space, List.rdropWhile_concat_pos _ _ _ space]
        refine ih (fun i inside => ?_) (fun c member => bytes c (List.mem_append_left _ member)) visible
        rw [elements i (Nat.lt_of_lt_of_le inside (by simp)), List.getElem_append_left inside]
      · rw [if_neg space, List.rdropWhile_concat_neg _ _ _ space]
        simp [Nat.add_assoc]

/-- The bytes of the string from its first visible character on have been moved to its place. -/
theorem moved_text (here : TextAt m str (front ++ body)) :
    TextAt (memmove m str (str + front.length) (body.length + 1)).2 str body ∧
      ∀ a, a < str ∨ str + (front ++ body).length < a →
        (memmove m str (str + front.length) (body.length + 1)).2 a = m a := by
  obtain ⟨string, bytes⟩ := here
  rw [List.map_append] at string
  have fits := string.fits
  simp only [List.length_append, List.length_map] at fits ⊢
  have moved := memmove_moved m (show str + (body.length + 1) ≤ 2 ^ 32 by omega)
    (show str + front.length + (body.length + 1) ≤ 2 ^ 32 by omega)
  have tail := string.suffix.holds
  simp only [List.length_map] at tail
  refine ⟨⟨⟨tail.congr fun i inside => moved.moved i ?_, ?_⟩, (List.forall_mem_append.mp bytes).2⟩, ?_⟩
  · rw [List.length_map] at inside
    exact Nat.lt_succ_of_le inside
  · rw [List.length_map]
    omega
  · exact fun a outside => moved.frame a fun i inside => by omega

/-- Nothing but whitespace, or the string has been moved and is cut behind its last visible character. -/
theorem trimInPlace_cases (here : TextAt m str text) :
    (text.dropWhile isspace = [] ∧ trimInPlace m str = Function.update m str 0) ∨
    ∃ m', TextAt m' str (text.dropWhile isspace) ∧
      (∀ a, a < str ∨ str + text.length < a → m' a = m a) ∧
      trimInPlace m str = Function.update m' (str + (trimmed text).length) 0 := by
  have split := List.takeWhile_append_dropWhile (p := isspace) (l := text)
  have start : StringAt m (str + (text.takeWhile isspace).length) ((text.dropWhile isspace).map byte) := by
    have string := here.string
    rw [← split, List.map_append] at string
    have tail := string.suffix
    rwa [List.length_map] at tail
  cases rest : text.dropWhile isspace with
  | nil =>
    rw [rest] at start
    refine .inl ⟨rfl, ?_⟩
    simp only [trimInPlace, here.string.stringAt_eq, startLoop_eq here.bytes]
    exact if_pos start.holds.ended
  | cons c body =>
    have shown : isspace c = false := by
      have stop := List.head_dropWhile_not isspace (l := text) (by simp [rest])
      simpa [rest] using stop
    rw [rest] at split start
    obtain ⟨moved, frame⟩ := moved_text (split.symm ▸ here)
    rw [split] at frame
    refine .inr ⟨_, moved, frame, ?_⟩
    have elements : ∀ i (inside : i < (c :: body).length),
        (memmove m str (str + (text.takeWhile isspace).length) ((c :: body).length + 1)).2 (str + i) =
          byte (c :: body)[i] := by
      intro i inside
      rw [moved.string.holds.elements i (by rwa [List.length_map]), List.getElem_map]
    have back := endLoop_eq elements moved.bytes ⟨c, rfl, shown⟩
    simp only [trimInPlace, here.string.stringAt_eq, startLoop_eq here.bytes]
    rw [if_neg (start.ne_zero (by simp)), start.stringAt_eq, List.length_map, moved.string.stringAt_eq,
      List.length_map, back, trimmed, rest]

/-- What is left in memory is the trimmed text. -/
theorem trimInPlace_text (here : TextAt m str text) :
    TextAt (trimInPlace m str) str (trimWhitespace text) := by
  rw [trimWhitespace_eq]
  rcases trimInPlace_cases here with ⟨blank, run⟩ | ⟨m', moved, _, run⟩
  · have none : trimmed text = [] := by
      rw [trimmed, blank]
      rfl
    rw [run, none]
    have fits := here.string.fits
    refine ⟨⟨⟨fun i less => absurd less (Nat.not_lt_zero i), fun _ member => absurd member List.not_mem_nil,
      Function.update_self str 0 m⟩, ?_⟩, fun _ member => absurd member List.not_mem_nil⟩
    exact Nat.lt_of_le_of_lt (Nat.le_add_right str _) fits
  · rw [run]
    obtain ⟨tail, whole⟩ : trimmed text <+: text.dropWhile isspace := List.rdropWhile_prefix isspace _
    generalize trimmed text = kept at whole
    rw [← whole] at moved
    refine ⟨?_, (List.forall_mem_append.mp moved.bytes).1⟩
    have string := moved.string
    have bound : (kept.map byte).length = kept.length := List.length_map byte
    cases tail with
    | nil =>
      rw [List.append_nil] at string
      refine string.congr fun i inside => ?_
      by_cases final : i = kept.length
      · have ended := string.holds.ended
        rw [bound] at ended
        rw [final, Function.update_self]
        exact ended.symm
      · exact Function.update_of_ne (by omega) _ _
    | cons d tail =>
      rw [List.map_append, List.map_cons] at string
      have cut := string.cut.1
      rwa [bound] at cut

/-- Nothing is changed outside of the array that the string is in. -/
theorem trimInPlace_frame (here : TextAt m str text) {a : Nat} (outside : a < str ∨ str + text.length < a) :
    trimInPlace m str a = m a := by
  rcases trimInPlace_cases here with ⟨_, run⟩ | ⟨m', _, frame, run⟩
  · rw [run, Function.update_of_ne (by omega)]
  · have shorter : (trimmed text).length ≤ text.length :=
      (List.rdropWhile_prefix isspace _).length_le.trans (List.dropWhile_suffix isspace).length_le
    rw [run, Function.update_of_ne (by omega), frame a outside]

end Laomb.Fshell
