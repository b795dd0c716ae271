import Laomb.Base.Circular
import Laomb.Base.Transition
import Laomb.VFS.Node

/-! The keyboard: the interrupt handler puts characters into the ring of
`fshell_ctx`, and `getchar_locking` takes them out. -/
namespace Laomb.Fshell
open VFS Transition

/-- `scancodeToASCII`; behind its end the array holds null pointers. -/
def scancodeToASCII : List String :=
  ["", "\x1b", "1", "2", "3", "4", "5", "6", "7", "8", "9", "0", "-", "=", "\x7f",
    "\t", "q", "w", "e", "r", "t", "y", "u", "i", "o", "p", "[", "]", "\n",
    "", "a", "s", "d", "f", "g", "h", "j", "k", "l", ";", "'", "`",
    "", "\\", "z", "x", "c", "v", "b", "n", "m", ",", ".", "/", "",
    "", "", " ", "", "", "", "", "", "", "", "", "", "", "",
    "", "", "", "", "", "", "", "", "", "", "", "", "", ""]

/-- `scancodeToASCII_shift`. -/
def scancodeToASCIIShift : List String :=
  ["", "\x1b", "!", "@", "#", "$", "%", "^", "&", "*", "(", ")", "_", "+", "\x7f",
    "\t", "Q", "W", "E", "R", "T", "Y", "U", "I", "O", "P", "\x7b", "\x7d", "\n",
    "", "A", "S", "D", "F", "G", "H", "J", "K", "L", ":", "\"", "~",
    "", "|", "Z", "X", "C", "V", "B", "N", "M", "<", ">", "?", "",
    "", " ", "", "", "", "", "", "", "", "", "", "", "", "", ""]

/-- `struct fshell_ctx` without `pwd`; `count` is signed, `buffer_index` is not. -/
structure Keyboard where
  buffer : Nat → Char
  bufferIndex : Nat
  count : Int
  shiftPressed : Bool
  ctrlPressed : Bool

namespace Keyboard

/-- The zeroes of the `.bss` section. -/
def init : Keyboard := ⟨fun _ => '\x00', 0, 0, false, false⟩

/-- `key[0]`, which is null for a key without a character. -/
def keyChar (k : Keyboard) (scancode : Byte) : Result Char :=
  match (if k.shiftPressed then scancodeToASCIIShift else scancodeToASCII)[scancode.toNat]? with
  | none => .error .nullDeref
  | some key => pure (key.toList.headD '\x00')

/-- `buffer[buffer_index++] = c; count++; buffer_index %= FSHELL_BUFFER_SIZE`. -/
def put (k : Keyboard) (c : Char) : Result Keyboard :=
  if k.bufferIndex < 512 then
    pure { k with
      buffer := Function.update k.buffer k.bufferIndex c
      bufferIndex := (k.bufferIndex + 1) % 512
      count := k.count + 1 }
  else .error .outOfBounds

def fshellInterruptHandler (k : Keyboard) (scancode : Byte) : Result Keyboard :=
  if scancode &&& 0x80 ≠ 0 then
    let scancode := scancode &&& 0x7F
    if scancode = 0x2A ∨ scancode = 0x36 then pure { k with shiftPressed := false }
    else if scancode = 0x1D then pure { k with ctrlPressed := false }
    else pure k
  else if scancode = 0x2A ∨ scancode = 0x36 then pure { k with shiftPressed := true }
  else if scancode = 0x1D then pure { k with ctrlPressed := true }
  else do
    let c ← k.keyChar scancode
    if c ≠ '\x00' ∧ k.count < 512 then k.put c else pure k

/-- `(buffer_index - count + FSHELL_BUFFER_SIZE) % FSHELL_BUFFER_SIZE`, unsigned. -/
def readIndex (k : Keyboard) : Nat := ((k.bufferIndex - k.count + 512) % 4294967296).toNat % 512

/-- `getchar_locking`, which yields as long as there is nothing to read. -/
def getcharLocking (k : Keyboard) : Option (Char × Keyboard) :=
  if k.count = 0 then none else some (k.buffer k.readIndex, { k with count := k.count - 1 })

/-- The character that an interrupt produces, if any. -/
def produced (k : Keyboard) (scancode : Byte) : Option Char :=
  if scancode &&& 0x80 ≠ 0 ∨ scancode = 0x2A ∨ scancode = 0x36 ∨ scancode = 0x1D then none
  else (k.keyChar scancode).toOption.filter (· ≠ '\x00')

end Keyboard

/-- The keyboard with the characters that were accepted and returned so far. -/
structure Typing where
  keyboard : Keyboard
  accepted : List Char
  returned : List Char

inductive KeyEvent where
  | interrupt (scancode : Byte)
  | getchar
deriving DecidableEq

namespace Typing

def start : Typing := ⟨.init, [], []⟩

/-- A produced character is accepted if the handler counts it. -/
def accept (s : Typing) (scancode : Byte) (k : Keyboard) : Typing where
  keyboard := k
  accepted := if k.count = s.keyboard.count then s.accepted
    else s.accepted ++ (s.keyboard.produced scancode).toList
  returned := s.returned

def Step (s : Typing) : KeyEvent → Typing → Prop
  | .interrupt scancode, s' =>
    ∃ k, s.keyboard.fshellInterruptHandler scancode = .ok k ∧ s' = s.accept scancode k
  | .getchar, s' =>
    ∃ c k, s.keyboard.getcharLocking = some (c, k) ∧ s' = ⟨k, s.accepted, s.returned ++ [c]⟩

end Typing

namespace Keyboard
variable {k k' : Keyboard} {scancode : Byte} {c : Char}

/-- What is stored between the two indices. -/
def unread (k : Keyboard) : List Char := Circular.stored k.buffer 512 k.bufferIndex k.count.toNat

structure InBounds (k : Keyboard) : Prop where
  nonneg : 0 ≤ k.count
  count : k.count ≤ 512
  index : k.bufferIndex < 512

theorem unread_length (bounds : k.InBounds) : (k.unread.length : Int) = k.count := by
  rw [unread, Circular.stored_length, Int.toNat_of_nonneg bounds.nonneg]

/-- An interrupt leaves the ring alone, and then drops a character only if the ring is
full, or it puts the produced character. -/
theorem fshellInterruptHandler_cases (run : k.fshellInterruptHandler scancode = .ok k') :
    (k'.buffer = k.buffer ∧ k'.bufferIndex = k.bufferIndex ∧ k'.count = k.count ∧
      ∀ c, k.produced scancode = some c → 512 ≤ k.count ∧ k' = k) ∨
    ∃ c, k.produced scancode = some c ∧ k.count < 512 ∧ k.put c = .ok k' := by
  rw [fshellInterruptHandler] at run
  by_cases modifier : scancode &&& 0x80 ≠ 0 ∨ scancode = 0x2A ∨ scancode = 0x36 ∨ scancode = 0x1D
  · have silent : k.produced scancode = none := if_pos modifier
    left
    simp only [silent, reduceCtorEq, false_imp_iff, implies_true, and_true]
    split at run
    · dsimp only at run
      split at run
      · cases run
        exact ⟨rfl, rfl, rfl⟩
      · split at run <;> cases run <;> exact ⟨rfl, rfl, rfl⟩
    · rename_i pressed
      split at run
      · cases run
        exact ⟨rfl, rfl, rfl⟩
      · split at run
        · cases run
          exact ⟨rfl, rfl, rfl⟩
        · rename_i shift ctrl
          exact absurd modifier (by tauto)
  · have sound : k.produced scancode = (k.keyChar scancode).toOption.filter (· ≠ '\x00') := if_neg modifier
    simp only [not_or] at modifier
    obtain ⟨pressed, left, right, ctrl⟩ := modifier
    rw [if_neg pressed, if_neg (by tauto), if_neg ctrl] at run
    obtain ⟨c, key, run⟩ := bind_ok run
    rw [key, Except.toOption, Option.filter_some] at sound
    split at run
    · rename_i accepted
      rw [if_pos (decide_eq_true accepted.1)] at sound
      exact .inr ⟨c, sound, accepted.2, run⟩
    · rename_i refused
      cases run
      refine .inl ⟨rfl, rfl, rfl, fun d same => ⟨?_, rfl⟩⟩
      by_contra room
      have null : ¬ c ≠ '\x00' := fun char => refused ⟨char, Int.not_le.mp room⟩
      rw [sound, if_neg (by simpa using null)] at same
      cases same

theorem put_unread (bounds : k.InBounds) (room : k.count < 512) :
    ∃ k', k.put c = .ok k' ∧ k'.InBounds ∧ k'.count = k.count + 1 ∧ k'.unread = k.unread ++ [c] := by
  have nonneg := bounds.nonneg
  refine ⟨_, if_pos bounds.index, ⟨?_, ?_, Nat.mod_lt _ (by decide)⟩, rfl, ?_⟩
  · exact Int.le_add_one nonneg
  · exact room
  · have next : (k.count + 1).toNat = k.count.toNat + 1 := by omega
    simp only [unread, next]
    exact Circular.stored_push c bounds.index (by omega)

theorem readIndex_eq (bounds : k.InBounds) :
    k.readIndex = (k.bufferIndex + 512 - k.count.toNat) % 512 := by
  have nonneg := bounds.nonneg
  have count := bounds.count
  have index := bounds.index
  rw [readIndex, Int.emod_eq_of_lt (by omega) (by omega)]
  congr 1
  omega

theorem getcharLocking_unread (bounds : k.InBounds) (read : k.getcharLocking = some (c, k')) :
    k'.InBounds ∧ k.unread = c :: k'.unread := by
  have nonneg := bounds.nonneg
  have count := bounds.count
  rw [getcharLocking] at read
  split at read
  · cases read
  · rename_i stored
    cases read
    refine ⟨⟨?_, ?_, bounds.index⟩, ?_⟩
    · dsimp only
      omega
    · dsimp only
      omega
    · have fewer : (k.count - 1).toNat = k.count.toNat - 1 := by omega
      rw [unread, Circular.stored_pop (by omega) (by omega), readIndex_eq bounds]
      simp only [unread, fewer]

end Keyboard

namespace Typing
variable {s s' : Typing} {e : KeyEvent}

/-- Nothing is lost: what was accepted has been returned or is stored. -/
structure Lossless (s : Typing) : Prop where
  bounds : s.keyboard.InBounds
  accepted : s.accepted = s.returned ++ s.keyboard.unread

theorem lossless_start : start.Lossless := ⟨⟨le_rfl, by decide, by decide⟩, rfl⟩

theorem Lossless.interrupt (kept : s.Lossless) {scancode : Byte} {k : Keyboard}
    (run : s.keyboard.fshellInterruptHandler scancode = .ok k) :
    (s.accept scancode k).Lossless := by
  rcases Keyboard.fshellInterruptHandler_cases run with ⟨buffer, index, count, _⟩ | ⟨c, char, room, put⟩
  · refine ⟨⟨count ▸ kept.bounds.nonneg, count ▸ kept.bounds.count, index ▸ kept.bounds.index⟩, ?_⟩
    simp only [accept, Keyboard.unread, buffer, index, count]
    exact kept.accepted
  · obtain ⟨k', put', bounds, count, unread⟩ := Keyboard.put_unread (c := c) kept.bounds room
    cases Except.ok.inj (put.symm.trans put')
    have counted : ¬ k.count = s.keyboard.count := by omega
    refine ⟨bounds, ?_⟩
    simp only [accept, if_neg counted, char, Option.toList_some, unread, kept.accepted,
      List.append_assoc]

theorem Lossless.step (kept : s.Lossless) (step : Step s e s') : s'.Lossless := by
  cases e with
  | interrupt scancode =>
    obtain ⟨k, run, rfl⟩ := step
    exact kept.interrupt run
  | getchar =>
    obtain ⟨c, k, read, rfl⟩ := step
    obtain ⟨bounds, unread⟩ := Keyboard.getcharLocking_unread kept.bounds read
    refine ⟨bounds, ?_⟩
    simp only [kept.accepted, unread, List.append_assoc, List.singleton_append]

/-- The ring is a FIFO of 512 characters: what was returned is the front of what was
accepted, the rest is stored in order, and a character is only dropped by a full ring,
which it leaves as it is. -/
theorem run_fifo {es : List KeyEvent} (run : Run Step start es s) :
    0 ≤ s.keyboard.count ∧ s.keyboard.count ≤ 512 ∧ s.keyboard.bufferIndex < 512 ∧
    s.returned <+: s.accepted ∧ s.accepted = s.returned ++ s.keyboard.unread ∧
    (s.keyboard.unread.length : Int) = s.keyboard.count ∧
    ∀ scancode c s', s.keyboard.produced scancode = some c → Step s (.interrupt scancode) s' →
      s'.accepted = s.accepted ++ [c] ∧ s'.keyboard.unread = s.keyboard.unread ++ [c] ∨
      s.keyboard.count = 512 ∧ s' = s := by
  have kept := run.invariant (I := Lossless) (fun _ _ _ kept step => kept.step step) lossless_start
  obtain ⟨bounds, accepted⟩ := kept
  refine ⟨bounds.nonneg, bounds.count, bounds.index, ⟨_, accepted.symm⟩, accepted,
    Keyboard.unread_length bounds, ?_⟩
  rintro scancode c _ char ⟨k, handled, rfl⟩
  rcases Keyboard.fshellInterruptHandler_cases handled with ⟨_, _, count, full⟩ | ⟨d, char', room, put⟩
  · obtain ⟨full, same⟩ := full c char
    refine .inr ⟨le_antisymm bounds.count full, ?_⟩
    rw [accept, if_pos count, same]
  · cases Option.some.inj (char.symm.trans char')
    obtain ⟨k', put', _, count, unread⟩ := Keyboard.put_unread (c := c) bounds room
    cases Except.ok.inj (put.symm.trans put')
    have counted : ¬ k.count = s.keyboard.count := by omega
    refine .inl ⟨?_, unread⟩
    simp only [accept, if_neg counted, char, Option.toList_some]

/-- One event, if it returns. -/
def call (s : Typing) : KeyEvent → Option Typing
  | .interrupt scancode =>
    (s.keyboard.fshellInterruptHandler scancode).toOption.map fun k => s.accept scancode k
  | .getchar => s.keyboard.getcharLocking.map fun r => ⟨r.2, s.accepted, s.returned ++ [r.1]⟩

theorem call_step (s : Typing) (e : KeyEvent) (s' : Typing) (done : call s e = some s') : Step s e s' := by
  cases e with
  | interrupt scancode =>
    obtain ⟨k, handled, rfl⟩ := Option.map_eq_some_iff.mp done
    exact ⟨k, ok_of_toOption handled, rfl⟩
  | getchar =>
    obtain ⟨⟨c, k⟩, read, rfl⟩ := Option.map_eq_some_iff.mp done
    exact ⟨c, k, read, rfl⟩

/-- `A`, typed with the shift key, and `b`; the first is read. -/
def shiftedA : List KeyEvent :=
  [.interrupt 0x2A, .interrupt 0x1E, .interrupt 0xAA, .interrupt 0x30, .getchar]

theorem run_fifo_shifted : ∃ s, Run Step start shiftedA s ∧ s.returned = ['A'] ∧
    s.keyboard.unread = ['b'] ∧ s.accepted = s.returned ++ s.keyboard.unread := by
  have tested : (shiftedA.foldlM call start).any (fun s =>
      s.returned = ['A'] ∧ s.keyboard.unread = ['b']) = true := by decide +kernel
  obtain ⟨s, run, returned, unread⟩ := Run.of_tested call_step tested
  exact ⟨s, run, returned, unread, (run_fifo run).2.2.2.2.1⟩

end Typing
end Laomb.Fshell
