import Laomb.Base.Transition
import Laomb.VFS.Tidy

/-! What `ramfs_write` makes of a file: its size, the bytes in front of and
inside the written range, and the bounds of its buffer over whole runs. -/
namespace Laomb.VFS
open Word Transition Vfs

namespace Node

/-- The allocated bytes. -/
def buffer (n : Node) : List Byte := n.data.getD []

/-- The bytes `[0, size)` that a reader sees. -/
def content (n : Node) : List Byte := n.buffer.take n.size

/-- `ramfs_write` on the record of a file. -/
def written (n : Node) (offset size : Nat) (source : List Byte) (junk : Nat → Byte) : Result Node := do
  let n ← makeRoom n offset size junk
  if size = 0 ∨ offset + size ≤ n.buffer.length then
    pure { n with data := some (overwrite n.buffer offset (source.take size)) }
  else .error .outOfBounds

/-- A file whose size is a 32-bit number and covered by its buffer. -/
structure Stored (n : Node) : Prop where
  type : n.type = .file
  ops : n.ops = some .ramfs
  word : n.size < 2 ^ 32
  covered : n.size ≤ n.buffer.length

end Node

variable {s s' : Vfs} {a d : Addr} {n m p : Node} {offset size : Nat} {source : List Byte} {junk : Nat → Byte}
  {err : Err} {name : CString}

theorem ramfsWrite_eq (found : s.heap a = some n) (type : n.type = .file) :
    s.ramfsWrite a offset size source junk =
      (n.written offset size source junk).map fun m => (.success, s.store a m) := by
  simp only [ramfsWrite, load_eq found, type, bind, Except.bind, Node.written, ne_eq, not_true_eq_false,
    if_false]
  cases makeRoom n offset size junk with
  | error fault => rfl
  | ok m =>
    by_cases fits : size = 0 ∨ offset + size ≤ m.buffer.length
    · simp only [if_pos fits]
      exact if_pos fits
    · simp only [if_neg fits]
      exact if_neg fits

theorem write_eq (found : s.heap a = some n) (type : n.type = .file) (ops : n.ops = some .ramfs) :
    s.write a offset size source junk =
      (n.written offset size source junk).map fun m => (.success, s.store a m) := by
  rw [← ramfsWrite_eq found type, write, load_eq found]
  simp only [bind, Except.bind, ops]

theorem overwrite_length (bytes : List Byte) (start : Nat) (source : List Byte) :
    (overwrite bytes start source).length = bytes.length := by
  rw [overwrite, List.length_mapIdx]

/-- The bytes in front of the write stay, the written ones follow. -/
theorem overwrite_take {bytes : List Byte} {start : Nat} {source : List Byte}
    (fits : start + source.length ≤ bytes.length) :
    (overwrite bytes start source).take (start + source.length) = bytes.take start ++ source := by
  apply List.ext_getElem?
  intro i
  rw [List.getElem?_take, overwrite, List.getElem?_mapIdx]
  by_cases front : i < start
  · have early : i < (bytes.take start).length := by
      rw [List.length_take]
      omega
    rw [if_pos (by omega), List.getElem?_append_left early, List.getElem?_take, if_pos front]
    simp [Nat.not_le.mpr front]
  · have behind : (bytes.take start).length ≤ i := by
      rw [List.length_take]
      omega
    rw [List.getElem?_append_right behind, List.length_take, Nat.min_eq_left (by omega)]
    by_cases written : i < start + source.length
    · have inside : i - start < source.length := by omega
      rw [if_pos written, List.getElem?_eq_getElem (show i < bytes.length by omega)]
      simp [Nat.not_lt.mp front, List.getD, inside]
    · rw [if_neg written, List.getElem?_eq_none (by omega)]

theorem resize_length (bytes : List Byte) (length : Nat) (junk : Nat → Byte) :
    (resize bytes length junk).length = length := by
  rw [resize, List.length_map, List.length_range]

theorem resize_take {bytes : List Byte} {length start : Nat} (old : start ≤ bytes.length)
    (new : start ≤ length) : (resize bytes length junk).take start = bytes.take start := by
  apply List.ext_getElem?
  intro i
  rw [List.getElem?_take, List.getElem?_take]
  by_cases front : i < start
  · rw [if_pos front, if_pos front, resize, List.getElem?_map,
      List.getElem?_range (show i < length by omega),
        List.getElem?_eq_getElem (show i < bytes.length by omega)]
    simp [List.getD, show i < bytes.length by omega]
  · rw [if_neg front, if_neg front]

theorem zeroFill_length (bytes : List Byte) (start stop : Nat) :
    (zeroFill bytes start stop).length = bytes.length := by
  rw [zeroFill, List.length_mapIdx]

theorem zeroFill_take (bytes : List Byte) {start stop front : Nat} (order : front ≤ start) :
    (zeroFill bytes start stop).take front = bytes.take front := by
  apply List.ext_getElem?
  intro i
  rw [List.getElem?_take, List.getElem?_take, zeroFill, List.getElem?_mapIdx]
  by_cases before : i < front
  · have outside : ¬ (start ≤ i ∧ i < stop) := by omega
    simp [before, outside]
  · rw [if_neg before, if_neg before]

/-- Room for a write that starts inside the file or at its end: the buffer covers
the old size and the write, and the bytes in front of the write stay. -/
theorem makeRoom_ok (junk : Nat → Byte) (stored : n.Stored) (start : offset ≤ n.size)
    (word : offset + size < 2 ^ 32) :
    ∃ m, makeRoom n offset size junk = .ok m ∧ m.size = max n.size (offset + size) ∧
      m.size ≤ m.buffer.length ∧ m.buffer.take offset = n.buffer.take offset := by
  have covered := stored.covered
  rw [makeRoom]
  cases data : n.data with
  | none =>
    have empty : n.buffer = [] := by rw [Node.buffer, data, Option.getD_none]
    rw [empty, List.length_nil] at covered
    have first : offset = 0 := by omega
    refine ⟨_, rfl, ?_, ?_, ?_⟩
    · dsimp only
      omega
    · simp only [Node.buffer, Option.getD_some, resize_length]
      omega
    · rw [first, List.take_zero, List.take_zero]
  | some bytes =>
    have whole : n.buffer = bytes := by rw [Node.buffer, data, Option.getD_some]
    rw [whole] at covered
    simp only [u32_of_lt word, pure, Except.pure, covered, if_true]
    by_cases grows : n.size < offset + size
    · refine ⟨_, if_pos grows, ?_, ?_, ?_⟩
      · dsimp only
        omega
      · simp only [Node.buffer, Option.getD_some, resize_length]
        omega
      · rw [whole]
        exact resize_take (by omega) (by omega)
    · rw [if_neg grows]
      by_cases shrinks : offset + size < n.size
      · refine ⟨_, if_pos shrinks, ?_, ?_, ?_⟩
        · dsimp only
          omega
        · simpa only [Node.buffer, Option.getD_some, zeroFill_length] using covered
        · rw [whole]
          exact zeroFill_take bytes (by omega)
      · refine ⟨_, if_neg shrinks, ?_, ?_, rfl⟩
        · omega
        · rwa [whole]

/-- A write that starts inside the file or at its end finishes and leaves the
bytes in front of it and its own. -/
theorem written_ok (source : List Byte) (junk : Nat → Byte) (stored : n.Stored) (start : offset ≤ n.size)
    (word : offset + source.length < 2 ^ 32) :
    ∃ m, n.written offset source.length source junk = .ok m ∧ m.Stored ∧
      m.size = max n.size (offset + source.length) ∧
      m.buffer.take (offset + source.length) = n.buffer.take offset ++ source := by
  obtain ⟨m, room, grown, covered, front⟩ := makeRoom_ok junk stored start word
  have shape := makeRoom_shape room
  have fits : offset + source.length ≤ m.buffer.length := by omega
  have small := stored.word
  refine ⟨{ m with data := some (overwrite m.buffer offset source) }, ?_, ⟨?_, ?_, ?_, ?_⟩, grown, ?_⟩
  · simp only [Node.written, room, bind, Except.bind, fits, or_true, if_true, List.take_length]
    rfl
  · exact (Node.shape_field Node.type (fun _ => rfl) shape).trans stored.type
  · exact (Node.shape_field Node.ops (fun _ => rfl) shape).trans stored.ops
  · dsimp only
    omega
  · simpa only [Node.buffer, Option.getD_some, overwrite_length] using covered
  · rw [← front]
    exact overwrite_take fits

theorem written_shape (run : n.written offset size source junk = .ok m) : m.shape = n.shape := by
  obtain ⟨m', room, run⟩ := bind_ok run
  split at run
  · cases run
    have shape : m'.shape = n.shape := makeRoom_shape room
    exact shape
  · cases run

/-- Any write that finishes leaves a stored file, wherever it starts. -/
theorem written_stored (stored : n.Stored) (short : size < 2 ^ 32)
    (run : n.written offset size source junk = .ok m) : m.Stored := by
  have shape := written_shape run
  obtain ⟨m', room, run⟩ := bind_ok run
  have sized : m'.size < 2 ^ 32 ∧ m'.size ≤ m'.buffer.length := by
    have word := stored.word
    have covered := stored.covered
    have wrapped := u32_lt (offset + size)
    rw [makeRoom] at room
    split at room
    · cases room
      exact ⟨short, (resize_length ..).ge⟩
    · rename_i bytes data
      rw [Node.buffer, data, Option.getD_some] at covered
      simp only [pure, Except.pure, covered, if_true] at room
      split at room
      · cases room
        exact ⟨wrapped, (resize_length ..).ge⟩
      · split at room
        · cases room
          exact ⟨word, covered.trans (zeroFill_length ..).ge⟩
        · cases room
          rw [Node.buffer, data, Option.getD_some]
          exact ⟨word, covered⟩
  refine ⟨(Node.shape_field Node.type (fun _ => rfl) shape).trans stored.type,
    (Node.shape_field Node.ops (fun _ => rfl) shape).trans stored.ops, ?_, ?_⟩
  all_goals
    split at run
    · cases run
      simp only [Node.buffer, Option.getD_some, overwrite_length]
      first | exact sized.1 | exact sized.2
    · cases run

/-! ## Writes at arbitrary offsets -/

/-- One call of `ramfs_write` on a file, with what fresh memory holds. -/
structure FileWrite where
  offset : Nat
  size : Nat
  source : List Byte
  junk : Nat → Byte

namespace FileWrite

/-- The arguments are 32-bit numbers. -/
def Words (w : FileWrite) : Prop := w.offset < 2 ^ 32 ∧ w.size < 2 ^ 32

def run (s : Vfs) (a : Addr) (w : FileWrite) : Result (Err × Vfs) :=
  s.ramfsWrite a w.offset w.size w.source w.junk

end FileWrite

def FileStep (a : Addr) (s : Vfs) (w : FileWrite) (s' : Vfs) : Prop :=
  w.Words ∧ w.run s a = .ok (.success, s')

/-- The rule of `ramfs.h`, and a buffer of at least `size` bytes. -/
structure Node.Ruled (n : Node) : Prop where
  null : n.data = none ↔ n.size = 0
  covered : n.size ≤ n.buffer.length

/-- The write touches no byte outside the buffer and leaves a ruled file. -/
def KeepsRule (a : Addr) (s : Vfs) (w : FileWrite) : Prop :=
  ∃ s' m, w.run s a = .ok (.success, s') ∧ s'.heap a = some m ∧ m.Ruled

/-- The first write starts at zero and is not empty, later ones end below 4 GiB. -/
def Contained (a : Addr) (s : Vfs) (w : FileWrite) : Prop :=
  ∀ n, s.heap a = some n →
    (n.data = none → w.offset = 0 ∧ 0 < w.size) ∧ (n.data ≠ none → w.offset + w.size < 2 ^ 32)

/-- A file whose buffer is exactly as long as its size says. -/
structure Node.Exact (n : Node) : Prop where
  type : n.type = .file
  null : n.data = none ↔ n.size = 0
  length : n.buffer.length = n.size
  word : n.size < 2 ^ 32

namespace Node

theorem Exact.ruled (exact : n.Exact) : n.Ruled := ⟨exact.null, exact.length.ge⟩

/-- After a first write the buffer is as long as the write. -/
theorem written_first (data : n.data = none) :
    n.written offset size source junk =
      if size = 0 ∨ offset + size ≤ size then
        .ok { n with size := size,
                     data := some (overwrite (resize [] size junk) offset (source.take size)) }
      else .error .outOfBounds := by
  simp only [written, makeRoom, data, bind, Except.bind, pure, Except.pure, buffer, Option.getD_some,
    resize_length]

/-- A later write goes to a buffer as long as the old size or the end of the
write, taken modulo 2^32, whichever is more. -/
theorem makeRoom_later (offset size : Nat) (junk : Nat → Byte) (exact : n.Exact) (data : n.data ≠ none) :
    ∃ m, makeRoom n offset size junk = .ok m ∧ m.type = .file ∧ m.data ≠ none ∧
      m.size = max n.size (u32 (offset + size)) ∧ m.buffer.length = m.size := by
  obtain ⟨bytes, given⟩ := Option.ne_none_iff_exists'.mp data
  have length := exact.length
  rw [buffer, given, Option.getD_some] at length
  simp only [makeRoom, given, pure, Except.pure, length, Nat.le_refl, if_true]
  by_cases grows : n.size < u32 (offset + size)
  · refine ⟨_, if_pos grows, exact.type, by simp, ?_, ?_⟩
    · dsimp only
      omega
    · simp only [buffer, Option.getD_some, resize_length]
  · rw [if_neg grows]
    by_cases shrinks : u32 (offset + size) < n.size
    · refine ⟨_, if_pos shrinks, exact.type, by simp, ?_, ?_⟩
      · dsimp only
        omega
      · simpa only [buffer, Option.getD_some, zeroFill_length] using length
    · refine ⟨n, if_neg shrinks, exact.type, data, ?_, ?_⟩
      · omega
      · rw [buffer, given, Option.getD_some, length]

/-- A write is contained exactly when it stays in the buffer and keeps the rule. -/
theorem written_ruled_iff (source : List Byte) (junk : Nat → Byte) (exact : n.Exact)
    (words : offset < 2 ^ 32 ∧ size < 2 ^ 32) :
    (∃ m, n.written offset size source junk = .ok m ∧ m.Ruled) ↔
      (n.data = none → offset = 0 ∧ 0 < size) ∧ (n.data ≠ none → offset + size < 2 ^ 32) := by
  by_cases data : n.data = none
  · simp only [data, written_first data, forall_const, ne_eq, not_true_eq_false, false_imp_iff, and_true]
    constructor
    · rintro ⟨m, run, ruled⟩
      by_cases inside : size = 0 ∨ offset + size ≤ size
      · rw [if_pos inside] at run
        cases run
        have positive : size ≠ 0 := fun empty => nomatch ruled.null.mpr empty
        omega
      · rw [if_neg inside] at run
        cases run
    · rintro ⟨rfl, positive⟩
      refine ⟨_, if_pos (by omega), ⟨?_, ?_⟩⟩
      · simp only [reduceCtorEq, false_iff]
        omega
      · simp only [buffer, Option.getD_some, overwrite_length, resize_length, Nat.le_refl]
  · obtain ⟨m, room, _, some_, grown, length⟩ :=
      makeRoom_later offset size junk exact data
    have small := exact.word
    have wrapped := u32_lt (offset + size)
    simp only [data, false_imp_iff, true_and, ne_eq, not_false_eq_true, forall_const, written, room,
      bind, Except.bind]
    constructor
    · rintro ⟨m', run, _⟩
      split at run
      · omega
      · cases run
    · intro word
      rw [u32_of_lt word] at grown
      refine ⟨_, if_pos (Or.inr (by omega)), ⟨?_, ?_⟩⟩
      · have nonempty : n.size ≠ 0 := fun empty => data (exact.null.mpr empty)
        simp only [reduceCtorEq, false_iff]
        omega
      · simp only [buffer, Option.getD_some, overwrite_length]
        exact length.ge

/-- A ruled result is exact again: `ramfs_write` allocates no more than it needs. -/
theorem written_exact (exact : n.Exact) (words : offset < 2 ^ 32 ∧ size < 2 ^ 32)
    (run : n.written offset size source junk = .ok m) (ruled : m.Ruled) : m.Exact := by
  by_cases data : n.data = none
  · rw [written_first data] at run
    split at run
    · cases run
      refine ⟨exact.type, ruled.null, ?_, words.2⟩
      simp only [buffer, Option.getD_some, overwrite_length, resize_length]
    · cases run
  · obtain ⟨m', room, type, _, grown, length⟩ :=
      makeRoom_later offset size junk exact data
    have small := exact.word
    have wrapped := u32_lt (offset + size)
    simp only [written, room, bind, Except.bind] at run
    split at run
    · cases run
      refine ⟨type, ruled.null, ?_, ?_⟩
      · simpa only [buffer, Option.getD_some, overwrite_length] using length
      · dsimp only
        omega
    · cases run

end Node

/-- Inserting a node rewrites links only. -/
theorem vfsInsertNode_core {z : Addr} (run : s.vfsInsertNode d z = .ok s') : SameCore s s' := by
  rw [vfsInsertNode] at run
  obtain ⟨p, host, run⟩ := bind_ok run
  cases children : p.children with
  | none =>
    simp only [children] at run
    cases run
    exact part_store (load_ok.mp host) rfl
  | some first =>
    simp only [children] at run
    obtain ⟨sibling, _, run⟩ := bind_ok run
    obtain ⟨n, found, run⟩ := bind_ok run
    cases run
    exact part_store (load_ok.mp found) rfl

/-- The record `ramfs_create` leaves behind. -/
theorem ramfsCreate_record (created : s.ramfsCreate d name .file a = .ok (.success, some a, s')) :
    ∃ n, s'.heap a = some n ∧ n.type = .file ∧ n.ops = some .ramfs ∧ n.size = 0 ∧ n.data = none := by
  rw [ramfsCreate] at created
  obtain ⟨p, _, created⟩ := bind_ok created
  split at created
  · cases created
  · obtain ⟨⟨node, t⟩, made, created⟩ := bind_ok created
    rw [vfsCreateNode, if_neg (by decide)] at made
    obtain ⟨t', inserted, made⟩ := bind_ok made
    cases made
    obtain ⟨n, found, created⟩ := bind_ok created
    cases created
    obtain ⟨m, old, core⟩ := part_backward (vfsInsertNode_core inserted a) (load_ok.mp found)
    rw [store_heap, Function.update_self] at old
    cases old
    have size : n.size = 0 := congrArg Node.size core
    exact ⟨_, Function.update_self .., Node.core_type core, Node.core_ops core, size, rfl⟩

/-- A write that returns leaves the written record. -/
theorem FileWrite.run_ok {w : FileWrite} (found : s.heap a = some n) (type : n.type = .file)
    (run : w.run s a = .ok (.success, s')) :
    ∃ m, n.written w.offset w.size w.source w.junk = .ok m ∧ s'.heap a = some m := by
  rw [FileWrite.run, ramfsWrite_eq found type] at run
  cases made : n.written w.offset w.size w.source w.junk with
  | error fault => simp [made, Except.map] at run
  | ok m =>
    simp only [made, Except.map, Except.ok.injEq, Prod.mk.injEq, true_and] at run
    subst run
    exact ⟨m, rfl, Function.update_self ..⟩

theorem keepsRule_iff (found : s.heap a = some n) (exact : n.Exact) {w : FileWrite} (words : w.Words) :
    KeepsRule a s w ↔ Contained a s w := by
  rw [show Contained a s w ↔ _ from ⟨fun all => all n found, fun held m same =>
    Option.some.inj (found.symm.trans same) ▸ held⟩]
  rw [← Node.written_ruled_iff w.source w.junk exact words]
  constructor
  · rintro ⟨s', m, run, record, ruled⟩
    obtain ⟨m', made, stored⟩ := FileWrite.run_ok found exact.type run
    cases stored.symm.trans record
    exact ⟨m, made, ruled⟩
  · rintro ⟨m, made, ruled⟩
    refine ⟨s.store a m, m, ?_, Function.update_self .., ruled⟩
    rw [FileWrite.run, ramfsWrite_eq found exact.type, made]
    rfl

/-- A contained write leaves an exact file. -/
theorem FileStep.exact {w : FileWrite} (found : s.heap a = some n) (exact : n.Exact)
    (step : Along (FileStep a) (Contained a) s w s') : ∃ m, s'.heap a = some m ∧ m.Exact := by
  obtain ⟨⟨words, run⟩, contained⟩ := step
  obtain ⟨t, m, run', record, ruled⟩ := (keepsRule_iff found exact words).mpr contained
  cases Except.ok.inj (run.symm.trans run')
  obtain ⟨m', made, stored⟩ := FileWrite.run_ok found exact.type run
  cases stored.symm.trans record
  exact ⟨m, record, Node.written_exact exact words made ruled⟩

end Laomb.VFS
