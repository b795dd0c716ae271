import Laomb.VFS.FileContent

/-! Two runs of writes on one file that differ in what fresh memory holds, and what
a reader can tell of the difference. -/
namespace Laomb.VFS
open Word Transition Vfs

variable {s s' t t' : Vfs} {a d : Addr} {n m : Node} {offset size : Nat} {source : List Byte}
  {junk : Nat → Byte} {name : CString}

namespace Node

/-- A stored file without spare room. -/
structure Filled (n : Node) : Prop extends n.Stored where
  length : n.buffer.length = n.size

theorem Filled.content_eq (filled : n.Filled) : n.content = n.buffer := by
  rw [content, ← filled.length, List.take_length]

end Node

theorem overwrite_behind {bytes : List Byte} {start i : Nat} (behind : start + source.length ≤ i) :
    (overwrite bytes start source)[i]? = bytes[i]? := by
  have none_left : source[i - start]? = none := List.getElem?_eq_none (by omega)
  simp [overwrite, show start ≤ i by omega, List.getD, none_left]

theorem overwrite_front {bytes : List Byte} {start i : Nat} (front : i < start) :
    (overwrite bytes start source)[i]? = bytes[i]? := by
  simp [overwrite, Nat.not_le.mpr front]

/-- Behind a write that starts in the file, the rest of the old file is cleared. -/
theorem makeRoom_filled (filled : n.Filled) (word : offset + size < 2 ^ 32)
    (room : makeRoom n offset size junk = .ok m) :
    m.buffer.length = m.size ∧ ∀ i, offset + size ≤ i → i < n.size → m.buffer[i]? = some 0 := by
  have length := filled.length
  rw [makeRoom] at room
  cases data : n.data with
  | none =>
    rw [Node.buffer, data, Option.getD_none, List.length_nil] at length
    simp only [data] at room
    cases room
    refine ⟨resize_length .., fun i _ inside => ?_⟩
    omega
  | some bytes =>
    rw [Node.buffer, data, Option.getD_some] at length
    simp only [data, u32_of_lt word, pure, Except.pure, length, Nat.le_refl, if_true] at room
    split at room
    · cases room
      refine ⟨resize_length .., fun i _ inside => ?_⟩
      omega
    · split at room
      · cases room
        simp only [Node.buffer, Option.getD_some]
        refine ⟨(zeroFill_length ..).trans length, fun i behind inside => ?_⟩
        rw [zeroFill, List.getElem?_mapIdx, List.getElem?_eq_getElem (show i < bytes.length by omega),
          Option.map_some, if_pos ⟨behind, inside⟩]
      · cases room
        refine ⟨by rw [Node.buffer, data, Option.getD_some, length], fun i _ inside => ?_⟩
        omega

/-- A write that starts in the file or at its end leaves the front of the file, the
written bytes, and zeros as far as the file went. -/
theorem Node.written_content (source : List Byte) (junk : Nat → Byte) (filled : n.Filled)
    (start : offset ≤ n.size) (word : offset + source.length < 2 ^ 32) :
    ∃ m, n.written offset source.length source junk = .ok m ∧ m.Filled ∧
      m.size = max n.size (offset + source.length) ∧
      m.content = n.content.take offset ++ source ++
        List.replicate (n.size - (offset + source.length)) 0 := by
  obtain ⟨m, run, stored, grown, front⟩ := written_ok source junk filled.toStored start word
  obtain ⟨r, room, rest⟩ := bind_ok run
  obtain ⟨length, cleared⟩ := makeRoom_filled filled word room
  obtain ⟨r', room', sized, _, _⟩ := makeRoom_ok junk filled.toStored start word
  cases Except.ok.inj (room.symm.trans room')
  have whole : m.buffer = overwrite r.buffer offset source := by
    split at rest
    · cases rest
      rw [List.take_length]
      rfl
    · cases rest
  have filled' : m.Filled := ⟨stored, by rw [whole, overwrite_length, length, sized, grown]⟩
  refine ⟨m, run, filled', grown, ?_⟩
  rw [filled'.content_eq, filled.content_eq, ← List.take_append_drop (offset + source.length) m.buffer,
    front]
  congr 1
  refine List.eq_replicate_iff.mpr ⟨?_, fun b member => ?_⟩
  · rw [List.length_drop, filled'.length, grown]
    omega
  · obtain ⟨i, found⟩ := List.mem_iff_getElem?.mp member
    rw [List.getElem?_drop, whole, overwrite_behind (Nat.le_add_right ..)] at found
    have inside : offset + source.length + i < r.buffer.length := by
      by_contra outside
      rw [List.getElem?_eq_none (Nat.not_lt.mp outside)] at found
      cases found
    exact Option.some.inj (found.symm.trans (cleared _ (Nat.le_add_right ..) (by omega)))

namespace FileWrite

/-- An in-bounds write of a caller whose buffer holds what it writes. -/
structure InBounds (w : FileWrite) : Prop where
  word : w.offset + w.size < 2 ^ 32
  source : w.source.length = w.size

/-- The same write with other bytes in fresh memory. -/
def withJunk (w : FileWrite) (junk : Nat → Byte) : FileWrite := { w with junk := junk }

end FileWrite

/-- Two heaps in which a reader of the file finds the same. -/
def SameFile (a : Addr) (s t : Vfs) : Prop :=
  ∃ n m, s.heap a = some n ∧ t.heap a = some m ∧ n.size = m.size ∧ n.content = m.content ∧
    ∀ offset size, offset + size ≤ n.size → s.ramfsRead a offset size = t.ramfsRead a offset size

/-- The bytes between the old end of the file and the start of a write are zero. -/
def ZeroGap (a : Addr) (s s' : Vfs) (offset : Nat) : Prop :=
  ∀ n m, s.heap a = some n → s'.heap a = some m →
    ∀ i, n.size ≤ i → i < offset → i < m.size → m.content[i]? = some 0

/-- One write in both runs. -/
def TwinStep (a : Addr) (p : Vfs × Vfs) (w : FileWrite × (Nat → Byte)) (p' : Vfs × Vfs) : Prop :=
  w.1.InBounds ∧ w.1.run p.1 a = .ok (.success, p'.1) ∧ (w.1.withJunk w.2).run p.2 a = .ok (.success, p'.2)

/-- Whatever fresh memory holds, both runs finish the write, the file reads the same
after it, and a gap in front of the write reads as zeros. -/
def Discreet (a : Addr) (p : Vfs × Vfs) (w : FileWrite) : Prop :=
  ∀ junk junk', ∃ s' t', (w.withJunk junk).run p.1 a = .ok (.success, s') ∧
    (w.withJunk junk').run p.2 a = .ok (.success, t') ∧ SameFile a s' t' ∧
    ZeroGap a p.1 s' w.offset ∧ ZeroGap a p.2 t' w.offset

/-- The write starts in the file or at its end, or it is an empty first write. -/
def Adjoining (a : Addr) (p : Vfs × Vfs) (w : FileWrite) : Prop :=
  ∀ n, p.1.heap a = some n → w.offset ≤ n.size ∨ n.data = none ∧ w.size = 0

/-- What the two runs keep in common. -/
structure Twins (a : Addr) (p : Vfs × Vfs) (n m : Node) : Prop where
  left : p.1.heap a = some n
  right : p.2.heap a = some m
  filledLeft : n.Filled
  filledRight : m.Filled
  size : n.size = m.size
  content : n.content = m.content
  data : n.data = none ↔ m.data = none

theorem ramfsRead_eq (found : s.heap a = some n) (type : n.type = .file) :
    s.ramfsRead a offset size = if size = 0 ∨ offset + size ≤ n.buffer.length then
      pure (.success, (n.buffer.drop offset).take size) else .error .outOfBounds := by
  simp only [ramfsRead, load_eq found, bind, Except.bind, type, ne_eq, not_true_eq_false, if_false,
    Node.buffer]
  rfl

theorem Twins.sameFile {p : Vfs × Vfs} (twins : Twins a p n m) : SameFile a p.1 p.2 := by
  refine ⟨n, m, twins.left, twins.right, twins.size, twins.content, fun offset size _ => ?_⟩
  rw [ramfsRead_eq twins.left twins.filledLeft.type, ramfsRead_eq twins.right twins.filledRight.type,
    ← twins.filledLeft.content_eq, ← twins.filledRight.content_eq, twins.content]

theorem run_withJunk {w : FileWrite} (found : s.heap a = some n) (type : n.type = .file)
    (made : n.written w.offset w.size w.source junk = .ok m) :
    (w.withJunk junk).run s a = .ok (.success, s.store a m) := by
  rw [FileWrite.run, ramfsWrite_eq found type]
  exact congrArg (Except.map fun m => (Err.success, s.store a m)) made

theorem written_data (run : n.written offset size source junk = .ok m) : m.data ≠ none := by
  obtain ⟨r, _, run⟩ := bind_ok run
  split at run
  · cases run
    exact Option.some_ne_none _
  · cases run

theorem written_empty (filled : n.Filled) (data : n.data = none) (offset : Nat) (source : List Byte)
    (junk : Nat → Byte) :
    ∃ m, n.written offset 0 source junk = .ok m ∧ m.Filled ∧ m.size = 0 ∧ m.content = [] := by
  refine ⟨_, (Node.written_first data).trans (if_pos (.inl rfl)), ⟨⟨filled.type, filled.ops, ?_, ?_⟩, ?_⟩,
    rfl, ?_⟩
  · exact Nat.two_pow_pos 32
  · exact Nat.zero_le _
  · simp only [Node.buffer, Option.getD_some, overwrite_length, resize_length]
  · rw [Node.content, List.take_zero]

/-- An adjoining write goes the same way in both runs. -/
theorem Twins.write {p : Vfs × Vfs} {w : FileWrite} (twins : Twins a p n m) (bounds : w.InBounds)
    (adjoining : w.offset ≤ n.size ∨ n.data = none ∧ w.size = 0) (junk junk' : Nat → Byte) :
    ∃ n' m', (w.withJunk junk).run p.1 a = .ok (.success, p.1.store a n') ∧
      (w.withJunk junk').run p.2 a = .ok (.success, p.2.store a m') ∧
      Twins a (p.1.store a n', p.2.store a m') n' m' ∧
      ∀ i, n.size ≤ i → i < w.offset → ¬ i < n'.size := by
  obtain ⟨n', m', made, made', filled, filled', size, content, gap⟩ : ∃ n' m',
      n.written w.offset w.size w.source junk = .ok n' ∧ m.written w.offset w.size w.source junk' = .ok m' ∧
      n'.Filled ∧ m'.Filled ∧ n'.size = m'.size ∧ n'.content = m'.content ∧
      ∀ i, n.size ≤ i → i < w.offset → ¬ i < n'.size := by
    by_cases start : w.offset ≤ n.size
    · have word := bounds.word
      rw [← bounds.source] at word ⊢
      obtain ⟨n', made, filled, size, content⟩ :=
        Node.written_content w.source junk twins.filledLeft start word
      obtain ⟨m', made', filled', size', content'⟩ :=
        Node.written_content w.source junk' twins.filledRight (twins.size ▸ start) word
      refine ⟨n', m', made, made', filled, filled', ?_, ?_, fun i behind before => ?_⟩
      · rw [size, size', twins.size]
      · rw [content, content', twins.content, twins.size]
      · omega
    · obtain ⟨data, empty⟩ := adjoining.resolve_left start
      rw [empty]
      obtain ⟨n', made, filled, size, content⟩ := written_empty twins.filledLeft data w.offset w.source junk
      obtain ⟨m', made', filled', size', content'⟩ :=
        written_empty twins.filledRight (twins.data.mp data) w.offset w.source junk'
      refine ⟨n', m', made, made', filled, filled', size.trans size'.symm, content.trans content'.symm,
        fun i _ _ => ?_⟩
      rw [size]
      exact Nat.not_lt_zero i
  exact ⟨n', m', run_withJunk twins.left twins.filledLeft.type made,
    run_withJunk twins.right twins.filledRight.type made',
    ⟨Function.update_self .., Function.update_self .., filled, filled', size, content,
      iff_of_false (written_data made) (written_data made')⟩, gap⟩

/-- Behind a gap the file holds what fresh memory does. -/
theorem written_gap (filled : n.Filled) (data : n.data ≠ none) (word : offset + size < 2 ^ 32)
    (gap : n.size < offset) (run : n.written offset size source junk = .ok m) :
    n.size < m.size ∧ m.content[n.size]? = some (junk n.size) := by
  obtain ⟨bytes, given⟩ := Option.ne_none_iff_exists'.mp data
  have length := filled.length
  rw [Node.buffer, given, Option.getD_some] at length
  obtain ⟨r, room, run⟩ := bind_ok run
  simp only [makeRoom, given, u32_of_lt word, if_pos (show n.size < offset + size by omega)] at room
  cases room
  split at run
  · cases run
    refine ⟨show n.size < offset + size by omega, ?_⟩
    have old : bytes[n.size]? = none := List.getElem?_eq_none length.le
    simp only [Node.content, Node.buffer, Option.getD_some]
    rw [List.getElem?_take, if_pos (by omega), overwrite_front gap, resize, List.getElem?_map,
      List.getElem?_range (by omega), Option.map_some, List.getD, old, Option.getD_none]
  · cases run

theorem discreet_iff {p : Vfs × Vfs} {w : FileWrite} (twins : Twins a p n m) (bounds : w.InBounds) :
    Discreet a p w ↔ Adjoining a p w := by
  constructor
  · intro discreet n' found
    cases Option.some.inj (twins.left.symm.trans found)
    obtain ⟨s', _, run, _, _, zeros, _⟩ := discreet (fun _ => 1) fun _ => 1
    obtain ⟨r, made, record⟩ := FileWrite.run_ok twins.left twins.filledLeft.type run
    by_contra apart
    rw [not_or, not_and_or, Nat.not_le] at apart
    obtain ⟨gap, nonempty⟩ := apart
    by_cases data : n.data = none
    · have some_bytes := nonempty.resolve_left (not_not.mpr data)
      rw [Node.written_first data] at made
      split at made
      · rename_i inside
        rcases inside with empty | inside
        · exact some_bytes empty
        · have inside : w.offset + w.size ≤ w.size := inside
          omega
      · cases made
    · obtain ⟨longer, stale⟩ := written_gap twins.filledLeft data bounds.word gap made
      have zero := zeros n r twins.left record n.size le_rfl gap longer
      cases stale.symm.trans zero
  · intro adjoining junk junk'
    obtain ⟨n', m', run, run', after, gap⟩ := twins.write bounds (adjoining n twins.left) junk junk'
    refine ⟨_, _, run, run', after.sameFile, fun r r' old new i behind before inside => ?_,
      fun r r' old new i behind before inside => ?_⟩
    · cases Option.some.inj (twins.left.symm.trans old)
      cases Option.some.inj (after.left.symm.trans new)
      exact absurd inside (gap i behind before)
    · cases Option.some.inj (twins.right.symm.trans old)
      cases Option.some.inj (after.right.symm.trans new)
      exact absurd (after.size ▸ inside) (gap i (twins.size ▸ behind) before)

theorem Twins.step {p p' : Vfs × Vfs} {w : FileWrite × (Nat → Byte)} (twins : Twins a p n m)
    (step : Along (TwinStep a) (fun p w => Adjoining a p w.1) p w p') : ∃ n' m', Twins a p' n' m' := by
  obtain ⟨⟨bounds, run, run'⟩, adjoining⟩ := step
  obtain ⟨n', m', done, done', after, _⟩ :=
    twins.write bounds (adjoining n twins.left) w.1.junk w.2
  have left := Except.ok.inj (run.symm.trans done)
  have right := Except.ok.inj (run'.symm.trans done')
  rw [← Prod.mk.eta (p := p'), (Prod.mk.inj left).2, (Prod.mk.inj right).2]
  exact ⟨n', m', after⟩

/-- From a created file, in two runs of adjoining in-bounds writes with whatever fresh
memory holds in each: the file reads the same in both, and the next write keeps that
and leaves no gap but zeros exactly when it is adjoining as well. -/
theorem run_discreet {t : Vfs} {p : Vfs × Vfs}
    (created : t.ramfsCreate d name .file a = .ok (.success, some a, s))
    (reached : Reachable (Along (TwinStep a) fun p w => Adjoining a p w.1) (s, s) p) :
    SameFile a p.1 p.2 ∧ ∀ w : FileWrite, w.InBounds → (Discreet a p w ↔ Adjoining a p w) := by
  obtain ⟨n, found, type, ops, size, data⟩ := ramfsCreate_record created
  have filled : n.Filled := by
    refine ⟨⟨type, ops, size ▸ Nat.two_pow_pos 32, size ▸ Nat.zero_le _⟩, ?_⟩
    rw [Node.buffer, data, size]
    rfl
  obtain ⟨n', m', twins⟩ := reached.invariant (I := fun p => ∃ n m, Twins a p n m)
    (fun _ _ _ held step => by
      obtain ⟨_, _, twins⟩ := held
      exact twins.step step) ⟨n, n, found, found, filled, filled, rfl, rfl, Iff.rfl⟩
  exact ⟨twins.sameFile, fun w bounds => discreet_iff twins bounds⟩

/-- One in-bounds write in both runs, if both finish it. -/
def twinCall (a : Addr) (p : Vfs × Vfs) (w : FileWrite × (Nat → Byte)) : Option (Vfs × Vfs) :=
  match w.1.run p.1 a, (w.1.withJunk w.2).run p.2 a with
  | .ok (.success, s), .ok (.success, t) =>
    if w.1.offset + w.1.size < 2 ^ 32 ∧ w.1.source.length = w.1.size then some (s, t) else none
  | _, _ => none

theorem twinCall_step (a : Addr) (p : Vfs × Vfs) (w : FileWrite × (Nat → Byte)) (p' : Vfs × Vfs)
    (done : twinCall a p w = some p') : TwinStep a p w p' := by
  unfold twinCall at done
  split at done
  · rename_i s t left right
    split at done
    · rename_i bounds
      cases done
      exact ⟨⟨bounds.1, bounds.2⟩, left, right⟩
    · cases done
  · cases done

/-- Two writes back to back, fresh memory being zero in one run and not in the other. -/
def backToBack : List (FileWrite × (Nat → Byte)) :=
  [(⟨0, 2, [0x68, 0x69], fun _ => 0⟩, fun _ => 1), (⟨2, 1, [0x21], fun _ => 0⟩, fun _ => 1)]

theorem run_discreet_backToBack : ∃ s p, (boot 0).ramfsCreate 0 "f".toList .file 1 = .ok (.success, some 1, s) ∧
    Run (TwinStep 1) (s, s) backToBack p ∧ SameFile 1 p.1 p.2 := by
  have tested : ((boot 0).ramfsCreate 0 "f".toList .file 1).toOption.any (fun r =>
      r.1 = .success ∧ r.2.1 = some 1 ∧
      (backToBack.foldlM (fun (p : Vfs × Vfs) w => if (p.1.heap 1).any (fun n => w.1.offset ≤ n.size) then
        twinCall 1 p w else none) (r.2.2, r.2.2)).any (fun _ => True) = true) = true := by
    decide +kernel
  obtain ⟨⟨err, new, s⟩, created, passed⟩ := (Option.any_eq_true _ _).mp tested
  obtain ⟨rfl, rfl, writes⟩ := of_decide_eq_true passed
  have created := ok_of_toOption created
  have sound : ∀ (p : Vfs × Vfs) w p',
      (if (p.1.heap 1).any (fun n => w.1.offset ≤ n.size) then twinCall 1 p w else none) =
      some p' → Along (TwinStep 1) (fun p w => Adjoining 1 p w.1) p w p' := by
    intro p w p' done
    split at done
    · rename_i inside
      obtain ⟨n, found, inside⟩ := (Option.any_eq_true _ _).mp inside
      refine ⟨twinCall_step 1 p w p' done, fun m same => .inl ?_⟩
      cases Option.some.inj (found.symm.trans same)
      exact of_decide_eq_true inside
    · cases done
  obtain ⟨p, run, _⟩ := Run.of_tested sound writes
  exact ⟨s, p, created, run.mono fun _ _ _ step => step.1, (run_discreet created ⟨_, run⟩).1⟩

/-- Two bytes at zero and one at four: the two bytes between them are those of fresh memory. -/
def withGap : List (FileWrite × (Nat → Byte)) :=
  [(⟨0, 2, [0x68, 0x69], fun _ => 0⟩, fun _ => 1), (⟨4, 1, [0x21], fun _ => 0⟩, fun _ => 1)]

theorem gap_reveals : ∃ s p, (boot 0).ramfsCreate 0 "f".toList .file 1 = .ok (.success, some 1, s) ∧
    Run (TwinStep 1) (s, s) withGap p ∧ ¬ SameFile 1 p.1 p.2 := by
  have tested : ((boot 0).ramfsCreate 0 "f".toList .file 1).toOption.any (fun r =>
      r.1 = .success ∧ r.2.1 = some 1 ∧
      (withGap.foldlM (twinCall 1) (r.2.2, r.2.2)).any (fun p =>
        (p.1.heap 1).map Node.content ≠ (p.2.heap 1).map Node.content) = true) = true := by
    decide +kernel
  obtain ⟨⟨err, new, s⟩, created, passed⟩ := (Option.any_eq_true _ _).mp tested
  obtain ⟨rfl, rfl, writes⟩ := of_decide_eq_true passed
  obtain ⟨p, run, differ⟩ := Run.of_tested (twinCall_step 1) writes
  refine ⟨s, p, ok_of_toOption created, run, fun same => differ ?_⟩
  obtain ⟨n, m, left, right, _, content, _⟩ := same
  rw [left, right, Option.map_some, Option.map_some, content]

end Laomb.VFS
