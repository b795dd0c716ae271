import Laomb.Fshell.Commands
import Laomb.VFS.FileContent

/-! The chunks a command writes to a redirected file, in both write modes. -/
namespace Laomb.Fshell
open VFS Word Transition Vfs

/-- The bytes of all chunks, back to back. -/
def joined (chunks : List CString) : List Byte := bytesOf chunks.flatten

variable {sh sh' : Shell} {a : Addr} {n m : Node} {offset offset' : Nat} {text : CString}
  {chunks : List CString} {junk : Nat → Byte}

theorem bytesOf_length (text : CString) : (bytesOf text).length = text.length := List.length_map _

theorem joined_cons (text : CString) (chunks : List CString) :
    joined (text :: chunks) = bytesOf text ++ joined chunks := by
  rw [joined, List.flatten_cons, bytesOf, List.map_append]
  rfl

namespace Shell

theorem emit_eq (found : sh.vfs.heap a = some n) (type : n.type = .file) (ops : n.ops = some .ramfs) :
    sh.emit (some a) offset text junk =
      (n.written (u32 offset) text.length (bytesOf text) junk).map fun m =>
        (sh.setVfs (sh.vfs.store a m), offset + text.length) := by
  simp only [emit, write_eq found type ops, bind, Except.bind]
  cases n.written (u32 offset) text.length (bytesOf text) junk <;> rfl

/-- Chunks emitted from inside a file or from its end onwards: the bytes in
front stay, the chunks follow, and the file grows if they end behind it. -/
theorem emitAll_ok (junk : Nat → Nat → Byte) (chunks : List CString)
    (found : sh.vfs.heap a = some n) (stored : n.Stored)
    (start : offset ≤ n.size) (word : offset + chunks.flatten.length < 2 ^ 32) :
    ∃ sh' m, sh.emitAll junk (some a) offset chunks = .ok (sh', offset + chunks.flatten.length) ∧
      sh'.vfs.heap a = some m ∧ m.Stored ∧ m.size = max n.size (offset + chunks.flatten.length) ∧
      m.buffer.take (offset + chunks.flatten.length) = n.buffer.take offset ++ joined chunks := by
  induction chunks generalizing sh n offset with
  | nil =>
    refine ⟨sh, n, rfl, found, stored, ?_, ?_⟩
    · simp only [List.flatten_nil, List.length_nil]
      omega
    · simp only [List.flatten_nil, List.length_nil, Nat.add_zero, joined, bytesOf, List.map_nil,
        List.append_nil]
  | cons text rest ih =>
    rw [List.flatten_cons, List.length_append] at word
    have length := bytesOf_length text
    obtain ⟨m, written, stored', grown, front⟩ :=
      written_ok (bytesOf text) (junk rest.length) stored start (by omega)
    rw [length] at written grown front
    have step : sh.emit (some a) offset text (junk rest.length) =
        .ok (sh.setVfs (sh.vfs.store a m), offset + text.length) := by
      rw [emit_eq found stored.type stored.ops, u32_of_lt (by omega), written]
      rfl
    have found' : (sh.setVfs (sh.vfs.store a m)).vfs.heap a = some m := Function.update_self ..
    have inside : offset + text.length ≤ m.size := by omega
    obtain ⟨sh', m', run, record, stored'', size, bytes⟩ := ih found' stored' inside (by omega)
    refine ⟨sh', m', ?_, record, stored'', ?_, ?_⟩
    · rw [emitAll, step, List.flatten_cons, List.length_append, ← Nat.add_assoc]
      exact run
    · rw [List.flatten_cons, List.length_append]
      omega
    · rw [List.flatten_cons, List.length_append, ← Nat.add_assoc, bytes, front, joined_cons,
        List.append_assoc]

/-- Whatever the chunks and wherever they start, the file stays stored. -/
theorem emitAll_stored {junk : Nat → Nat → Byte} (found : sh.vfs.heap a = some n) (stored : n.Stored)
    (short : ∀ text ∈ chunks, text.length < 2 ^ 32)
    (run : sh.emitAll junk (some a) offset chunks = .ok (sh', offset')) :
    ∃ m, sh'.vfs.heap a = some m ∧ m.Stored := by
  induction chunks generalizing sh n offset with
  | nil =>
    cases run
    exact ⟨n, found, stored⟩
  | cons text rest ih =>
    rw [emitAll] at run
    obtain ⟨⟨sh₁, offset₁⟩, step, run⟩ := bind_ok run
    rw [emit_eq found stored.type stored.ops] at step
    cases written : n.written (u32 offset) text.length (bytesOf text) (junk rest.length) with
    | error fault => simp [written, Except.map] at step
    | ok m =>
      simp only [written, Except.map, Except.ok.injEq, Prod.mk.injEq] at step
      obtain ⟨rfl, rfl⟩ := step
      exact ih (n := m) (Function.update_self ..)
        (written_stored stored (short text List.mem_cons_self) written)
        (fun later member => short later (List.mem_cons_of_mem _ member)) run

/-- One list after another, each with its own fresh memory. -/
theorem emitAll_append (first second : Nat → Nat → Byte) (xs ys : List CString) :
    ∃ junk, ∀ (sh : Shell) output offset, sh.emitAll junk output offset (xs ++ ys) =
      (sh.emitAll first output offset xs).bind fun r => r.1.emitAll second output r.2 ys := by
  let junk k := if k < ys.length then second k else first (k - ys.length)
  have later : ∀ (zs : List CString) (sh : Shell) output offset, zs.length ≤ ys.length →
      sh.emitAll junk output offset zs = sh.emitAll second output offset zs := by
    intro zs
    induction zs with
    | nil =>
      intros
      rfl
    | cons text rest ih =>
      intro sh output offset length
      rw [List.length_cons] at length
      have same : junk rest.length = second rest.length := if_pos (by omega)
      rw [emitAll, emitAll, same]
      exact bind_congr fun r => ih r.1 output r.2 (by omega)
  refine ⟨junk, fun sh output offset => ?_⟩
  induction xs generalizing sh offset with
  | nil => exact later ys sh output offset (Nat.le_refl _)
  | cons text rest ih =>
    have shifted : junk (rest ++ ys).length = first rest.length := by
      rw [List.length_append]
      exact (if_neg (by omega)).trans (congrArg first (by omega))
    rw [List.cons_append, emitAll, emitAll, shifted]
    cases sh.emit output offset text (first rest.length) with
    | error fault => rfl
    | ok r => exact ih r.1 r.2

/-- The names that `command_ls` lists. -/
def listNames (s : Vfs) : (fuel : Nat) → (child : Ptr) → Result (List CString)
  | 0, _ => .error .diverges
  | _ + 1, none => pure []
  | fuel + 1, some child => do
    let n ← s.load child
    match n.name with
    | none => .error .nullDeref
    | some name =>
      let names ← listNames s fuel n.next
      pure (name :: names)

/-- Writing files changes no name and no link. -/
theorem listNames_shape {s s' : Vfs} (same : SameShape s s') (fuel : Nat) (child : Ptr) :
    listNames s' fuel child = listNames s fuel child := by
  induction fuel generalizing child with
  | zero => rfl
  | succ fuel ih =>
    cases child with
    | none => rfl
    | some child =>
      rw [listNames, listNames]
      cases found : s'.heap child with
      | none =>
        rw [load_dead found, load_dead ((part_dead (same.shape child)).mp found)]
        rfl
      | some n =>
        obtain ⟨m, old, shape⟩ := same.backward found
        have name : n.name = m.name := Node.shape_field Node.name (fun _ => rfl) shape
        have next : n.next = m.next := Node.shape_field Node.next (fun _ => rfl) shape
        rw [load_eq found, load_eq old]
        simp only [bind, Except.bind, name, next, ih]

theorem emitAll_shape {junk : Nat → Nat → Byte} {output : Ptr}
    (run : sh.emitAll junk output offset chunks = .ok (sh', offset')) : SameShape sh.vfs sh'.vfs := by
  induction chunks generalizing sh offset with
  | nil =>
    cases run
    exact .refl _
  | cons text rest ih =>
    obtain ⟨⟨sh₁, offset₁⟩, emitted, run⟩ := bind_ok run
    cases output with
    | none =>
      cases emitted
      exact @ih (sh.puts text) _ run
    | some handle =>
      obtain ⟨⟨err, vfs⟩, written, emitted⟩ := bind_ok emitted
      cases emitted
      exact (write_shape written).trans (ih run)

/-- Every child's name is written with a blank behind it. -/
theorem listChildren_emitAll {env : Env} {output child : Ptr} {fuel : Nat}
    (run : listChildren env output fuel sh offset child = .ok (sh', offset')) :
    ∃ junk names, listNames sh.vfs fuel child = .ok names ∧
      sh.emitAll junk output offset (names.flatMap fun name => [name, [' ']]) = .ok (sh', offset') := by
  induction fuel generalizing sh offset child with
  | zero => cases run
  | succ fuel ih =>
    cases child with
    | none =>
      cases run
      exact ⟨env.junk, [], rfl, rfl⟩
    | some child =>
      rw [listChildren] at run
      obtain ⟨n, loaded, run⟩ := bind_ok run
      cases named : n.name with
      | none => simp [named] at run
      | some name =>
        simp only [named] at run
        obtain ⟨⟨sh₁, offset₁⟩, emitted, run⟩ := bind_ok run
        obtain ⟨m, loaded', run⟩ := bind_ok run
        obtain ⟨rest, names, listed, done⟩ := ih run
        have shape := emitAll_shape emitted
        obtain ⟨junk, joint⟩ := emitAll_append (fun k => env.junk (2 * fuel + k + 1)) rest [name, [' ']]
          (names.flatMap fun name => [name, [' ']])
        refine ⟨junk, name :: names, ?_, ?_⟩
        · obtain ⟨k, old, same⟩ := shape.backward (load_ok.mp loaded')
          cases Option.some.inj (old.symm.trans (load_ok.mp loaded))
          have next : m.next = n.next := Node.shape_field Node.next (fun _ => rfl) same
          rw [listNames_shape shape, next] at listed
          simp only [listNames, loaded, bind, Except.bind, named, listed, pure, Except.pure]
        · rw [List.flatMap_cons, joint, emitted]
          exact done

end Shell

/-! ## The commands -/

/-- A command that opened `a` in the given mode emits its chunks. -/
def redirect (junk : Nat → Nat → Byte) (sh : Shell) (mode : WriteMode) (a : Addr)
    (chunks : List CString) : Result Shell := do
  let offset ← sh.startOffset mode (some a)
  let (sh, _) ← sh.emitAll junk (some a) offset chunks
  pure sh

section Commands
variable {env : Env} {args cut : Option CString} {mode : WriteMode} {sh₁ : Shell}

theorem commandHelp_redirect (opened : sh.handleRedirection env args = .ok (some a, mode, cut, sh₁)) :
    sh.commandHelp env args =
      redirect env.junk sh₁ mode a (commands.flatMap fun command => [command.1, ['\n']]) := by
  rw [Shell.commandHelp, opened]
  rfl

theorem commandEcho_redirect (message : args.getD [] ≠ [])
    (opened : sh.handleRedirection env args = .ok (some a, mode, cut, sh₁)) :
    sh.commandEcho env args = redirect env.junk sh₁ mode a [cut.getD [], ['\n']] := by
  rw [Shell.commandEcho, if_neg message, opened]
  rfl

/-- Listing a folder writes the names of its children and a line end. -/
theorem commandLs_redirect {handle : Addr} {path : CString}
    (opened : sh.handleRedirection env args = .ok (some a, mode, cut, sh₁))
    (path_eq : resolvePath sh₁.pwd (some (cut.getD sh₁.pwd)) = .ok path)
    (target : sh₁.vfs.openPath path = .ok (some handle)) (found : sh₁.vfs.heap handle = some n)
    (folder : n.type = .folder) (run : sh.commandLs env args = .ok sh') :
    ∃ junk names, Shell.listNames sh₁.vfs limit n.children = .ok names ∧
      redirect junk sh₁ mode a ((names.flatMap fun name => [name, [' ']]) ++ [['\n']]) = .ok sh' := by
  obtain ⟨_, opened', run⟩ := bind_ok run
  cases Except.ok.inj (opened.symm.trans opened')
  obtain ⟨offset, start, run⟩ := bind_ok run
  obtain ⟨_, path', run⟩ := bind_ok run
  cases Except.ok.inj (path_eq.symm.trans path')
  obtain ⟨_, target', run⟩ := bind_ok run
  cases Except.ok.inj (target.symm.trans target')
  obtain ⟨m, found', run⟩ := bind_ok run
  cases Option.some.inj (found.symm.trans (load_ok.mp found'))
  rw [if_neg (not_not.mpr folder)] at run
  obtain ⟨⟨sh₂, offset₂⟩, listed, run⟩ := bind_ok run
  obtain ⟨⟨sh₃, offset₃⟩, ended, run⟩ := bind_ok run
  cases run
  obtain ⟨first, names, named, emitted⟩ := Shell.listChildren_emitAll listed
  obtain ⟨junk, joint⟩ := Shell.emitAll_append first (fun _ => env.junk 0)
    (names.flatMap fun name => [name, [' ']]) [['\n']]
  refine ⟨junk, names, named, ?_⟩
  rw [redirect, start]
  change (sh₁.emitAll junk (some a) offset _ >>= _) = _
  rw [joint, emitted]
  change ((sh₂.emit (some a) offset₂ ['\n'] (env.junk 0) >>= _) >>= _) = _
  rw [ended]
  rfl

end Commands

/-! ## Truncating -/

/-- The file holds the output and nothing else. -/
def HoldsOutput (sh : Shell) (a : Addr) (chunks : List CString) : Prop :=
  ∃ n, sh.vfs.heap a = some n ∧ n.size = chunks.flatten.length ∧ n.content = joined chunks

/-- Truncating redirection leaves exactly the output if and only if the file was
not longer than the output before. -/
theorem truncate_holdsOutput_iff (junk : Nat → Nat → Byte) (found : sh.vfs.heap a = some n)
    (stored : n.Stored) (short : ∀ text ∈ chunks, text.length < 2 ^ 32) :
    (∃ sh', redirect junk sh .truncate a chunks = .ok sh' ∧ HoldsOutput sh' a chunks) ↔
      n.size ≤ chunks.flatten.length ∧ chunks.flatten.length < 2 ^ 32 := by
  have emitted : redirect junk sh .truncate a chunks =
      (sh.emitAll junk (some a) 0 chunks).map (fun r => r.1) := by
    simp only [redirect, Shell.startOffset, bind, Except.bind, pure, Except.pure]
    cases sh.emitAll junk (some a) 0 chunks <;> rfl
  rw [emitted]
  constructor
  · rintro ⟨sh', done, m, record, size, _⟩
    cases run : sh.emitAll junk (some a) 0 chunks with
    | error fault => simp [run, Except.map] at done
    | ok result =>
      obtain ⟨sh₁, offset'⟩ := result
      simp only [run, Except.map, Except.ok.injEq] at done
      subst done
      obtain ⟨m', record', stored'⟩ := Shell.emitAll_stored found stored short run
      cases Option.some.inj (record.symm.trans record')
      have word := stored'.word
      refine ⟨?_, size ▸ word⟩
      obtain ⟨sh₂, m₂, run', record₂, _, grown, _⟩ :=
        Shell.emitAll_ok junk chunks found stored (Nat.zero_le _) (show 0 + _ < _ by omega)
      rw [run] at run'
      cases run'
      cases Option.some.inj (record.symm.trans record₂)
      omega
  · rintro ⟨old, word⟩
    obtain ⟨sh', m, run, record, _, grown, bytes⟩ :=
      Shell.emitAll_ok junk chunks found stored (Nat.zero_le _) (show 0 + _ < _ by omega)
    rw [Nat.zero_add, Nat.max_eq_right old] at grown
    refine ⟨sh', by rw [run]; rfl, m, record, grown, ?_⟩
    rw [Node.content, grown, ← Nat.zero_add chunks.flatten.length, bytes, List.take_zero, List.nil_append]

/-- The file `ramfs_create` leaves behind is stored. -/
theorem created_stored {t s : Vfs} {d : Addr} {name : CString}
    (created : t.ramfsCreate d name .file a = .ok (.success, some a, s)) :
    ∃ n, s.heap a = some n ∧ n.Stored ∧ n.size = 0 := by
  obtain ⟨n, found, type, ops, size, _⟩ := ramfsCreate_record created
  exact ⟨n, found, ⟨type, ops, by omega, by omega⟩, size⟩

/-- Chunks written to `a` from offset zero or from its end. -/
def RedirectStep (a : Addr) (sh : Shell) (call : WriteMode × List CString) (sh' : Shell) : Prop :=
  (∀ text ∈ call.2, text.length < 2 ^ 32) ∧ ∃ junk, redirect junk sh call.1 a call.2 = .ok sh'

theorem RedirectStep.stored {call : WriteMode × List CString} (found : sh.vfs.heap a = some n)
    (stored : n.Stored) (step : RedirectStep a sh call sh') : ∃ m, sh'.vfs.heap a = some m ∧ m.Stored := by
  obtain ⟨short, junk, run⟩ := step
  obtain ⟨offset, _, run⟩ := bind_ok run
  obtain ⟨⟨sh₁, offset'⟩, emitted, run⟩ := bind_ok run
  cases run
  exact Shell.emitAll_stored found stored short emitted

/-- What `echo hello` writes. -/
def hello : List CString := ["hello".toList, ['\n']]

/-- `echo hello` into a file with a line that is shorter. -/
theorem truncate_hello : ∃ s sh n, (boot 0).ramfsCreate 0 "f".toList .file 1 = .ok (.success, some 1, s) ∧
    redirect (fun _ _ => 0) ⟨s, ['/'], []⟩ .truncate 1 ["hi".toList, ['\n']] = .ok sh ∧
    sh.vfs.heap 1 = some n ∧ n.size = 3 ∧
    ∃ sh', redirect (fun _ _ => 0) sh .truncate 1 hello = .ok sh' ∧ HoldsOutput sh' 1 hello := by
  have tested : ((boot 0).ramfsCreate 0 "f".toList .file 1).toOption.any (fun r =>
      r.1 = .success ∧ r.2.1 = some 1 ∧
      (redirect (fun _ _ => 0) ⟨r.2.2, ['/'], []⟩ .truncate 1 ["hi".toList, ['\n']]).toOption.any (fun sh =>
        (sh.vfs.heap 1).any (fun n => n.size = 3) = true) = true) = true := by decide +kernel
  obtain ⟨⟨err, new, s⟩, created, passed⟩ := (Option.any_eq_true _ _).mp tested
  obtain ⟨rfl, rfl, passed⟩ := of_decide_eq_true passed
  obtain ⟨sh, written, passed⟩ := (Option.any_eq_true _ _).mp passed
  obtain ⟨n, found, three⟩ := (Option.any_eq_true _ _).mp (of_decide_eq_true passed)
  have size := of_decide_eq_true three
  have created := ok_of_toOption created
  have written := ok_of_toOption written
  obtain ⟨n₀, found₀, stored₀, _⟩ := created_stored created
  have opened : (Shell.mk s ['/'] []).vfs.heap 1 = some n₀ := found₀
  have step : RedirectStep 1 (Shell.mk s ['/'] []) (.truncate, ["hi".toList, ['\n']]) sh :=
    ⟨by decide, _, written⟩
  obtain ⟨m, found', stored⟩ := RedirectStep.stored opened stored₀ step
  cases Option.some.inj (found.symm.trans found')
  refine ⟨s, sh, n, created, written, found, size,
    (truncate_holdsOutput_iff (fun _ _ => 0) found stored ?_).mpr ?_⟩
  · decide
  · rw [size]
    decide

/-- `echo hello > f` and then `echo a > f` leave six bytes in `f`. -/
theorem truncate_keepsTail : ∃ sh sh₁ sh₂ : Shell,
    (Shell.init 0).commandEcho ⟨1, fun _ _ => 0, fun _ => 0⟩ (some "hello > f".toList) = .ok sh ∧
    sh.handleRedirection ⟨2, fun _ _ => 0, fun _ => 0⟩ (some "a > f".toList) =
      .ok (some 1, .truncate, some "a ".toList, sh₁) ∧
    redirect (fun _ _ => 0) sh₁ .truncate 1 ["a ".toList, ['\n']] = .ok sh₂ ∧
    ¬ HoldsOutput sh₂ 1 ["a ".toList, ['\n']] := by
  have tested :
      ((Shell.init 0).commandEcho ⟨1, fun _ _ => 0, fun _ => 0⟩ (some "hello > f".toList)).toOption.any (fun sh =>
        (sh.handleRedirection ⟨2, fun _ _ => 0, fun _ => 0⟩ (some "a > f".toList)).toOption.any (fun r =>
          r.1 = some 1 ∧ r.2.1 = .truncate ∧ r.2.2.1 = some "a ".toList ∧
          (redirect (fun _ _ => 0) r.2.2.2 .truncate 1 ["a ".toList, ['\n']]).toOption.any (fun sh' =>
            (sh'.vfs.heap 1).any (fun n => n.size = 7) = true) = true) = true) = true := by
    decide +kernel
  obtain ⟨sh, echoed, passed⟩ := (Option.any_eq_true _ _).mp tested
  obtain ⟨⟨output, mode, cut, sh₁⟩, opened, passed⟩ :=
    (Option.any_eq_true _ _).mp (of_decide_eq_true passed)
  obtain ⟨rfl, rfl, rfl, passed⟩ := of_decide_eq_true passed
  obtain ⟨sh₂, done, passed⟩ := (Option.any_eq_true _ _).mp passed
  obtain ⟨n, found, size⟩ := (Option.any_eq_true _ _).mp (of_decide_eq_true passed)
  refine ⟨sh, sh₁, sh₂, ok_of_toOption echoed, ok_of_toOption opened, ok_of_toOption done, ?_⟩
  rintro ⟨m, found', three, _⟩
  cases Option.some.inj (found.symm.trans found')
  have seven := of_decide_eq_true size
  have total : (["a ".toList, ['\n']] : List CString).flatten.length = 3 := by decide
  omega

/-! ## Appending -/

/-- From a created file, after any writes from offset zero and appends: appended
chunks follow what the file held. -/
theorem append_content {t : Vfs} {d : Addr} {name : CString} (junk : Nat → Nat → Byte)
    (created : t.ramfsCreate d name .file a = .ok (.success, some a, sh.vfs))
    (reached : Reachable (RedirectStep a) sh sh') (found : sh'.vfs.heap a = some n)
    (room : n.size + chunks.flatten.length < 2 ^ 31) :
    ∃ sh'' m, redirect junk sh' .append a chunks = .ok sh'' ∧ sh''.vfs.heap a = some m ∧
      m.size = n.size + chunks.flatten.length ∧ m.content = n.content ++ joined chunks := by
  obtain ⟨n₀, found₀, stored₀, _⟩ := created_stored created
  obtain ⟨n', found', stored⟩ := reached.invariant
    (I := fun sh => ∃ n, sh.vfs.heap a = some n ∧ n.Stored)
    (fun _ _ _ held step => by
      obtain ⟨_, found, stored⟩ := held
      exact RedirectStep.stored found stored step) ⟨n₀, found₀, stored₀⟩
  cases Option.some.inj (found.symm.trans found')
  obtain ⟨sh'', m, run, record, _, size, bytes⟩ :=
    Shell.emitAll_ok junk chunks found stored (Nat.le_refl _) (by omega)
  rw [Nat.max_eq_right (Nat.le_add_right ..)] at size
  refine ⟨sh'', m, ?_, record, size, ?_⟩
  · have start : sh'.startOffset .append (some a) = .ok n.size := by
      simp only [Shell.startOffset, load_eq found, bind, Except.bind]
      rfl
    rw [redirect, start]
    change (sh'.emitAll junk (some a) n.size chunks >>= _) = _
    rw [run]
    rfl
  · rw [Node.content, size, bytes, Node.content]

/-- An empty chunk to a new file, the word from the start, and the word again behind it. -/
theorem append_hello : ∃ s, (boot 0).ramfsCreate 0 "f".toList .file 1 = .ok (.success, some 1, s) ∧
    ∃ sh' n, Run (RedirectStep 1) ⟨s, ['/'], []⟩ [(.append, [[]]), (.truncate, hello)] sh' ∧
      sh'.vfs.heap 1 = some n ∧
      ∃ sh'' m, redirect (fun _ _ => 0) sh' .append 1 hello = .ok sh'' ∧ sh''.vfs.heap 1 = some m ∧
        m.size = n.size + hello.flatten.length ∧ m.content = n.content ++ joined hello := by
  have tested : ((boot 0).ramfsCreate 0 "f".toList .file 1).toOption.any (fun r =>
      r.1 = .success ∧ r.2.1 = some 1 ∧
      (redirect (fun _ _ => 0) ⟨r.2.2, ['/'], []⟩ .append 1 [[]]).toOption.any (fun sh₁ =>
        (redirect (fun _ _ => 0) sh₁ .truncate 1 hello).toOption.any (fun sh₂ =>
          (sh₂.vfs.heap 1).any (fun n => n.size = 6) = true) = true) = true) = true := by
    decide +kernel
  obtain ⟨⟨err, new, s⟩, created, passed⟩ := (Option.any_eq_true _ _).mp tested
  obtain ⟨rfl, rfl, passed⟩ := of_decide_eq_true passed
  have created := ok_of_toOption created
  obtain ⟨sh₁, first, passed⟩ := (Option.any_eq_true _ _).mp passed
  obtain ⟨sh₂, second, passed⟩ := (Option.any_eq_true _ _).mp (of_decide_eq_true passed)
  obtain ⟨n, found, size⟩ := (Option.any_eq_true _ _).mp (of_decide_eq_true passed)
  have size := of_decide_eq_true size
  have run : Run (RedirectStep 1) ⟨s, ['/'], []⟩ [(.append, [[]]), (.truncate, hello)] sh₂ :=
    .next ⟨by decide, _, ok_of_toOption first⟩ (.single ⟨by decide, _, ok_of_toOption second⟩)
  have total : hello.flatten.length = 6 := by decide
  exact ⟨s, created, sh₂, n, run, found, append_content _ created ⟨_, run⟩ found (by omega)⟩

end Laomb.Fshell
