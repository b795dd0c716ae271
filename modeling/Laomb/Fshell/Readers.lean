import Laomb.Fshell.Outputs
import Laomb.Fshell.PathBuffers

/-! The two commands that read a whole file into a buffer, after any lines typed before. -/
namespace Laomb.Fshell
open VFS Word Vfs Transition

/-- `command_cat` prints the whole file and no more if a zero follows on its stack. -/
structure Readable (n : Node) : Prop where
  filled : n.Filled
  short : n.size < bufferSize
  text : (0 : Byte) ∉ n.content

/-- With `text` at `offset` nothing of the file is cleared, and it stays short. -/
structure TextFits (n : Node) (offset : Nat) (text : List Byte) : Prop where
  covers : n.size ≤ offset + text.length
  short : offset + text.length < bufferSize
  nonzero : (0 : Byte) ∉ text

variable {s s' : Vfs} {sh sh' sh₁ : Shell} {a handle : Addr} {n m : Node} {offset pos : Nat}
  {text buffer : List Byte} {texts : List (List Byte)} {err : Err} {env : Env}
  {args cut : Option CString} {mode : WriteMode} {output : Ptr} {path : CString} {key : Char}
    {keys : List Char}

theorem readable_core (n m : Node) (same : n.core = m.core) (readable : Readable m) : Readable n := by
  have size : n.size = m.size := by simpa only [Node.core] using congrArg Node.size same
  have data := Node.core_data same
  have buffer : n.buffer = m.buffer := by rw [Node.buffer, Node.buffer, data]
  obtain ⟨⟨⟨type, ops, word, covered⟩, length⟩, short, text⟩ := readable
  refine ⟨⟨⟨(Node.core_type same).trans type, (Node.core_ops same).trans ops, ?_, ?_⟩, ?_⟩, ?_, ?_⟩
  · rwa [size]
  · rwa [size, buffer]
  · rwa [size, buffer]
  · rwa [size]
  · rwa [Node.content, size, buffer]

theorem newNode_readable (name : CString) (d : Addr) : Readable (newNode name .file d) :=
  ⟨⟨⟨rfl, rfl, show 0 < 2 ^ 32 by decide, Nat.le_refl _⟩, rfl⟩, show 0 < bufferSize by decide,
    List.not_mem_nil⟩

theorem all_filled (all : EveryFile Readable s) : EveryFile Node.Filled s :=
  fun a n found type => (all a n found type).filled

theorem Extends.readable (extended : Extends n offset text m) (front : (0 : Byte) ∉ n.content.take offset)
    (fits : TextFits n offset text) : Readable m := by
  have size := extended.size
  have covers := fits.covers
  have short := fits.short
  refine ⟨extended.filled, by omega, ?_⟩
  rw [extended.content, Nat.sub_eq_zero_of_le covers, List.replicate_zero, List.append_nil, List.mem_append]
  rintro (earlier | inside)
  · exact front earlier
  · exact fits.nonzero inside

theorem Received.readable (all : EveryFile Readable s) (received : Received s a mode text s')
    (fits : ∀ n, s.heap a = some n → n.type = .file → TextFits n (mode.start n) text) :
    EveryFile Readable s' := by
  obtain ⟨n, found, wrote⟩ := received
  rcases wrote with ⟨m, k, found', type, extended, rfl⟩ | ⟨_, rfl⟩
  · cases Option.some.inj (found.symm.trans found')
    have old := (all a n found type).text
    exact all.store fun _ => extended.readable (fun early => old (List.mem_of_mem_take early))
      (fits n found type)
  · exact all

theorem handleRedirection_readable (all : EveryFile Readable sh.vfs)
    (run : sh.handleRedirection env args = .ok (output, mode, cut, sh₁)) : EveryFile Readable sh₁.vfs := by
  rcases Shell.handleRedirection_vfs run with same | ⟨args, full, err, _, _, created⟩
  · rwa [same]
  · exact create_everyFile all readable_core newNode_readable created

/-! ## The editor -/

/-- The text in front of `buffer_pos` after one key. -/
def typeKey (text : List Byte) (key : Char) : List Byte :=
  if key = 'w' ∨ key = 's' ∨ key = 'a' ∨ key = 'd' then text
  else if key = '\x7F' then text.dropLast
  else if text.length < editorSize - 1 then text ++ [BitVec.ofNat 8 key.toNat]
  else text

/-- The texts that the tabs among the keys save. -/
def saves (text : List Byte) : List Char → List (List Byte)
  | [] => []
  | key :: keys => if key = '\t' then text :: saves text keys else saves (typeKey text key) keys

/-- The buffer of the editor with `text` in front of `buffer_pos`. -/
structure Typed (buffer text : List Byte) : Prop where
  length : buffer.length = editorSize
  inside : text.length < editorSize
  front : buffer.take text.length = text

/-- One file is saved over and over. -/
def Saved (a : Addr) : Vfs → List (List Byte) → Vfs → Prop
  | s, [], s' => s' = s
  | s, text :: texts, s' => ∃ s₁, Wrote s a 0 text s₁ ∧ Saved a s₁ texts s'

theorem typed_key (env : Env) (handle : Addr) (sh : Shell) (typed : Typed buffer text) (other : key ≠ '\t') :
    ∃ buffer', sh.editKey env handle buffer text.length key = .ok (sh, buffer', (typeKey text key).length) ∧
      Typed buffer' (typeKey text key) := by
  obtain ⟨length, inside, front⟩ := typed
  unfold Shell.editKey typeKey
  by_cases cursor : key = 'w' ∨ key = 's' ∨ key = 'a' ∨ key = 'd'
  · rw [if_pos cursor, if_pos cursor]
    exact ⟨_, rfl, length, inside, front⟩
  rw [if_neg cursor, if_neg cursor]
  by_cases back : key = '\x7F'
  · rw [if_pos back, if_pos back]
    by_cases present : 0 < text.length
    · rw [if_pos present, List.length_dropLast]
      refine ⟨_, rfl, ?_, ?_, ?_⟩
      · rw [List.length_set, length]
      · rw [List.length_dropLast]
        omega
      · rw [List.length_dropLast, List.take_set_of_le (Nat.le_refl _), List.dropLast_eq_take, ← front,
          List.take_take, front, Nat.min_eq_left (Nat.sub_le ..)]
    · rw [if_neg present]
      have empty : text = [] := List.eq_nil_of_length_eq_zero (by omega)
      subst empty
      exact ⟨_, rfl, length, inside, front⟩
  rw [if_neg back, if_neg back, if_neg other]
  by_cases room : text.length < editorSize - 1
  · rw [if_pos room, if_pos room]
    have longer : (text ++ [BitVec.ofNat 8 key.toNat]).length = text.length + 1 := by simp
    rw [longer]
    refine ⟨_, rfl, ?_, ?_, ?_⟩
    · rw [List.length_set, length]
    · omega
    · rw [longer, List.take_add_one, List.take_set_of_le (Nat.le_refl _), front,
        List.getElem?_set_self (by omega)]
      rfl
  · rw [if_neg room, if_neg room]
    exact ⟨_, rfl, length, inside, front⟩

theorem editKeys_saved (filled : EveryFile Node.Filled sh.vfs) (typed : Typed buffer text)
    (run : sh.editKeys env handle buffer text.length keys = .ok sh') :
    Saved handle sh.vfs (saves text keys) sh'.vfs := by
  induction keys generalizing sh buffer text with
  | nil =>
    cases run
    rfl
  | cons key keys ih =>
    obtain ⟨⟨sh₁, buffer₁, pos₁⟩, pressed, run⟩ := bind_ok run
    by_cases save : key = '\t'
    · subst save
      obtain ⟨⟨err, vfs⟩, written, pressed⟩ := bind_ok pressed
      cases pressed
      have inside := typed.inside
      rw [write_front (by rw [typed.length]; exact inside.le), typed.front] at written
      have word : 0 + text.length < 2 ^ 32 := by
        rw [Nat.zero_add]
        exact inside.trans (by decide)
      have wrote := write_wrote filled (fun _ _ _ => Nat.zero_le _) word written
      refine ⟨vfs, wrote, ?_⟩
      exact @ih (sh.setVfs vfs) _ _ (wrote.filled filled) typed run
    · obtain ⟨buffer', pressed', typed'⟩ := typed_key env handle sh typed save
      cases Except.ok.inj (pressed.symm.trans pressed')
      rw [saves, if_neg save]
      exact ih filled typed' run

/-- The last text saved is short and clears nothing of what the file was before. -/
def SavesFit (n : Node) (texts : List (List Byte)) : Prop :=
  ∀ last ∈ texts.getLast?, TextFits n 0 last ∧ ∀ text ∈ texts, text.length ≤ last.length

theorem Saved.readable (filled : EveryFile Node.Filled s) (others : ∀ b ≠ a, ∀ n, s.heap b = some n →
    n.type = .file → Readable n) (unsaved : texts = [] → EveryFile Readable s)
    (fits : ∀ n, s.heap a = some n → n.type = .file → SavesFit n texts) (saved : Saved a s texts s') :
    EveryFile Readable s' := by
  induction texts generalizing s with
  | nil =>
    cases saved
    exact unsaved rfl
  | cons text rest ih =>
    obtain ⟨s₁, wrote, saved⟩ := saved
    rcases wrote with ⟨n, m, found, type, extended, rfl⟩ | ⟨⟨n, found, other⟩, rfl⟩
    · have fit := fits n found type
      have elsewhere : ∀ b ≠ a, (s.store a m).heap b = s.heap b :=
        fun b other => Function.update_of_ne other ..
      have again : (s.store a m).heap a = some m := Function.update_self ..
      refine ih (filled.store fun _ => extended.filled) (fun b other k found' => ?_) (fun last => ?_)
        (fun k found' _ => ?_) saved
      · rw [elsewhere b other] at found'
        exact others b other k found'
      · subst last
        obtain ⟨fit, _⟩ := fit text rfl
        have readable : Readable m := extended.readable List.not_mem_nil fit
        intro b k found' type'
        by_cases same : b = a
        · rw [same, again] at found'
          cases found'
          exact readable
        · rw [elsewhere b same] at found'
          exact others b same k found' type'
      · rw [again] at found'
        cases found'
        intro last lastOf
        have ends : last ∈ (text :: rest).getLast? := List.mem_getLast?_cons lastOf
        obtain ⟨⟨covers, short, nonzero⟩, longest⟩ := fit last ends
        have first := longest text List.mem_cons_self
        have size := extended.size
        refine ⟨⟨by omega, short, nonzero⟩, fun text member => longest text (List.mem_cons_of_mem _ member)⟩
    · refine ih filled others (fun _ => ?_) (fun k found' type => ?_) saved
      · intro b k found' type
        by_cases same : b = a
        · rw [same, found] at found'
          cases found'
          exact absurd type other
        · exact others b same k found' type
      · rw [found] at found'
        cases found'
        exact absurd type other

/-! ## Lines -/

/-- What the command writes to a redirected file fits there. -/
def Command.Bounded (env : Env) (sh : Shell) (args : Option CString) (command : Command) : Prop :=
  command.redirects = true → ∀ a mode cut sh₁ text n,
    sh.handleRedirection env args = .ok (some a, mode, cut, sh₁) → sh₁.output cut command = .ok text →
    sh₁.vfs.heap a = some n → n.type = .file → TextFits n (mode.start n) text

/-- What the line writes to a redirected file fits there, and so does what it saves in
the editor. -/
def Line.Bounded (sh : Shell) (line : Line) : Prop :=
  line.command ≠ [] →
    match commands.find? (fun entry => entry.1 = line.command) with
    | some entry => entry.2.Bounded line.env sh line.args
    | none => line.command = "edit".toList → ∀ path a n, resolvePath sh.pwd line.args = .ok path →
        sh.vfs.openPath path = .ok (some a) → sh.vfs.heap a = some n → n.type = .file →
        SavesFit n (saves [] line.keys)

theorem redirected_readable {command : Command} (all : EveryFile Readable sh.vfs)
    (redirects : command.redirects = true) (bounded : command.Bounded env sh args)
    (run : command.run env sh args = .ok sh') : EveryFile Readable sh'.vfs := by
  rcases command_opened redirects run with same | ⟨output, mode, cut, sh₁, opened, writes⟩
  · rwa [same]
  have all₁ := handleRedirection_readable all opened
  cases output with
  | none => rwa [writes.none_eq]
  | some a =>
    have fits := bounded redirects a mode cut sh₁
    obtain ⟨text, made, received⟩ := command_received (all_filled all₁) redirects opened
      (fun text made n found type => (fits text n opened made found type).short.trans (by decide)) run
    exact received.readable all₁ fun n found type => fits text n opened made found type

theorem command_readable {command : Command} (all : EveryFile Readable sh.vfs)
    (bounded : command.Bounded env sh args) (run : command.run env sh args = .ok sh') :
    EveryFile Readable sh'.vfs := by
  cases command with
  | help | echo | ls | cat => exact redirected_readable all rfl bounded run
  | clear =>
    cases run
    exact all
  | cd =>
    rw [Shell.commandCd_vfs run]
    exact all
  | mkdir =>
    rcases Shell.commandMkdir_vfs run with same | ⟨full, err, _, _, created⟩
    · rwa [same]
    · exact create_everyFile all readable_core newNode_readable created
  | touch =>
    rcases Shell.commandTouch_vfs run with same | ⟨args, full, err, _, _, created⟩
    · rwa [same]
    · exact create_everyFile all readable_core newNode_readable created
  | rm =>
    rcases Shell.commandRm_vfs run with same | ⟨a, err, removed⟩
    · rwa [same]
    · exact all.kept (remove_kept removed) readable_core
  | rmdir =>
    rcases Shell.commandRmdir_vfs run with same | ⟨a, err, removed⟩
    · rwa [same]
    · exact all.kept (remove_kept removed) readable_core

theorem textEditor_readable (all : EveryFile Readable sh.vfs)
    (fits : ∀ a n, sh.vfs.openPath path = .ok (some a) →
    sh.vfs.heap a = some n → n.type = .file → SavesFit n (saves [] keys))
    (run : sh.textEditor env keys path = .ok sh') : EveryFile Readable sh'.vfs := by
  obtain ⟨found, opened, run⟩ := bind_ok run
  cases found with
  | none => cases run
  | some handle =>
    obtain ⟨n, loaded, run⟩ := bind_ok run
    split at run
    · cases run
    · split at run
      · cases run
      · obtain ⟨⟨_, bytes⟩, _, run⟩ := bind_ok run
        have typed : Typed (overwrite ((List.range editorSize).map (env.junk 1)) 0 bytes) [] := by
          refine ⟨?_, by decide, rfl⟩
          rw [overwrite_length, List.length_map, List.length_range]
        have saved : Saved handle sh.vfs (saves [] keys) sh'.vfs :=
          @editKeys_saved (((sh.puts " ------------ ".toList).puts path).puts " ------------ \n".toList)
            _ _ _ _ _ _ (all_filled all) typed run
        exact saved.readable (all_filled all) (fun b _ n found type => all b n found type) (fun _ => all)
          (fun n found type => fits handle n opened found type)

theorem executeLine_readable {line : Line} (all : EveryFile Readable sh.vfs) (bounded : line.Bounded sh)
    (run : sh.executeLine line = .ok sh') : EveryFile Readable sh'.vfs := by
  obtain ⟨command, copied, run⟩ := bind_ok run
  obtain ⟨next, executed, run⟩ := bind_ok run
  cases run
  change EveryFile Readable next.vfs
  cases copyString_ok copied
  unfold Shell.executeCommand at executed
  split at executed
  · cases executed
    exact all
  · rename_i nonempty
    have bounded := bounded nonempty
    split at executed
    · rename_i entry known
      rw [known] at bounded
      exact command_readable all bounded executed
    · rename_i unknown
      rw [unknown] at bounded
      split at executed
      · rename_i edit
        obtain ⟨path, resolved, executed⟩ := bind_ok executed
        exact textEditor_readable all (fun a n opened found type =>
          bounded edit path a n resolved opened found type) executed
      · cases executed
        exact all

/-! ## Reading -/

/-- `command_cat` gets to its file `n`, with `output` for the bytes and `sh₁` behind
`handle_redirection`. -/
def CatOpens (env : Env) (sh : Shell) (args : Option CString) (output : Ptr) (sh₁ : Shell)
    (n : Node) : Prop :=
  args.getD [] ≠ [] ∧ n.type = .file ∧ ∃ mode cut path a,
    sh.handleRedirection env args = .ok (output, mode, cut, sh₁) ∧ resolvePath sh₁.pwd cut = .ok path ∧
      sh₁.vfs.openPath path = .ok (some a) ∧ sh₁.vfs.heap a = some n

/-- Both readers copy `handle->size` bytes; what `cat` prints is the file and a line end. -/
def Line.ReadsWell (sh : Shell) (line : Line) : Prop :=
  (line.command = "cat".toList → ∀ output sh₁ n, CatOpens line.env sh line.args output sh₁ n →
    n.size ≤ bufferSize ∧ (output = none → ∃ sh', sh.commandCat line.env line.args = .ok sh' ∧
      sh'.console = sh₁.console ++ textOf n.content ++ ['\n'])) ∧
  (line.command = "edit".toList → ∀ path a n, resolvePath sh.pwd line.args = .ok path →
    sh.vfs.openPath path = .ok (some a) → sh.vfs.heap a = some n → n.type = .file → n.size ≤ editorSize)

/-- The byte behind the file in the buffer of `cat`, which nothing sets, is zero. -/
def Line.Terminated (sh : Shell) (line : Line) : Prop :=
  line.command = "cat".toList → ∀ sh₁ n, CatOpens line.env sh line.args none sh₁ n → line.env.stack n.size = 0

theorem catBuffer_eq (filled : n.Filled) (fits : n.size ≤ bufferSize) :
    catBuffer env n = n.content ++ ((List.range bufferSize).map env.stack).drop n.size := by
  have length := content_length filled
  rw [← List.take_append_drop n.size (catBuffer env n), catBuffer_take env filled fits]
  refine congrArg (n.content ++ ·) (List.ext_getElem? fun i => ?_)
  rw [List.getElem?_drop, List.getElem?_drop, catBuffer, overwrite_behind (by omega)]

/-- Up to the first zero there is exactly the file if a zero follows it. -/
theorem takeWhile_content_iff (readable : Readable n) :
    (catBuffer env n).takeWhile (· ≠ 0) = n.content ↔ env.stack n.size = 0 := by
  have short := readable.short
  have length : ((List.range bufferSize).map env.stack).length = bufferSize := by
    rw [List.length_map, List.length_range]
  have nonzero : ∀ b ∈ n.content, decide (b ≠ 0) = true := fun b member =>
    decide_eq_true fun zero => readable.text (zero ▸ member)
  have behind : n.size < ((List.range bufferSize).map env.stack).length := by rwa [length]
  have next : ((List.range bufferSize).map env.stack)[n.size] = env.stack n.size := by
    rw [List.getElem_map, List.getElem_range]
  rw [catBuffer_eq readable.filled short.le, List.takeWhile_append_of_pos nonzero, List.append_right_eq_self,
    List.drop_eq_getElem_cons behind, next]
  simp

theorem zero_mem_catBuffer (readable : Readable n) (zero : env.stack n.size = 0) : 0 ∈ catBuffer env n := by
  rw [catBuffer_eq readable.filled readable.short.le]
  refine List.mem_append_right _ (List.mem_iff_getElem?.mpr ⟨0, ?_⟩)
  rw [List.getElem?_drop, Nat.add_zero, List.getElem?_map, List.getElem?_range readable.short,
    Option.map_some, zero]

theorem textOf_injective : Function.Injective textOf := by
  have back : ∀ b : Byte, BitVec.ofNat 8 (Char.ofNat b.toNat).toNat = b := by decide +kernel
  exact List.map_injective_iff.mpr fun b c same => by rw [← back b, same, back c]

/-- `command_cat` from its file on, without redirection. -/
theorem commandCat_eq (opens : CatOpens env sh args none sh₁ n) (filled : EveryFile Node.Filled sh₁.vfs)
    (fits : n.size ≤ bufferSize) : sh.commandCat env args =
      if 0 ∈ catBuffer env n then
        .ok ((sh₁.puts (textOf ((catBuffer env n).takeWhile (· ≠ 0)))).puts ['\n'])
      else .error .outOfBounds := by
  obtain ⟨given, type, mode, cut, path, a, opened, resolved, target, found⟩ := opens
  have started : ∃ offset, sh₁.startOffset mode none = .ok offset := by
    cases mode <;> exact ⟨0, rfl⟩
  obtain ⟨offset, started⟩ := started
  rw [Shell.commandCat, if_neg given, opened]
  simp only [bind, Except.bind, started, resolved, target, load_eq found, type, ne_eq, not_true_eq_false,
    if_false, Nat.not_lt.mpr fits, vfsRead_content found (filled a n found type)]
  rfl

theorem cat_prints_iff (opens : CatOpens env sh args none sh₁ n) (all : EveryFile Readable sh₁.vfs) :
    (∃ sh', sh.commandCat env args = .ok sh' ∧ sh'.console = sh₁.console ++ textOf n.content ++ ['\n']) ↔
      env.stack n.size = 0 := by
  have readable : Readable n := by
    obtain ⟨_, type, _, _, _, a, _, _, _, found⟩ := opens
    exact all a n found type
  rw [commandCat_eq opens (all_filled all) readable.short.le, ← takeWhile_content_iff readable]
  constructor
  · rintro ⟨sh', run, console⟩
    split at run
    · cases run
      have same := List.append_cancel_right console
      exact textOf_injective (List.append_cancel_left same)
    · cases run
  · intro same
    rw [if_pos (zero_mem_catBuffer readable ((takeWhile_content_iff readable).mp same)), same]
    exact ⟨_, rfl, rfl⟩

/-- In a run of typed lines whose output and saves all fit, every file stays shorter than
the buffers, and `cat` prints exactly its bytes if and only if a zero follows them on
the stack. -/
theorem run_readsWell (root : Addr)
    (reached : Reachable (Along LineStep fun sh line => line.Bounded sh) (Shell.init root) sh) (line : Line) :
    line.ReadsWell sh ↔ line.Terminated sh := by
  have start : EveryFile Readable (Shell.init root).vfs := by
    have empty : EveryFile Readable ⟨fun _ => none, none, [], []⟩ := fun _ _ found => nomatch found
    have top : rootNode.type = .file → Readable rootNode := fun file => nomatch file
    exact empty.store (a := root) top
  have all : EveryFile Readable sh.vfs :=
    reached.invariant (I := fun sh => EveryFile Readable sh.vfs)
      (fun _ _ _ all step => executeLine_readable all step.2 step.1.2) start
  have behind : ∀ {env args output sh₁ n}, CatOpens env sh args output sh₁ n →
      EveryFile Readable sh₁.vfs ∧ Readable n := by
    rintro env args output sh₁ n ⟨_, type, _, _, _, a, opened, _, _, found⟩
    have all₁ := handleRedirection_readable all opened
    exact ⟨all₁, all₁ a n found type⟩
  constructor
  · intro reads cat sh₁ n opens
    exact (cat_prints_iff opens (behind opens).1).mp ((reads.1 cat none sh₁ n opens).2 rfl)
  · intro terminated
    refine ⟨fun cat output sh₁ n opens => ⟨(behind opens).2.short.le, ?_⟩, fun _ _ a n _ _ found type => ?_⟩
    · rintro rfl
      exact (cat_prints_iff opens (behind opens).1).mpr (terminated cat sh₁ n opens)
    · exact (all a n found type).short.le.trans (by decide)

/-- The output of the command as it is, if it has a file to go to. -/
def Command.bounded (env : Env) (sh : Shell) (args : Option CString) (command : Command) : Bool :=
  (sh.handleRedirection env args).toOption.all fun opened => opened.1.all fun a =>
    (opened.2.2.2.output opened.2.2.1 command).toOption.any fun text =>
      (opened.2.2.2.vfs.heap a).any fun n => n.size ≤ opened.2.1.start n + text.length ∧
        opened.2.1.start n + text.length < bufferSize ∧ text.all (fun byte => byte ≠ 0) = true

def boundedLine (sh : Shell) (line : Line) : Bool :=
  match commands.find? (fun entry => entry.1 = line.command) with
  | some entry => entry.2.bounded line.env sh line.args
  | none => line.command ≠ "edit".toList

theorem command_bounded {command : Command} (passed : command.bounded env sh args = true) :
    command.Bounded env sh args := by
  intro _ a mode cut sh₁ text n opened made found _
  simp only [Command.bounded, opened, made, found, Except.toOption, Option.all_some, Option.any_some,
    decide_eq_true_eq] at passed
  obtain ⟨covers, short, nonzero⟩ := passed
  refine ⟨covers, short, fun zero => ?_⟩
  exact of_decide_eq_true (List.all_eq_true.mp nonzero 0 zero) rfl

theorem boundedLine_bounded {line : Line} (passed : boundedLine sh line = true) : line.Bounded sh := by
  intro _
  unfold boundedLine at passed
  split at passed
  · exact command_bounded passed
  · exact fun edit => absurd edit (of_decide_eq_true passed)

/-- A file that is appended to, and a copy of it. -/
def shortFiles : List Line :=
  [typed 1 "echo hello > f".toList, typed 2 "echo you >> f".toList, typed 2 "cat f > g".toList]

theorem run_readsWell_short : ∃ sh, Run LineStep (Shell.init 0) shortFiles sh ∧
    (typed 3 "cat g".toList).ReadsWell sh := by
  have tested : (shortFiles.foldlM (finishLine boundedLine) (Shell.init 0)).any (fun _ => True) = true := by
    decide +kernel
  have sound : ∀ sh line sh', finishLine boundedLine sh line = some sh' →
      Along LineStep (fun sh line => line.Bounded sh) sh line sh' :=
    fun _ _ _ done => ⟨(finishLine_step done).1, boundedLine_bounded (finishLine_step done).2⟩
  obtain ⟨sh, run, _⟩ := Run.of_tested sound tested
  refine ⟨sh, run.mono fun _ _ _ step => step.1, (run_readsWell 0 ⟨_, run⟩ _).mpr ?_⟩
  exact fun _ _ _ _ => rfl

/-- A file of 261 bytes that is appended to itself. -/
def doubling : List Line :=
  [typed 1 ("echo ".toList ++ List.replicate 259 'a' ++ " > f".toList), typed 1 "cat f >> f".toList]

def overflows : Result Shell → Bool
  | .error .outOfBounds => true
  | _ => false

theorem overflows_eq {result : Result Shell} (passed : overflows result = true) :
    result = .error .outOfBounds := by
  unfold overflows at passed
  split at passed
  · rfl
  · cases passed

/-- After that `cat` copies 522 bytes into its 512. -/
theorem doubling_overflows : ∃ sh, Run LineStep (Shell.init 0) doubling sh ∧
    sh.executeLine (typed 1 "cat f".toList) = .error .outOfBounds ∧
    ¬ (typed 1 "cat f".toList).ReadsWell sh := by
  have tested : (doubling.foldlM (finishLine fun _ _ => true) (Shell.init 0)).any (fun sh =>
      overflows (sh.executeLine (typed 1 "cat f".toList)) = true ∧
      resolvePath sh.pwd (some "f".toList) = .ok "/f".toList ∧ sh.vfs.openPath "/f".toList = .ok (some 1) ∧
      (sh.vfs.heap 1).any (fun n => n.type = .file ∧ n.size = 522) = true) = true := by decide +kernel
  obtain ⟨sh, run, failed, resolved, target, record⟩ :=
    Run.of_tested (fun _ _ _ done => (finishLine_step done).1) tested
  obtain ⟨n, found, passed⟩ := (Option.any_eq_true _ _).mp record
  obtain ⟨type, size⟩ := of_decide_eq_true passed
  refine ⟨sh, run, overflows_eq failed, fun reads => ?_⟩
  have copied := (reads.1 (by decide) none sh n
    ⟨by decide, type, .truncate, some "f".toList, "/f".toList, 1, rfl, resolved, target, found⟩).1
  rw [size] at copied
  exact absurd copied (by decide)

end Laomb.Fshell
