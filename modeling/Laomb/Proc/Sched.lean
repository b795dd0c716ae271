import Laomb.VFS.Node

/-! Tasks, the scheduler of `sched.c` and its timer interrupt. Tasks live in a
heap, linked through `next`; `cli`, `sti` and the end-of-interrupt signal are
left out, as one call is one step here. -/
namespace Laomb.Proc
open VFS

abbrev Word := BitVec 32

abbrev Selector := BitVec 16

/-- The 108 bytes that `fsave` writes. -/
abbrev FpuState := BitVec 864

/-- `registers_t`. -/
structure Frame where
  gs : Word
  fs : Word
  es : Word
  ds : Word
  edi : Word
  esi : Word
  ebp : Word
  esp : Word
  ebx : Word
  edx : Word
  ecx : Word
  eax : Word
  interrupt : Word
  error : Word
  eip : Word
  cs : Word
  eflags : Word
  userEsp : Word
  ss : Word
deriving DecidableEq, Repr

/-- What an interrupt finds: the pushed frame, and `cr3` and the FPU as they are. -/
structure Cpu where
  regs : Frame
  cr3 : Word
  fpu : FpuState
deriving DecidableEq, Repr

/-- `vmm_context_t`; the page directory is only pointed to. -/
structure VmmContext where
  pd : Ptr
  cr3 : Word
deriving DecidableEq, Repr

inductive TaskState where
  | running
  | ready
  | waiting
  | blocked
  | terminated
deriving DecidableEq, Repr

/-- The fields of `struct task` that hold what a task was doing. -/
structure Image where
  registers : Vector Word 7
  cs : Selector
  ds : Selector
  es : Selector
  fs : Selector
  gs : Selector
  ss : Selector
  eip : Word
  eflags : Word
  esp : Word
  kernelEsp : Word
deriving DecidableEq, Repr

/-- `struct task`. -/
structure Task extends Image where
  next : Ptr
  pid : Word
  ppid : Word
  priority : Word
  nieche : Word
  cr3 : VmmContext
  fpuEnabled : Bool
  fpuState : FpuState
  state : TaskState
deriving DecidableEq, Repr

/-- `task_create`, with the end of the stack that `setup_stack` allocates. -/
def taskCreate (callback pid ppid priority : Word) (cr3 : VmmContext) (stack : Word) : Task where
  next := none
  pid := pid
  ppid := ppid
  priority := priority
  nieche := priority
  cr3 := cr3
  registers := #v[0, 0, 0, 0, 0, 0, 0]
  cs := 0x08
  ds := 0x10
  es := 0x10
  fs := 0x00
  gs := 0x00
  ss := 0x10
  eip := callback
  eflags := 0x202
  esp := 0x00
  fpuEnabled := false
  fpuState := 0
  kernelEsp := stack
  state := .ready

/-- `task_list` and `current_task` with the tasks they lead to. -/
structure Sched where
  heap : Addr → Option Task
  taskList : Ptr
  currentTask : Ptr

namespace Sched

/-- Before `sched_init`. -/
def init : Sched := ⟨fun _ => none, none, none⟩

def load (s : Sched) (a : Addr) : Result Task :=
  match s.heap a with
  | none => .error .useAfterFree
  | some t => .ok t

theorem load_some {s : Sched} {a : Addr} {t : Task} (found : s.heap a = some t) : s.load a = .ok t := by
  simp only [load, found]

def store (s : Sched) (a : Addr) (t : Task) : Sched := { s with heap := Function.update s.heap a (some t) }

@[simp]
theorem store_self (s : Sched) (a : Addr) (t : Task) : (s.store a t).heap a = some t := by
  simp only [store, Function.update_self]

theorem store_other (s : Sched) (t : Task) {a b : Addr} (other : b ≠ a) :
    (s.store a t).heap b = s.heap b := by
  simp only [store, Function.update_of_ne other]

def setCurrent (s : Sched) (p : Ptr) : Sched := { s with currentTask := p }

@[simp]
theorem setCurrent_currentTask (s : Sched) (p : Ptr) : (s.setCurrent p).currentTask = p := rfl

@[simp]
theorem setCurrent_heap (s : Sched) (p : Ptr) : (s.setCurrent p).heap = s.heap := rfl

def setList (s : Sched) (p : Ptr) : Sched := { s with taskList := p }

def kfree (s : Sched) (a : Addr) : Sched := { s with heap := Function.update s.heap a none }

@[simp]
theorem kfree_self (s : Sched) (a : Addr) : (s.kfree a).heap a = none := by
  simp only [kfree, Function.update_self]

theorem kfree_other (s : Sched) {a b : Addr} (other : b ≠ a) : (s.kfree a).heap b = s.heap b := by
  simp only [kfree, Function.update_of_ne other]

/-- `sched_add_task` of the task `t` at `a`. -/
def schedAddTask (s : Sched) (a : Addr) (t : Task) : Sched :=
  (s.store a { t with next := s.taskList }).setList (some a)

/-! ## Removal -/

/-- The walk of `sched_remove_task` with its `indirect`, which points to the `next`
of `prev`, or to `task_list`. -/
def findTask (pid : Word) : (fuel : Nat) → (s : Sched) → (prev node : Ptr) → Result (Option (Ptr × Addr))
  | 0, _, _, _ => .error .diverges
  | _ + 1, _, _, none => pure none
  | fuel + 1, s, prev, some a => do
    let t ← s.load a
    if t.pid ≠ pid then findTask pid fuel s (some a) t.next else pure (some (prev, a))

/-- `*indirect = removed->next` and `kfree(removed)`. -/
def unlinkTask (s : Sched) (prev : Ptr) (removed : Addr) : Result Sched := do
  let t ← s.load removed
  match prev with
  | none => pure ((s.setList t.next).kfree removed)
  | some p => do
    let n ← s.load p
    pure ((s.store p { n with next := t.next }).kfree removed)

/-- `current_task && current_task->pid == pid`. -/
def isCurrent (s : Sched) (pid : Word) : Result Bool :=
  match s.currentTask with
  | none => pure false
  | some c => do
    let t ← s.load c
    pure (decide (t.pid = pid))

/-- `sched_remove_task` before it yields. The source reads the pid of the current task
after `kfree`, which leaves the contents of a task in place. -/
def schedRemoveTask (s : Sched) (pid : Word) : Result Sched := do
  let found ← findTask pid limit s none s.taskList
  let matched ← s.isCurrent pid
  let s ←
    match found with
    | none => pure s
    | some (prev, removed) => s.unlinkTask prev removed
  pure (if matched then s.setCurrent s.taskList else s)

/-! ## The scheduler -/

/-- The next task round the list. -/
def after (s : Sched) (next : Ptr) : Ptr :=
  match next with
  | none => s.taskList
  | some a => some a

/-- The loop of `schedule`. -/
def scan : (fuel : Nat) → (s : Sched) → (nextTask : Ptr) → Result Ptr
  | 0, _, _ => .error .diverges
  | _ + 1, _, none => pure none
  | fuel + 1, s, some a => do
    let t ← s.load a
    if t.state ≠ .ready then
      let next := s.after t.next
      if next = s.currentTask then pure next else scan fuel s next
    else pure (some a)

def schedule (s : Sched) : Result Sched := do
  let next ←
    match s.currentTask with
    | none => pure s.taskList
    | some c => do
      let t ← s.load c
      pure t.next
  let next ← scan limit s (s.after next)
  pure (if next ≠ none ∧ next ≠ s.currentTask then s.setCurrent next else s)

end Sched

/-! ## The timer interrupt -/

/-- The registers that a task keeps in its array, in their order there. -/
def Frame.general (r : Frame) : Vector Word 7 := #v[r.eax, r.ebx, r.ecx, r.edx, r.esi, r.edi, r.ebp]

/-- `regs->cs = task->cs` and the like: selectors have 16 bits. -/
def Image.save (i : Image) (regs : Frame) : Image :=
  let userspace := regs.cs ≠ 0x08
  { i with
    cs := regs.cs.setWidth 16, ds := regs.ds.setWidth 16, es := regs.es.setWidth 16,
    fs := regs.fs.setWidth 16, gs := regs.gs.setWidth 16,
    ss := if userspace then regs.ss.setWidth 16 else i.ss,
    esp := if userspace then regs.userEsp else i.esp,
    eflags := regs.eflags, eip := regs.eip, kernelEsp := regs.esp,
    registers := regs.general }

def Image.restore (i : Image) (regs : Frame) : Frame :=
  let userspace := i.cs ≠ 0x08
  { regs with
    cs := i.cs.setWidth 32, ds := i.ds.setWidth 32, es := i.es.setWidth 32,
    fs := i.fs.setWidth 32, gs := i.gs.setWidth 32,
    ss := if userspace then i.ss.setWidth 32 else regs.ss,
    userEsp := if userspace then i.esp else regs.userEsp,
    eflags := i.eflags, eip := i.eip, esp := i.kernelEsp,
    eax := i.registers[0], ebx := i.registers[1], ecx := i.registers[2], edx := i.registers[3],
    esi := i.registers[4], edi := i.registers[5], ebp := i.registers[6] }

/-- The first half of the handler on the current task. -/
def Task.save (t : Task) (cpu : Cpu) : Task :=
  { t with
    toImage := t.toImage.save cpu.regs
    cr3 := ⟨none, cpu.cr3⟩
    fpuState := if t.fpuEnabled then cpu.fpu else t.fpuState
    state := .ready }

/-- The second half on the task chosen; `fsave` has left the FPU as `fninit` does. -/
def Task.restore (t : Task) (cpu : Cpu) : Cpu where
  regs := t.toImage.restore cpu.regs
  cr3 := t.cr3.cr3
  fpu := if t.fpuEnabled then t.fpuState else cpu.fpu

namespace Sched

/-- `timer_interrupt_handler`; `fninit` is the state of the FPU after `fsave`. -/
def timerInterruptHandler (fninit : FpuState) (s : Sched) (cpu : Cpu) : Result (Sched × Cpu) := do
  let (s, cpu) ←
    match s.currentTask with
    | none => pure (s, cpu)
    | some c => do
      let t ← s.load c
      pure (s.store c (t.save cpu), if t.fpuEnabled then { cpu with fpu := fninit } else cpu)
  let s ← s.schedule
  match s.currentTask with
  | none => pure (s, cpu)
  | some c => do
    let t ← s.load c
    pure (s.store c { t with state := .running }, t.restore cpu)

end Sched
end Laomb.Proc
