import Laomb.Base.Transition
import Laomb.Proc.RoundRobin

/-! The address space in the record of a task: the pointer to its page directory, and the value of
`cr3` that goes with it. The timer interrupt saves the latter and drops the former. -/
namespace Laomb.Proc
open VFS Transition

variable {s s' : Sched} {a c : Addr} {t : Task} {fuel : Nat} {fninit : FpuState} {cpu cpu' : Cpu}

/-- `(uintptr_t)p`. -/
def address (p : Ptr) : Word :=
  match p with
  | none => 0
  | some a => BitVec.ofFin a

/-- `(PageDirectory*)w`. -/
def pointer (w : Word) : Ptr := if w = 0 then none else some w.toFin

/-- `kernel_page_directory` behind `vmm_init_pd`, which has got `page` from the page allocator. -/
def kernelPageDirectory (higherHalfBase page : Word) : VmmContext where
  pd := pointer (page + higherHalfBase)
  cr3 := 0

/-- `vmm_switch_pd`: the context, and what it loads into `cr3`. -/
def vmmSwitchPd (higherHalfBase : Word) (pageDirectory : VmmContext) : VmmContext × Word :=
  let cr3 := address pageDirectory.pd - higherHalfBase
  ({ pageDirectory with cr3 := cr3 }, cr3)

/-- The scheduler and the register `cr3`. -/
structure Spaces where
  sched : Sched
  cr3 : Word

inductive SpaceEvent where
  | create (a : Addr) (callback pid ppid priority stack : Word)
  | add (a : Addr)
  | tick (regs : Frame) (fpu : FpuState)

/-- A task is created at `a` with `kernel_page_directory`, added, or interrupted by the timer. -/
def SpaceEvent.exec (directory : VmmContext) (fninit : FpuState) (m : Spaces) :
    SpaceEvent → Result Spaces
  | .create a callback pid ppid priority stack =>
    pure { m with
      sched := m.sched.store a (taskCreate callback pid ppid priority directory stack) }
  | .add a => do
    let t ← m.sched.load a
    pure { m with sched := m.sched.schedAddTask a t }
  | .tick regs fpu => do
    let (s, cpu) ← m.sched.timerInterruptHandler fninit ⟨regs, m.cr3, fpu⟩
    pure ⟨s, cpu.cr3⟩

namespace Sched

def spaceOf (s : Sched) (a : Addr) : Option VmmContext := (s.heap a).map Task.cr3

theorem spaceOf_some (found : s.heap a = some t) : s.spaceOf a = some t.cr3 := congrArg _ found

theorem spaceOf_store (s : Sched) (c : Addr) (t : Task) :
    (s.store c t).spaceOf = Function.update s.spaceOf c (some t.cr3) := by
  funext a
  by_cases same : a = c
  · subst same
    rw [spaceOf, store_self, Function.update_self]
    rfl
  · rw [spaceOf, store_other s t same, Function.update_of_ne same]
    rfl

theorem load_ok (done : s.load a = .ok t) : s.heap a = some t := by
  unfold load at done
  split at done
  · cases done
  · rename_i found
    cases done
    exact found

theorem schedule_heap (done : s.schedule = .ok s') : s'.heap = s.heap := by
  have choose : ∀ next, (do
      let next ← scan limit s (s.after next)
      pure (if next ≠ none ∧ next ≠ s.currentTask then s.setCurrent next else s)) = Except.ok s' →
      s'.heap = s.heap := by
    intro next done
    obtain ⟨next, _, done⟩ := bind_ok done
    cases done
    split
    · rfl
    · rfl
  rw [schedule] at done
  cases current : s.currentTask with
  | none =>
    rw [current] at choose done
    exact choose _ done
  | some c =>
    rw [current] at choose done
    obtain ⟨t, _, done⟩ := bind_ok done
    exact choose _ done

/-- The second half of the timer interrupt. -/
def resume (s : Sched) (cpu : Cpu) : Result (Sched × Cpu) := do
  let s ← s.schedule
  match s.currentTask with
  | none => pure (s, cpu)
  | some c => do
    let t ← s.load c
    pure (s.store c { t with state := .running }, t.restore cpu)

theorem timer_none (idle : s.currentTask = none) (fninit : FpuState) (cpu : Cpu) :
    s.timerInterruptHandler fninit cpu = s.resume cpu := by
  rw [timerInterruptHandler, idle]
  rfl

theorem timer_some (busy : s.currentTask = some c) (fninit : FpuState) (cpu : Cpu) :
    s.timerInterruptHandler fninit cpu = s.load c >>= fun t =>
      (s.store c (t.save cpu)).resume (if t.fpuEnabled then { cpu with fpu := fninit } else cpu) := by
  rw [timerInterruptHandler, busy]
  rfl

theorem store_running (found : s.heap c = some t) :
    (s.store c { t with state := .running }).spaceOf = s.spaceOf := by
  rw [spaceOf_store, ← spaceOf_some found, Function.update_eq_self]

/-- The address spaces stay, and `cr3` is loaded from the record of the task chosen. -/
structure Resumes (s : Sched) (cr3 : Word) (s' : Sched) (cr3' : Word) : Prop where
  spaces : s'.spaceOf = s.spaceOf
  loaded : cr3' = cr3 ∨ ∃ c v, s'.spaceOf c = some v ∧ cr3' = v.cr3

theorem resume_resumes (done : s.resume cpu = .ok (s', cpu')) : Resumes s cpu.cr3 s' cpu'.cr3 := by
  obtain ⟨u, scheduled, done⟩ := bind_ok done
  have kept : u.spaceOf = s.spaceOf := by
    unfold spaceOf
    rw [schedule_heap scheduled]
  cases chosen : u.currentTask with
  | none =>
    rw [chosen] at done
    cases done
    exact ⟨kept, .inl rfl⟩
  | some c =>
    rw [chosen] at done
    obtain ⟨t, loaded, done⟩ := bind_ok done
    cases done
    have found := load_ok loaded
    have after := store_running found
    exact ⟨after.trans kept, .inr ⟨c, t.cr3, by rw [after, spaceOf_some found], rfl⟩⟩

/-- The timer interrupt saves the address space of the current task without its directory. -/
theorem timer_resumes (done : s.timerInterruptHandler fninit cpu = .ok (s', cpu')) :
    (s.currentTask = none ∧ Resumes s cpu.cr3 s' cpu'.cr3) ∨
      ∃ c, ∃ t : Task, s.currentTask = some c ∧ Resumes (s.store c (t.save cpu)) cpu.cr3 s' cpu'.cr3 := by
  cases current : s.currentTask with
  | none =>
    rw [timer_none current] at done
    exact .inl ⟨rfl, resume_resumes done⟩
  | some c =>
    rw [timer_some current] at done
    obtain ⟨t, _, done⟩ := bind_ok done
    refine .inr ⟨c, t, rfl, ?_⟩
    have resumed := resume_resumes done
    split at resumed
    · exact resumed
    · exact resumed

end Sched

section Run

variable {higherHalfBase : Word} {kernel : VmmContext} {m m' : Spaces} {e : SpaceEvent}

/-- One event, where the tasks are created after `vmm_switch_pd`. -/
def SpaceStep (higherHalfBase : Word) (kernel : VmmContext) (fninit : FpuState) (m : Spaces)
    (e : SpaceEvent) (m' : Spaces) : Prop :=
  e.exec (vmmSwitchPd higherHalfBase kernel).1 fninit m = .ok m'

/-- `kernel` has been switched to, and there are no tasks. -/
def Spaces.start (higherHalfBase : Word) (kernel : VmmContext) : Spaces :=
  ⟨Sched.init, (vmmSwitchPd higherHalfBase kernel).2⟩

/-- The directory is that of `kernel`, with which all tasks are created, and `cr3` is the physical
address of the directory. -/
structure Paired (higherHalfBase : Word) (kernel v : VmmContext) : Prop where
  pd : v.pd = kernel.pd
  cr3 : v.cr3 = address v.pd - higherHalfBase

def Spaces.Consistent (higherHalfBase : Word) (kernel : VmmContext) (m : Spaces) : Prop :=
  ∀ a v, m.sched.spaceOf a = some v → Paired higherHalfBase kernel v

/-- No tick interrupts a task, unless there is no directory to be lost. -/
def Unsaved (kernel : VmmContext) (m : Spaces) : SpaceEvent → Prop
  | .create _ _ _ _ _ _ => True
  | .add _ => True
  | .tick _ _ => m.sched.currentTask = none ∨ kernel.pd = none

theorem vmmSwitchPd_paired (higherHalfBase : Word) (kernel : VmmContext) :
    Paired higherHalfBase kernel (vmmSwitchPd higherHalfBase kernel).1 := ⟨rfl, rfl⟩

theorem Paired.cr3_eq {v : VmmContext} (paired : Paired higherHalfBase kernel v) :
    v.cr3 = (vmmSwitchPd higherHalfBase kernel).2 := by
  rw [paired.cr3, paired.pd]
  rfl

theorem paired_saved : Paired higherHalfBase kernel ⟨none, (vmmSwitchPd higherHalfBase kernel).2⟩ ↔
    kernel.pd = none := by
  constructor
  · exact fun paired => paired.pd.symm
  · intro absent
    refine ⟨absent.symm, ?_⟩
    rw [vmmSwitchPd, absent]

/-- What an event does to the records and to `cr3`. -/
inductive SpaceStep.Effect (higherHalfBase : Word) (kernel : VmmContext) (m : Spaces) :
    SpaceEvent → Spaces → Prop where
  | create {a : Addr} {callback pid ppid priority stack : Word} {m' : Spaces}
      (spaces : m'.sched.spaceOf =
        Function.update m.sched.spaceOf a (some (vmmSwitchPd higherHalfBase kernel).1))
      (cr3 : m'.cr3 = m.cr3) : Effect higherHalfBase kernel m (.create a callback pid ppid priority stack) m'
  | add {a : Addr} {m' : Spaces} (spaces : m'.sched.spaceOf = m.sched.spaceOf) (cr3 : m'.cr3 = m.cr3) :
      Effect higherHalfBase kernel m (.add a) m'
  | idle {regs : Frame} {fpu : FpuState} {m' : Spaces} (idle : m.sched.currentTask = none)
      (spaces : m'.sched.spaceOf = m.sched.spaceOf)
      (loaded : m'.cr3 = m.cr3 ∨ ∃ c v, m'.sched.spaceOf c = some v ∧ m'.cr3 = v.cr3) :
      Effect higherHalfBase kernel m (.tick regs fpu) m'
  | busy {c : Addr} {regs : Frame} {fpu : FpuState} {m' : Spaces} (busy : m.sched.currentTask = some c)
      (spaces : m'.sched.spaceOf = Function.update m.sched.spaceOf c (some ⟨none, m.cr3⟩))
      (loaded : m'.cr3 = m.cr3 ∨ ∃ c v, m'.sched.spaceOf c = some v ∧ m'.cr3 = v.cr3) :
      Effect higherHalfBase kernel m (.tick regs fpu) m'

theorem SpaceStep.effect (step : SpaceStep higherHalfBase kernel fninit m e m') :
    Effect higherHalfBase kernel m e m' := by
  cases e with
  | create a callback pid ppid priority stack =>
    cases step
    exact .create (Sched.spaceOf_store _ _ _) rfl
  | add a =>
    obtain ⟨t, loaded, step⟩ := bind_ok step
    cases step
    refine .add ?_ rfl
    have found := Sched.spaceOf_some (Sched.load_ok loaded)
    have same : (m.sched.schedAddTask a t).spaceOf =
        (m.sched.store a { t with next := m.sched.taskList }).spaceOf := rfl
    rw [same, Sched.spaceOf_store, ← found, Function.update_eq_self]
  | tick regs fpu =>
    obtain ⟨⟨s', cpu'⟩, ticked, step⟩ := bind_ok step
    cases step
    rcases Sched.timer_resumes ticked with ⟨idle, resumed⟩ | ⟨c, t, busy, resumed⟩
    · exact .idle idle resumed.spaces resumed.loaded
    · exact .busy busy (resumed.spaces.trans (Sched.spaceOf_store _ _ _)) resumed.loaded

theorem consistent_update {c : Addr} {v : VmmContext} (consistent : m.Consistent higherHalfBase kernel)
    (spaces : m'.sched.spaceOf = Function.update m.sched.spaceOf c (some v)) :
    m'.Consistent higherHalfBase kernel ↔ Paired higherHalfBase kernel v := by
  unfold Spaces.Consistent
  rw [spaces]
  constructor
  · exact fun all => all c v (Function.update_self _ _ _)
  · intro paired a w found
    by_cases same : a = c
    · subst same
      rw [Function.update_self] at found
      exact Option.some.inj found ▸ paired
    · rw [Function.update_of_ne same] at found
      exact consistent a w found

/-- The records are consistent and `cr3` is what was loaded first. -/
structure Spaces.Sound (higherHalfBase : Word) (kernel : VmmContext) (m : Spaces) : Prop where
  consistent : m.Consistent higherHalfBase kernel
  cr3 : m.cr3 = (vmmSwitchPd higherHalfBase kernel).2

theorem SpaceStep.consistent_iff (step : SpaceStep higherHalfBase kernel fninit m e m')
    (sound : m.Sound higherHalfBase kernel) : m'.Consistent higherHalfBase kernel ↔ Unsaved kernel m e := by
  cases step.effect with
  | create spaces _ =>
    exact iff_of_true ((consistent_update sound.consistent spaces).mpr (vmmSwitchPd_paired _ _)) trivial
  | add spaces _ =>
    refine iff_of_true (fun a v found => sound.consistent a v ?_) trivial
    rwa [spaces] at found
  | idle idle spaces _ =>
    refine iff_of_true (fun a v found => sound.consistent a v ?_) (.inl idle)
    rwa [spaces] at found
  | busy busy spaces _ =>
    rw [consistent_update sound.consistent spaces, sound.cr3, paired_saved]
    exact (or_iff_right (busy ▸ Option.some_ne_none _)).symm

theorem SpaceStep.sound (step : SpaceStep higherHalfBase kernel fninit m e m')
    (sound : m.Sound higherHalfBase kernel) (consistent : m'.Consistent higherHalfBase kernel) :
    m'.Sound higherHalfBase kernel := by
  have reloaded (loaded : m'.cr3 = m.cr3 ∨ ∃ c v, m'.sched.spaceOf c = some v ∧ m'.cr3 = v.cr3) :
      m'.cr3 = (vmmSwitchPd higherHalfBase kernel).2 := by
    rcases loaded with same | ⟨c, v, found, same⟩
    · exact same.trans sound.cr3
    · exact same.trans (consistent c v found).cr3_eq
  cases step.effect with
  | create _ same => exact ⟨consistent, same.trans sound.cr3⟩
  | add _ same => exact ⟨consistent, same.trans sound.cr3⟩
  | idle _ _ loaded => exact ⟨consistent, reloaded loaded⟩
  | busy _ _ loaded => exact ⟨consistent, reloaded loaded⟩

theorem start_sound (higherHalfBase : Word) (kernel : VmmContext) :
    (Spaces.start higherHalfBase kernel).Sound higherHalfBase kernel := by
  refine ⟨fun a v found => ?_, rfl⟩
  cases found

/-- The records stay consistent throughout a run if and only if no tick of it interrupts a task, or
there is no directory that could be lost. -/
theorem spaces_consistent_iff (higherHalfBase page : Word) (fninit : FpuState) (es : List SpaceEvent)
    (m : Spaces) :
    let kernel := kernelPageDirectory higherHalfBase page
    Run (Within (SpaceStep higherHalfBase kernel fninit) fun _ _ m => m.Consistent higherHalfBase kernel)
        (Spaces.start higherHalfBase kernel) es m ↔
      Run (Along (SpaceStep higherHalfBase kernel fninit) (Unsaved kernel))
        (Spaces.start higherHalfBase kernel) es m :=
  Run.within_iff_along (I := Spaces.Sound higherHalfBase (kernelPageDirectory higherHalfBase page))
    (fun _ _ _ sound step => step.consistent_iff sound)
    (fun _ _ _ sound step consistent => step.sound sound consistent) (start_sound higherHalfBase _)

/-- The second tick interrupts the task that the first has chosen, and its directory is lost. -/
theorem directory_lost : ¬ ∀ higherHalfBase page fninit es m,
    Run (SpaceStep higherHalfBase (kernelPageDirectory higherHalfBase page) fninit)
      (Spaces.start higherHalfBase (kernelPageDirectory higherHalfBase page)) es m →
      m.Consistent higherHalfBase (kernelPageDirectory higherHalfBase page) := by
  intro all
  let kernel := kernelPageDirectory 0xC0000000 0x1000
  have sound : ∀ m e m', (e.exec (vmmSwitchPd 0xC0000000 kernel).1 0 m).toOption = some m' →
      SpaceStep 0xC0000000 kernel 0 m e m' := fun _ _ _ done => ok_of_toOption done
  have tested : ([.create 1 0 0 0 0 0, .add 1, .tick Sched.quiet.regs 0, .tick Sched.quiet.regs 0].foldlM
      (fun m e => (SpaceEvent.exec
        (vmmSwitchPd 0xC0000000 (kernelPageDirectory 0xC0000000 0x1000)).1 0 m e).toOption)
      (Spaces.start 0xC0000000 (kernelPageDirectory 0xC0000000 0x1000))).any
      (fun m => m.sched.spaceOf 1 = some ⟨none, 0x1000⟩) = true := by
    decide +kernel
  obtain ⟨m, run, saved⟩ := Run.of_tested sound tested
  have paired := all _ _ _ _ m run 1 _ saved
  have lost : none = kernel.pd := paired.pd
  exact absurd lost (by decide)

end Run
end Laomb.Proc
