import Mathlib.Tactic.IntervalCases
import Laomb.Proc.Runs

/-! What the timer interrupt gives back to a task: the context that was its own
when it was interrupted, unless the running task has been removed. -/
namespace Laomb.Proc
open VFS LinkedList Transition

variable {s s' : Sched} {a b c d : Addr} {p q : Ptr} {t u : Task} {pid : Word} {l us vs : List Addr}
    {fuel : Nat}
  {fninit : FpuState} {cpu cpu' : Cpu}

/-! ## Contexts -/

/-- The registers of a task; `ss` and the stack pointer of user space only count there. -/
structure Context where
  general : Vector Word 7
  cs : Selector
  ds : Selector
  es : Selector
  fs : Selector
  gs : Selector
  eip : Word
  eflags : Word
  esp : Word
  user : Option (Selector × Word)
deriving DecidableEq

/-- What an interrupt of a task with this `cs` pushes besides, or returns with. -/
def userStack (cs ss : Selector) (esp : Word) : Option (Selector × Word) :=
  if cs ≠ 0x08 then some (ss, esp) else none

def Frame.context (r : Frame) : Context where
  general := r.general
  cs := r.cs.setWidth 16
  ds := r.ds.setWidth 16
  es := r.es.setWidth 16
  fs := r.fs.setWidth 16
  gs := r.gs.setWidth 16
  eip := r.eip
  eflags := r.eflags
  esp := r.esp
  user := userStack (r.cs.setWidth 16) (r.ss.setWidth 16) r.userEsp

def Image.context (i : Image) : Context where
  general := i.registers
  cs := i.cs
  ds := i.ds
  es := i.es
  fs := i.fs
  gs := i.gs
  eip := i.eip
  eflags := i.eflags
  esp := i.kernelEsp
  user := userStack i.cs i.ss i.esp

theorem userStack_congr {cs ss ss' : Selector} {esp esp' : Word} (same : cs ≠ 0x08 → ss = ss' ∧ esp = esp') :
    userStack cs ss esp = userStack cs ss' esp' := by
  unfold userStack
  split
  · rename_i userspace
    rw [(same userspace).1, (same userspace).2]
  · rfl

theorem save_context (i : Image) (r : Frame) : (i.save r).context = r.context := by
  have user : userStack (r.cs.setWidth 16) (i.save r).ss (i.save r).esp =
      userStack (r.cs.setWidth 16) (r.ss.setWidth 16) r.userEsp := by
    refine userStack_congr fun userspace => ?_
    have outside : r.cs ≠ 0x08 := fun kernel => userspace (by rw [kernel]; rfl)
    exact ⟨if_pos outside, if_pos outside⟩
  exact congrArg (Context.mk _ _ _ _ _ _ _ _ _) user

theorem restore_context (i : Image) (r : Frame) : (i.restore r).context = i.context := by
  have narrow : ∀ x : Selector, (x.setWidth 32).setWidth 16 = x := fun x => by
    rw [BitVec.setWidth_setWidth_of_le x (by decide), BitVec.setWidth_eq]
  have user : userStack i.cs ((i.restore r).ss.setWidth 16) (i.restore r).userEsp =
      userStack i.cs i.ss i.esp := by
    refine userStack_congr fun userspace => ?_
    have stack : (i.restore r).ss = i.ss.setWidth 32 := if_pos userspace
    exact ⟨by rw [stack, narrow], if_pos userspace⟩
  have general :
      #v[i.registers[0], i.registers[1], i.registers[2], i.registers[3], i.registers[4], i.registers[5],
      i.registers[6]] = i.registers := by
    refine Vector.ext fun k bound => ?_
    interval_cases k <;> rfl
  simp only [Frame.context, Image.context]
  simp only [Image.restore, Frame.general, narrow] at user ⊢
  rw [general, user]

/-! ## Traced runs -/

/-- The scheduler and what the processor does: the task that it executes, the context
of every task when it was last interrupted or else created, what the last interrupt
returned to, and whether any has stored the context of another task. -/
structure Traced where
  sched : Sched
  running : Ptr
  captured : Addr → Option Context
  last : Option Frame
  mixed : Bool

namespace Traced

def start : Traced := ⟨Sched.init, none, fun _ => none, none, false⟩

/-- The contexts once the processor is interrupted. -/
def noted (tr : Traced) (cpu : Cpu) : Addr → Option Context :=
  match tr.running with
  | none => tr.captured
  | some r => Function.update tr.captured r (some cpu.regs.context)

theorem noted_none {tr : Traced} (idle : tr.running = none) (cpu : Cpu) : tr.noted cpu = tr.captured := by
  rw [noted, idle]

theorem noted_some {tr : Traced} (running : tr.running = some c) (cpu : Cpu) :
    tr.noted cpu = Function.update tr.captured c (some cpu.regs.context) := by
  rw [noted, running]

/-- The handler saves what the processor executes into another task. -/
def Crossed (tr : Traced) : Prop := tr.sched.currentTask ≠ none ∧ tr.sched.currentTask ≠ tr.running

instance (tr : Traced) : Decidable tr.Crossed := inferInstanceAs (Decidable (_ ∧ _))

def interrupt (fninit : FpuState) (tr : Traced) (cpu : Cpu) : Result Traced := do
  let (s, cpu') ← tr.sched.timerInterruptHandler fninit cpu
  pure ⟨s, s.currentTask, tr.noted cpu, some cpu'.regs, tr.mixed || decide tr.Crossed⟩

def exec (fninit : FpuState) (tr : Traced) : Event → Result Traced
  | .tick cpu => tr.interrupt fninit cpu
  | .add a t => pure { tr with
      sched := tr.sched.schedAddTask a t
      captured := Function.update tr.captured a (some t.context)
      last := none }
  | .remove pid cpu => do
    let s ← tr.sched.schedRemoveTask pid
    interrupt fninit { tr with sched := s } cpu

/-- No context went to another task, and an interrupt that dispatched a task returned
to its own. -/
def Isolated (tr : Traced) : Prop :=
  tr.mixed = false ∧ ∀ d frame, tr.sched.currentTask = some d → tr.last = some frame →
    tr.captured d = some frame.context

/-- Added tasks are new. -/
def Fresh (tr : Traced) : Event → Prop
  | .add a _ => tr.sched.heap a = none
  | .tick _ => True
  | .remove _ _ => True

instance (tr : Traced) : DecidablePred tr.Fresh
  | .add _ _ => inferInstanceAs (Decidable (_ = _))
  | .tick _ => instDecidableTrue
  | .remove _ _ => instDecidableTrue

def Step (fninit : FpuState) (tr : Traced) (e : Event) (tr' : Traced) : Prop :=
  tr.exec fninit e = .ok tr' ∧ Fresh tr e

end Traced

/-- Where `task_list` leads without the first task with the pid. -/
def Sched.listWithout (s : Sched) (pid : Word) : Ptr :=
  match s.taskList with
  | none => none
  | some h =>
    match s.heap h with
    | none => some h
    | some t => if t.pid = pid then t.next else some h

/-- A removal of the current task leaves no task, or a list with the current task at
its head, as only another task with that pid is removed. -/
def Alone (tr : Traced) : Event → Prop
  | .remove pid _ => tr.sched.Current pid →
      tr.sched.listWithout pid = none ∨ tr.sched.listWithout pid = tr.sched.currentTask
  | .tick _ => True
  | .add _ _ => True

instance (tr : Traced) : DecidablePred (Alone tr)
  | .remove _ _ => inferInstanceAs (Decidable (_ → _))
  | .tick _ => instDecidableTrue
  | .add _ _ => instDecidableTrue

/-! ## What an interrupt dispatches -/

namespace Sched

def contextOf (s : Sched) (a : Addr) : Option Context := (s.heap a).map fun t => t.context

theorem contextOf_some (found : s.heap a = some t) : s.contextOf a = some t.context := by
  rw [contextOf, found, Option.map_some]

theorem contextOf_body (same : s'.body a = s.body a) : s'.contextOf a = s.contextOf a := by
  have contexts := congrArg (Option.map fun t : Task => t.context) same
  rwa [body, body, Option.map_map, Option.map_map] at contexts

theorem after_mem (listed : s.Listed l) (member : a ∈ l) (found : s.heap a = some t)
    (next : s.after t.next = some d) :
    d ∈ l := by
  obtain ⟨us, vs, rfl⟩ := List.append_of_mem member
  rw [after_eq, Option.or_eq_some_iff] at next
  rcases next with link | ⟨_, first⟩
  · obtain ⟨q, rest, split, link', tail⟩ := (Chain.suffix listed).some_cons
    cases split
    have same : some t.next = some q := by rw [← link', Sched.next, found, Option.map_some]
    rw [Option.some.inj same, tail.head] at link
    exact List.mem_append_right us (List.mem_cons_of_mem a (List.mem_of_mem_head? link))
  · rw [Chain.head listed] at first
    exact List.mem_of_mem_head? first

theorem scan_mem (listed : s.Listed l) (inside : ∀ x, q = some x → x ∈ l)
    (done : scan fuel s q = .ok (some d)) :
    d ∈ l := by
  induction fuel generalizing q with
  | zero => cases done
  | succ fuel ih =>
    cases q with
    | none => cases done
    | some a =>
      obtain ⟨t, found⟩ := listed.live (inside a rfl)
      simp only [scan, load_some found, bind, Except.bind] at done
      split at done
      · split at done
        · exact after_mem listed (inside a rfl) found (Except.ok.inj done)
        · exact ih (fun x next => after_mem listed (inside a rfl) found next) done
      · cases done
        exact inside _ rfl

/-- The scan of an idle scheduler finds nothing or a listed task. -/
theorem schedule_idle (listed : s.Listed l) (idle : s.currentTask = none) (done : s.schedule = .ok s') :
    s' = s ∨ ∃ d ∈ l, s' = s.setCurrent (some d) := by
  have head := Chain.head listed
  simp only [schedule, idle, bind, Except.bind, pure, Except.pure, after_eq, Option.or_self] at done
  cases scanned : scan limit s s.taskList with
  | error fault =>
    rw [scanned] at done
    cases done
  | ok p =>
    rw [scanned] at done
    cases p with
    | none =>
      cases done
      exact .inl (if_neg fun both => both.1 rfl)
    | some d =>
      cases done
      refine .inr ⟨d, scan_mem listed (fun x first => ?_) scanned,
        if_pos ⟨Option.some_ne_none d, Option.some_ne_none d⟩⟩
      rw [head] at first
      exact List.mem_of_mem_head? first

theorem timer_idle (listed : s.Listed l) (idle : s.currentTask = none)
    (done : s.timerInterruptHandler fninit cpu = .ok (s', cpu')) :
    s' = s ∨ ∃ d t, d ∈ l ∧ s.heap d = some t ∧
      s' = (s.setCurrent (some d)).store d { t with state := .running } ∧ cpu' = t.restore cpu := by
  simp only [timerInterruptHandler, idle, bind, Except.bind, pure, Except.pure] at done
  cases scheduled : s.schedule with
  | error fault =>
    rw [scheduled] at done
    cases done
  | ok u =>
    rw [scheduled] at done
    rcases schedule_idle listed idle scheduled with rfl | ⟨d, member, rfl⟩
    · simp only [idle] at done
      cases done
      exact .inl rfl
    · obtain ⟨t, found⟩ := listed.live member
      have kept : (s.setCurrent (some d)).heap d = some t := found
      simp only [setCurrent_currentTask, load_some kept] at done
      cases done
      exact .inr ⟨d, t, member, found, rfl, rfl⟩

theorem listWithout_eq (listed : s.Listed (us ++ a :: vs)) (before : ∀ b ∈ us, s.pidOf b ≠ some pid)
    (here : s.pidOf a = some pid) : s.listWithout pid = (us ++ vs).head? := by
  cases us with
  | nil =>
    obtain ⟨q, rest, split, link, tail⟩ := (Chain.suffix listed).some_cons
    cases split
    obtain ⟨t, found, rfl⟩ := next_some link
    have same : t.pid = pid := Option.some.inj ((pidOf_some found).symm.trans here)
    have first : s.taskList = some a := Chain.head listed
    simp only [listWithout, first, found, if_pos same]
    exact tail.head
  | cons u us =>
    obtain ⟨t, found⟩ := listed.live (show u ∈ u :: us ++ a :: vs from List.mem_cons_self)
    have other : t.pid ≠ pid := fun same => before u List.mem_cons_self (same ▸ pidOf_some found)
    have first : s.taskList = some u := Chain.head listed
    simp only [listWithout, first, found, if_neg other]
    rfl

/-- Removing the current task makes what is left of the list current. -/
theorem schedRemoveTask_current (listed : s.Listed l) (current : ∀ c, s.currentTask = some c → c ∈ l)
    (matched : s.Current pid) (done : s.schedRemoveTask pid = .ok s') :
    s'.currentTask = s.listWithout pid ∧ s'.taskList = s.listWithout pid := by
  rcases first_with s pid l with absent | ⟨us, a, vs, rfl, before, here⟩
  · obtain ⟨c, now, same⟩ := Option.bind_eq_some_iff.mp matched
    exact absurd same (absent c (current c now))
  · obtain ⟨u, removed, listed', _, now, _⟩ := schedRemoveTask_present listed before here current
    cases removed.symm.trans done
    rw [if_pos matched] at now
    have list : s'.taskList = s.listWithout pid := by
      rw [listWithout_eq listed before here]
      exact Chain.head listed'
    exact ⟨now.trans list, list⟩

end Sched

namespace Traced

variable {tr tr' : Traced} {e : Event}

/-- Every listed task that is not current has its captured context. -/
structure Waiting (tr : Traced) (l : List Addr) : Prop where
  listed : tr.sched.Listed l
  current : ∀ c, tr.sched.currentTask = some c → c ∈ l
  own : ∀ a ∈ l, tr.sched.currentTask ≠ some a → tr.sched.contextOf a = tr.captured a
  unmixed : tr.mixed = false

/-- Between events the processor executes the current task. -/
structure Intact (tr : Traced) (l : List Addr) : Prop extends Waiting tr l where
  running : tr.running = tr.sched.currentTask

theorem interrupt_eq (done : tr.interrupt fninit cpu = .ok tr') :
    ∃ s' cpu', tr.sched.timerInterruptHandler fninit cpu = .ok (s', cpu') ∧
      tr' = ⟨s', s'.currentTask, tr.noted cpu, some cpu'.regs, tr.mixed || decide tr.Crossed⟩ := by
  obtain ⟨⟨s', cpu'⟩, handled, rest⟩ := bind_ok done
  exact ⟨s', cpu', handled, (Except.ok.inj rest).symm⟩

theorem Waiting.uncrossed (waiting : tr.Waiting l) (same : ¬ tr.Crossed) :
    (tr.mixed || decide tr.Crossed) = false := by
  rw [waiting.unmixed, Bool.false_or, decide_eq_false same]

/-- An interrupt that finds no current task. -/
theorem Waiting.interrupt_idle (waiting : tr.Waiting l) (idle : tr.sched.currentTask = none)
    (agree : tr.running = none ∨ l = []) (done : tr.interrupt fninit cpu = .ok tr') :
    tr'.Intact l ∧ tr'.Isolated := by
  obtain ⟨s', cpu', handled, rfl⟩ := interrupt_eq done
  have unmixed := waiting.uncrossed fun crossed => crossed.1 idle
  have kept : ∀ a ∈ l, tr.sched.contextOf a = tr.noted cpu a := fun a member => by
    rw [noted_none (agree.resolve_right (List.ne_nil_of_mem member))]
    exact waiting.own a member fun busy => Option.some_ne_none a (busy.symm.trans idle)
  rcases Sched.timer_idle waiting.listed idle handled with rfl | ⟨d, t, member, found, rfl, rfl⟩
  · exact ⟨⟨⟨waiting.listed, waiting.current, fun a member _ => kept a member, unmixed⟩, rfl⟩, unmixed,
      fun d _ busy => absurd (busy.symm.trans idle) (Option.some_ne_none d)⟩
  · have loaded : (tr.sched.setCurrent (some d)).heap d = some t := found
    have links := Sched.next_store (u := { t with state := .running }) loaded rfl
    have contexts :=
      Sched.map_store (u := { t with state := .running }) (fun t : Task => t.context) loaded rfl
    refine ⟨⟨⟨Chain.congr waiting.listed fun a _ => congrFun links a, ?_,
      fun a member' _ => (contexts a).trans (kept a member'), unmixed⟩, rfl⟩, unmixed,
      fun e frame now written => ?_⟩
    · rintro c now
      cases now
      exact member
    · cases now
      cases written
      apply (kept d member).symm.trans
      rw [Sched.contextOf_some found]
      exact congrArg some (restore_context t.toImage cpu.regs).symm

/-- An interrupt of the current task. -/
theorem Waiting.interrupt_current (waiting : tr.Waiting l) (now : tr.sched.currentTask = some c)
    (running : tr.running = some c) (done : tr.interrupt fninit cpu = .ok tr') :
    tr'.Intact l ∧ tr'.Isolated := by
  obtain ⟨s', cpu', handled, rfl⟩ := interrupt_eq done
  have unmixed := waiting.uncrossed fun crossed => crossed.2 (now.trans running.symm)
  obtain ⟨us, vs, split⟩ := List.append_of_mem (waiting.current c now)
  have here : tr.sched.At c (vs ++ us) := by
    have listed := waiting.listed
    rw [split] at listed
    exact listed.at now
  have turn : ∀ a ∈ c :: (vs ++ us), a ∈ l := fun a member => by
    rw [split]
    simp only [List.mem_cons, List.mem_append] at member ⊢
    tauto
  obtain ⟨t, found⟩ := here.load List.mem_cons_self
  obtain ⟨u, loaded, ticked⟩ := Sched.tick_ring here found fninit cpu
  obtain ⟨rfl, rfl⟩ := Prod.mk.inj (Except.ok.inj (ticked.symm.trans handled))
  have chosen := turn _ (tr.sched.successor_mem c (vs ++ us))
  generalize tr.sched.successor c (vs ++ us) = d at *
  -- After saving, every listed task has the context noted for it.
  have kept : ∀ a ∈ l, (tr.sched.store c (t.save cpu)).contextOf a = tr.noted cpu a := fun a member => by
    rw [noted_some running]
    by_cases same : a = c
    · subst same
      rw [Sched.contextOf_some (Sched.store_self tr.sched a (t.save cpu)), Function.update_self]
      exact congrArg some (save_context t.toImage cpu.regs)
    · rw [Sched.contextOf, Sched.store_other _ _ same, Function.update_of_ne same]
      exact waiting.own a member fun busy => same (Option.some.inj (busy.symm.trans now))
  have links : (tr.sched.ticked c t cpu d u).next = tr.sched.next :=
    funext (Sched.ticked_map Task.next rfl (fun _ => rfl) found loaded)
  have after : ∀ a, (tr.sched.ticked c t cpu d u).contextOf a = (tr.sched.store c (t.save cpu)).contextOf a :=
    Sched.map_store (s := (tr.sched.store c (t.save cpu)).setCurrent (some d))
    (fun t : Task => t.context) loaded rfl
  refine ⟨⟨⟨Chain.congr waiting.listed fun a _ => congrFun links a, ?_,
    fun a member _ => (after a).trans (kept a member), unmixed⟩, rfl⟩, unmixed,
      fun e frame busy written => ?_⟩
  · rintro e busy
    cases busy
    exact chosen
  · cases busy
    cases written
    apply (kept d chosen).symm.trans
    rw [Sched.contextOf_some loaded]
    exact congrArg some (restore_context u.toImage _).symm

theorem Waiting.interrupt (waiting : tr.Waiting l) (agree : tr.running = tr.sched.currentTask ∨ l = [])
    (done : tr.interrupt fninit cpu = .ok tr') : tr'.Intact l ∧ tr'.Isolated := by
  cases now : tr.sched.currentTask with
  | none => exact waiting.interrupt_idle now (agree.imp (fun same => same.trans now) id) done
  | some c =>
    have same := agree.resolve_right (List.ne_nil_of_mem (waiting.current c now))
    exact waiting.interrupt_current now (same.trans now) done

theorem Intact.add (intact : tr.Intact l) (fresh : tr.sched.heap a = none)
    (done : tr.exec fninit (.add a t) = .ok tr') : tr'.Intact (a :: l) ∧ tr'.Isolated := by
  cases done
  have unlisted : ∀ b ∈ l, b ≠ a := by
    rintro b member rfl
    obtain ⟨t, found⟩ := intact.listed.live member
    exact Option.some_ne_none t (found.symm.trans fresh)
  have kept : ∀ b ∈ l, (tr.sched.schedAddTask a t).heap b = tr.sched.heap b := fun b member =>
    Sched.store_other _ _ (unlisted b member)
  have new : (tr.sched.schedAddTask a t).heap a = some { t with next := tr.sched.taskList } :=
    Sched.store_self tr.sched a _
  refine ⟨⟨⟨.cons (by rw [Sched.next, new, Option.map_some]) ?_, fun c now => ?_, fun b member waits => ?_,
    intact.unmixed⟩, intact.running⟩, intact.unmixed, fun d frame _ written => ?_⟩
  · exact Chain.congr intact.listed fun b member => congrArg _ (kept b member)
  · exact List.mem_cons_of_mem a (intact.current c now)
  · rcases List.mem_cons.mp member with rfl | later
    · exact (Sched.contextOf_some new).trans (Function.update_self b _ tr.captured).symm
    · have own : (tr.sched.schedAddTask a t).contextOf b = tr.captured b := by
        rw [Sched.contextOf, kept b later]
        exact intact.own b later waits
      exact own.trans (Function.update_of_ne (unlisted b later) _ tr.captured).symm
  · exact absurd written.symm (Option.some_ne_none frame)

/-- A removal that leaves the current task its place, or no task at all. -/
theorem Intact.remove (intact : tr.Intact l) (alone : Alone tr (.remove pid cpu))
    (done : tr.sched.schedRemoveTask pid = .ok s') :
    ∃ l', Waiting { tr with sched := s' } l' ∧ (tr.running = s'.currentTask ∨ l' = []) := by
  rcases Sched.first_with tr.sched pid l with absent | ⟨us, a, vs, rfl, before, here⟩
  · cases done.symm.trans (Sched.schedRemoveTask_absent intact.listed absent intact.current)
    exact ⟨l, intact.toWaiting, .inl intact.running⟩
  · obtain ⟨u, removed, listed, bodies, now, current⟩ :=
      Sched.schedRemoveTask_present intact.listed before here intact.current
    cases removed.symm.trans done
    have same : s'.currentTask = tr.sched.currentTask ∨ us ++ vs = [] := by
      by_cases matched : tr.sched.Current pid
      · obtain ⟨left, list⟩ := Sched.schedRemoveTask_current intact.listed intact.current matched done
        rcases alone matched with empty | kept
        · exact .inr (List.head?_eq_none_iff.mp ((Chain.head listed).symm.trans (list.trans empty)))
        · exact .inl (left.trans kept)
      · exact .inl (now.trans (if_neg matched))
    refine ⟨us ++ vs, ⟨listed, current, fun b member waits => ?_, intact.unmixed⟩, ?_⟩
    · obtain ⟨whole, other⟩ := Sched.mem_without (Chain.nodup intact.listed) member
      refine (Sched.contextOf_body (bodies b other)).trans (intact.own b whole ?_)
      rw [← same.resolve_right (List.ne_nil_of_mem member)]
      exact waits
    · exact same.imp (fun kept => intact.running.trans kept.symm) id

/-- One event keeps contexts apart if it does not remove the current task from
before another one. -/
theorem Intact.event (intact : tr.Intact l) (step : Step fninit tr e tr') (alone : Alone tr e) :
    (∃ l', tr'.Intact l') ∧ tr'.Isolated := by
  obtain ⟨done, fresh⟩ := step
  cases e with
  | tick cpu =>
    obtain ⟨kept, isolated⟩ := intact.toWaiting.interrupt (.inl intact.running) done
    exact ⟨⟨l, kept⟩, isolated⟩
  | add a t =>
    obtain ⟨kept, isolated⟩ := intact.add fresh done
    exact ⟨⟨a :: l, kept⟩, isolated⟩
  | remove pid cpu =>
    obtain ⟨s', removed, interrupted⟩ := bind_ok done
    obtain ⟨l', waiting, agree⟩ := intact.remove alone removed
    obtain ⟨kept, isolated⟩ := waiting.interrupt agree interrupted
    exact ⟨⟨l', kept⟩, isolated⟩

/-- Otherwise its interrupt stores the removed task into the one at the head. -/
theorem Intact.mixed (intact : tr.Intact l) (done : tr.exec fninit e = .ok tr') (unsound : ¬ Alone tr e) :
    tr'.mixed = true := by
  cases e with
  | tick cpu => exact absurd trivial unsound
  | add a t => exact absurd trivial unsound
  | remove pid cpu =>
    rw [Alone, Classical.not_imp, not_or] at unsound
    obtain ⟨matched, left, elsewhere⟩ := unsound
    obtain ⟨s', removed, interrupted⟩ := bind_ok done
    obtain ⟨now, _⟩ := Sched.schedRemoveTask_current intact.listed intact.current matched removed
    obtain ⟨u, cpu', _, rfl⟩ := interrupt_eq interrupted
    have crossed : Crossed { tr with sched := s' } := by
      rw [Crossed, now, intact.running]
      exact ⟨left, elsewhere⟩
    exact (congrArg _ (decide_eq_true crossed)).trans (Bool.or_true _)

theorem intact_start : start.Intact [] where
  listed := .nil
  current := fun _ now => absurd now (Option.some_ne_none _).symm
  own := fun _ member => absurd member List.not_mem_nil
  unmixed := rfl
  running := rfl

/-- As long as no current task is removed from before another one, every task that
is dispatched gets its own context and none gets the context of another; and the
first such removal breaks this. -/
theorem run_isolated {es : List Event} (run : Run (Along (Step fninit) Alone) start es tr) :
    tr.Isolated ∧ ∀ e tr', Step fninit tr e tr' → (tr'.Isolated ↔ Alone tr e) := by
  have held : (∃ l, tr.Intact l) ∧ tr.Isolated := by
    refine run.invariant (I := fun tr : Traced => (∃ l, tr.Intact l) ∧ tr.Isolated) ?_
      ⟨⟨[], intact_start⟩, rfl, fun d _ busy => absurd busy (Option.some_ne_none d).symm⟩
    rintro tr e tr' ⟨⟨l, intact⟩, _⟩ ⟨step, alone⟩
    exact intact.event step alone
  obtain ⟨⟨l, intact⟩, isolated⟩ := held
  refine ⟨isolated, fun e tr' step => ⟨fun apart => ?_, fun alone => (intact.event step alone).2⟩⟩
  by_contra unsound
  exact Bool.false_ne_true (apart.1.symm.trans (intact.mixed step.1 unsound))

/-- One event, if it adds no task over another and returns. -/
def call (tr : Traced) (e : Event) : Option Traced :=
  if Fresh tr e then (tr.exec 0 e).toOption else none

theorem call_step (tr : Traced) (e : Event) (tr' : Traced) (done : call tr e = some tr') :
    Step 0 tr e tr' := by
  unfold call at done
  split at done
  · rename_i fresh
    exact ⟨ok_of_toOption done, fresh⟩
  · cases done

/-- A task that is not running is removed, and the other one goes on as it was. -/
theorem run_isolated_five : ∃ tr, Run (Along (Step 0) Alone) start
      [.add 1 (plain 1), .add 2 (plain 2), .tick Sched.quiet, .tick Sched.quiet, .remove 2 Sched.quiet] tr ∧
    tr.Isolated ∧ ∀ e tr', Step 0 tr e tr' → (tr'.Isolated ↔ Alone tr e) := by
  have sound : ∀ tr e tr', (if Alone tr e then call tr e else none) = some tr' →
      Along (Step 0) Alone tr e tr' := by
    intro tr e tr' done
    split at done
    · rename_i alone
      exact ⟨call_step tr e tr' done, alone⟩
    · cases done
  have tested : ([.add 1 (plain 1), .add 2 (plain 2), .tick Sched.quiet, .tick Sched.quiet,
      .remove 2 Sched.quiet].foldlM
      (fun tr e => if Alone tr e then call tr e else none) start).any (fun _ => True) = true := by
    decide +kernel
  obtain ⟨tr, run, _⟩ := Run.of_tested sound tested
  exact ⟨tr, run, run_isolated run⟩

/-- The running task is removed before its first successor has run, which then starts
with the context of the removed one. -/
theorem run_mixed : ∃ tr, Run (Step 0) start
      [.add 1 (plain 1), .add 2 (plain 2), .tick Sched.quiet, .remove 2 Sched.quiet] tr ∧
    tr.sched.currentTask = some 1 ∧ tr.captured 1 = some (plain 1).context ∧
    tr.last.map Frame.context ≠ tr.captured 1 ∧ ¬ tr.Isolated := by
  have tested : ([.add 1 (plain 1), .add 2 (plain 2), .tick Sched.quiet,
      .remove 2 Sched.quiet].foldlM call start).any
      (fun tr => tr.sched.currentTask = some 1 ∧ tr.captured 1 = some (plain 1).context ∧
        tr.last.map Frame.context ≠ tr.captured 1 ∧ tr.mixed = true) = true := by
    decide +kernel
  obtain ⟨tr, run, current, own, other, mixed⟩ := Run.of_tested call_step tested
  exact ⟨tr, run, current, own, other, fun isolated => Bool.false_ne_true (isolated.1.symm.trans mixed)⟩

end Traced
end Laomb.Proc
