import Laomb.Base.Transition
import Laomb.Liballoc.Heap
import Laomb.Proc.Sched

/-! Programs that hold the interrupts off in sections of their own and call the heap and the scheduler
in them. Both lock by `cli` and `sti`, so that a call in a section ends with the interrupts on. -/
namespace Laomb.Liballoc
open Transition PMM

/-- The sections that are open are counted by `depth`. -/
structure Program where
  heap : Heap
  sched : Proc.Sched
  depth : Nat

inductive Call where
  | kmalloc (reqSize : Nat)
  | kfree (ptr : Nat)
  | krealloc (p size : Nat)
  | schedAddTask (a : VFS.Addr)
deriving DecidableEq, Repr

inductive Op where
  | cli
  | sti
  | call (c : Call)
deriving DecidableEq, Repr

namespace Program

def interrupts (s : Program) : Interrupts := s.heap.interrupts

def cli (s : Program) : Program := { s with heap := { s.heap with interrupts := s.heap.interrupts.cli } }

def sti (s : Program) : Program := { s with heap := { s.heap with interrupts := s.heap.interrupts.sti } }

/-- `sched_add_task` of the task at `a`. -/
def schedAddTask (s : Program) (a : VFS.Addr) : Option Program := do
  let t ← (s.sched.load a).toOption
  let s := s.cli
  let s := { s with sched := s.sched.schedAddTask a t }
  some s.sti

end Program

/-- The state when the call returns. -/
def Call.exec (base fuel : Nat) (s : Program) : Call → Option Program
  | .kmalloc reqSize => do
    let (_, heap) ← s.heap.kmalloc base fuel reqSize
    some { s with heap }
  | .kfree ptr => some { s with heap := s.heap.kfree base ptr }
  | .krealloc p size => do
    let (_, heap) ← s.heap.krealloc base fuel p size
    some { s with heap }
  | .schedAddTask a => s.schedAddTask a

/-- A section ends only where one is open. -/
def Op.exec (base fuel : Nat) (s : Program) : Op → Option Program
  | .cli => some { s.cli with depth := s.depth + 1 }
  | .sti => if s.depth = 0 then none else some { s.sti with depth := s.depth - 1 }
  | .call c => c.exec base fuel s

def OpStep (base : Nat) (s : Program) (op : Op) (t : Program) : Prop := ∃ fuel, op.exec base fuel s = some t

/-- The interrupts are off while a section is open, and have not been on in between; a call returns with
the flag that it was entered with. -/
structure Nests (s : Program) (op : Op) (t : Program) : Prop where
  off : 0 < t.depth → t.interrupts.enabled = false
  throughout : 0 < s.depth → 0 < t.depth → t.interrupts.stis = s.interrupts.stis
  returned : ∀ c, op = .call c → t.interrupts.enabled = s.interrupts.enabled

/-- Whether a call takes the lock: freeing a null pointer does not. -/
def Call.Locks : Call → Prop
  | .kmalloc _ => True
  | .kfree ptr => ptr ≠ null
  | .krealloc p size => p ≠ null ∨ size ≠ 0
  | .schedAddTask _ => True

/-- A section is closed only where no other is open around it, and a call that locks is entered with the
interrupts on. -/
def Careful (s : Program) : Op → Prop
  | .cli => True
  | .sti => s.depth = 1
  | .call c => c.Locks → s.interrupts.enabled = true

variable {base fuel : Nat} {s t : Program} {c : Call} {op : Op}

theorem Call.exec_depth (done : c.exec base fuel s = some t) : t.depth = s.depth := by
  cases c with
  | kmalloc reqSize =>
    obtain ⟨_, _, done⟩ := Option.bind_eq_some_iff.mp done
    cases done
    rfl
  | kfree ptr =>
    cases done
    rfl
  | krealloc p size =>
    obtain ⟨_, _, done⟩ := Option.bind_eq_some_iff.mp done
    cases done
    rfl
  | schedAddTask a =>
    obtain ⟨_, _, done⟩ := Option.bind_eq_some_iff.mp done
    cases done
    rfl

/-- A call that locks ends with the interrupts on. -/
theorem Call.exec_enabled (done : c.exec base fuel s = some t) (locks : c.Locks) :
    t.interrupts.enabled = true := by
  cases c with
  | kmalloc reqSize =>
    obtain ⟨⟨p, h⟩, run, done⟩ := Option.bind_eq_some_iff.mp done
    cases done
    exact Heap.kmalloc_released _ _ _ _ p h run
  | kfree ptr =>
    cases done
    exact Heap.kfree_enabled _ _ locks
  | krealloc p size =>
    obtain ⟨⟨q, h⟩, run, done⟩ := Option.bind_eq_some_iff.mp done
    cases done
    exact Heap.krealloc_released _ _ _ _ _ locks q h run
  | schedAddTask a =>
    obtain ⟨_, _, done⟩ := Option.bind_eq_some_iff.mp done
    cases done
    rfl

theorem Call.exec_same (done : c.exec base fuel s = some t) (lockless : ¬ c.Locks) :
    t.interrupts = s.interrupts := by
  cases c with
  | kmalloc reqSize => exact absurd trivial lockless
  | kfree ptr =>
    cases done
    obtain rfl : ptr = null := not_not.mp lockless
    exact Heap.kfree_null s.heap base
  | krealloc p size =>
    obtain ⟨⟨q, h⟩, run, done⟩ := Option.bind_eq_some_iff.mp done
    cases done
    obtain ⟨rfl, rfl⟩ : p = null ∧ size = 0 := by
      unfold Call.Locks at lockless
      push Not at lockless
      exact lockless
    obtain ⟨u, run', same⟩ := s.heap.krealloc_null base fuel
    cases run'.symm.trans run
    exact same
  | schedAddTask a => exact absurd trivial lockless

/-- While a section is open, the interrupts are off. -/
def Program.Closed (s : Program) : Prop := 0 < s.depth → s.interrupts.enabled = false

theorem call_nests_iff (closed : s.Closed) (done : c.exec base fuel s = some t) :
    Nests s (.call c) t ↔ (c.Locks → s.interrupts.enabled = true) := by
  have depth := Call.exec_depth done
  constructor
  · intro nests locks
    rw [← nests.returned c rfl]
    exact Call.exec_enabled done locks
  · intro careful
    by_cases locks : c.Locks
    · -- the interrupts are on, so that no section is open
      have on := careful locks
      have none : ¬ 0 < s.depth := fun some => by simp [closed some] at on
      rw [← depth] at none
      exact ⟨fun some => absurd some none, fun _ some => absurd some none,
        fun _ _ => (Call.exec_enabled done locks).trans on.symm⟩
    · have same := Call.exec_same done locks
      refine ⟨fun some => ?_, fun _ _ => congrArg _ same, fun _ _ => congrArg _ same⟩
      rw [same]
      exact closed (depth ▸ some)

theorem OpStep.nests_iff (closed : s.Closed) (step : OpStep base s op t) : Nests s op t ↔ Careful s op := by
  obtain ⟨fuel, done⟩ := step
  cases op with
  | cli =>
    cases done
    exact iff_of_true ⟨fun _ => rfl, fun _ _ => rfl, fun _ same => by cases same⟩ trivial
  | sti =>
    by_cases outside : s.depth = 0
    · rw [Op.exec, if_pos outside] at done
      cases done
    · rw [Op.exec, if_neg outside] at done
      cases done
      constructor
      · intro nests
        by_contra inner
        have still : 0 < s.depth - 1 := by
          unfold Careful at inner
          omega
        exact Bool.false_ne_true (nests.off still).symm
      · intro last
        have ended : ¬ 0 < s.depth - 1 := by
          unfold Careful at last
          omega
        exact ⟨fun some => absurd some ended, fun _ some => absurd some ended, fun _ same => by cases same⟩
  | call c => exact call_nests_iff closed done

/-- From any state in which no section is open: the sections nest throughout a run if and only if no section
is closed inside of another and only calls that do not lock are made with the interrupts off. -/
theorem sections_nest_iff (base : Nat) (outside : s.depth = 0) (ops : List Op) (t : Program) :
    Run (Within (OpStep base) Nests) s ops t ↔ Run (Along (OpStep base) Careful) s ops t :=
  Run.within_iff_along (I := Program.Closed) (fun _ _ _ closed step => step.nests_iff closed)
    (fun _ _ _ _ _ nests => nests.off) (fun some => absurd outside (Nat.ne_of_gt some))

/-- Before `_start`: 32 free pages, an empty heap and no tasks. -/
def bootProgram : Program where
  heap :=
    { memory := fun _ => 0
      interrupts := ⟨true, 0⟩
      pages := ⟨⟨fun _ => 0, 32, 4, []⟩, 0, 0⟩
      memRoot := null
      bestBet := null
      inuse := 0
      errorCount := 0
      possibleOverruns := 0 }
  sched := Proc.Sched.init
  depth := 0

instance : DecidablePred Call.Locks
  | .kmalloc _ | .schedAddTask _ => isTrue trivial
  | .kfree ptr => inferInstanceAs (Decidable (ptr ≠ null))
  | .krealloc p size => inferInstanceAs (Decidable (p ≠ null ∨ size ≠ 0))

instance (s : Program) : DecidablePred (Careful s)
  | .cli => isTrue trivial
  | .sti => inferInstanceAs (Decidable (s.depth = 1))
  | .call c => inferInstanceAs (Decidable (c.Locks → s.interrupts.enabled = true))

def carefulOp (s : Program) (op : Op) : Option Program :=
  if Careful s op then op.exec 0xC0000000 8 s else none

theorem carefulOp_step (s : Program) (op : Op) (t : Program) (done : carefulOp s op = some t) :
    Along (OpStep 0xC0000000) Careful s op t := by
  obtain ⟨careful, done⟩ := Option.ite_none_right_eq_some.mp done
  exact ⟨⟨8, done⟩, careful⟩

/-- Memory is allocated and freed with the interrupts on, and in the section there is nothing to lock. -/
theorem sections_nest_boot : ∃ t, Run (Within (OpStep 0xC0000000) Nests) bootProgram
    [.call (.kmalloc 100), .cli, .call (.kfree null), .sti, .call (.kfree 0xC0000040)] t := by
  have tested : ([.call (.kmalloc 100), .cli, .call (.kfree null), .sti, .call (.kfree 0xC0000040)].foldlM
      carefulOp bootProgram).any (fun _ => True) = true := by decide +kernel
  obtain ⟨t, run, _⟩ := Run.of_tested carefulOp_step tested
  exact ⟨t, (sections_nest_iff 0xC0000000 rfl _ t).mpr run⟩

/-- The first `kmalloc` of `_start` turns the interrupts on in the section that `_start` has opened. -/
theorem kmalloc_opens_section : ¬ ∀ base s ops t, s.depth = 0 → Run (OpStep base) s ops t →
    Run (Within (OpStep base) Nests) s ops t := by
  intro all
  have tested : ((Op.call (.kmalloc 100)).exec 0xC0000000 2 { bootProgram.cli with depth := 1 }).any
      (fun t => t.interrupts.enabled = true ∧ t.depth = 1) = true := by
    decide +kernel
  obtain ⟨t, done, passed⟩ := (Option.any_eq_true _ _).mp tested
  obtain ⟨on, inside⟩ := of_decide_eq_true passed
  have opened : OpStep 0xC0000000 bootProgram .cli { bootProgram.cli with depth := 1 } := ⟨0, rfl⟩
  cases all 0xC0000000 bootProgram _ t rfl (.next opened (.single ⟨2, done⟩)) with
  | next first rest =>
    cases rest with
    | next second last =>
      cases last
      have off := second.2.off (inside ▸ Nat.one_pos)
      exact Bool.false_ne_true (off.symm.trans on)

end Laomb.Liballoc
