import Laomb.Base.Transition
import Mathlib.Logic.Function.Basic

/-! `mutex.c`: a flag that is tested and set at once, and any number of tasks that lock, try to lock
and unlock it in any order. -/
namespace Laomb.Proc
open Transition

structure Mutex where
  locked : Nat
deriving DecidableEq, Repr

def mutexInit : Mutex := ⟨0⟩

/-- `__sync_lock_test_and_set(&mutex->locked, 1)`: the old value, and the flag set. -/
def Mutex.testAndSet (m : Mutex) : Nat × Mutex := (m.locked, ⟨1⟩)

def Mutex.mutexUnlock (_ : Mutex) : Mutex := ⟨0⟩

def Mutex.mutexTrylock (m : Mutex) : Bool × Mutex :=
  let (old, m) := m.testAndSet
  (old == 0, m)

/-- Where a task is: outside, in the loop of `mutex_lock`, or between lock and unlock. -/
inductive Phase where
  | outside
  | waiting
  | holding
deriving DecidableEq, Repr

/-- The mutex and its tasks. -/
structure Locking (ι : Type*) where
  mutex : Mutex
  phase : ι → Phase

/-- `lock` enters the loop of `mutex_lock`, and `turn` is one turn of that loop; a turn that finds
the flag set ends with `yield`. -/
inductive LockEvent (ι : Type*) where
  | lock (i : ι)
  | turn (i : ι)
  | trylock (i : ι)
  | unlock (i : ι)

variable {ι : Type*} {s t : Locking ι} {i j : ι} {es : List (LockEvent ι)} {e : LockEvent ι} {p : Phase}

/-- Before any task has called. -/
def unlocked : Locking ι := ⟨mutexInit, fun _ => .outside⟩

/-- The flag is set exactly while a task holds the mutex, and then only one does. -/
structure Excludes (s : Locking ι) : Prop where
  flag : s.mutex.locked = 0 ∨ s.mutex.locked = 1
  held : s.mutex.locked ≠ 0 ↔ ∃ i, s.phase i = .holding
  single : ∀ i j, s.phase i = .holding → s.phase j = .holding → i = j

theorem unlocked_excludes : Excludes (unlocked : Locking ι) := by
  refine ⟨.inl rfl, ⟨fun set => absurd rfl set, fun ⟨i, holds⟩ => nomatch holds⟩, fun i j holds => nomatch holds⟩

/-- A task that finds the flag set leaves everything as it was. -/
theorem Excludes.refused (excludes : Excludes s) (set : s.mutex.locked ≠ 0) :
    Excludes (⟨⟨1⟩, s.phase⟩ : Locking ι) :=
  ⟨.inr rfl, ⟨fun _ => excludes.held.mp set, fun _ => Nat.one_ne_zero⟩, excludes.single⟩

variable [DecidableEq ι]

/-- The interleavings of the tasks. Only a task that holds the mutex unlocks it. -/
inductive LockStep : Locking ι → LockEvent ι → Locking ι → Prop where
  | lock (s : Locking ι) (i : ι) : s.phase i = .outside →
      LockStep s (.lock i) { s with phase := Function.update s.phase i .waiting }
  | turn (s : Locking ι) (i : ι) : s.phase i = .waiting → LockStep s (.turn i)
      ⟨s.mutex.testAndSet.2, if s.mutex.testAndSet.1 = 0 then Function.update s.phase i .holding else s.phase⟩
  | trylock (s : Locking ι) (i : ι) : s.phase i = .outside → LockStep s (.trylock i)
      ⟨s.mutex.mutexTrylock.2, if s.mutex.mutexTrylock.1 then Function.update s.phase i .holding else s.phase⟩
  | unlock (s : Locking ι) (i : ι) : s.phase i = .holding →
      LockStep s (.unlock i) ⟨s.mutex.mutexUnlock, Function.update s.phase i .outside⟩

theorem update_holding (other : p ≠ .holding) :
    Function.update s.phase i p j = .holding ↔ j ≠ i ∧ s.phase j = .holding := by
  by_cases same : j = i
  · subst same
    rw [Function.update_self]
    exact ⟨fun holds => absurd holds other, fun both => absurd rfl both.1⟩
  · rw [Function.update_of_ne same]
    exact ⟨fun holds => ⟨same, holds⟩, And.right⟩

/-- A task that finds the flag clear takes the mutex, and nobody else has it. -/
theorem Excludes.take (excludes : Excludes s) (free : s.mutex.locked = 0) (i : ι) :
    Excludes (⟨⟨1⟩, Function.update s.phase i .holding⟩ : Locking ι) := by
  have nobody : ∀ j, s.phase j ≠ .holding := fun j holds => excludes.held.mpr ⟨j, holds⟩ free
  have only : ∀ j, Function.update s.phase i .holding j = .holding → j = i := by
    intro j holds
    by_contra other
    rw [Function.update_of_ne other] at holds
    exact nobody j holds
  refine ⟨.inr rfl, ⟨fun _ => ⟨i, Function.update_self ..⟩, fun _ => Nat.one_ne_zero⟩, fun j k first second => ?_⟩
  exact (only j first).trans (only k second).symm

theorem Excludes.step (excludes : Excludes s) (step : LockStep s e t) : Excludes t := by
  cases step with
  | lock i out =>
    have same : ∀ j, Function.update s.phase i .waiting j = .holding ↔ s.phase j = .holding := by
      intro j
      rw [update_holding (by decide)]
      exact ⟨And.right, fun holds => ⟨fun mine => (by rw [mine, out] at holds; cases holds), holds⟩⟩
    refine ⟨excludes.flag, excludes.held.trans (exists_congr fun j => (same j).symm), fun j k first second => ?_⟩
    exact excludes.single j k ((same j).mp first) ((same k).mp second)
  | turn i waits =>
    by_cases free : s.mutex.locked = 0
    · rw [Mutex.testAndSet, if_pos free]
      exact excludes.take free i
    · rw [Mutex.testAndSet, if_neg free]
      exact excludes.refused free
  | trylock i out =>
    by_cases free : s.mutex.locked = 0
    · rw [Mutex.mutexTrylock, Mutex.testAndSet, if_pos (beq_iff_eq.mpr free)]
      exact excludes.take free i
    · rw [Mutex.mutexTrylock, Mutex.testAndSet, if_neg fun free' => free (beq_iff_eq.mp free')]
      exact excludes.refused free
  | unlock i holds =>
    have nobody : ∀ j, Function.update s.phase i .outside j ≠ .holding := by
      intro j still
      obtain ⟨other, holds'⟩ := (update_holding (by decide)).mp still
      exact other (excludes.single j i holds' holds)
    exact ⟨.inl rfl, ⟨fun set => absurd rfl set, fun ⟨j, holds⟩ => absurd holds (nobody j)⟩,
      fun j k first => absurd first (nobody j)⟩

/-- In every interleaving at most one task is between lock and unlock, and a turn of the loop of
`mutex_lock` gets a waiting task through exactly when no task is. -/
theorem mutex_excludes (run : Run LockStep (unlocked : Locking ι) es s) :
    (∀ i j, s.phase i = .holding → s.phase j = .holding → i = j) ∧
      ∀ i t, LockStep s (.turn i) t → (t.phase i = .holding ↔ ∀ j, s.phase j ≠ .holding) := by
  have excludes : Excludes s := run.invariant (fun _ _ _ held step => held.step step) unlocked_excludes
  refine ⟨excludes.single, fun i t step => ?_⟩
  cases step with
  | turn _ waits =>
    by_cases free : s.mutex.locked = 0
    · rw [Mutex.testAndSet, if_pos free]
      exact ⟨fun _ j holds => excludes.held.mpr ⟨j, holds⟩ free, fun _ => Function.update_self ..⟩
    · rw [Mutex.testAndSet, if_neg free]
      obtain ⟨j, holds⟩ := excludes.held.mp free
      exact ⟨fun mine => (by rw [waits] at mine; cases mine), fun nobody => absurd holds (nobody j)⟩

/-- One of two tasks has the mutex when the other asks. -/
theorem mutex_excludes_two : ∃ s, Run LockStep (unlocked : Locking Bool) [.trylock true, .lock false] s ∧
    ∀ t, LockStep s (.turn false) t → t.phase false ≠ .holding := by
  have first : LockStep (unlocked : Locking Bool) (.trylock true)
      ⟨⟨1⟩, Function.update (fun _ => .outside) true .holding⟩ := .trylock unlocked true rfl
  have run := Run.next first (.single (.lock _ false rfl))
  refine ⟨_, run, fun t step mine => ?_⟩
  exact ((mutex_excludes run).2 false t step).mp mine true rfl

end Laomb.Proc
