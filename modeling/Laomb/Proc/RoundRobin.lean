import Mathlib.Data.List.Find
import Laomb.Base.Ring
import Laomb.Proc.Sched

/-! Which task `schedule` selects, and which ones timer ticks dispatch in turn. -/
namespace Laomb.Proc
open VFS LinkedList

variable {s s' : Sched} {a b c d : Addr} {t : Task} {l xs us vs pre post : List Addr} {fuel : Nat}
  {fninit : FpuState} {cpu cpu' : Cpu}

namespace Sched

/-- The `next` of a task, if there is a task. -/
def next (s : Sched) (a : Addr) : Option Ptr := (s.heap a).map Task.next

/-- `task_list` leads through the tasks `l`. -/
def Listed (s : Sched) (l : List Addr) : Prop := Chain s.next s.taskList l

def pidOf (s : Sched) (a : Addr) : Option Word := (s.heap a).map Task.pid

def Ready (s : Sched) (a : Addr) : Prop := (s.heap a).map Task.state = some .ready

instance (s : Sched) : DecidablePred s.Ready := fun _ => inferInstanceAs (Decidable (_ = _))

/-- Ready once the handler has marked the task it interrupts. -/
def Marked (s : Sched) (a : Addr) : Prop := s.Ready a ∨ s.currentTask = some a

instance (s : Sched) : DecidablePred s.Marked := fun _ => inferInstanceAs (Decidable (_ ∨ _))

/-- The current task is `c`, and round the list follow `xs`. -/
structure At (s : Sched) (c : Addr) (xs : List Addr) : Prop where
  current : s.currentTask = some c
  ring : CyclicChain (around s.next s.taskList) c xs
  distinct : (c :: xs).Nodup

theorem after_eq (s : Sched) (q : Ptr) : s.after q = q.or s.taskList := by
  cases q <;> rfl

theorem around_some (link : around s.next s.taskList a = some b) :
    ∃ t, s.heap a = some t ∧ s.after t.next = some b := by
  cases found : s.heap a with
  | none => simp [around, next, found] at link
  | some t =>
    refine ⟨t, rfl, ?_⟩
    simpa only [around, next, found, Option.map_some, Option.bind_some, after_eq] using link

theorem ready_iff (found : s.heap a = some t) : s.Ready a ↔ t.state = .ready := by
  simp only [Ready, found, Option.map_some, Option.some.injEq]

theorem find_cons_getD (x : Addr) (xs : List Addr) (c : Addr) : ((x :: xs).find? fun a => s.Ready a).getD c =
    if s.Ready x then x else (xs.find? fun a => s.Ready a).getD c := by
  rw [List.find?_cons]
  by_cases ready : s.Ready x
  · rw [if_pos ready, decide_eq_true ready]
    rfl
  · rw [if_neg ready, decide_eq_false ready]

/-- The scan from a task after `c` finds the first ready one, or comes back to `c`. -/
theorem scan_ring {x : Addr} (current : s.currentTask = some c) (other : c ∉ x :: xs)
    (ring : (x :: xs ++ [c]).IsChain fun x y => around s.next s.taskList x = some y)
    (more : xs.length < fuel) :
    scan fuel s (some x) = .ok (some (((x :: xs).find? fun a => s.Ready a).getD c)) := by
  induction xs generalizing x fuel with
  | nil =>
    obtain ⟨fuel, rfl⟩ := Nat.exists_eq_add_one.mpr more
    have link : around s.next s.taskList x = some c := by simpa using ring
    obtain ⟨t, found, next⟩ := around_some link
    rw [find_cons_getD x, List.find?_nil, Option.getD_none]
    simp only [scan, load_some found, bind, Except.bind, next, current, if_true, ready_iff found]
    by_cases ready : t.state = .ready
    · rw [if_neg (not_not.mpr ready), if_pos ready]
      rfl
    · rw [if_pos ready, if_neg ready]
      rfl
  | cons y xs ih =>
    obtain ⟨fuel, rfl⟩ := Nat.exists_eq_add_one.mpr (Nat.zero_lt_of_lt more)
    rw [List.cons_append, List.cons_append, List.isChain_cons_cons] at ring
    obtain ⟨t, found, next⟩ := around_some ring.1
    rw [List.mem_cons, not_or] at other
    have onward : some y ≠ some c := fun same => other.2 (Option.some.inj same ▸ List.mem_cons_self)
    have rest := ih other.2 ring.2 (Nat.lt_of_succ_lt_succ more)
    rw [find_cons_getD x]
    simp only [scan, load_some found, bind, Except.bind, next, current, if_neg onward, rest, ready_iff found]
    by_cases ready : t.state = .ready
    · rw [if_neg (not_not.mpr ready), if_pos ready]
      rfl
    · rw [if_pos ready, if_neg ready]

theorem ring_length (distinct : (c :: xs).Nodup) : xs.length < limit :=
  (Nat.lt_succ_self _).trans_le ((length_le_addresses distinct).trans (by decide))

theorem schedule_scanned (current : s.currentTask = some c) (found : s.heap c = some t)
    (scanned : scan limit s (s.after t.next) = .ok (some d)) : s.schedule = .ok (s.setCurrent (some d)) := by
  have unfolded : s.schedule =
      .ok (if some d ≠ none ∧ some d ≠ s.currentTask then s.setCurrent (some d) else s) := by
    simp only [schedule, current, load_some found, bind, Except.bind, pure, Except.pure, scanned]
  rw [unfolded]
  by_cases same : some d = s.currentTask
  · rw [if_neg fun both => both.2 same, setCurrent, same]
  · rw [if_pos ⟨Option.some_ne_none d, same⟩]

/-- `schedule` goes to the first ready task after the current one, or stays. -/
theorem schedule_ring (here : s.At c xs) :
    s.schedule = .ok (s.setCurrent (some ((xs.find? fun a => s.Ready a).getD c))) := by
  obtain ⟨current, ring, distinct⟩ := here
  cases xs with
  | nil =>
    have link : around s.next s.taskList c = some c := by simpa [CyclicChain] using ring
    obtain ⟨t, found, next⟩ := around_some link
    apply schedule_scanned current found
    obtain ⟨fuel, limited⟩ : ∃ fuel, limit = fuel + 1 := ⟨2 ^ 34 - 1, rfl⟩
    simp only [limited, scan, next, load_some found, bind, Except.bind, current, if_true, List.find?_nil,
      Option.getD_none]
    split <;> rfl
  | cons x xs =>
    rw [CyclicChain, List.cons_append, List.cons_append, List.isChain_cons_cons] at ring
    obtain ⟨t, found, next⟩ := around_some ring.1
    obtain ⟨other, distinct⟩ := List.nodup_cons.mp distinct
    apply schedule_scanned current found
    rw [next]
    exact scan_ring current other ring.2 (ring_length distinct)

theorem Listed.at (listed : s.Listed (pre ++ c :: post)) (current : s.currentTask = some c) :
    s.At c (post ++ pre) := by
  refine ⟨current, Chain.ring listed, ?_⟩
  have perm : (pre ++ c :: post).Perm (c :: (post ++ pre)) :=
    List.perm_middle.trans (List.perm_append_comm.cons c)
  exact perm.nodup_iff.mp (Chain.nodup listed)

/-! ## One tick -/

/-- Storing a task over one that agrees with it on `f` changes no task's `f`. -/
theorem map_store {β : Type} (f : Task → β) (found : s.heap a = some t) {u : Task}
    (same : f u = f t) (b : Addr) :
    ((s.store a u).heap b).map f = (s.heap b).map f := by
  by_cases equal : b = a
  · subst equal
    simp only [store_self, found, Option.map_some, same]
  · rw [store_other s u equal]

theorem next_store (found : s.heap a = some t) {u : Task} (same : u.next = t.next) :
    (s.store a u).next = s.next :=
  funext (map_store Task.next found same)

theorem ready_store_self (u : Task) : (s.store a u).Ready a ↔ u.state = .ready := by
  simp only [Ready, store_self, Option.map_some, Option.some.injEq]

theorem ready_store_of_ne (u : Task) (other : b ≠ a) : (s.store a u).Ready b ↔ s.Ready b := by
  rw [Ready, Ready, store_other s u other]

theorem At.load (here : s.At c xs) (member : a ∈ c :: xs) : ∃ t, s.heap a = some t := by
  obtain ⟨before, rest, split⟩ := List.append_of_mem member
  have links := here.ring
  rw [CyclicChain, split] at links
  cases rest with
  | nil =>
    have link : around s.next s.taskList a = some c :=
      List.isChain_iff_forall_rel_of_append_cons_cons.mp links (by simp : _ = before ++ a :: c :: [])
    obtain ⟨t, found, _⟩ := around_some link
    exact ⟨t, found⟩
  | cons b rest =>
    have link : around s.next s.taskList a = some b :=
      List.isChain_iff_forall_rel_of_append_cons_cons.mp links
        (by simp : _ = before ++ a :: b :: (rest ++ [c]))
    obtain ⟨t, found, _⟩ := around_some link
    exact ⟨t, found⟩

theorem At.saved (here : s.At c xs) (found : s.heap c = some t) (cpu : Cpu) :
    (s.store c (t.save cpu)).At c xs :=
  ⟨here.current, here.ring.congr fun a _ => by
    rw [next_store found (show (t.save cpu).next = t.next from rfl)]
    rfl, here.distinct⟩

/-- The task that a tick dispatches. -/
def successor (s : Sched) (c : Addr) (xs : List Addr) : Addr := (xs.find? fun a => s.Ready a).getD c

theorem successor_mem (s : Sched) (c : Addr) (xs : List Addr) : s.successor c xs ∈ c :: xs := by
  rw [successor]
  cases chosen : xs.find? fun a => s.Ready a with
  | none => exact List.mem_cons_self
  | some d => exact List.mem_cons_of_mem c (List.mem_of_find?_eq_some chosen)

theorem successor_saved (here : s.At c xs) (u : Task) : (s.store c u).successor c xs = s.successor c xs := by
  have same : ∀ a ∈ xs, ((s.store c u).Ready a ↔ s.Ready a) := fun a member =>
    ready_store_of_ne u fun equal => (List.nodup_cons.mp here.distinct).1 (equal ▸ member)
  rw [successor, successor, List.find?_congr fun a member => decide_eq_decide.mpr (same a member)]

/-- The state after a tick, given the task `u` that it goes on with. -/
def ticked (s : Sched) (c : Addr) (t : Task) (cpu : Cpu) (d : Addr) (u : Task) : Sched :=
  ((s.store c (t.save cpu)).setCurrent (some d)).store d { u with state := .running }

theorem tick_ring (here : s.At c xs) (found : s.heap c = some t) (fninit : FpuState) (cpu : Cpu) :
    ∃ u, (s.store c (t.save cpu)).heap (s.successor c xs) = some u ∧
      s.timerInterruptHandler fninit cpu = .ok (s.ticked c t cpu (s.successor c xs) u,
        u.restore (if t.fpuEnabled then { cpu with fpu := fninit } else cpu)) := by
  have there := here.saved found cpu
  obtain ⟨u, loaded⟩ := there.load (s.successor_mem c xs)
  have scheduled := schedule_ring there
  rw [← successor, successor_saved here] at scheduled
  refine ⟨u, loaded, ?_⟩
  have kept : ((s.store c (t.save cpu)).setCurrent (some (s.successor c xs))).heap
      (s.successor c xs) = some u := loaded
  simp only [timerInterruptHandler, here.current, load_some found, bind, Except.bind, pure,
    Except.pure, scheduled, setCurrent_currentTask, load_some kept, ticked]

theorem successor_eq (s : Sched) (c : Addr) (xs : List Addr) :
    (∀ a ∈ xs, ¬ s.Ready a) ∧ s.successor c xs = c ∨
    ∃ us d vs, xs = us ++ d :: vs ∧ (∀ a ∈ us, ¬ s.Ready a) ∧ s.Ready d ∧ s.successor c xs = d := by
  rw [successor]
  cases chosen : xs.find? fun a => s.Ready a with
  | none => exact .inl ⟨fun a member => by simpa using List.find?_eq_none.mp chosen a member, rfl⟩
  | some d =>
    obtain ⟨ready, us, vs, split, before⟩ := List.find?_eq_some_iff_append.mp chosen
    exact .inr
      ⟨us, d, vs, split, fun a member => by simpa using before a member, of_decide_eq_true ready, rfl⟩

/-- A tick keeps what neither saving nor dispatching changes. -/
theorem ticked_map {β : Type} (f : Task → β) (saves : f (t.save cpu) = f t)
    (dispatches : ∀ u : Task, f { u with state := .running } = f u) (found : s.heap c = some t) {u : Task}
    (loaded : (s.store c (t.save cpu)).heap d = some u) (a : Addr) :
    ((s.ticked c t cpu d u).heap a).map f = (s.heap a).map f :=
  (map_store (s := (s.store c (t.save cpu)).setCurrent (some d)) f loaded (dispatches u) a).trans
    (map_store f found saves a)

/-- Every task that was ready or current is so after a tick. -/
theorem ticked_marked (current : s.currentTask = some c) (chosen : s.Marked d) (u : Task) (a : Addr) :
    (s.ticked c t cpu d u).Marked a ↔ s.Marked a := by
  by_cases equal : a = d
  · subst equal
    exact ⟨fun _ => chosen, fun _ => .inr rfl⟩
  · have elsewhere : some d ≠ some a := fun same => equal (Option.some.inj same).symm
    have left : (s.ticked c t cpu d u).Ready a ↔ (s.store c (t.save cpu)).Ready a := ready_store_of_ne _ equal
    by_cases stopped : a = c
    · subst stopped
      exact ⟨fun _ => .inr current, fun _ => .inl (left.mpr ((ready_store_self _).mpr rfl))⟩
    · have kept : (s.store c (t.save cpu)).Ready a ↔ s.Ready a := ready_store_of_ne _ stopped
      constructor
      · rintro (ready | now)
        · exact .inl (kept.mp (left.mp ready))
        · exact absurd now elsewhere
      · rintro (ready | now)
        · exact .inl (left.mpr (kept.mpr ready))
        · exact absurd (Option.some.inj (current.symm.trans now)).symm stopped

/-- A tick turns the ring to the task it dispatches and changes no link and no pid. -/
theorem tick_turn (here : s.At c xs) (fninit : FpuState) (cpu : Cpu) :
    ∃ s' cpu', s.timerInterruptHandler fninit cpu = .ok (s', cpu') ∧
      s'.currentTask = some (s.successor c xs) ∧
      s'.taskList = s.taskList ∧ s'.next = s.next ∧ s'.pidOf = s.pidOf ∧ ∀ a, s'.Marked a ↔ s.Marked a := by
  obtain ⟨t, found⟩ := here.load List.mem_cons_self
  obtain ⟨u, loaded, done⟩ := tick_ring here found fninit cpu
  have chosen : s.Marked (s.successor c xs) := by
    rcases successor_eq s c xs with ⟨_, same⟩ | ⟨us, d, vs, _, _, ready, same⟩
    · exact .inr (same.symm ▸ here.current)
    · exact .inl (same.symm ▸ ready)
  exact ⟨_, _, done, rfl, rfl, funext (ticked_map Task.next rfl (fun _ => rfl) found loaded),
    funext (ticked_map Task.pid rfl (fun _ => rfl) found loaded), ticked_marked here.current chosen u⟩

/-! ## Rounds -/

/-- Timer interrupts that find `cpus`, with the task that each of them dispatches. -/
def ticks (fninit : FpuState) : List Cpu → Sched → Result (Sched × List Ptr)
  | [], s => pure (s, [])
  | cpu :: cpus, s => do
    let (s, _) ← s.timerInterruptHandler fninit cpu
    let (last, dispatched) ← ticks fninit cpus s
    pure (last, s.currentTask :: dispatched)

/-- The tasks to be dispatched, in turn. -/
def turns (s : Sched) (c : Addr) (xs : List Addr) : List Addr := xs.filter (fun a => s.Marked a) ++ [c]

theorem marked_other (here : s.At c xs) (member : a ∈ xs) : s.Marked a ↔ s.Ready a := by
  refine ⟨fun marked => marked.resolve_right fun current => ?_, .inl⟩
  have same := Option.some.inj (here.current.symm.trans current)
  exact (List.nodup_cons.mp here.distinct).1 (same ▸ member)

theorem filter_marked (marked : s.Marked a) :
    (a :: l).filter (fun b => s.Marked b) = a :: l.filter fun b => s.Marked b :=
  List.filter_cons_of_pos (decide_eq_true marked)

theorem turns_congr (same : ∀ a, s'.Marked a ↔ s.Marked a) : s'.turns c xs = s.turns c xs := by
  simp only [turns, same]

/-- One tick moves the first of the turns to the end. -/
theorem tick_turns (here : s.At c xs) (fninit : FpuState) (cpu : Cpu) :
    ∃ s' cpu' d ys rest, s.timerInterruptHandler fninit cpu = .ok (s', cpu') ∧ s'.At d ys ∧
      s.turns c xs = d :: rest ∧ s'.turns d ys = rest ++ [d] := by
  obtain ⟨s', cpu', done, current, list, links, _, marks⟩ := tick_turn here fninit cpu
  have ring : CyclicChain (around s'.next s'.taskList) c xs := by
    rw [links, list]
    exact here.ring
  have idle : ∀ us : List Addr, us ⊆ xs → (∀ a ∈ us, ¬ s.Ready a) → us.filter (fun a => s.Marked a) = [] := by
    intro us inside unready
    refine List.filter_eq_nil_iff.mpr fun a member marked => unready a member ?_
    exact (marked_other here (inside member)).mp (of_decide_eq_true marked)
  rcases successor_eq s c xs with ⟨unready, same⟩ | ⟨us, d, vs, rfl, unready, ready, same⟩
  · refine ⟨s', cpu', c, xs, [], done, ⟨same ▸ current, ring, here.distinct⟩, ?_, ?_⟩
    · rw [turns, idle xs (List.Subset.refl xs) unready]
      rfl
    · rw [turns_congr marks, turns, idle xs (List.Subset.refl xs) unready]
  · have turned : s'.At d (vs ++ c :: us) := by
      refine ⟨same ▸ current, ring.rotate, ?_⟩
      have perm : (c :: (us ++ d :: vs)).Perm (d :: (vs ++ c :: us)) := by
        rw [← List.cons_append, ← List.cons_append]
        exact List.perm_append_comm
      exact perm.nodup_iff.mp here.distinct
    have before := idle us (List.subset_append_left us (d :: vs)) unready
    have marked : s.Marked d := .inl ready
    refine ⟨s', cpu', d, vs ++ c :: us, vs.filter (fun a => s.Marked a) ++ [c], done, turned, ?_, ?_⟩
    · rw [turns, List.filter_append, before, List.nil_append, filter_marked marked, List.cons_append]
    · rw [turns_congr marks, turns, List.filter_append, filter_marked (.inr here.current), before]

/-- As many ticks as there are `first` turns dispatch these in this order. -/
theorem ticks_turns {first later : List Addr} {cpus : List Cpu} (here : s.At c xs)
    (order : s.turns c xs = first ++ later) (count : cpus.length = first.length) :
    ∃ s', ticks fninit cpus s = .ok (s', first.map some) := by
  induction first generalizing s c xs later cpus with
  | nil =>
    rw [List.length_nil] at count
    cases List.length_eq_zero_iff.mp count
    exact ⟨s, rfl⟩
  | cons a first ih =>
    obtain ⟨cpu, cpus, rfl⟩ := List.exists_cons_of_length_eq_add_one count
    obtain ⟨s', cpu', d, ys, rest, first_done, turned, split, onward⟩ := tick_turns here fninit cpu
    rw [List.cons_append] at order
    obtain ⟨rfl, rfl⟩ := List.cons.inj (split.symm.trans order)
    rw [List.append_assoc] at onward
    obtain ⟨last, done⟩ := ih turned onward (Nat.succ.inj count)
    refine ⟨last, ?_⟩
    simp only [ticks, first_done, bind, Except.bind, pure, Except.pure, done, turned.current, List.map_cons]

theorem turns_perm (current : s.currentTask = some c) :
    (s.turns c (post ++ pre)).Perm ((pre ++ c :: post).filter fun a => s.Marked a) := by
  have turned : (pre ++ c :: post).Perm (post ++ pre ++ [c]) := calc
    (pre ++ c :: post).Perm (c :: (pre ++ post)) := List.perm_middle
    _ |>.Perm (c :: (post ++ pre)) := List.perm_append_comm.cons c
    _ |>.Perm (post ++ pre ++ [c]) := (List.perm_append_singleton c (post ++ pre)).symm
  refine .trans ?_ (turned.filter _).symm
  rw [List.filter_append, filter_marked (.inr current), List.filter_nil, turns]


/-- `schedule` goes to the first ready task after the current one round the list,
and `m` ticks dispatch the `m` tasks that are ready or running, each once. -/
theorem round_robin (listed : s.Listed (pre ++ c :: post)) (current : s.currentTask = some c) :
    s.schedule = .ok (s.setCurrent (some (((post ++ pre).find? fun a => s.Ready a).getD c))) ∧
    ∀ cpus : List Cpu, cpus.length = ((pre ++ c :: post).filter fun a => s.Marked a).length →
      ∃ (s' : Sched) (order : List Addr), ticks fninit cpus s = .ok (s', order.map some) ∧ order.Nodup ∧
        order.Perm ((pre ++ c :: post).filter fun a => s.Marked a) := by
  have here := listed.at current
  have perm := @turns_perm s c pre post current
  refine ⟨schedule_ring here, fun cpus count => ?_⟩
  obtain ⟨s', done⟩ := ticks_turns here (List.append_nil _).symm (count.trans perm.length_eq.symm)
  exact ⟨s', _, done, perm.nodup_iff.mpr ((Chain.nodup listed).filter _), perm⟩

/-- Four listed tasks, of which the third runs. -/
def four : Sched :=
  let task := taskCreate 0 0 0 0 ⟨none, 0⟩ 0
  let tasks : List (Addr × TaskState) := [(4, .blocked), (3, .running), (2, .waiting), (1, .ready)]
  (tasks.foldl (fun s new => s.schedAddTask new.1 { task with state := new.2 }) init).setCurrent (some 3)

/-- A tick in the kernel with everything zero. -/
def quiet : Cpu where
  regs := ⟨0, 0, 0, 0, 0, 0, 0, 0, 0, 0, 0, 0, 0, 0, 0, 8, 0, 0, 0⟩
  cr3 := 0
  fpu := 0

/-- Two of four can run: the scan passes the blocked one and wraps round. -/
theorem round_robin_four : four.schedule = .ok (four.setCurrent (some 1)) ∧
    ∃ (s' : Sched) (order : List Addr), ticks 0 [quiet, quiet] four = .ok (s', order.map some) ∧ order.Nodup ∧
      order.Perm [1, 3] := by
  have listed : four.Listed ([1, 2] ++ 3 :: [4]) :=
    .cons (by decide) (.cons (by decide) (.cons (by decide) (.cons (by decide) .nil)))
  obtain ⟨selected, fair⟩ := @round_robin four 3 [1, 2] [4] 0 listed rfl
  have first : ((([4] : List Addr) ++ [1, 2]).find? fun a => four.Ready a).getD 3 = 1 := by decide
  have able : (([1, 2] : List Addr) ++ 3 :: [4]).filter (fun a => four.Marked a) = [1, 3] := by decide
  rw [first] at selected
  rw [able] at fair
  exact ⟨selected, fair [quiet, quiet] rfl⟩

end Sched
end Laomb.Proc
