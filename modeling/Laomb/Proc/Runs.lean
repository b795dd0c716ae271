import Laomb.Base.Transition
import Laomb.Proc.RoundRobin

/-! The scheduler over whole runs: the list stays whole, the current task listed
and every call returns. -/
namespace Laomb.Proc
open VFS LinkedList Transition

variable {s s' : Sched} {a b c d : Addr} {p q node prev : Ptr} {t : Task} {pid : Word}
    {l us vs : List Addr} {fuel : Nat}
  {fninit : FpuState} {cpu cpu' : Cpu}

/-- A task but for its link. -/
def Task.bare (t : Task) : Task := { t with next := none }

namespace Sched

/-! ## Removal -/

/-- Each task but for its link. -/
def body (s : Sched) (a : Addr) : Option Task := (s.heap a).map Task.bare

theorem body_store (found : s.heap a = some t) (q : Ptr) : (s.store a { t with next := q }).body = s.body :=
  funext (map_store Task.bare found rfl)

theorem pidOf_body (same : s'.body a = s.body a) : s'.pidOf a = s.pidOf a := by
  have pids := congrArg (Option.map Task.pid) same
  rwa [body, body, Option.map_map, Option.map_map] at pids

theorem ready_body (same : s'.body a = s.body a) : s'.Ready a ↔ s.Ready a := by
  have states := congrArg (Option.map Task.state) same
  rw [body, body, Option.map_map, Option.map_map] at states
  rw [Ready, Ready]
  exact Eq.congr_left states

theorem pidOf_some (found : s.heap a = some t) : s.pidOf a = some t.pid := by
  rw [pidOf, found, Option.map_some]

theorem next_some (link : s.next a = some q) : ∃ t, s.heap a = some t ∧ t.next = q :=
  Option.map_eq_some_iff.mp link

theorem findTask_absent (chain : Chain s.next node l) (absent : ∀ a ∈ l, s.pidOf a ≠ some pid)
    (more : l.length < fuel) : findTask pid fuel s prev node = .ok none := by
  induction chain generalizing prev fuel with
  | nil =>
    obtain ⟨fuel, rfl⟩ := Nat.exists_eq_add_one.mpr more
    rfl
  | @cons a q l link _ ih =>
    obtain ⟨fuel, rfl⟩ := Nat.exists_eq_add_one.mpr (Nat.zero_lt_of_lt more)
    obtain ⟨t, found, rfl⟩ := next_some link
    have other : t.pid ≠ pid := fun same => absent a List.mem_cons_self (same ▸ pidOf_some found)
    simp only [findTask, load_some found, bind, Except.bind, if_pos other]
    exact ih (fun b member => absent b (List.mem_cons_of_mem a member)) (Nat.lt_of_succ_lt_succ more)

theorem findTask_present (chain : Chain s.next node (us ++ a :: vs)) (before : ∀ b ∈ us, s.pidOf b ≠ some pid)
    (here : s.pidOf a = some pid) (more : us.length < fuel) :
    findTask pid fuel s prev node = .ok (some (us.getLast?.or prev, a)) := by
  induction us generalizing node prev fuel with
  | nil =>
    obtain ⟨fuel, rfl⟩ := Nat.exists_eq_add_one.mpr more
    cases chain with
    | cons link _ =>
      obtain ⟨t, found, _⟩ := next_some link
      have same : t.pid = pid := Option.some.inj ((pidOf_some found).symm.trans here)
      simp only [findTask, load_some found, bind, Except.bind, if_neg (not_not.mpr same), List.getLast?_nil]
      rfl
  | cons u us ih =>
    obtain ⟨fuel, rfl⟩ := Nat.exists_eq_add_one.mpr (Nat.zero_lt_of_lt more)
    cases chain with
    | cons link rest =>
      obtain ⟨t, found, rfl⟩ := next_some link
      have other : t.pid ≠ pid := fun same => before u List.mem_cons_self (same ▸ pidOf_some found)
      simp only [findTask, load_some found, bind, Except.bind, if_pos other]
      rw [ih rest (fun b member => before b (List.mem_cons_of_mem u member)) (Nat.lt_of_succ_lt_succ more),
        List.getLast?_cons]
      cases us.getLast? <;> rfl

theorem mem_without (distinct : (us ++ a :: vs).Nodup) (member : b ∈ us ++ vs) : b ∈ us ++ a :: vs ∧ b ≠ a :=
  ⟨List.mem_append.mpr ((List.mem_append.mp member).imp id (List.mem_cons_of_mem a)),
    ne_of_mem_of_not_mem member (List.nodup_middle.mp distinct).notMem⟩

/-- Linking the list past a task, which is freed. -/
theorem unlinkTask_listed (listed : s.Listed (us ++ a :: vs)) :
    ∃ s', s.unlinkTask us.getLast? a = .ok s' ∧ s'.Listed (us ++ vs) ∧ s'.currentTask = s.currentTask ∧
      ∀ b, b ≠ a → s'.body b = s.body b := by
  obtain ⟨q, link⟩ := Chain.linked listed a (List.mem_append_right us List.mem_cons_self)
  obtain ⟨t, found, rfl⟩ := next_some link
  have distinct := Chain.nodup listed
  have apart : ∀ u : Sched, u.Listed (us ++ vs) → (u.kfree a).Listed (us ++ vs) := fun u whole =>
    Chain.congr whole fun b member => congrArg _ (kfree_other u (mem_without distinct member).2)
  rcases List.eq_nil_or_concat us with rfl | ⟨us, b, rfl⟩
  · refine ⟨(s.setList t.next).kfree a, ?_, apart _ ?_, rfl, fun b other => congrArg _ (kfree_other _ other)⟩
    · simp only [unlinkTask, load_some found, bind, Except.bind, List.getLast?_nil]
      rfl
    · obtain ⟨_, rest, split, link', tail⟩ := (Chain.suffix listed).some_cons
      cases Option.some.inj (link.symm.trans link')
      cases split
      exact tail
  · rw [List.concat_eq_append, List.append_assoc] at listed
    obtain ⟨n, found', _⟩ := next_some (Chain.consecutive listed)
    refine ⟨(s.store b { n with next := t.next }).kfree a, ?_, apart _ ?_, rfl, fun x other => ?_⟩
    · simp only [unlinkTask, load_some found, bind, Except.bind, List.concat_eq_append, List.getLast?_concat,
        load_some found']
      rfl
    · rw [List.concat_eq_append, List.append_assoc]
      refine Chain.unlink listed link (fun x member => ?_) ?_
      · have other : x ≠ b := by
          rintro rfl
          have again := List.mem_append.mpr ((List.mem_append.mp member).imp id (List.mem_cons_of_mem a))
          exact (List.nodup_middle.mp (Chain.nodup listed)).notMem again
        rw [next, next, store_other _ _ other]
      · rw [next, store_self, Option.map_some]
    · exact (congrArg _ (kfree_other _ other)).trans (congrFun (body_store found' t.next) x)

/-- `current_task` has the pid. -/
def Current (s : Sched) (pid : Word) : Prop := s.currentTask.bind s.pidOf = some pid

instance (s : Sched) (pid : Word) : Decidable (s.Current pid) := inferInstanceAs (Decidable (_ = _))

theorem isCurrent_eq (live : ∀ c, s.currentTask = some c → ∃ t, s.heap c = some t) (pid : Word) :
    s.isCurrent pid = .ok (decide (s.Current pid)) := by
  cases now : s.currentTask with
  | none =>
    simp only [isCurrent, Current, now, Option.bind_none, reduceCtorEq, decide_false]
    rfl
  | some c =>
    obtain ⟨t, found⟩ := live c now
    simp only [isCurrent, Current, now, load_some found, pidOf_some found, Option.bind_some,
      Option.some.injEq]
    rfl

theorem Listed.length (listed : s.Listed l) : l.length < limit :=
  (length_le_addresses (Chain.nodup listed)).trans_lt (by decide)

theorem Listed.live (listed : s.Listed l) (member : a ∈ l) : ∃ t, s.heap a = some t := by
  obtain ⟨q, link⟩ := Chain.linked listed a member
  obtain ⟨t, found, _⟩ := next_some link
  exact ⟨t, found⟩

theorem schedRemoveTask_absent (listed : s.Listed l) (absent : ∀ a ∈ l, s.pidOf a ≠ some pid)
    (current : ∀ c, s.currentTask = some c → c ∈ l) : s.schedRemoveTask pid = .ok s := by
  have other : ¬ s.Current pid := by
    intro matched
    obtain ⟨c, now, same⟩ := Option.bind_eq_some_iff.mp matched
    exact absent c (current c now) same
  simp only [schedRemoveTask, findTask_absent listed absent listed.length, bind, Except.bind,
    isCurrent_eq (fun c now => listed.live (current c now)), decide_eq_false other]
  rfl

/-- What a removal does to a list with the task. -/
theorem schedRemoveTask_present (listed : s.Listed (us ++ a :: vs)) (before : ∀ b ∈ us, s.pidOf b ≠ some pid)
    (here : s.pidOf a = some pid) (current : ∀ c, s.currentTask = some c → c ∈ us ++ a :: vs) :
    ∃ s', s.schedRemoveTask pid = .ok s' ∧ s'.Listed (us ++ vs) ∧ (∀ b, b ≠ a → s'.body b = s.body b) ∧
      (s'.currentTask = if s.Current pid then s'.taskList else s.currentTask) ∧
      ∀ c, s'.currentTask = some c → c ∈ us ++ vs := by
  obtain ⟨u, unlinked, whole, kept, bodies⟩ := unlinkTask_listed listed
  have short : us.length < limit := by
    have bound := listed.length
    rw [List.length_append] at bound
    omega
  refine ⟨if s.Current pid then u.setCurrent u.taskList else u, ?_, ?_,
    fun b other => ?_, ?_, fun c running => ?_⟩
  · simp only [schedRemoveTask, findTask_present listed before here short, bind, Except.bind,
      isCurrent_eq (fun c now => listed.live (current c now)), Option.or_none, unlinked, decide_eq_true_eq]
    rfl
  · split
    · exact whole
    · exact whole
  · split
    · exact bodies b other
    · exact bodies b other
  · split
    · rfl
    · exact kept
  · split at running
    · have head := Chain.head whole
      exact List.mem_of_mem_head? (head.symm.trans running)
    · rename_i elsewhere
      have running : s.currentTask = some c := kept.symm.trans running
      have other : c ≠ a := fun same => elsewhere (by rw [Current, running, Option.bind_some, same, here])
      have inside := List.mem_append.mp (current c running)
      exact List.mem_append.mpr (inside.imp id fun later => (List.mem_cons.mp later).resolve_left other)

/-- The first listed task with a pid. -/
theorem first_with (s : Sched) (pid : Word) (l : List Addr) : (∀ a ∈ l, s.pidOf a ≠ some pid) ∨
    ∃ us a vs, l = us ++ a :: vs ∧ (∀ b ∈ us, s.pidOf b ≠ some pid) ∧ s.pidOf a = some pid := by
  cases first : l.find? fun a => s.pidOf a = some pid with
  | none => exact .inl fun a member => by simpa using List.find?_eq_none.mp first a member
  | some a =>
    obtain ⟨here, us, vs, split, before⟩ := List.find?_eq_some_iff_append.mp first
    exact .inr ⟨us, a, vs, split, fun b member => by simpa using before b member, of_decide_eq_true here⟩

/-! ## The invariant -/

/-- What runs keep of a scheduler with the tasks `l`. -/
structure Orderly (s : Sched) (l : List Addr) : Prop where
  listed : s.Listed l
  current : ∀ c, s.currentTask = some c → c ∈ l
  marked : ∀ a ∈ l, s.Marked a
  pids : ∀ a ∈ l, ∀ b ∈ l, s.pidOf a = s.pidOf b → a = b

theorem orderly_init : init.Orderly [] where
  listed := .nil
  current := fun _ now => absurd now (Option.some_ne_none _).symm
  marked := fun _ member => absurd member List.not_mem_nil
  pids := fun _ member => absurd member List.not_mem_nil

theorem Orderly.add (orderly : s.Orderly l) (unlisted : a ∉ l) (ready : t.state = .ready)
    (distinct : ∀ b ∈ l, s.pidOf b ≠ some t.pid) : (s.schedAddTask a t).Orderly (a :: l) := by
  have other : ∀ b ∈ l, (s.schedAddTask a t).heap b = s.heap b := fun b member =>
    store_other s _ (ne_of_mem_of_not_mem member unlisted)
  have self : (s.schedAddTask a t).heap a = some { t with next := s.taskList } := store_self s a _
  have same : ∀ b ∈ l, (s.schedAddTask a t).pidOf b = s.pidOf b := fun b member => congrArg _ (other b member)
  have new : (s.schedAddTask a t).pidOf a = some t.pid := by rw [pidOf_some self]
  refine ⟨.cons (by rw [next, self, Option.map_some]) ?_, fun c now => ?_,
    fun b member => ?_, fun b member c member' => ?_⟩
  · exact Chain.congr orderly.listed fun b member => congrArg _ (other b member)
  · exact List.mem_cons_of_mem a (orderly.current c now)
  · rcases List.mem_cons.mp member with rfl | later
    · exact .inl ((ready_iff self).mpr ready)
    · refine (orderly.marked b later).imp (fun ready => ?_) id
      rw [Ready, other b later]
      exact ready
  · intro equal
    rcases List.mem_cons.mp member with rfl | later
    · rcases List.mem_cons.mp member' with rfl | later'
      · rfl
      · exact absurd ((same c later').symm.trans (equal.symm.trans new)) (distinct c later')
    · rcases List.mem_cons.mp member' with rfl | later'
      · exact absurd ((same b later).symm.trans (equal.trans new)) (distinct b later)
      · exact orderly.pids b later c later' ((same b later).symm.trans (equal.trans (same c later')))

/-- A removal leaves the rest of the list. -/
theorem Orderly.remove (orderly : s.Orderly l) (pid : Word) :
    ∃ s' l', s.schedRemoveTask pid = .ok s' ∧ s'.Orderly l' := by
  rcases first_with s pid l with absent | ⟨us, a, vs, rfl, before, here⟩
  · exact ⟨s, l, schedRemoveTask_absent orderly.listed absent orderly.current, orderly⟩
  · obtain ⟨s', done, listed, bodies, now, current⟩ :=
      schedRemoveTask_present orderly.listed before here orderly.current
    have distinct := Chain.nodup orderly.listed
    have only : ∀ c, s.currentTask = some c → s.Current pid → c = a := fun c running matched => by
      rw [Current, running, Option.bind_some, ← here] at matched
      exact orderly.pids c (orderly.current c running) a (List.mem_append_right us List.mem_cons_self) matched
    refine ⟨s', us ++ vs, done, listed, current, fun b member => ?_, fun b member c member' same => ?_⟩
    · obtain ⟨whole, other⟩ := mem_without distinct member
      refine (orderly.marked b whole).imp (ready_body (bodies b other)).mpr fun running => ?_
      rw [now, if_neg fun matched => other (only b running matched)]
      exact running
    · obtain ⟨whole, other⟩ := mem_without distinct member
      obtain ⟨whole', other'⟩ := mem_without distinct member'
      rw [pidOf_body (bodies b other), pidOf_body (bodies c other')] at same
      exact orderly.pids b whole c whole' same

/-- A tick keeps the list and who is ready or current. -/
theorem Orderly.of_marked (orderly : s.Orderly l) (list : s'.taskList = s.taskList) (links : s'.next = s.next)
    (pids : s'.pidOf = s.pidOf) (current : ∀ c, s'.currentTask = some c → c ∈ l)
    (marks : ∀ a ∈ l, s.Marked a → s'.Marked a) : s'.Orderly l := by
  refine ⟨?_, current, fun a member => marks a member (orderly.marked a member), ?_⟩
  · rw [Listed, list, links]
    exact orderly.listed
  · rw [pids]
    exact orderly.pids

/-- The tick that finds no current task dispatches the head of the list. -/
theorem Orderly.tick_idle (orderly : s.Orderly l) (idle : s.currentTask = none) (fninit : FpuState)
    (cpu : Cpu) :
    ∃ s' cpu', s.timerInterruptHandler fninit cpu = .ok (s', cpu') ∧ s'.Orderly l := by
  obtain ⟨fuel, limited⟩ : ∃ fuel, limit = fuel + 1 := ⟨2 ^ 34 - 1, rfl⟩
  have head := Chain.head orderly.listed
  cases l with
  | nil =>
    have list : s.taskList = none := head
    have scheduled : s.schedule = .ok s := by
      simp only [schedule, idle, list, after, limited, scan, bind, Except.bind, pure, Except.pure]
      rw [if_neg fun both => both.1 rfl]
    refine ⟨s, cpu, ?_, orderly⟩
    simp only [timerInterruptHandler, idle, scheduled, bind, Except.bind, pure, Except.pure]
  | cons a l =>
    have list : s.taskList = some a := head
    have marked := orderly.marked a List.mem_cons_self
    obtain ⟨t, found⟩ := orderly.listed.live List.mem_cons_self
    have unclaimed : ∀ b, s.Marked b → s.Ready b := fun b marked =>
      marked.resolve_right fun now => Option.some_ne_none b (now.symm.trans idle)
    have ready := (ready_iff found).mp (unclaimed a marked)
    have scheduled : s.schedule = .ok (s.setCurrent (some a)) := by
      simp only [schedule, idle, list, after, limited, scan, load_some found, bind, Except.bind,
        pure, Except.pure, if_neg (not_not.mpr ready)]
      rfl
    have kept : (s.setCurrent (some a)).heap a = some t := found
    refine ⟨(s.setCurrent (some a)).store a { t with state := .running }, t.restore cpu, ?_, ?_⟩
    · simp only [timerInterruptHandler, idle, bind, Except.bind, pure, Except.pure, scheduled,
        setCurrent_currentTask, load_some kept]
    · refine orderly.of_marked rfl (next_store kept rfl) (funext (map_store Task.pid kept rfl)) ?_ ?_
      · intro c now
        cases now
        exact List.mem_cons_self
      · intro b _ marked
        by_cases same : b = a
        · exact .inr (same ▸ rfl)
        · exact .inl ((ready_store_of_ne _ same).mpr (unclaimed b marked))

theorem Orderly.tick (orderly : s.Orderly l) (fninit : FpuState) (cpu : Cpu) :
    ∃ s' cpu', s.timerInterruptHandler fninit cpu = .ok (s', cpu') ∧ s'.Orderly l := by
  cases now : s.currentTask with
  | none => exact orderly.tick_idle now fninit cpu
  | some c =>
    obtain ⟨us, vs, split⟩ := List.append_of_mem (orderly.current c now)
    have here : s.At c (vs ++ us) := by
      have listed := orderly.listed
      rw [split] at listed
      exact listed.at now
    obtain ⟨s', cpu', done, chosen, list, links, pids, marks⟩ := tick_turn here fninit cpu
    refine ⟨s', cpu', done, orderly.of_marked list links pids (fun d running => ?_) fun a _ => (marks a).mpr⟩
    cases chosen.symm.trans running
    rw [split]
    rcases List.mem_cons.mp (s.successor_mem c (vs ++ us)) with same | member
    · rw [same]
      exact List.mem_append_right us List.mem_cons_self
    · refine List.mem_append.mpr ((List.mem_append.mp member).symm.imp id (List.mem_cons_of_mem c))

end Sched

/-! ## Runs -/

/-- A tick, `sched_add_task` of a task at `a`, or `sched_remove_task` with the tick of
its `yield`. -/
inductive Event where
  | tick (cpu : Cpu)
  | add (a : Addr) (t : Task)
  | remove (pid : Word) (cpu : Cpu)

/-- The state after an event and what its interrupt returns to, if it has one. -/
def Event.exec (fninit : FpuState) (s : Sched) : Event → Result (Sched × Option Cpu)
  | .tick cpu => do
    let (s, cpu) ← s.timerInterruptHandler fninit cpu
    pure (s, some cpu)
  | .add a t => pure (s.schedAddTask a t, none)
  | .remove pid cpu => do
    let s ← s.schedRemoveTask pid
    let (s, cpu) ← s.timerInterruptHandler fninit cpu
    pure (s, some cpu)

/-- Only ready tasks are added that are not listed and whose pid no listed task has. -/
def Allowed (s : Sched) : Event → Prop
  | .add a t => t.state = .ready ∧ ¬ Passes s.next s.taskList a ∧
      ∀ b, Passes s.next s.taskList b → s.pidOf b ≠ some t.pid
  | .tick _ => True
  | .remove _ _ => True

def EventStep (fninit : FpuState) (s : Sched) (e : Event) (s' : Sched) : Prop :=
  ∃ out, e.exec fninit s = .ok (s', out)

theorem Sched.Orderly.event (orderly : s.Orderly l) (fninit : FpuState) {e : Event} (allowed : Allowed s e) :
    ∃ s' l' out, e.exec fninit s = .ok (s', out) ∧ s'.Orderly l' := by
  cases e with
  | tick cpu =>
    obtain ⟨s', cpu', done, kept⟩ := orderly.tick fninit cpu
    refine ⟨s', l, some cpu', ?_, kept⟩
    simp only [Event.exec, done, bind, Except.bind, pure, Except.pure]
  | add a t =>
    obtain ⟨ready, unlisted, distinct⟩ := allowed
    have listed := orderly.listed
    exact ⟨_, a :: l, none, rfl,
      orderly.add (fun member => unlisted ((Chain.passes_iff listed).mpr member)) ready
      fun b member => distinct b ((Chain.passes_iff listed).mpr member)⟩
  | remove pid cpu =>
    obtain ⟨u, l', removed, kept⟩ := orderly.remove pid
    obtain ⟨s', cpu', done, kept'⟩ := kept.tick fninit cpu
    refine ⟨s', l', some cpu', ?_, kept'⟩
    simp only [Event.exec, removed, done, bind, Except.bind, pure, Except.pure]

/-- After any run the list is finite and free of duplicates, the current task is listed,
every other task is ready, only the current one can be running, and every further
event returns. -/
theorem run_orderly {es : List Event} (run : Run (Along (EventStep fninit) Allowed) Sched.init es s) :
    (∃ l, s.Listed l ∧ l.Nodup ∧ (∀ c, s.currentTask = some c → c ∈ l) ∧
      (∀ a ∈ l, s.currentTask ≠ some a → s.Ready a) ∧
      ∀ a ∈ l, (s.heap a).map Task.state = some .running → s.currentTask = some a) ∧
    ∀ e, Allowed s e → ∃ s', EventStep fninit s e s' := by
  have held : ∃ l, s.Orderly l := by
    refine run.invariant (I := fun s : Sched => ∃ l, s.Orderly l) ?_ ⟨[], Sched.orderly_init⟩
    rintro s e s' ⟨l, orderly⟩ ⟨⟨out, done⟩, allowed⟩
    obtain ⟨u, l', out', done', kept⟩ := orderly.event fninit allowed
    cases Except.ok.inj (done.symm.trans done')
    exact ⟨l', kept⟩
  obtain ⟨l, orderly⟩ := held
  refine ⟨⟨l, orderly.listed, Chain.nodup orderly.listed, orderly.current, fun a member other => ?_,
    fun a member running => ?_⟩, fun e allowed => ?_⟩
  · exact (orderly.marked a member).resolve_right other
  · refine (orderly.marked a member).resolve_left fun ready => ?_
    cases ready.symm.trans running
  · obtain ⟨s', _, out, done, _⟩ := orderly.event fninit allowed
    exact ⟨s', out, done⟩

/-- A task with the pid `pid` and nothing else. -/
def plain (pid : Word) : Task := taskCreate 0 pid 0 0 ⟨none, 0⟩ 0

/-- Two tasks are added, the tick dispatches the second of them, which is removed. -/
theorem run_orderly_four : ∃ s, Run (Along (EventStep 0) Allowed) Sched.init
      [.add 1 (plain 1), .add 2 (plain 2), .tick Sched.quiet, .remove 2 Sched.quiet] s ∧
    (∃ l, s.Listed l ∧ l.Nodup ∧ (∀ c, s.currentTask = some c → c ∈ l) ∧
      (∀ a ∈ l, s.currentTask ≠ some a → s.Ready a) ∧
      ∀ a ∈ l, (s.heap a).map Task.state = some .running → s.currentTask = some a) ∧
    ∀ e, Allowed s e → ∃ s', EventStep 0 s e s' := by
  have first : (Sched.init.schedAddTask 1 (plain 1)).Orderly [1] :=
    Sched.orderly_init.add (by simp) rfl (by simp)
  have second : ((Sched.init.schedAddTask 1 (plain 1)).schedAddTask 2 (plain 2)).Orderly [2, 1] :=
    first.add (by decide) rfl fun b member => by
      cases List.mem_singleton.mp member
      decide
  have allowed : Allowed Sched.init (.add 1 (plain 1)) := by
    refine ⟨rfl, fun passes => ?_, fun b passes => ?_⟩
    · exact absurd ((Chain.passes_iff Sched.orderly_init.listed).mp passes) (by simp)
    · exact absurd ((Chain.passes_iff Sched.orderly_init.listed).mp passes) (by simp)
  have allowed' : Allowed (Sched.init.schedAddTask 1 (plain 1)) (.add 2 (plain 2)) := by
    refine ⟨rfl, fun passes => ?_, fun b passes => ?_⟩
    · exact absurd ((Chain.passes_iff first.listed).mp passes) (by decide)
    · cases List.mem_singleton.mp ((Chain.passes_iff first.listed).mp passes)
      decide
  obtain ⟨third, l, _, ticked, kept⟩ := second.event 0 (show Allowed _ (.tick Sched.quiet) from trivial)
  obtain ⟨last, _, _, removed, _⟩ := kept.event 0 (show Allowed _ (.remove 2 Sched.quiet) from trivial)
  have run : Run (Along (EventStep 0) Allowed) Sched.init
      [.add 1 (plain 1), .add 2 (plain 2), .tick Sched.quiet, .remove 2 Sched.quiet] last :=
    .next ⟨⟨_, rfl⟩, allowed⟩ (.next ⟨⟨_, rfl⟩, allowed'⟩
      (.next ⟨⟨_, ticked⟩, trivial⟩ (.next ⟨⟨_, removed⟩, trivial⟩ (.refl last))))
  exact ⟨last, run, run_orderly run⟩

end Laomb.Proc
