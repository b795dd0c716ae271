import Laomb.RBTree.Delete

/-! Insertions, deletions and searches in any order from the empty tree: which
of them fault, and which keep the tree red-black. -/
namespace Laomb.RBTree
open VFS RedBlack ColorTree Transition

/-- A call of the interface; `fresh` is what `kmalloc` returns for the new node. -/
inductive Op where
  | insert (key : Nat) (fresh : Addr)
  | delete (key : Nat)
  | search (key : Nat)

variable {t u : ColorTree Cell} {tr tr' : RbTree} {key : Nat} {op : Op} {v : Cell} {hole : Hole}

namespace Op

def run (tr : RbTree) : Op → Result RbTree
  | insert key fresh => tr.rbInsert key fresh
  | delete key => tr.rbDelete key
  | search key => do
    let _ ← RbTree.rbSearch key limit tr tr.root
    pure tr

/-- `kmalloc` returns memory that is not in use. -/
def Usable (tr : RbTree) : Op → Prop
  | insert _ fresh => tr.heap fresh = none
  | delete _ | search _ => True

/-- The tree after the call. -/
def result (t : ColorTree Cell) : Op → Option (ColorTree Cell)
  | insert key fresh => inserted t ⟨fresh, key⟩
  | delete key => deleted key t
  | search _ => some t

end Op

def OpStep (tr : RbTree) (op : Op) (tr' : RbTree) : Prop := op.Usable tr ∧ op.run tr = .ok tr'

/-- The state between calls: a tree with a black root. -/
def HoldsTree (tr : RbTree) (t : ColorTree Cell) : Prop := Represents tr t ∧ t.isRed = false

theorem insertPlace_plug (key : Nat) (t : ColorTree Cell) :
    (ColorTree.nil : ColorTree Cell).plug (insertPlace key t) = t := by
  have whole := seek_plug (insertSide key) t []
  rw [insertSide, seek_nil guide_total] at whole
  exact whole

theorem inserted_some (root : t.isRed = false) (v : Cell) : ∃ u, inserted t v = some u := by
  rw [← insertPlace_plug v.key t, plug_isRed] at root
  have top : ∀ c ∈ ((insertPlace v.key t).map Frame.color).getLast?, c = .black := by
    intro c last
    rw [Option.mem_def.mp last, Option.map_some, Option.getD_some, decide_eq_false_iff_not] at root
    cases c with
    | red => exact absurd rfl root
    | black => rfl
  obtain ⟨u, done⟩ := insertFix_some top (l := .nil) (v := v) (r := .nil)
  exact ⟨_, Option.map_eq_some_iff.mpr ⟨u, done, rfl⟩⟩

theorem inserted_root (done : inserted t v = some u) : u.isRed = false := by
  obtain ⟨u, _, rfl⟩ := Option.map_eq_some_iff.mp done
  exact paint_isRed_black

/-! ## What goes -/

theorem takeOut_shape (top top' : Cell → Cell) (c : Color) (l r : ColorTree Cell) (fs : List (Frame Cell)) :
    (takeOut top c l r fs).color = (takeOut top' c l r fs).color ∧
      (takeOut top c l r fs).tree = (takeOut top' c l r fs).tree ∧
      (takeOut top c l r fs).frames.map shape = (takeOut top' c l r fs).frames.map shape := by
  cases l with
  | nil => exact ⟨rfl, rfl, rfl⟩
  | node cl ll vl rl =>
    cases r with
    | nil => exact ⟨rfl, rfl, rfl⟩
    | node cr lr vr rr =>
      obtain ⟨⟨c₁, v₁, r₁, inner⟩, first⟩ : ∃ q, leftmost lr cr vr rr [] = q := ⟨_, rfl⟩
      simp only [takeOut, first, List.map_append, List.map_cons, shape, and_self]

/-- What goes is the same before and after, but for the value above. -/
theorem unlink_goner (key : Nat) (t : ColorTree Cell) : (unlink key t = none ∧ goner key t = none) ∨
    ∃ hole old, unlink key t = some hole ∧ goner key t = some old ∧ hole.color = old.color ∧
      hole.tree = old.tree ∧ hole.frames.map shape = old.frames.map shape := by
  rw [unlink, goner]
  obtain ⟨⟨place, fs⟩, found⟩ : ∃ q, seek (searchSide key) t [] = q := ⟨_, rfl⟩
  rw [found]
  cases place with
  | nil => exact Or.inl ⟨rfl, rfl⟩
  | node c l v r => exact Or.inr ⟨_, _, rfl, rfl, takeOut_shape ..⟩

/-- The node that goes has no child but the one that takes its place. -/
theorem goner_plug (found : goner key t = some hole) :
    ∃ v, t = (ColorTree.node hole.color .nil v hole.tree).plug hole.frames ∨
      t = (ColorTree.node hole.color hole.tree v .nil).plug hole.frames := by
  have whole := seek_plug (searchSide key) t []
  rw [goner] at found
  obtain ⟨⟨place, fs⟩, sought⟩ : ∃ q, seek (searchSide key) t [] = q := ⟨_, rfl⟩
  rw [sought] at found whole
  cases place with
  | nil => cases found
  | node c l v r =>
    cases found
    change (ColorTree.node c l v r).plug fs = t at whole
    cases l with
    | nil => exact ⟨v, Or.inl whole.symm⟩
    | node cl ll vl rl =>
      cases r with
      | nil => exact ⟨v, Or.inr whole.symm⟩
      | node cr lr vr rr =>
        obtain ⟨⟨c₁, v₁, r₁, inner⟩, first⟩ : ∃ q, leftmost lr cr vr rr [] = q := ⟨_, rfl⟩
        refine ⟨v₁, Or.inl ?_⟩
        simp only [takeOut, first]
        rw [plug_append, leftmost_plug lr cr vr rr [] first]
        exact whole.symm

theorem ClimbSafe.congr {red : Bool} {fs gs : List (Frame Cell)} (safe : ClimbSafe red fs)
    (same : fs.map shape = gs.map shape) : ClimbSafe red gs := by
  induction fs generalizing gs red with
  | nil =>
    rw [List.map_nil, eq_comm, List.map_eq_nil_iff] at same
    rw [same]
    trivial
  | cons f fs ih =>
    obtain ⟨g, gs, rfl, first, rest⟩ := List.map_eq_cons_iff.mp same.symm
    obtain ⟨side, color, other⟩ : g.side = f.side ∧ g.color = f.color ∧ g.other = f.other := by
      simpa [shape] using first
    refine safe.imp_right fun sibling => ?_
    rw [side, color, other]
    cases beside : f.other with
    | nil =>
      rw [beside] at sibling
      exact sibling
    | node c l v r =>
      rw [beside] at sibling
      cases c with
      | red => exact sibling
      | black => exact sibling.imp_right fun above => ih above rest.symm

/-! ## Faults -/

/-- Deleting a black node with a child climbs from that child. -/
def Safe (t : ColorTree Cell) : Op → Prop
  | .delete key => ∀ hole, goner key t = some hole → hole.color = .black → hole.tree ≠ .nil →
      ClimbSafe hole.tree.isRed hole.frames
  | .insert _ _ | .search _ => True

theorem repaired_some_iff : (∃ u, hole.repaired = some u) ↔
    (hole.color = .black → hole.tree ≠ .nil → ClimbSafe hole.tree.isRed hole.frames) := by
  by_cases repair : hole.color = .black ∧ hole.tree ≠ .nil
  · rw [Hole.repaired, if_pos repair, deleteFix_some_iff]
    exact ⟨fun safe _ _ => safe, fun safe => safe repair.1 repair.2⟩
  · rw [Hole.repaired, if_neg repair]
    exact ⟨fun _ black child => absurd ⟨black, child⟩ repair, fun _ => ⟨_, rfl⟩⟩

theorem deleted_some_iff (key : Nat) (t : ColorTree Cell) :
    (∃ u, deleted key t = some u) ↔ Safe t (.delete key) := by
  rw [deleted, Safe]
  rcases unlink_goner key t with ⟨absent, absent'⟩ | ⟨hole, old, found, found', color, tree, frames⟩
  · rw [absent, absent']
    exact ⟨fun _ _ found => absurd found.symm (Option.some_ne_none _), fun _ => ⟨_, rfl⟩⟩
  · rw [found, found']
    simp only [repaired_some_iff, Option.some.injEq, forall_eq', color, tree]
    exact ⟨fun safe black child => (safe black child).congr frames,
      fun safe black child => (safe black child).congr frames.symm⟩

theorem deleted_root (root : t.isRed = false) (done : deleted key t = some u) : u.isRed = false := by
  rw [deleted] at done
  rcases unlink_goner key t with ⟨absent, _⟩ | ⟨hole, old, found, found', color, tree, frames⟩
  · rw [absent] at done
    cases done
    exact root
  · rw [found] at done
    have colors : hole.frames.map Frame.color = old.frames.map Frame.color := by
      simpa [shape, Function.comp_def] using congrArg (List.map fun q => q.2.1) frames
    have upper : hole.frames ≠ [] → (hole.tree.plug hole.frames).isRed = false := by
      intro nonempty
      obtain ⟨v, whole⟩ := goner_plug found'
      rw [plug_isRed, colors]
      obtain ⟨c, last⟩ := Option.ne_none_iff_exists'.mp fun none =>
        nonempty (List.map_eq_nil_iff.mp (colors.trans (List.getLast?_eq_none_iff.mp none)))
      rcases whole with whole | whole <;> rw [whole, plug_isRed, last] at root <;> rw [last] <;> exact root
    change hole.repaired = some u at done
    by_cases repair : hole.color = .black ∧ hole.tree ≠ .nil
    · rw [Hole.repaired, if_pos repair] at done
      exact deleteFix_root done upper
    · rw [Hole.repaired, if_neg repair] at done
      cases done
      by_cases frame : hole.frames = []
      · have top : old.frames = [] := by
          rw [← List.map_eq_nil_iff, ← colors, frame, List.map_nil]
        obtain ⟨v, whole⟩ := goner_plug found'
        rw [top, plug, plug, ← color] at whole
        rw [frame, plug]
        cases black : hole.color with
        | red => rcases whole with whole | whole <;> rw [whole, black] at root <;> cases root
        | black =>
          rw [not_not.mp fun child => repair ⟨black, child⟩]
          rfl
      · exact upper frame

theorem HoldsTree.step (held : HoldsTree tr t) (usable : op.Usable tr) :
    (Safe t op ∧ ∃ tr' u, op.run tr = .ok tr' ∧ op.result t = some u ∧ HoldsTree tr' u) ∨
      (¬ Safe t op ∧ op.run tr = .error .nullDeref) := by
  obtain ⟨rep, root⟩ := held
  cases op with
  | insert key fresh =>
    obtain ⟨u, done⟩ := inserted_some root ⟨fresh, key⟩
    obtain ⟨tr', run, rep'⟩ := RbTree.rbInsert_represents rep usable done
    exact Or.inl ⟨trivial, tr', u, run, done, rep', inserted_root done⟩
  | delete key =>
    have outcome := RbTree.rbDelete_represents key rep
    cases done : deleted key t with
    | none =>
      rw [done] at outcome
      refine Or.inr ⟨fun safe => ?_, outcome⟩
      obtain ⟨u, some⟩ := (deleted_some_iff key t).mpr safe
      cases done.symm.trans some
    | some u =>
      rw [done] at outcome
      obtain ⟨tr', run, rep'⟩ := outcome
      exact Or.inl ⟨(deleted_some_iff key t).mp ⟨u, done⟩, tr', u, run, done, rep', deleted_root root done⟩
  | search key =>
    refine Or.inl ⟨trivial, tr, t, ?_, rfl, rep, root⟩
    have found := RbTree.rbSearch_seek key (show Represents tr (t.plug []) from rep) rep.length_lt
    rw [← rep.root] at found
    simp only [Op.run, bind, Except.bind, found]
    rfl

/-- In every state that finished calls lead to, the next call faults, and then
through a null pointer, exactly when it is not safe for the tree it finds. -/
theorem run_safe_iff (reached : Reachable OpStep createTree tr) :
    ∃ t, Represents tr t ∧ ∀ op : Op, op.Usable tr →
      (op.run tr ≠ .error .nullDeref ↔ Safe t op) ∧ (Safe t op → ∃ tr', op.run tr = .ok tr') := by
  obtain ⟨t, held⟩ := reached.invariant (I := fun tr => ∃ t, HoldsTree tr t)
    (fun tr op tr' held step => by
      obtain ⟨t, held⟩ := held
      rcases held.step step.1 with ⟨_, next, u, run, _, held'⟩ | ⟨_, fault⟩
      · cases Except.ok.inj (run.symm.trans step.2)
        exact ⟨u, held'⟩
      · cases fault.symm.trans step.2)
    ⟨.nil, createTree_represents, rfl⟩
  refine ⟨t, held.1, fun op usable => ?_⟩
  rcases held.step usable with ⟨safe, tr', u, run, _⟩ | ⟨stuck, fault⟩
  · exact ⟨⟨fun _ => safe, fun _ => by simp [run]⟩, fun _ => ⟨tr', run⟩⟩
  · exact ⟨⟨fun fine => absurd fault fine, fun safe => absurd safe stuck⟩, fun safe => absurd safe stuck⟩

/-- One call, if its address is free and it finishes. -/
def opCall (tr : RbTree) (op : Op) : Option RbTree :=
  match op with
  | .insert key fresh => if tr.heap fresh = none then (tr.rbInsert key fresh).toOption else none
  | op => (op.run tr).toOption

theorem opCall_step (tr : RbTree) (op : Op) (tr' : RbTree) (done : opCall tr op = some tr') :
    OpStep tr op tr' := by
  cases op with
  | insert key fresh =>
    rw [opCall] at done
    split at done
    · rename_i free
      exact ⟨free, ok_of_toOption done⟩
    · cases done
  | delete | search => exact ⟨trivial, ok_of_toOption done⟩

/-- Ten calls that finish and leave a black node with no sibling on its left, and
with a child. -/
def tenCalls : List Op :=
  [.insert 1 1, .insert 4 2, .insert 5 3, .insert 6 4, .delete 1, .insert 1 5, .insert 2 6,
    .insert 3 7, .delete 1, .delete 3]

theorem run_safe_ten : ∃ tr, Run OpStep createTree tenCalls tr ∧
    ∃ t, Represents tr t ∧ ∀ op : Op, op.Usable tr →
      (op.run tr ≠ .error .nullDeref ↔ Safe t op) ∧ (Safe t op → ∃ tr', op.run tr = .ok tr') := by
  have tested : (tenCalls.foldlM opCall createTree).any (fun _ => True) = true := by decide +kernel
  obtain ⟨tr, run, _⟩ := Run.of_tested opCall_step tested
  exact ⟨tr, run, run_safe_iff ⟨_, run⟩⟩

theorem run_faults : ∃ tr, Run OpStep createTree tenCalls tr ∧ (Op.delete 4).run tr = .error .nullDeref := by
  have tested : (tenCalls.foldlM opCall createTree).any (fun tr =>
      ((Op.delete 4).run tr).map (fun _ => ()) = .error .nullDeref) = true := by decide +kernel
  obtain ⟨tr, run, fault⟩ := Run.of_tested opCall_step tested
  refine ⟨tr, run, ?_⟩
  cases result : (Op.delete 4).run tr with
  | error f =>
    rw [result] at fault
    exact congrArg _ (Except.error.inj fault)
  | ok tr' =>
    rw [result] at fault
    cases fault

/-! ## Balance -/

/-- A black node that is deleted has a child, or is the only node. -/
def KeepsBalance (t : ColorTree Cell) : Op → Prop
  | .delete key => ∀ hole, goner key t = some hole → hole.color = .black → hole.tree ≠ .nil ∨ hole.frames = []
  | .insert _ _ | .search _ => True

theorem isRed_of_height {t : ColorTree Cell} (nonempty : t ≠ .nil) (height : t.Height 0) :
    t.isRed = true := by
  cases height with
  | nil => exact absurd rfl nonempty
  | red => rfl

/-- In a balanced tree the node that goes has no child of its own below a red one. -/
theorem goner_balanced (balanced : t.Balanced) (found : goner key t = some hole) :
    hole.tree.Proper ∧ hole.tree.Height 0 ∧
      ((hole.color = .red ∧ hole.tree = .nil ∧ Fits hole.frames 0) ∨
        (hole.color = .black ∧ Fits hole.frames 1)) := by
  obtain ⟨v, whole⟩ := goner_plug found
  have parts : ∃ n, (hole.color = .red → hole.tree.isRed = false) ∧ hole.tree.Proper ∧
      (ColorTree.node hole.color .nil v hole.tree).Height n ∧ Fits hole.frames n := by
    rcases whole with whole | whole <;> rw [whole] at balanced <;>
      obtain ⟨n, ⟨colors, left, right⟩, height, fits, _⟩ := balanced_plug_iff.mp balanced
    · exact ⟨n, fun red => (colors red).2, right, height, fits⟩
    · exact ⟨n, fun red => (colors red).1, left, height.swap, fits⟩
  obtain ⟨n, colors, proper, height, fits⟩ := parts
  cases color : hole.color with
  | red =>
    rw [color] at height
    cases height with
    | red empty same =>
      cases empty
      refine ⟨proper, same, Or.inl ⟨rfl, ?_, fits⟩⟩
      by_contra nonempty
      cases (isRed_of_height nonempty same).symm.trans (colors color)
  | black =>
    rw [color] at height
    cases height with
    | black empty same =>
      cases empty
      exact ⟨proper, same, Or.inr ⟨rfl, fits⟩⟩

/-- Deleting from a balanced tree leaves a balanced one unless a black leaf goes. -/
theorem deleted_balanced_iff (balanced : t.Balanced) (key : Nat) :
    (∃ u, deleted key t = some u ∧ u.Balanced) ↔ KeepsBalance t (.delete key) := by
  rw [deleted, KeepsBalance]
  rcases unlink_goner key t with ⟨absent, absent'⟩ | ⟨hole, old, found, found', color, tree, frames⟩
  · rw [absent, absent']
    exact ⟨fun _ _ found => absurd found.symm (Option.some_ne_none _), fun _ => ⟨t, rfl, balanced⟩⟩
  obtain ⟨proper, height, cases'⟩ := goner_balanced balanced found'
  rw [found, found']
  simp only [Option.some.injEq, forall_eq', Hole.repaired, color, tree]
  rcases cases' with ⟨red, empty, fits⟩ | ⟨black, fits⟩
  · have keep : ¬ (old.color = .black ∧ old.tree ≠ .nil) := fun both => both.2 empty
    rw [if_neg keep, red, empty]
    refine ⟨fun _ black => absurd black.symm Color.black_ne_red, fun _ => ⟨_, rfl, ?_⟩⟩
    exact balanced_plug_iff.mpr
      ⟨0, trivial, .nil, fits.congr frames.symm, fun red => absurd red Bool.false_ne_true⟩
  · by_cases empty : old.tree = .nil
    · have keep : ¬ (old.color = .black ∧ old.tree ≠ .nil) := fun both => both.2 empty
      rw [if_neg keep, empty]
      constructor
      · rintro ⟨u, done, balanced'⟩ _
        cases done
        right
        cases place : old.frames with
        | nil => rfl
        | cons f fs =>
          obtain ⟨n, _, low, fits', _⟩ := balanced_plug_iff.mp balanced'
          cases low
          have zero := fits'.congr frames
          rw [place] at zero fits
          cases zero.2.1.unique fits.2.1
      · intro single
        have top : hole.frames = [] := by
          rw [← List.map_eq_nil_iff, frames, (single black).resolve_left (not_not.mpr rfl), List.map_nil]
        rw [top]
        exact ⟨_, rfl, nil_balanced⟩
    · rw [if_pos ⟨black, empty⟩, deleteFix_red (isRed_of_height empty height)]
      refine ⟨fun _ _ => Or.inl empty, fun _ => ⟨_, rfl, ?_⟩⟩
      exact balanced_plug_iff.mpr
        ⟨1, paint_proper proper, paint_height_black (isRed_of_height empty height) height,
        fits.congr frames.symm, fun red => absurd red (Bool.eq_false_iff.mp paint_isRed_black)⟩

/-- The call keeps the balance of the tree in memory. -/
def Keeps (tr : RbTree) (op : Op) : Prop := ∃ t, Represents tr t ∧ KeepsBalance t op

theorem step_balanced_iff (rep : Represents tr t) (balanced : t.Balanced) (usable : op.Usable tr) :
    (∃ tr' u, op.run tr = .ok tr' ∧ Represents tr' u ∧ u.Balanced) ↔ KeepsBalance t op := by
  have held : HoldsTree tr t := ⟨rep, balanced.root⟩
  cases op with
  | insert key fresh =>
    obtain ⟨u, done, balanced'⟩ := inserted_balanced balanced ⟨fresh, key⟩
    obtain ⟨tr', run, rep'⟩ := RbTree.rbInsert_represents rep usable done
    exact ⟨fun _ => trivial, fun _ => ⟨tr', u, run, rep', balanced'⟩⟩
  | search key =>
    rcases held.step usable with ⟨_, tr', u, run, done, rep', _⟩ | ⟨stuck, _⟩
    · cases done
      exact ⟨fun _ => trivial, fun _ => ⟨tr', t, run, rep', balanced⟩⟩
    · exact absurd trivial stuck
  | delete key =>
    rw [← deleted_balanced_iff balanced key]
    rcases held.step usable with ⟨_, tr', u, run, done, rep', _⟩ | ⟨stuck, fault⟩
    · constructor
      · rintro ⟨tr'', u', run', rep'', balanced'⟩
        cases Except.ok.inj (run.symm.trans run')
        exact ⟨u, done, rep'.unique rep'' ▸ balanced'⟩
      · rintro ⟨u', done', balanced'⟩
        cases Option.some.inj (done.symm.trans done')
        exact ⟨tr', u, run, rep', balanced'⟩
    · constructor
      · rintro ⟨tr'', u', run', _⟩
        cases fault.symm.trans run'
      · rintro ⟨u', done', _⟩
        exact absurd ((deleted_some_iff key t).mp ⟨u', done'⟩) stuck

theorem reached_balanced (reached : Reachable (Along OpStep Keeps) createTree tr) :
    ∃ t, Represents tr t ∧ t.Balanced :=
  reached.invariant (I := fun tr => ∃ t, Represents tr t ∧ t.Balanced)
    (fun tr op tr' held step => by
      obtain ⟨t, rep, balanced⟩ := held
      obtain ⟨⟨usable, run⟩, t', rep', keeps⟩ := step
      obtain ⟨tr'', u, run', rep'', balanced'⟩ :=
        (step_balanced_iff rep balanced usable).mpr (rep'.unique rep ▸ keeps)
      cases Except.ok.inj (run.symm.trans run')
      exact ⟨u, rep'', balanced'⟩)
    ⟨.nil, createTree_represents, nil_balanced⟩

/-- In every run of calls that keep the balance the heap holds a red-black tree, and
a call finishes with one again exactly when it keeps the balance. -/
theorem run_balanced_iff (reached : Reachable (Along OpStep Keeps) createTree tr) :
    ∃ t, Represents tr t ∧ t.Balanced ∧ ∀ op : Op, op.Usable tr →
      ((∃ tr' u, op.run tr = .ok tr' ∧ Represents tr' u ∧ u.Balanced) ↔ KeepsBalance t op) := by
  obtain ⟨t, rep, balanced⟩ := reached_balanced reached
  exact ⟨t, rep, balanced, fun op usable => step_balanced_iff rep balanced usable⟩

/-- A root alone, and with a smaller key below. -/
def one : ColorTree Cell := .node .black .nil ⟨1, 2⟩ .nil
def two : ColorTree Cell := .node .black (.node .red .nil ⟨2, 1⟩ .nil) ⟨1, 2⟩ .nil

theorem run_balanced_three :
    ∃ tr, Run (Along OpStep Keeps) createTree [.insert 2 1, .insert 1 2, .delete 1] tr ∧
    ∃ t, Represents tr t ∧ t.Balanced ∧ ∀ op : Op, op.Usable tr →
      ((∃ tr' u, op.run tr = .ok tr' ∧ Represents tr' u ∧ u.Balanced) ↔ KeepsBalance t op) := by
  have tested : (opCall createTree (.insert 2 1)).any (fun tr₁ => Represents tr₁ one ∧
      (opCall tr₁ (.insert 1 2)).any (fun tr₂ => Represents tr₂ two ∧
        (opCall tr₂ (.delete 1)).any (fun _ => True) = true) = true) = true := by decide +kernel
  obtain ⟨tr₁, first, passed⟩ := (Option.any_eq_true _ _).mp tested
  obtain ⟨rep₁, passed⟩ := of_decide_eq_true passed
  obtain ⟨tr₂, second, passed⟩ := (Option.any_eq_true _ _).mp passed
  obtain ⟨rep₂, passed⟩ := of_decide_eq_true passed
  obtain ⟨tr₃, third, _⟩ := (Option.any_eq_true _ _).mp passed
  have keeps : KeepsBalance two (.delete 1) := by
    intro hole found black
    cases found
    cases black
  have run : Run (Along OpStep Keeps) createTree [.insert 2 1, .insert 1 2, .delete 1] tr₃ :=
    .next ⟨opCall_step _ _ _ first, _, createTree_represents, trivial⟩
      (.next ⟨opCall_step _ _ _ second, _, rep₁, trivial⟩ (.single ⟨opCall_step _ _ _ third, _, rep₂, keeps⟩))
  exact ⟨tr₃, run, run_balanced_iff ⟨_, run⟩⟩

/-- What is left of four keys in order after the first goes: black nodes only on
the right. -/
def uneven : ColorTree Cell :=
  .node .black .nil ⟨2, 2⟩ (.node .black .nil ⟨3, 3⟩ (.node .red .nil ⟨4, 4⟩ .nil))

theorem run_unbalanced :
    ∃ tr, Run OpStep createTree [.insert 1 1, .insert 2 2, .insert 3 3, .insert 4 4, .delete 1] tr ∧
    ∀ t, Represents tr t → ¬ t.Balanced := by
  have tested : ([.insert 1 1, .insert 2 2, .insert 3 3, .insert 4 4, .delete 1].foldlM opCall createTree).any
      (fun tr => Represents tr uneven) = true := by decide +kernel
  obtain ⟨tr, run, rep⟩ := Run.of_tested opCall_step tested
  refine ⟨tr, run, fun t rep' => ?_⟩
  rw [rep'.unique rep]
  rintro ⟨_, _, n, height⟩
  cases height with
  | black left right =>
    cases left
    cases right

end Laomb.RBTree
