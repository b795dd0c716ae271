import Laomb.RBTree.Erase
import Laomb.RBTree.Runs
import Mathlib.Data.Nat.Log

/-! The tree as a multiset of keys over runs of insertions, deletions and searches, and how far
down a search goes. -/
namespace Laomb.RBTree
open VFS RedBlack ColorTree Transition

variable {α : Type*} {c : Color} {l r t u : ColorTree Cell} {fs : List (Frame Cell)} {tr tr' : RbTree} {op : Op}
    {ops : List Op} {ks : List Nat} {key fuel n : Nat}

/-- The keys after a call. -/
def Op.leaves (ks : List Nat) : Op → List Nat
  | .insert key _ => key :: ks
  | .delete key => ks.erase key
  | .search _ => ks

/-- The keys after the calls, the last inserted first. -/
def contents (ops : List Op) : List Nat := ops.foldl Op.leaves []

/-- The heap holds an ordered tree of the keys. -/
def HoldsKeys (tr : RbTree) (ks : List Nat) : Prop :=
  ∃ t, HoldsTree tr t ∧ Ordered Cell.key t ∧ (keys t).Perm ks

theorem HoldsKeys.step (held : HoldsKeys tr ks) (step : OpStep tr op tr') : HoldsKeys tr' (op.leaves ks) := by
  obtain ⟨t, tree, ordered, perm⟩ := held
  obtain ⟨usable, run⟩ := step
  rcases tree.step usable with ⟨_, tr'', u, run', done, tree'⟩ | ⟨_, fault⟩
  · cases Except.ok.inj (run'.symm.trans run)
    refine ⟨u, tree', ?_⟩
    cases op with
    | insert key fresh =>
      obtain ⟨more, ordered'⟩ := inserted_ordered ordered done
      exact ⟨ordered', more.trans (perm.cons key)⟩
    | delete key =>
      have sorted : (keys t).Pairwise (· ≤ ·) := List.pairwise_map.mpr ordered
      have less := deleted_keys sorted done
      refine ⟨List.pairwise_map.mp ?_, less ▸ perm.erase key⟩
      change (keys u).Pairwise (· ≤ ·)
      rw [less]
      exact sorted.sublist List.erase_sublist
    | search key =>
      cases done
      exact ⟨ordered, perm⟩
  · cases fault.symm.trans run

theorem run_holds (run : Run OpStep tr ops tr') (held : HoldsKeys tr ks) :
    HoldsKeys tr' (ops.foldl Op.leaves ks) := by
  induction run generalizing ks with
  | refl => exact held
  | next step _ ih => exact ih (held.step step)

theorem createTree_holds : HoldsKeys createTree [] :=
  ⟨.nil, ⟨createTree_represents, rfl⟩, List.Pairwise.nil, List.Perm.refl []⟩

/-- The calls treat the tree as a multiset of keys, in any order of calls that finish: from left to
right it has the keys that have been inserted and not deleted again, and a search finds just these. -/
theorem run_contents (run : Run OpStep createTree ops tr) : Finds tr (contents ops) ∧
    ∃ t, Represents tr t ∧ keys t = (contents ops).insertionSort (· ≤ ·) := by
  obtain ⟨t, ⟨rep, _⟩, ordered, perm⟩ := run_holds run createTree_holds
  have sorted : (keys t).Pairwise (· ≤ ·) := List.pairwise_map.mpr ordered
  constructor
  · intro key
    obtain ⟨p, search, present, absent⟩ := rep.finds sorted key
    exact ⟨p, search, fun member => present (perm.mem_iff.mpr member),
      fun missing => absent fun member => missing (perm.mem_iff.mp member)⟩
  · refine ⟨t, rep, List.Perm.eq_of_pairwise' (r := (· ≤ ·)) sorted (List.pairwise_insertionSort _ _) ?_⟩
    exact perm.trans (List.perm_insertionSort _ _).symm

/-! ## How far down -/

/-- The nodes on the longest way down. -/
def depth : ColorTree α → Nat
  | .nil => 0
  | .node _ l _ r => max (depth l) (depth r) + 1

/-- A search ends within the depth of the tree. -/
theorem rbSearch_depth (key : Nat) (rep : Represents tr (t.plug fs)) (more : depth t < fuel) :
    RbTree.rbSearch key fuel tr (ptr t) = .ok (ptr (seek (searchSide key) t fs).1) := by
  induction t generalizing fs fuel with
  | nil =>
    obtain ⟨fuel, rfl⟩ := Nat.exists_eq_add_one.mpr (Nat.zero_lt_of_lt more)
    rfl
  | node c l v r ihl ihr =>
    obtain ⟨fuel, rfl⟩ := Nat.exists_eq_add_one.mpr (Nat.zero_lt_of_lt more)
    simp only [depth] at more
    simp only [RbTree.rbSearch, ptr, RbTree.load_represents rep, bind, Except.bind, seek, searchSide]
    by_cases found : v.key = key
    · simp only [if_pos found]
      rfl
    · simp only [if_neg found]
      by_cases less : key < v.key
      · simp only [if_pos less]
        have lower : Represents tr (l.plug (⟨.left, c, v, r⟩ :: fs)) := rep
        exact ihl lower (by omega)
      · simp only [if_neg less]
        have lower : Represents tr (r.plug (⟨.right, c, v, l⟩ :: fs)) := rep
        exact ihr lower (by omega)

/-- At most every other node on a way down is red. -/
theorem depth_le {t : ColorTree α} (proper : t.Proper) (height : t.Height n) :
    depth t ≤ 2 * n + if t.isRed then 1 else 0 := by
  induction height with
  | nil => exact Nat.le_refl _
  | @red l r v n _ _ ihl ihr =>
    obtain ⟨children, left, right⟩ := proper
    obtain ⟨blackL, blackR⟩ := children rfl
    have lower := ihl left
    have lower' := ihr right
    rw [blackL] at lower
    rw [blackR] at lower'
    simp only [depth, isRed, Bool.false_eq_true, if_false, if_true] at *
    omega
  | @black l r v n _ _ ihl ihr =>
    obtain ⟨_, left, right⟩ := proper
    have lower := ihl left
    have lower' := ihr right
    have one : ∀ red : Bool, (if red then 1 else 0) ≤ 1 := by decide
    have first := one l.isRed
    have second := one r.isRed
    simp only [depth]
    omega

/-- The black nodes alone double the size with every level. -/
theorem two_pow_le {t : ColorTree α} (height : t.Height n) : 2 ^ n ≤ t.toList.length + 1 := by
  induction height with
  | nil => exact Nat.le_refl _
  | red _ _ ihl ihr =>
    simp only [toList, List.length_append, List.length_cons]
    omega
  | black _ _ ihl ihr =>
    simp only [toList, List.length_append, List.length_cons, Nat.pow_succ]
    omega

theorem Balanced.depth_le_log {t : ColorTree Cell} (balanced : t.Balanced) :
    depth t ≤ 2 * Nat.log 2 ((keys t).length + 1) := by
  obtain ⟨root, proper, n, height⟩ := balanced
  have down := depth_le proper height
  rw [root] at down
  have size := two_pow_le height
  have black : n ≤ Nat.log 2 ((keys t).length + 1) := by
    rw [keys, List.length_map]
    exact Nat.le_log_of_pow_le (by decide) size
  simp only [Bool.false_eq_true, if_false] at down
  omega

/-- In every run of calls that keep the balance, a search ends with the same result whatever number of
turns it may take, from one more than twice the logarithm of the number of keys. -/
theorem run_search_logarithmic (run : Run (Along OpStep Keeps) createTree ops tr) (key : Nat) :
    ∃ p, RbTree.rbSearch key limit tr tr.root = .ok p ∧ ∀ fuel > 2 * Nat.log 2 ((contents ops).length + 1),
      RbTree.rbSearch key fuel tr tr.root = .ok p := by
  have plain : Run OpStep createTree ops tr := run.mono fun _ _ _ step => step.1
  obtain ⟨t, ⟨rep, _⟩, _, perm⟩ := run_holds plain createTree_holds
  obtain ⟨t', rep', balanced⟩ := reached_balanced ⟨_, run⟩
  obtain rfl := rep'.unique rep
  have short := Balanced.depth_le_log balanced
  have length : (keys t').length = (contents ops).length := perm.length_eq
  rw [length] at short
  have whole : Represents tr (t'.plug []) := rep
  rw [rep.root]
  refine ⟨_, RbTree.rbSearch_seek key whole rep.length_lt, fun fuel more => ?_⟩
  exact rbSearch_depth key whole (Nat.lt_of_le_of_lt short more)

/-- Insertions keep the balance. -/
theorem insertions_keep (calls : List (Nat × Addr)) (tree : HoldsTree tr t)
    (run : Run OpStep tr (calls.map fun call => .insert call.1 call.2) tr') :
    Run (Along OpStep Keeps) tr (calls.map fun call => .insert call.1 call.2) tr' := by
  induction calls generalizing tr t with
  | nil =>
    cases run
    exact .refl _
  | cons call calls ih =>
    cases run with
    | next step rest =>
      obtain ⟨usable, done⟩ := step
      rcases tree.step usable with ⟨_, next, u, run', _, tree'⟩ | ⟨_, fault⟩
      · cases Except.ok.inj (run'.symm.trans done)
        exact .next ⟨⟨usable, done⟩, t, tree.1, trivial⟩ (ih tree' rest)
      · cases fault.symm.trans done

/-! ## Equal keys, and a deletion that keeps the balance -/

theorem run_contents_repeated : ∃ tr, Run OpStep createTree [.insert 2 1, .insert 1 2, .insert 2 3, .delete 2] tr ∧
    Finds tr [1, 2] := by
  have tested : ([.insert 2 1, .insert 1 2, .insert 2 3, .delete 2].foldlM opCall createTree).any
      (fun _ => True) = true := by decide +kernel
  obtain ⟨tr, run, _⟩ := Run.of_tested opCall_step tested
  exact ⟨tr, run, (run_contents run).1⟩

/-- Four keys, the last of them red. -/
def four : ColorTree Cell :=
  .node .black (.node .black .nil ⟨1, 1⟩ .nil) ⟨2, 2⟩
    (.node .black .nil ⟨3, 3⟩ (.node .red .nil ⟨4, 4⟩ .nil))

/-- The third key's node is black and has a child. -/
theorem run_search_logarithmic_four : ∃ tr,
    Run (Along OpStep Keeps) createTree [.insert 1 1, .insert 2 2, .insert 3 3, .insert 4 4, .delete 3] tr ∧
    ∀ fuel > 4, RbTree.rbSearch 4 fuel tr tr.root = .ok (some 4) := by
  have tested : ([.insert 1 1, .insert 2 2, .insert 3 3, .insert 4 4].foldlM opCall createTree).any
      (fun tr => Represents tr four ∧ (opCall tr (.delete 3)).any
        (fun tr => RbTree.rbSearch 4 5 tr tr.root = .ok (some 4)) = true) = true := by
    decide +kernel
  obtain ⟨tr, inserts, rep, passed⟩ := Run.of_tested opCall_step tested
  obtain ⟨tr', last, found⟩ := (Option.any_eq_true _ _).mp passed
  have keeps : KeepsBalance four (.delete 3) := by
    intro hole gone _
    cases gone
    exact .inl fun empty => nomatch empty
  have built := insertions_keep [(1, 1), (2, 2), (3, 3), (4, 4)] ⟨createTree_represents, rfl⟩ inserts
  have run := built.trans (.single ⟨opCall_step _ _ _ last, four, rep, keeps⟩)
  obtain ⟨p, _, quick⟩ := run_search_logarithmic run 4
  obtain rfl : p = some 4 := Except.ok.inj ((quick 5 (by decide)).symm.trans (of_decide_eq_true found))
  exact ⟨tr', run, quick⟩

end Laomb.RBTree
