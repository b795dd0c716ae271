import Laomb.RBTree.Delete
import Mathlib.Data.List.Perm.Basic

/-! The keys that `rb_delete` leaves: rotations keep the order, and the node that is
taken out is the only one that goes. -/
namespace Laomb.RBTree
open VFS RedBlack ColorTree

variable {s : Side} {c : Color} {l r t u near far : ColorTree Cell} {v w : Cell} {fs : List (Frame Cell)}
  {tr tr' : RbTree} {key : Nat}

theorem settle_toList (child : near.isRed = true ∨ far.isRed = true) :
    (settle s c t v near w far).toList = (join s c t v (join s c near w far)).toList := by
  by_cases outer : far.isRed = true
  · rw [settle_outer outer, rotate_toList s c .black c c]
    exact join_toList_congr rfl (join_toList_congr rfl paint_toList)
  · cases near with
    | nil => exact absurd (child.resolve_right outer) Bool.false_ne_true
    | node nc l n r =>
      rw [settle_inner (Bool.eq_false_iff.mpr outer), rotate_toList s c .black c c]
      apply join_toList_congr rfl
      rw [← rotate_toList s c nc, ← node_eq_join]

/-- The climb keeps the values in their order. -/
theorem deleteFix_toList (done : deleteFix t fs = some u) : u.toList = (t.plug fs).toList := by
  fun_induction deleteFix t fs with
  | case1 t =>
    cases done
    exact paint_toList
  | case2 | case3 =>
    cases done
    exact plug_toList_congr paint_toList
  | case4 | case5 => cases done
  | case6 t f fs black wl w wr sibling nc nl n nr inner child =>
    cases done
    rw [paint_toList]
    apply @plug_toList_congr _ _ _ fs
    rw [sibling, node_eq_join f.side, inner, ← rotate_toList f.side .black .red f.color .red]
    refine join_toList_congr
      ((settle_toList (RbTree.pick_red f.side (Bool.or_eq_true _ _ ▸ child))).trans ?_) rfl
    rw [← node_eq_join]
    exact join_toList_congr rfl rfl
  | case7 t f fs black wl w wr sibling nc nl n nr inner childless =>
    cases done
    apply @plug_toList_congr _ _ _ fs
    rw [sibling, node_eq_join f.side .red wl w wr, inner, ← rotate_toList f.side .black .black f.color .red]
    exact join_toList_congr (join_toList_congr rfl rfl) rfl
  | case8 t f fs black wl w wr sibling child =>
    cases done
    rw [paint_toList]
    refine @plug_toList_congr _ _ _ fs
      ((settle_toList (RbTree.pick_red f.side (Bool.or_eq_true _ _ ▸ child))).trans ?_)
    rw [← node_eq_join, sibling]
    exact join_toList_congr rfl rfl
  | case9 t f fs black wl w wr sibling childless ih =>
    rw [ih done]
    apply @plug_toList_congr _ _ _ fs
    rw [sibling]
    exact join_toList_congr rfl rfl

/-- A node goes, and the values around it stay. -/
theorem takeOut_toList (fs : List (Frame Cell)) :
    ((takeOut id c l r fs).tree.plug (takeOut id c l r fs).frames).toList =
      before fs ++ (l.toList ++ r.toList) ++ after fs := by
  cases l with
  | nil => exact plug_toList
  | node cl ll vl rl =>
    cases r with
    | nil =>
      have place : (takeOut id c (.node cl ll vl rl) .nil fs) = ⟨c, .node cl ll vl rl, fs⟩ := rfl
      rw [place, plug_toList]
      simp only [toList, List.append_nil]
    | node cr lr vr rr =>
      obtain ⟨⟨c₁, v₁, r₁, inner⟩, first⟩ : ∃ q, leftmost lr cr vr rr [] = q := ⟨_, rfl⟩
      have order := leftmost_toList lr cr vr rr first
      have place : (takeOut id c (.node cl ll vl rl) (.node cr lr vr rr) fs) =
          ⟨c₁, r₁, inner ++ ⟨.right, c, v₁, .node cl ll vl rl⟩ :: fs⟩ := by
        rw [takeOut, first]
        · rfl
        · exact node_ne_nil
      rw [place, plug_append, plug_toList, order]
      simp only [before, after, Side.pick, List.append_assoc, List.singleton_append, List.nil_append]

theorem repaired_toList {hole : Hole} (done : hole.repaired = some u) :
    u.toList = (hole.tree.plug hole.frames).toList := by
  unfold Hole.repaired at done
  split at done
  · exact deleteFix_toList done
  · cases done
    rfl

/-- From a sorted list it makes no difference which occurrence goes. -/
theorem erase_middle {k : Nat} {xs ys : List Nat} (sorted : (xs ++ k :: ys).Pairwise (· ≤ ·)) :
    (xs ++ k :: ys).erase k = xs ++ ys := by
  have perm : ((xs ++ k :: ys).erase k).Perm (xs ++ ys) := by
    have moved : ((xs ++ k :: ys).erase k).Perm ((k :: (xs ++ ys)).erase k) := List.perm_middle.erase k
    rwa [List.erase_cons_head] at moved
  refine perm.eq_of_pairwise' (sorted.sublist List.erase_sublist) (sorted.sublist ?_)
  exact (List.sublist_cons_self k ys).append_left xs

/-- A deletion takes one occurrence of the key out. -/
theorem deleted_keys (ordered : (keys t).Pairwise (· ≤ ·)) (done : deleted key t = some u) :
    keys u = (keys t).erase key := by
  have whole : _ = t.toList := congrArg toList (seek_plug (searchSide key) t [])
  rw [deleted, unlink] at done
  cases place : seek (searchSide key) t [] with
  | mk found fs =>
    rw [place] at done whole
    cases found with
    | nil =>
      cases done
      refine (List.erase_of_not_mem fun member => ?_).symm
      obtain ⟨v, present, same⟩ := List.mem_map.mp member
      exact seek_aim_nil (List.pairwise_map.mp ordered) (congrArg Prod.fst place) v present same
    | node c l v r =>
      have same : v.key = key := aim_none (seek_stop _ t [] (congrArg Prod.fst place))
      have order := (repaired_toList done).trans (takeOut_toList fs)
      rw [plug_toList] at whole
      have old : keys t = (before fs ++ l.toList).map Cell.key ++ key ::
          (r.toList ++ after fs).map Cell.key := by
        rw [keys, ← whole, ← same]
        simp only [toList, List.map_append, List.map_cons, List.append_assoc, List.cons_append]
      rw [old] at ordered
      rw [old, erase_middle ordered, keys, order]
      simp only [List.map_append, List.append_assoc]

/-- `rb_search` ends for every key, at a node with the key if `ks` has it, and with
null otherwise. -/
def Finds (tr : RbTree) (ks : List Nat) : Prop :=
  ∀ key, ∃ p, RbTree.rbSearch key limit tr tr.root = .ok p ∧
    (key ∈ ks → ∃ a n, p = some a ∧ tr.heap a = some n ∧ n.key = key) ∧ (key ∉ ks → p = none)

theorem Represents.finds (rep : Represents tr t) (ordered : (keys t).Pairwise (· ≤ ·)) :
    Finds tr (keys t) := by
  intro key
  have run := RbTree.rbSearch_seek key (show Represents tr (t.plug []) from rep) rep.length_lt
  have whole := seek_plug (searchSide key) t []
  rw [← rep.root] at run
  refine ⟨_, run, fun member => ?_, fun absent => ?_⟩
  · obtain ⟨v, present, same⟩ := List.mem_map.mp member
    cases place : (seek (searchSide key) t []).1 with
    | nil => exact absurd same (seek_aim_nil (List.pairwise_map.mp ordered) place v present)
    | node c l w r =>
      rw [place] at whole
      have here : Represents tr ((ColorTree.node c l w r).plug (seek (searchSide key) t []).2) := whole ▸ rep
      obtain ⟨_, ⟨found, _⟩, _⟩ := represents_plug.mp here
      have same : w.key = key := aim_none (seek_stop _ t [] place)
      exact ⟨w.addr, _, rfl, found, same⟩
  · cases place : (seek (searchSide key) t []).1 with
    | nil => rfl
    | node c l w r =>
      rw [place] at whole
      have same : w.key = key := aim_none (seek_stop _ t [] place)
      refine absurd (List.mem_map.mpr ⟨w, ?_, same⟩) absent
      rw [← (congrArg toList whole : _ = t.toList), plug_toList]
      simp [toList]

/-- `rb_delete` on an ordered tree of any shape and colours, where it reads through
no null pointer: it ends, the links agree again, one occurrence of the key is gone,
and `rb_search` finds the keys before and after. -/
theorem rbDelete_erases (rep : Represents tr t) (ordered : (keys t).Pairwise (· ≤ ·))
    (safe : RbTree.rbDelete tr key ≠ .error .nullDeref) :
    ∃ tr' u, RbTree.rbDelete tr key = .ok tr' ∧ Represents tr' u ∧ keys u = (keys t).erase key ∧
      Finds tr (keys t) ∧ Finds tr' ((keys t).erase key) := by
  have step := RbTree.rbDelete_represents key rep
  cases done : deleted key t with
  | none =>
    rw [done] at step
    exact absurd step safe
  | some u =>
    rw [done] at step
    obtain ⟨tr', run, rep'⟩ := step
    have left := deleted_keys ordered done
    refine ⟨tr', u, run, rep', left, rep.finds ordered, ?_⟩
    rw [← left]
    apply rep'.finds
    rw [left]
    exact ordered.sublist List.erase_sublist

/-- Four keys with a repeated one at the top. -/
def repeated : ColorTree Cell :=
  .node .black (.node .black .nil ⟨2, 1⟩ .nil) ⟨1, 2⟩ (.node .black .nil ⟨3, 2⟩ (.node .red .nil ⟨4, 3⟩ .nil))

theorem rbDelete_erases_repeated : ∃ tr, Represents tr repeated ∧
    ∃ tr' u, RbTree.rbDelete tr 2 = .ok tr' ∧ Represents tr' u ∧ keys u = [1, 2, 3] ∧
      Finds tr [1, 2, 2, 3] ∧ Finds tr' [1, 2, 3] := by
  have tested : ([(2, 1), (1, 2), (2, 3), (3, 4)].foldlM insertCall createTree).any (fun tr =>
      Represents tr repeated ∧ (RbTree.rbDelete tr 2).toOption.isSome) = true := by
    decide +kernel
  obtain ⟨tr, _, passed⟩ := (Option.any_eq_true _ _).mp tested
  obtain ⟨rep, some⟩ := of_decide_eq_true passed
  refine ⟨tr, rep, rbDelete_erases rep (by decide) fun fault => ?_⟩
  rw [fault] at some
  cases some

end Laomb.RBTree
