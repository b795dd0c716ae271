import Laomb.RBTree.DeleteFixup
import Laomb.RBTree.Insert

/-! `rb_search` and `rb_delete` on the tree that the heap represents. -/
namespace Laomb.RBTree
open VFS RedBlack ColorTree Transition

/-- Where `rb_search` goes at a node. -/
def searchSide (key : Nat) (v : Cell) : Option Side :=
  if v.key = key then none else some (if key < v.key then .left else .right)

/-- The place of a node that was taken out: its colour, what stands there now, and
the frames above. -/
structure Hole where
  color : Color
  tree : ColorTree Cell
  frames : List (Frame Cell)

/-- The node that goes when one with the subtrees `l` and `r` is deleted: itself if
it has at most one child, and else the next one in order. The deleted node then
holds `top` of the value that goes. -/
def takeOut (top : Cell → Cell) (c : Color) (l r : ColorTree Cell) (fs : List (Frame Cell)) : Hole :=
  match l, r with
  | .nil, r => ⟨c, r, fs⟩
  | l, .nil => ⟨c, l, fs⟩
  | l, .node c' l' v' r' =>
    match leftmost l' c' v' r' [] with
    | (c₁, v₁, r₁, inner) => ⟨c₁, r₁, inner ++ ⟨.right, c, top v₁, l⟩ :: fs⟩

/-- The hole that `rb_delete` of a key leaves, if it finds the key. -/
def unlink (key : Nat) (t : ColorTree Cell) : Option Hole :=
  match seek (searchSide key) t [] with
  | (.nil, _) => none
  | (.node c l _ r, fs) => some (takeOut id c l r fs)

/-- The node that goes, with its only child and the frames above it, as they are
before. -/
def goner (key : Nat) (t : ColorTree Cell) : Option Hole :=
  match seek (searchSide key) t [] with
  | (.nil, _) => none
  | (.node c l v r, fs) => some (takeOut (fun _ => v) c l r fs)

/-- The fixup is only called for a nonempty tree in the place of a black node. -/
def Hole.repaired (hole : Hole) : Option (ColorTree Cell) :=
  if hole.color = .black ∧ hole.tree ≠ .nil then deleteFix hole.tree hole.frames
  else some (hole.tree.plug hole.frames)

/-- The tree after `rb_delete`, if its fixup finds every node it reads. -/
def deleted (key : Nat) (t : ColorTree Cell) : Option (ColorTree Cell) :=
  match unlink key t with
  | none => some t
  | some hole => hole.repaired

variable {s : Side} {c c' : Color} {l r t u near far : ColorTree Cell} {v w y z : Cell} {f g : Frame Cell}
  {fs gs : List (Frame Cell)} {tr tr' : RbTree} {a : Addr} {p q : Ptr} {fuel key : Nat}

namespace RbTree

theorem rbSearch_seek (key : Nat) (rep : Represents tr (t.plug fs)) (more : (addrs t).length < fuel) :
    rbSearch key fuel tr (ptr t) = .ok (ptr (seek (searchSide key) t fs).1) := by
  induction t generalizing fs fuel with
  | nil =>
    obtain ⟨fuel, rfl⟩ := Nat.exists_eq_add_one.mpr more
    rfl
  | node c l v r ihl ihr =>
    obtain ⟨fuel, rfl⟩ := Nat.exists_eq_add_one.mpr (Nat.zero_lt_of_lt more)
    simp only [addrs, List.length_cons, List.length_append] at more
    simp only [rbSearch, ptr, load_represents rep, bind, Except.bind, seek, searchSide]
    by_cases found : v.key = key
    · simp only [if_pos found]
      rfl
    · simp only [if_neg found]
      by_cases less : key < v.key
      · simp only [if_pos less]
        have lower : Represents tr (l.plug (⟨.left, c, v, r⟩ :: fs)) := rep
        exact ihl lower (Nat.lt_of_le_of_lt (Nat.le_add_right ..) (Nat.lt_of_succ_lt_succ more))
      · simp only [if_neg less]
        have lower : Represents tr (r.plug (⟨.right, c, v, l⟩ :: fs)) := rep
        exact ihr lower (Nat.lt_of_le_of_lt (Nat.le_add_left ..) (Nat.lt_of_succ_lt_succ more))

theorem rbMinimum_leftmost (gs : List (Frame Cell)) (rep : Represents tr ((ColorTree.node c l v r).plug fs))
    (more : (addrs l).length < fuel) :
    rbMinimum fuel tr (some v.addr) = .ok (some (leftmost l c v r gs).2.1.addr) := by
  induction l generalizing c v r fs gs fuel with
  | nil =>
    obtain ⟨fuel, rfl⟩ := Nat.exists_eq_add_one.mpr more
    simp only [rbMinimum, load_represents rep, bind, Except.bind, ptr, leftmost]
    rfl
  | node c' l' v' r' ih _ =>
    obtain ⟨fuel, rfl⟩ := Nat.exists_eq_add_one.mpr (Nat.zero_lt_of_lt more)
    simp only [addrs, List.length_cons, List.length_append] at more
    simp only [rbMinimum, load_represents rep, bind, Except.bind, ptr, leftmost]
    have lower : Represents tr ((ColorTree.node c' l' v' r').plug (⟨.left, c, v, r⟩ :: fs)) := rep
    exact ih _ lower (Nat.lt_of_le_of_lt (Nat.le_add_right ..) (Nat.lt_of_succ_lt_succ more))

theorem kfree_heap_ne (tr : RbTree) {a b : Addr} (different : b ≠ a) : (tr.kfree a).heap b = tr.heap b :=
  Function.update_of_ne different ..

/-- A node with the child `t` and no other gives way to it. -/
theorem spliceOut_represents {n : RbNode} (root : tr.root = topmost fs (some a)) (found : tr.heap a = some n)
    (parent : n.parent = above fs) (linked : Linked tr.heap (some a) t) (framed : Framed tr.heap fs (some a))
    (nodup : (a :: (addrs t ++ frameAddrs fs)).Nodup) :
    ∃ tr', spliceOut tr a (ptr t) = .ok tr' ∧ Represents tr' (t.plug fs) := by
  obtain ⟨outside, nodup⟩ := List.nodup_cons.mp nodup
  rw [List.mem_append, not_or] at outside
  have apart := List.disjoint_of_nodup_append nodup
  obtain ⟨tr₁, step₁, linked₁, root₁, same₁⟩ := modifyIf_setParent linked nodup.of_append_left (above fs)
  have found₁ := (same₁ a outside.1).trans found
  have framed₁ := framed.congr fun b member => same₁ b (apart.symm member)
  obtain ⟨tr₂, step₂, framed₂, root₂, same₂⟩ := replaceChild_framed .left (ptr t) framed₁ (root₁.trans root)
    nodup.of_append_right (ne_other outside.2)
  have kept : ∀ b, b ∈ addrs t ∨ b ∈ frameAddrs fs → (tr₂.kfree a).heap b = tr₂.heap b := fun b member =>
    kfree_heap_ne _ fun same => member.elim (same ▸ outside.1) (same ▸ outside.2)
  refine ⟨tr₂.kfree a, ?_, represents_plug.mpr ⟨root₂, ?_, ?_, nodup⟩⟩
  · simp only [spliceOut, bind, Except.bind, load_some found, parent, step₁, load_some found₁, step₂]
    rfl
  · exact linked₁.congr fun b member => (kept b (Or.inl member)).trans (same₂ b (apart member))
  · exact framed₂.congr fun b member => kept b (Or.inr member)

theorem modifyIf_eq (nonempty : t ≠ .nil) (f : RbNode → RbNode) :
    tr.modifyIf (ptr t) f = tr.modify (ptr t) f := by
  cases t with
  | nil => exact absurd rfl nonempty
  | node => rfl

/-- `z` is still in its place under `fs`, with the left subtree `l`, but the rest of
its right subtree, `r`, hangs from `y`. -/
structure Detached (tr : RbTree) (z y : Cell) (c : Color) (l r : ColorTree Cell)
    (fs : List (Frame Cell)) : Prop where
  root : tr.root = topmost fs (some z.addr)
  zFound : ∃ q, tr.heap z.addr = some ⟨z.key, c, ptr l, q, above fs⟩
  yFound : ∃ c' p q, tr.heap y.addr = some ⟨y.key, c', p, ptr r, q⟩
  left : Linked tr.heap (some z.addr) l
  right : Linked tr.heap (some y.addr) r
  framed : Framed tr.heap fs (some z.addr)
  nodup : (z.addr :: (addrs (.node c l y r) ++ frameAddrs fs)).Nodup

/-- `y` with the right subtree `r` in the place of `z` with the left subtree `l`. -/
theorem takePlace_represents (detached : Detached tr z y c l r fs) (nonempty : l ≠ .nil) :
    ∃ tr', takePlace tr z.addr (some y.addr) = .ok tr' ∧
      Represents tr' ((ColorTree.node c l y r).plug fs) := by
  obtain ⟨root, ⟨q, zFound⟩, ⟨c', p, o, yFound⟩, left, right, framed, nodup⟩ := detached
  obtain ⟨zOut, nodup⟩ := List.nodup_cons.mp nodup
  have whole := nodup
  simp only [addrs, List.cons_append, List.append_assoc, List.mem_cons, List.mem_append, not_or,
    List.nodup_cons] at zOut nodup
  obtain ⟨zy, zLeft, zRight, zFrames⟩ := zOut
  obtain ⟨⟨yLeft, yRight, yFrames⟩, nodup⟩ := nodup
  have leftApart := List.disjoint_of_nodup_append nodup
  have rightFrames := List.disjoint_of_nodup_append nodup.of_append_right
  simp only [List.disjoint_append_right] at leftApart
  -- the link above
  obtain ⟨tr₁, step₁, framed₁, root₁, same₁⟩ := replaceChild_framed .left (some y.addr) framed root
    nodup.of_append_right.of_append_right (ne_other zFrames)
  have zFound₁ := (same₁ _ zFrames).trans zFound
  -- `y->parent` and `y->left`
  obtain ⟨tr₂, step₂, yFound₂, root₂, same₂⟩ :=
    modify_ok ((same₁ _ yFrames).trans yFound) (·.setParent (above fs))
  obtain ⟨tr₃, step₃, yFound₃, root₃, same₃⟩ := modify_ok yFound₂ (·.setChild .left (ptr l))
  -- `z->left->parent`
  have left₃ : Linked tr₃.heap (some z.addr) l := left.congr fun a member => by
    rw [same₃ a fun same => yLeft (same ▸ member), same₂ a fun same => yLeft (same ▸ member),
      same₁ a (leftApart.2 member)]
  obtain ⟨tr₄, step₄, left₄, root₄, same₄⟩ := modifyIf_setParent left₃ nodup.of_append_left (some y.addr)
  rw [modifyIf_eq nonempty] at step₄
  -- `y->color`
  obtain ⟨tr₅, step₅, yFound₅, root₅, same₅⟩ := modify_ok ((same₄ _ yLeft).trans yFound₃) (·.setColor c)
  have apart : ∀ a, a ≠ y.addr → a ∉ addrs l → a ∉ frameAddrs fs → tr₅.heap a = tr.heap a :=
    fun a notY notLeft outside => by
      rw [same₅ a notY, same₄ a notLeft, same₃ a notY, same₂ a notY, same₁ a outside]
  have kept {a : Addr} (other : a ≠ z.addr) : (tr₅.kfree z.addr).heap a = tr₅.heap a := kfree_heap_ne _ other
  refine ⟨tr₅.kfree z.addr, ?_, represents_plug.mpr ⟨?_, ⟨?_, ?_, ?_⟩, ?_, whole⟩⟩
  · simp only [takePlace, bind, Except.bind, load_some zFound, step₁, load_some zFound₁, step₂,
      step₃, step₄, step₅]
    rfl
  · exact root₅.trans (root₄.trans (root₃.trans (root₂.trans root₁)))
  · exact (kept (Ne.symm zy)).trans yFound₅
  · exact left₄.congr fun a member => (kept fun same => zLeft (same ▸ member)).trans
      (same₅ a fun same => yLeft (same ▸ member))
  · exact right.congr fun a member => (kept fun same => zRight (same ▸ member)).trans
      (apart a (fun same => yRight (same ▸ member)) (leftApart.1.symm member) (rightFrames member))
  · exact framed₁.congr fun a member => by
      rw [kept fun same => zFrames (same ▸ member), same₅ a fun same => yFrames (same ▸ member),
        same₄ a (leftApart.2.symm member), same₃ a fun same => yFrames (same ▸ member),
        same₂ a fun same => yFrames (same ▸ member)]

theorem frameAddrs_append (fs gs : List (Frame Cell)) :
    frameAddrs (fs ++ gs) = frameAddrs fs ++ frameAddrs gs := by
  induction fs with
  | nil => rfl
  | cons f fs ih => simp only [List.cons_append, frameAddrs, ih, List.append_assoc]

/-- The addresses around `z` before and after its right subtree hangs from `y`. -/
theorem detached_nodup {inner : List (Frame Cell)}
    (nodup : (addrs (.node c' .nil y r) ++ frameAddrs (inner ++ ⟨.right, c, z, l⟩ :: fs)).Nodup) :
    (z.addr :: (addrs (.node c l y (r.plug inner)) ++ frameAddrs fs)).Nodup := by
  refine (List.Perm.nodup_iff ?_).mp nodup
  refine List.perm_iff_count.mpr fun a => ?_
  simp only [addrs, frameAddrs, frameAddrs_append, List.nil_append, List.cons_append, List.count_cons,
    List.count_append, addrs_plug.count_eq a]
  omega

/-- The right subtree of `z` without its first node `y` comes under `y`. -/
theorem detachMin_represents {inner : List (Frame Cell)}
    (rep : Represents tr ((ColorTree.node c' .nil y r).plug (inner ++ ⟨.right, c, z, l⟩ :: fs)))
    (left : ∀ f ∈ inner, f.side = .left) :
    ∃ tr', detachMin tr z.addr (some y.addr) (ptr r) = .ok tr' ∧ Detached tr' z y c l (r.plug inner) fs := by
  obtain ⟨root, ⟨yFound, _, rLinked⟩, framed, nodup⟩ := represents_plug.mp rep
  have after := detached_nodup nodup
  cases inner with
  | nil =>
    obtain ⟨zFound, lLinked, framed⟩ := framed
    refine ⟨tr, ?_, root, ⟨_, zFound⟩, ⟨_, _, _, yFound⟩, lLinked, rLinked, framed, after⟩
    simp only [detachMin, bind, Except.bind, load_some yFound, above]
    exact if_neg (not_not.mpr rfl)
  | cons f inner =>
    rw [List.cons_append] at framed nodup root
    simp only [addrs, List.nil_append, List.cons_append] at nodup
    obtain ⟨yOut, nodup⟩ := List.nodup_cons.mp nodup
    rw [List.mem_append, not_or] at yOut
    have apart := List.disjoint_of_nodup_append nodup
    have fz : some f.value.addr ≠ some z.addr := fun same => by
      have frames := nodup.of_append_right
      simp [frameAddrs, frameAddrs_append, Option.some.inj same] at frames
    -- `x` for `y` under the parent of `y`
    obtain ⟨tr₁, step₁, linked₁, root₁, same₁⟩ :=
      modifyIf_setParent rLinked nodup.of_append_left (some f.value.addr)
    have framed₁ := framed.congr fun a member => same₁ a (apart.symm member)
    obtain ⟨tr₂, step₂, framed₂, root₂, same₂⟩ := modify_setChild framed₁ nodup.of_append_right (ptr r)
    rw [left f List.mem_cons_self] at step₂
    have rep₂ : Represents tr₂ ((r.plug (f :: inner)).plug (⟨.right, c, z, l⟩ :: fs)) := by
      rw [← plug_append]
      refine represents_plug.mpr ⟨root₂.trans (root₁.trans root), ?_, framed₂, nodup⟩
      exact linked₁.congr fun a member => same₂ a (apart member)
    have yFound₂ := (same₂ _ yOut.2).trans ((same₁ _ yOut.1).trans yFound)
    -- `y->right = z->right`, and its parent
    obtain ⟨tr₃, step₃, yFound₃, root₃, same₃⟩ :=
      modify_ok yFound₂ (·.setChild .right (ptr (r.plug (f :: inner))))
    have nonempty : r.plug (f :: inner) ≠ .nil :=
      plug_ne_nil (t := join f.side f.color r f.value f.other) join_ne_nil
    generalize r.plug (f :: inner) = rest at rep₂ after yFound₃ step₃ nonempty ⊢
    obtain ⟨root', restLinked, ⟨zFound, lLinked, framed'⟩, nodup'⟩ := represents_plug.mp rep₂
    have out := after
    simp only [addrs, List.cons_append, List.append_assoc, List.nodup_cons, List.mem_cons, List.mem_append,
      not_or] at out
    obtain ⟨⟨zy, zLeft, zRest, zFrames⟩, ⟨yLeft, yRest, yFrames⟩, distinct⟩ := out
    have leftApart := List.disjoint_of_nodup_append distinct
    have restFrames := List.disjoint_of_nodup_append distinct.of_append_right
    simp only [List.disjoint_append_right] at leftApart
    have restLinked₃ := restLinked.congr fun a member => same₃ a fun same => yRest (same ▸ member)
    obtain ⟨tr₄, step₄, restLinked₄, root₄, same₄⟩ :=
      modifyIf_setParent restLinked₃ nodup'.of_append_left (some y.addr)
    rw [modifyIf_eq nonempty] at step₄
    have kept : ∀ a, a ≠ y.addr → a ∉ addrs rest → tr₄.heap a = tr₂.heap a := fun a notY outside =>
      (same₄ a outside).trans (same₃ a notY)
    refine ⟨tr₄, ?_, root₄.trans (root₃.trans root'), ⟨_, (kept _ zy zRest).trans zFound⟩,
      ⟨_, _, _, (same₄ _ yRest).trans yFound₃⟩, ?_, restLinked₄, ?_, after⟩
    · have zLoad := load_some zFound
      simp only [detachMin, bind, Except.bind, load_some yFound, List.cons_append, above]
      rw [if_pos fz]
      simp only [step₁, step₂, zLoad, Side.pick, step₃, step₄]
    · exact lLinked.congr fun a member => kept a (fun same => yLeft (same ▸ member)) (leftApart.1 member)
    · exact framed'.congr fun a member => kept a (fun same => yFrames (same ▸ member))
        (restFrames.symm member)

theorem unlinkNode_represents (rep : Represents tr ((ColorTree.node c l v r).plug fs)) :
    ∃ tr', unlinkNode tr v.addr = .ok (tr', (takeOut id c l r fs).color, ptr (takeOut id c l r fs).tree) ∧
      Represents tr' ((takeOut id c l r fs).tree.plug (takeOut id c l r fs).frames) := by
  have place := rep
  obtain ⟨root, ⟨found, left, right⟩, framed, nodup⟩ := represents_plug.mp rep
  cases l with
  | nil =>
    obtain ⟨tr', step, rep'⟩ := spliceOut_represents root found rfl right framed nodup
    refine ⟨tr', ?_, rep'⟩
    simp only [ptr] at found
    simp only [unlinkNode, bind, Except.bind, load_some found, if_true]
    exact step.symm ▸ rfl
  | node cl ll vl rl =>
    cases r with
    | nil =>
      have nodup' : (v.addr :: (addrs (.node cl ll vl rl) ++ frameAddrs fs)).Nodup := by
        simpa only [addrs, List.append_nil, List.cons_append] using nodup
      obtain ⟨tr', step, rep'⟩ := spliceOut_represents root found rfl left framed nodup'
      refine ⟨tr', ?_, rep'⟩
      simp only [ptr] at found
      simp only [unlinkNode, bind, Except.bind, load_some found, reduceCtorEq, if_false, if_true]
      exact step.symm ▸ rfl
    | node cr lr vr rr =>
      obtain ⟨⟨c₁, v₁, r₁, inner⟩, first⟩ : ∃ q, leftmost lr cr vr rr [] = q := ⟨_, rfl⟩
      have below : Represents tr
          ((ColorTree.node cr lr vr rr).plug (⟨.right, c, v, .node cl ll vl rl⟩ :: fs)) := rep
      have more : (addrs lr).length < limit := by
        have whole := below.length_lt
        rw [addrs_plug.length_eq, addrs] at whole
        simp only [List.length_cons, List.length_append] at whole
        omega
      have minimum := rbMinimum_leftmost [] below more
      have same := leftmost_plug lr cr vr rr [] first
      have lowest : Represents tr
          ((ColorTree.node c₁ .nil v₁ r₁).plug (inner ++ ⟨.right, c, v, .node cl ll vl rl⟩ :: fs)) := by
        rw [plug_append, same]
        exact below
      obtain ⟨tr₁, step₁, detached⟩ :=
        detachMin_represents lowest
          (leftmost_side lr cr vr rr [] first fun _ member => absurd member List.not_mem_nil)
      obtain ⟨tr₂, step₂, rep₂⟩ := takePlace_represents detached node_ne_nil
      rw [first] at minimum
      refine ⟨tr₂, ?_, ?_⟩
      · simp only [ptr] at found
        simp only [unlinkNode, bind, Except.bind, load_some found, reduceCtorEq, if_false, minimum,
          load_represents lowest, step₁, step₂, takeOut, first]
        rfl
      · simp only [takeOut, first]
        rw [plug_append]
        exact rep₂

theorem repaired_represents {hole : Hole} (rep : Represents tr (hole.tree.plug hole.frames)) :
    match hole.repaired with
    | some u =>
      ∃ tr', (if hole.color = .black ∧ ptr hole.tree ≠ none then rbDeleteFixup limit tr (ptr hole.tree)
        else .ok tr) = .ok tr' ∧ Represents tr' u
    | none => (if hole.color = .black ∧ ptr hole.tree ≠ none then rbDeleteFixup limit tr (ptr hole.tree)
        else .ok tr) = .error .nullDeref := by
  have present : ptr hole.tree ≠ none ↔ hole.tree ≠ .nil := by
    cases hole.tree <;> simp [ptr]
  by_cases repair : hole.color = .black ∧ hole.tree ≠ .nil
  · rw [Hole.repaired, if_pos repair, if_pos ⟨repair.1, present.mpr repair.2⟩]
    apply rbDeleteFixup_represents rep repair.2
    have frames := length_frameAddrs hole.frames
    have all := rep.length_le
    rw [addrs_plug.length_eq, List.length_append] at all
    exact Nat.lt_of_le_of_lt (by omega : hole.frames.length + 1 ≤ 2 ^ 32 + 1) (by decide)
  · rw [Hole.repaired, if_neg repair, if_neg fun both => repair ⟨both.1, present.mp both.2⟩]
    exact ⟨tr, rfl, rep⟩

/-- `rb_delete` in memory that holds a tree: `deleted` says what remains, and where
it has no result the source reads through a null pointer. -/
theorem rbDelete_represents (key : Nat) (rep : Represents tr t) :
    match deleted key t with
    | some u => ∃ tr', rbDelete tr key = .ok tr' ∧ Represents tr' u
    | none => rbDelete tr key = .error .nullDeref := by
  have search := rbSearch_seek key (show Represents tr (t.plug []) from rep) rep.length_lt
  have whole := seek_plug (searchSide key) t []
  rw [← rep.root] at search
  rw [deleted, unlink]
  obtain ⟨⟨place, fs⟩, found⟩ : ∃ q, seek (searchSide key) t [] = q := ⟨_, rfl⟩
  rw [found] at search whole ⊢
  cases place with
  | nil =>
    refine ⟨tr, ?_, rep⟩
    simp only [rbDelete, bind, Except.bind, search, ptr]
    rfl
  | node c l v r =>
    have rep₀ : Represents tr ((ColorTree.node c l v r).plug fs) := whole ▸ rep
    obtain ⟨tr₁, step₁, rep₁⟩ := unlinkNode_represents rep₀
    have run : rbDelete tr key = if (takeOut id c l r fs).color = .black ∧
        ptr (takeOut id c l r fs).tree ≠ none then
        rbDeleteFixup limit tr₁ (ptr (takeOut id c l r fs).tree) else .ok tr₁ := by
      simp only [rbDelete, bind, Except.bind, search, ptr, step₁]
      rfl
    rw [run]
    exact repaired_represents rep₁

end RbTree
end Laomb.RBTree
