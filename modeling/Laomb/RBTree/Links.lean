import Laomb.RBTree.Heap

/-! Heaps that hold a tree: every record is the one its node calls for, the
pointer to its parent included. -/
namespace Laomb.RBTree
open VFS RedBlack ColorTree

/-- The address of a node and its key. -/
@[ext] structure Cell where
  addr : Addr
  key : Nat
deriving DecidableEq, Repr

variable {h h' : Addr → Option RbNode} {s : Side} {c c' : Color} {l r t u near far : ColorTree Cell}
    {v : Cell}
  {f : Frame Cell} {fs : List (Frame Cell)} {p q : Ptr} {a : Addr} {tr tr' : RbTree}

def ptr : ColorTree Cell → Ptr
  | .nil => none
  | .node _ _ v _ => some v.addr

def addrs : ColorTree Cell → List Addr
  | .nil => []
  | .node _ l v r => v.addr :: (addrs l ++ addrs r)

/-- The heap holds the records of `t`, whose root has the parent `p`. -/
def Linked (h : Addr → Option RbNode) : Ptr → ColorTree Cell → Prop
  | _, .nil => True
  | p, .node c l v r =>
    h v.addr = some ⟨v.key, c, ptr l, ptr r, p⟩ ∧ Linked h (some v.addr) l ∧ Linked h (some v.addr) r

instance decidableLinked (h : Addr → Option RbNode) :
    (p : Ptr) → (t : ColorTree Cell) → Decidable (Linked h p t)
  | _, .nil => .isTrue trivial
  | _, .node _ l v r =>
    have := decidableLinked h (some v.addr) l
    have := decidableLinked h (some v.addr) r
    inferInstanceAs (Decidable (_ ∧ _ ∧ _))

/-- The parent of what stands under the frames. -/
def above : List (Frame Cell) → Ptr
  | [] => none
  | f :: _ => some f.value.addr

def frameAddrs : List (Frame Cell) → List Addr
  | [] => []
  | f :: fs => f.value.addr :: (addrs f.other ++ frameAddrs fs)

/-- The heap holds the records of the frames and of the trees beside them, with
`p` in the place below. -/
def Framed (h : Addr → Option RbNode) : List (Frame Cell) → Ptr → Prop
  | [], _ => True
  | f :: fs, p =>
    h f.value.addr =
      some ⟨f.value.key, f.color, f.side.pick p (ptr f.other), f.side.pick (ptr f.other) p, above fs⟩ ∧
      Linked h (some f.value.addr) f.other ∧ Framed h fs (some f.value.addr)

/-- The topmost node over a place that holds `p`. -/
def topmost : List (Frame Cell) → Ptr → Ptr
  | [], p => p
  | f :: fs, _ => topmost fs (some f.value.addr)

/-- The tree structure in memory is `t`. -/
structure Represents (tr : RbTree) (t : ColorTree Cell) : Prop where
  root : tr.root = ptr t
  linked : Linked tr.heap none t
  nodup : (addrs t).Nodup

instance (tr : RbTree) (t : ColorTree Cell) : Decidable (Represents tr t) :=
  decidable_of_iff (tr.root = ptr t ∧ Linked tr.heap none t ∧ (addrs t).Nodup)
    ⟨fun ⟨root, linked, nodup⟩ => ⟨root, linked, nodup⟩, fun ⟨root, linked, nodup⟩ => ⟨root, linked, nodup⟩⟩

theorem Linked.congr (linked : Linked h p t) (same : ∀ a ∈ addrs t, h' a = h a) : Linked h' p t := by
  induction t generalizing p with
  | nil => trivial
  | node c l v r ihl ihr =>
    obtain ⟨record, left, right⟩ := linked
    simp only [addrs, List.mem_cons, List.mem_append, forall_eq_or_imp] at same
    exact ⟨same.1.trans record, ihl left fun a member => same.2 a (.inl member),
      ihr right fun a member => same.2 a (.inr member)⟩

theorem Framed.congr (framed : Framed h fs p) (same : ∀ a ∈ frameAddrs fs, h' a = h a) : Framed h' fs p := by
  induction fs generalizing p with
  | nil => trivial
  | cons f fs ih =>
    obtain ⟨record, other, framed⟩ := framed
    simp only [frameAddrs, List.mem_cons, List.mem_append, forall_eq_or_imp] at same
    exact ⟨same.1.trans record, other.congr fun a member => same.2 a (.inl member),
      ih framed fun a member => same.2 a (.inr member)⟩

/-- The heap determines the tree. -/
theorem Linked.unique (left : Linked h p t) (right : Linked h q u) (same : ptr t = ptr u) : t = u := by
  induction t generalizing u p q with
  | nil =>
    cases u with
    | nil => rfl
    | node => cases same
  | node c l v r ihl ihr =>
    cases u with
    | nil => cases same
    | node c' l' v' r' =>
      obtain ⟨record, leftLower, leftUpper⟩ := left
      obtain ⟨record', rightLower, rightUpper⟩ := right
      have address : v.addr = v'.addr := Option.some.inj same
      rw [← address] at record'
      obtain ⟨key, color, lower, upper, _⟩ := RbNode.mk.inj (Option.some.inj (record.symm.trans record'))
      rw [ihl leftLower rightLower lower, ihr leftUpper rightUpper upper, color,
        show v = v' from Cell.ext address key]

theorem Represents.unique (left : Represents tr t) (right : Represents tr u) : t = u :=
  left.linked.unique right.linked (left.root.symm.trans right.root)

theorem ptr_join : ptr (join s c near v far) = some v.addr := rfl

theorem linked_join : Linked h p (join s c near v far) ↔
    h v.addr = some ⟨v.key, c, s.pick (ptr near) (ptr far), s.pick (ptr far) (ptr near), p⟩ ∧
      Linked h (some v.addr) near ∧ Linked h (some v.addr) far := by
  cases s with
  | left => exact Iff.rfl
  | right => exact and_congr_right fun _ => and_comm

theorem linked_plug : Linked h none (t.plug fs) ↔ Linked h (above fs) t ∧ Framed h fs (ptr t) := by
  induction fs generalizing t with
  | nil => exact (and_iff_left trivial).symm
  | cons f fs ih =>
    rw [plug, ih, linked_join, ptr_join, Framed, above]
    constructor
    · rintro ⟨⟨record, linked, other⟩, framed⟩
      exact ⟨linked, record, other, framed⟩
    · rintro ⟨linked, record, other, framed⟩
      exact ⟨⟨record, linked, other⟩, framed⟩

theorem ptr_plug : ptr (t.plug fs) = topmost fs (ptr t) := by
  induction fs generalizing t with
  | nil => rfl
  | cons f fs ih => rw [plug, ih, ptr_join, topmost]

theorem addrs_join : (addrs (join s c near v far)).Perm (v.addr :: (addrs near ++ addrs far)) := by
  cases s with
  | left => exact List.Perm.refl _
  | right => exact List.Perm.cons _ List.perm_append_comm

theorem addrs_plug : (addrs (t.plug fs)).Perm (addrs t ++ frameAddrs fs) := by
  induction fs generalizing t with
  | nil => rw [frameAddrs, List.append_nil]; exact List.Perm.refl _
  | cons f fs ih =>
    have frame : (addrs (join f.side f.color t f.value f.other) ++ frameAddrs fs).Perm
        ((f.value.addr :: (addrs t ++ addrs f.other)) ++ frameAddrs fs) := addrs_join.append_right _
    refine ih.trans (frame.trans ?_)
    rw [frameAddrs, List.cons_append, List.append_assoc]
    exact List.perm_middle.symm

/-- A represented tree seen from a place in it. -/
theorem represents_plug : Represents tr (t.plug fs) ↔
    tr.root = topmost fs (ptr t) ∧ Linked tr.heap (above fs) t ∧ Framed tr.heap fs (ptr t) ∧
      (addrs t ++ frameAddrs fs).Nodup := by
  constructor
  · rintro ⟨root, linked, nodup⟩
    obtain ⟨linked, framed⟩ := linked_plug.mp linked
    exact ⟨root.trans ptr_plug, linked, framed, addrs_plug.nodup_iff.mp nodup⟩
  · rintro ⟨root, linked, framed, nodup⟩
    exact ⟨root.trans ptr_plug.symm, linked_plug.mpr ⟨linked, framed⟩, addrs_plug.nodup_iff.mpr nodup⟩

namespace RbNode
variable {key : Nat} {left right parent : Ptr}

theorem child_near : (RbNode.mk key c (s.pick p q) (s.pick q p) parent).child s = p := by cases s <;> rfl

theorem child_far : (RbNode.mk key c (s.pick p q) (s.pick q p) parent).child s.opp = q := by cases s <;> rfl

theorem setChild_near (new : Ptr) : (RbNode.mk key c (s.pick p q) (s.pick q p) parent).setChild s new =
    ⟨key, c, s.pick new q, s.pick q new, parent⟩ := by cases s <;> rfl

theorem setChild_far (new : Ptr) : (RbNode.mk key c (s.pick p q) (s.pick q p) parent).setChild s.opp new =
    ⟨key, c, s.pick p new, s.pick new p, parent⟩ := by cases s <;> rfl

end RbNode

namespace RbTree

theorem load_some {n : RbNode} (found : tr.heap a = some n) : tr.load (some a) = .ok n := by
  simp only [load, found]

theorem modify_some {n : RbNode} (found : tr.heap a = some n) (f : RbNode → RbNode) :
    tr.modify (some a) f = .ok (tr.store a (f n)) := by
  simp only [modify, load_some found]
  rfl

theorem modify_ok {n : RbNode} (found : tr.heap a = some n) (f : RbNode → RbNode) :
    ∃ tr', tr.modify (some a) f = .ok tr' ∧ tr'.heap a = some (f n) ∧ tr'.root = tr.root ∧
      ∀ b, b ≠ a → tr'.heap b = tr.heap b :=
  ⟨_, modify_some found f, Function.update_self .., rfl, fun _ other => Function.update_of_ne other ..⟩

@[simp] theorem store_heap_self (tr : RbTree) (a : Addr) (n : RbNode) : (tr.store a n).heap a = some n :=
  Function.update_self ..

theorem store_heap_ne (tr : RbTree) {a b : Addr} (n : RbNode) (different : b ≠ a) :
    (tr.store a n).heap b = tr.heap b := Function.update_of_ne different ..

@[simp] theorem store_root (tr : RbTree) (a : Addr) (n : RbNode) : (tr.store a n).root = tr.root := rfl

/-- Giving the root of a subtree another parent. -/
theorem modifyIf_setParent (linked : Linked tr.heap p t) (nodup : (addrs t).Nodup) (q : Ptr) :
    ∃ tr', tr.modifyIf (ptr t) (·.setParent q) = .ok tr' ∧ Linked tr'.heap q t ∧ tr'.root = tr.root ∧
      ∀ a ∉ addrs t, tr'.heap a = tr.heap a := by
  cases t with
  | nil => exact ⟨tr, rfl, trivial, rfl, fun _ _ => rfl⟩
  | node c l v r =>
    obtain ⟨record, left, right⟩ := linked
    rw [addrs, List.nodup_cons, List.mem_append, not_or] at nodup
    refine ⟨_, modify_some record _, ⟨store_heap_self .., ?_, ?_⟩, rfl, fun a outside => ?_⟩
    · exact left.congr fun a member => store_heap_ne _ _ fun same => nodup.1.1 (same ▸ member)
    · exact right.congr fun a member => store_heap_ne _ _ fun same => nodup.1.2 (same ▸ member)
    · exact store_heap_ne _ _ fun same => outside (same ▸ List.mem_cons_self)

theorem ne_other (outside : a ∉ frameAddrs fs) : ∀ f ∈ fs.head?, some a ≠ ptr f.other := by
  intro f head same
  obtain ⟨rest, rfl⟩ := List.head?_eq_some_iff.mp head
  cases other : f.other with
  | nil => simp [other, ptr] at same
  | node c l v r =>
    simp only [other, ptr, Option.some.injEq] at same
    simp [frameAddrs, other, addrs, same] at outside

/-- Another pointer in the place under the frames. -/
theorem modify_setChild (framed : Framed tr.heap (f :: fs) p) (nodup : (frameAddrs (f :: fs)).Nodup)
    (q : Ptr) :
    ∃ tr', tr.modify (some f.value.addr) (·.setChild f.side q) = .ok tr' ∧ Framed tr'.heap (f :: fs) q ∧
      tr'.root = tr.root ∧ ∀ a ∉ frameAddrs (f :: fs), tr'.heap a = tr.heap a := by
  obtain ⟨record, other, framed⟩ := framed
  rw [frameAddrs, List.nodup_cons, List.mem_append, not_or] at nodup
  obtain ⟨tr', step, record', root, same⟩ := modify_ok record (·.setChild f.side q)
  rw [RbNode.setChild_near] at record'
  refine ⟨tr', step, ⟨record', ?_, ?_⟩, root, fun a outside => ?_⟩
  · exact other.congr fun a member => same a fun equal => nodup.1.1 (equal ▸ member)
  · exact framed.congr fun a member => same a fun equal => nodup.1.2 (equal ▸ member)
  · exact same a fun equal => outside (equal ▸ List.mem_cons_self)

/-- Putting another node into the place under the frames. -/
theorem replaceChild_framed {old : Ptr} (s : Side) (new : Ptr) (framed : Framed tr.heap fs old)
    (root : tr.root = topmost fs old) (nodup : (frameAddrs fs).Nodup)
    (only : ∀ f ∈ fs.head?, old ≠ ptr f.other) :
    ∃ tr', replaceChild s tr (above fs) old new = .ok tr' ∧ Framed tr'.heap fs new ∧
      tr'.root = topmost fs new ∧ ∀ a ∉ frameAddrs fs, tr'.heap a = tr.heap a := by
  cases fs with
  | nil => exact ⟨tr.setRoot new, rfl, trivial, rfl, fun _ _ => rfl⟩
  | cons f fs =>
    have only := only f rfl
    obtain ⟨tr', step, framed', root', same⟩ := modify_setChild framed nodup new
    refine ⟨tr', ?_, framed', root'.trans root, same⟩
    rw [← step, above, replaceChild, load_some framed.1]
    cases s <;> cases side : f.side <;> simp [RbNode.child, Side.pick, Side.opp, only, bind, Except.bind]

theorem load_represents (rep : Represents tr ((ColorTree.node c l v r).plug fs)) :
    tr.load (some v.addr) = .ok ⟨v.key, c, ptr l, ptr r, above fs⟩ :=
  load_some (represents_plug.mp rep).2.1.1

/-- Painting a node. -/
theorem modify_setColor (rep : Represents tr ((ColorTree.node c l v r).plug fs)) (c' : Color) :
    ∃ tr', tr.modify (some v.addr) (·.setColor c') = .ok tr' ∧
      Represents tr' ((ColorTree.node c' l v r).plug fs) := by
  obtain ⟨root, ⟨record, left, right⟩, framed, nodup⟩ := represents_plug.mp rep
  refine ⟨_, modify_some record _, represents_plug.mpr ⟨root, ⟨store_heap_self .., ?_, ?_⟩, ?_, nodup⟩⟩
  all_goals
    rw [addrs, List.cons_append, List.nodup_cons, List.mem_append, List.mem_append, not_or, not_or] at nodup
  · exact left.congr fun a member => store_heap_ne _ _ fun same => nodup.1.1.1 (same ▸ member)
  · exact right.congr fun a member => store_heap_ne _ _ fun same => nodup.1.1.2 (same ▸ member)
  · exact framed.congr fun a member => store_heap_ne _ _ fun same => nodup.1.2 (same ▸ member)

theorem addrs_pair {x y : Cell} {mid : ColorTree Cell} :
    (addrs (join s c near x (join s c' mid y far))).Perm
      (x.addr :: y.addr :: (addrs near ++ (addrs mid ++ addrs far))) := by
  refine addrs_join.trans (List.Perm.cons _ ((addrs_join.append_left _).trans ?_))
  exact List.perm_middle

theorem addrs_rotate {x y : Cell} {mid : ColorTree Cell} {c₁ c₂ : Color} :
    (addrs (join s c₁ (join s c₂ near x mid) y far)).Perm
      (addrs (join s c near x (join s c' mid y far))) := by
  refine addrs_join.trans (((addrs_join.append_right _).cons _).trans ?_)
  rw [List.cons_append, List.append_assoc]
  exact (List.Perm.swap ..).trans addrs_pair.symm

/-- A rotation of `x` to side `s` lifts the node on the other side over it. -/
theorem rotate_represents {x y : Cell} {mid : ColorTree Cell} (s : Side)
    (rep : Represents tr ((join s c near x (join s c' mid y far)).plug fs)) :
    ∃ tr', rotate s tr (some x.addr) = .ok tr' ∧
      Represents tr' ((join s c' (join s c near x mid) y far).plug fs) := by
  obtain ⟨root, linked, framed, nodup⟩ := represents_plug.mp rep
  have nodup' : (addrs (join s c' (join s c near x mid) y far) ++ frameAddrs fs).Nodup :=
    (addrs_rotate.append_right _).nodup_iff.mpr nodup
  rw [linked_join, linked_join] at linked
  obtain ⟨xRecord, nearLinked, yRecord, midLinked, farLinked⟩ := linked
  rw [(addrs_pair.append_right _).nodup_iff] at nodup
  simp only [List.cons_append, List.append_assoc, List.nodup_cons, List.mem_cons, List.mem_append,
    not_or] at nodup
  obtain ⟨⟨xy, xNear, xMid, xFar, xFrames⟩, ⟨yNear, yMid, yFar, yFrames⟩, rest⟩ := nodup
  have nearRest := List.disjoint_of_nodup_append rest
  have rest := rest.of_append_right
  have midRest := List.disjoint_of_nodup_append rest
  have farFrames := List.disjoint_of_nodup_append rest.of_append_right
  simp only [List.disjoint_append_right] at nearRest midRest
  -- `x->right = y->left`, and its parent
  obtain ⟨tr₁, step₁, xRecord₁, root₁, same₁⟩ := modify_ok xRecord (·.setChild s.opp (ptr mid))
  have yRecord₁ := (same₁ _ (Ne.symm xy)).trans yRecord
  have midLinked₁ := midLinked.congr fun a member => same₁ a fun same => xMid (same ▸ member)
  obtain ⟨tr₂, step₂, midLinked₂, root₂, same₂⟩ :=
    modifyIf_setParent midLinked₁ rest.of_append_left (some x.addr)
  have xRecord₂ := (same₂ _ xMid).trans xRecord₁
  -- `y->parent = x->parent`, and the link from there
  obtain ⟨tr₃, step₃, yRecord₃, root₃, same₃⟩ :=
    modify_ok ((same₂ _ yMid).trans yRecord₁) (·.setParent (above fs))
  have framed₃ : Framed tr₃.heap fs (some x.addr) := framed.congr fun a member => by
    rw [same₃ a fun same => yFrames (same ▸ member), same₂ a (midRest.2.symm member),
      same₁ a fun same => xFrames (same ▸ member)]
  obtain ⟨tr₄, step₄, framed₄, root₄, same₄⟩ := replaceChild_framed s (some y.addr) framed₃
    (root₃.trans (root₂.trans (root₁.trans root))) rest.of_append_right.of_append_right
    (ne_other xFrames)
  -- `y->left = x` and `x->parent = y`
  obtain ⟨tr₅, step₅, yRecord₅, root₅, same₅⟩ :=
    modify_ok ((same₄ _ yFrames).trans yRecord₃) (·.setChild s (some x.addr))
  have xRecord₅ := (same₅ _ xy).trans ((same₄ _ xFrames).trans ((same₃ _ xy).trans xRecord₂))
  obtain ⟨tr₆, step₆, xRecord₆, root₆, same₆⟩ := modify_ok xRecord₅ (·.setParent (some y.addr))
  have apart : ∀ a, a ≠ x.addr → a ≠ y.addr → a ∉ frameAddrs fs → tr₆.heap a = tr₂.heap a :=
    fun a notX notY outside => by rw [same₆ a notX, same₅ a notY, same₄ a outside, same₃ a notY]
  have unmoved : ∀ a, a ≠ x.addr → a ≠ y.addr → a ∉ frameAddrs fs → a ∉ addrs mid → tr₆.heap a = tr.heap a :=
    fun a notX notY outside notMid => by rw [apart a notX notY outside, same₂ a notMid, same₁ a notX]
  refine ⟨tr₆, ?_, represents_plug.mpr ⟨root₆.trans (root₅.trans root₄), ?_, ?_, nodup'⟩⟩
  · simp only [rotate, bind, Except.bind, load_some xRecord, RbNode.child_far, ptr_join, load_some yRecord,
      RbNode.child_near, step₁, load_some yRecord₁, step₂, load_some xRecord₂]
    rw [RbNode.setChild_far]
    simp only [step₃, step₄, step₅, step₆]
  · rw [linked_join, linked_join]
    refine ⟨?_, ⟨?_, ?_, ?_⟩, ?_⟩
    · rw [same₆ _ (Ne.symm xy), yRecord₅]
      cases s <;> rfl
    · rw [xRecord₆]
      cases s <;> rfl
    · exact nearLinked.congr fun a member => unmoved a (fun same => xNear (same ▸ member))
        (fun same => yNear (same ▸ member)) (nearRest.2.2 member) (nearRest.1 member)
    · exact midLinked₂.congr fun a member => apart a (fun same => xMid (same ▸ member))
        (fun same => yMid (same ▸ member)) (midRest.2 member)
    · exact farLinked.congr fun a member => unmoved a (fun same => xFar (same ▸ member))
        (fun same => yFar (same ▸ member)) (farFrames member) (midRest.1.symm member)
  · exact framed₄.congr fun a member => by
      rw [same₆ a fun same => xFrames (same ▸ member), same₅ a fun same => yFrames (same ▸ member)]

/-- The record of the node above a place. -/
theorem load_frame (rep : Represents tr (t.plug (f :: fs))) :
    tr.load (some f.value.addr) = .ok ⟨f.value.key, f.color, f.side.pick (ptr t) (ptr f.other),
      f.side.pick (ptr f.other) (ptr t), above fs⟩ :=
  load_some (represents_plug.mp rep).2.2.1.1

theorem isRed_ptr (rep : Represents tr (t.plug fs)) : tr.isRed (ptr t) = .ok t.isRed := by
  cases t with
  | nil => rfl
  | node c l v r =>
    simp only [isRed, ptr, load_represents rep]
    cases c <;> rfl

theorem isRed_above (rep : Represents tr (t.plug (f :: fs))) :
    tr.isRed (above (f :: fs)) = .ok (f.color = .red : Bool) := by
  simp only [isRed, above, load_frame rep]
  rfl

/-- Which child of the node above it a place is. -/
theorem ptr_ne_other (rep : Represents tr (t.plug (f :: fs))) (nonempty : t ≠ .nil) :
    ptr t ≠ ptr f.other := by
  obtain ⟨_, _, _, nodup⟩ := represents_plug.mp rep
  cases t with
  | nil => exact absurd rfl nonempty
  | node c l v r =>
    intro same
    cases other : f.other with
    | nil => simp [other, ptr] at same
    | node c' l' v' r' =>
      simp only [other, ptr, Option.some.injEq] at same
      simp [frameAddrs, other, addrs, same] at nodup

theorem side_eq (rep : Represents tr (t.plug (f :: fs))) (nonempty : t ≠ .nil) :
    (if ptr t = f.side.pick (ptr t) (ptr f.other) then Side.left else Side.right) = f.side := by
  have different := ptr_ne_other rep nonempty
  cases side : f.side
  · exact if_pos rfl
  · exact if_neg different

theorem modify_root (rep : Represents tr u) (nonempty : u ≠ .nil) :
    ∃ tr', tr.modify tr.root (·.setColor .black) = .ok tr' ∧ Represents tr' (u.paint .black) := by
  cases u with
  | nil => exact absurd rfl nonempty
  | node c l v r =>
    rw [rep.root]
    exact modify_setColor (show Represents tr ((ColorTree.node c l v r).plug []) from rep) .black

theorem plug_ne_nil (nonempty : t ≠ .nil) : t.plug fs ≠ .nil := by
  induction fs generalizing t with
  | nil => exact nonempty
  | cons f fs ih => exact ih join_ne_nil

/-- Painting the node above a place. -/
theorem modify_setColor_frame (rep : Represents tr (t.plug (f :: fs))) (c : Color) :
    ∃ tr', tr.modify (some f.value.addr) (·.setColor c) = .ok tr' ∧
      Represents tr' (t.plug ({ f with color := c } :: fs)) :=
  modify_setColor (show Represents tr ((join f.side f.color t f.value f.other).plug fs) from rep) c

end RbTree
end Laomb.RBTree
