import Laomb.RBTree.Links

/-! `rb_delete_fixup` as a climb through the tree that the heap represents. -/
namespace Laomb.RBTree
open VFS RedBlack ColorTree

section Climb
variable {α : Type*}

/-- The sibling with its red child: `t` and the sibling's subtrees under a node
of the parent's colour `c`. Without a red outer child the inner one goes up. -/
def settle (s : Side) (c : Color) (t : ColorTree α) (v : α) (near : ColorTree α) (w : α)
    (far : ColorTree α) : ColorTree α :=
  if far.isRed then join s c (join s .black t v near) w (far.paint .black)
  else
    match near with
    | .nil => join s c (join s .black t v .nil) w far
    | .node _ l n r => join s c (join s .black t v (s.pick l r)) n (join s .black (s.pick r l) w far)

/-- What a nonempty tree `t` grows into that lacks one black node, as
`rb_delete_fixup` repairs it: `none` where the source reads through a null
pointer, which is a missing sibling on the left or a red sibling without an
inner child. -/
def deleteFix (t : ColorTree α) : List (Frame α) → Option (ColorTree α)
  | [] => some (t.paint .black)
  | f :: fs =>
    if t.isRed then some ((t.paint .black).plug (f :: fs))
    else
      match f.other with
      | .nil => if f.side = .left then some ((t.paint .black).plug (f :: fs)) else none
      | .node .red wl w wr =>
        match f.side.pick wl wr with
        | .nil => none
        | .node _ nl n nr =>
          if nl.isRed || nr.isRed then
            some (((settle f.side .red t f.value (f.side.pick nl nr) n (f.side.pick nr nl)).plug
              (⟨f.side, .black, w, f.side.pick wr wl⟩ :: fs)).paint .black)
          else
            some ((join f.side .black t f.value (.node .red nl n nr)).plug
              (⟨f.side, .black, w, f.side.pick wr wl⟩ :: fs))
      | .node .black wl w wr =>
        if wl.isRed || wr.isRed then
          some (((settle f.side f.color t f.value (f.side.pick wl wr) w (f.side.pick wr wl)).plug
            fs).paint .black)
        else deleteFix (join f.side f.color t f.value (.node .red wl w wr)) fs

theorem settle_outer {s : Side} {c : Color} {t near far : ColorTree α} {v w : α} (red : far.isRed = true) :
    settle s c t v near w far = join s c (join s .black t v near) w (far.paint .black) := by
  unfold settle
  rw [if_pos red]

theorem settle_inner {s : Side} {c nc : Color} {t nl nr far : ColorTree α} {v n w : α}
    (black : far.isRed = false) :
    settle s c t v (.node nc nl n nr) w far =
      join s c (join s .black t v (s.pick nl nr)) n (join s .black (s.pick nr nl) w far) := by
  unfold settle
  rw [if_neg (by rw [black]; decide)]

theorem deleteFix_red {t : ColorTree α} {fs : List (Frame α)} (red : t.isRed = true) :
    deleteFix t fs = some ((t.paint .black).plug fs) := by
  cases fs with
  | nil => rfl
  | cons f fs => exact if_pos red

/-- The climb finds every sibling it reads: from a black node it goes on while the
sibling is black without a red child; it needs a sibling on the left, and of a
red sibling the inner child. -/
def ClimbSafe (red : Bool) : List (Frame α) → Prop
  | [] => True
  | f :: fs =>
    red = true ∨
      match f.other with
      | .nil => f.side = .left
      | .node .red l _ r => f.side.pick l r ≠ .nil
      | .node .black l _ r => (l.isRed || r.isRed) = true ∨ ClimbSafe (f.color = .red) fs

theorem deleteFix_some_iff {t : ColorTree α} {fs : List (Frame α)} :
    (∃ u, deleteFix t fs = some u) ↔ ClimbSafe t.isRed fs := by
  fun_induction deleteFix t fs with
  | case1 t => exact ⟨fun _ => trivial, fun _ => ⟨_, rfl⟩⟩
  | case2 t f fs red => exact ⟨fun _ => Or.inl red, fun _ => ⟨_, rfl⟩⟩
  | case3 t f fs black missing left =>
    refine ⟨fun _ => Or.inr ?_, fun _ => ⟨_, rfl⟩⟩
    rw [missing]
    exact left
  | case4 t f fs black missing right =>
    refine ⟨fun ⟨_, done⟩ => absurd done.symm (Option.some_ne_none _), fun safe => ?_⟩
    have other := safe.resolve_left black
    rw [missing] at other
    exact absurd other right
  | case5 t f fs black wl w wr red missing =>
    refine ⟨fun ⟨_, done⟩ => absurd done.symm (Option.some_ne_none _), fun safe => ?_⟩
    have inner := safe.resolve_left black
    rw [red] at inner
    exact absurd missing inner
  | case6 t f fs black wl w wr red nc nl n nr inner child =>
    refine ⟨fun _ => Or.inr ?_, fun _ => ⟨_, rfl⟩⟩
    rw [red]
    change f.side.pick wl wr ≠ .nil
    rw [inner]
    exact node_ne_nil
  | case7 t f fs black wl w wr red nc nl n nr inner childless =>
    refine ⟨fun _ => Or.inr ?_, fun _ => ⟨_, rfl⟩⟩
    rw [red]
    change f.side.pick wl wr ≠ .nil
    rw [inner]
    exact node_ne_nil
  | case8 t f fs black wl w wr sibling child =>
    refine ⟨fun _ => Or.inr ?_, fun _ => ⟨_, rfl⟩⟩
    rw [sibling]
    exact Or.inl child
  | case9 t f fs black wl w wr sibling childless ih =>
    rw [ih, join_color, ClimbSafe, sibling]
    exact ⟨fun safe => Or.inr (Or.inr safe), fun safe => (safe.resolve_left black).resolve_left childless⟩

/-- The repaired tree has a black root if the old one had, or if `t` was at the top. -/
theorem deleteFix_root {t u : ColorTree α} {fs : List (Frame α)} (done : deleteFix t fs = some u)
    (root : fs ≠ [] → (t.plug fs).isRed = false) : u.isRed = false := by
  fun_induction deleteFix t fs with
  | case1 t =>
    cases done
    exact paint_isRed_black
  | case2 t f fs red | case3 t f fs black missing left =>
    cases done
    have old := root (List.cons_ne_nil _ _)
    rw [plug_isRed, List.map_cons, List.getLast?_cons] at old ⊢
    exact old
  | case4 | case5 => cases done
  | case6 | case8 =>
    cases done
    exact paint_isRed_black
  | case7 t f fs black wl w wr red nc nl n nr inner childless =>
    cases done
    have old := root (List.cons_ne_nil _ _)
    rw [plug_isRed, List.map_cons, List.getLast?_cons] at old ⊢
    cases last : (fs.map Frame.color).getLast? with
    | none => rfl
    | some c =>
      rw [last] at old
      exact old
  | case9 t f fs black wl w wr sibling childless ih =>
    refine ih done fun upper => ?_
    have old := root (List.cons_ne_nil _ _)
    rw [plug_isRed] at old ⊢
    rw [List.map_cons, List.getLast?_cons] at old
    obtain ⟨c, last⟩ := Option.ne_none_iff_exists'.mp
      (fun none => upper (List.map_eq_nil_iff.mp (List.getLast?_eq_none_iff.mp none)))
    rw [last] at old ⊢
    exact old

end Climb

variable {s : Side} {c c' : Color} {l r t u near far : ColorTree Cell} {v w : Cell} {f g : Frame Cell}
  {fs : List (Frame Cell)} {tr tr' : RbTree} {a : Addr} {fuel key : Nat}

namespace RbTree

/-- The tree beside a place. -/
theorem represents_swap : Represents tr (t.plug (f :: fs)) ↔
    Represents tr (f.other.plug (⟨f.side.opp, f.color, f.value, t⟩ :: fs)) := by
  rw [plug_swap]

/-- The children of the sibling, each as a place of its own. -/
theorem represents_near {p : Cell} {cp : Color}
    (rep : Represents tr (t.plug (⟨s, cp, p, join s c' near w far⟩ :: fs))) :
    Represents tr (near.plug (⟨s, c', w, far⟩ :: ⟨s.opp, cp, p, t⟩ :: fs)) :=
  represents_swap.mp rep

theorem represents_far {p : Cell} {cp : Color}
    (rep : Represents tr (t.plug (⟨s, cp, p, join s c' near w far⟩ :: fs))) :
    Represents tr (far.plug (⟨s.opp, c', w, near⟩ :: ⟨s.opp, cp, p, t⟩ :: fs)) := by
  rw [plug, join_opp]
  exact represents_swap.mp rep

theorem sibling_ok (rep : Represents tr (t.plug (f :: fs))) (nonempty : t ≠ .nil) :
    sibling f.side tr (ptr t) = .ok (ptr f.other) := by
  cases t with
  | nil => exact absurd rfl nonempty
  | node c l v r =>
    simp only [sibling, ptr, load_represents rep, bind, Except.bind, above, load_frame rep, pure, Except.pure,
      RbNode.child_far]

/-- The record of the sibling, and the colours of its children. -/
theorem sibling_children {p : Cell} {cp : Color}
    (rep : Represents tr (t.plug (⟨s, cp, p, join s c' near w far⟩ :: fs))) :
    tr.load (some w.addr) =
      .ok ⟨w.key, c', s.pick (ptr near) (ptr far), s.pick (ptr far) (ptr near), some p.addr⟩ ∧
      tr.isRed ((RbNode.mk w.key c' (s.pick (ptr near) (ptr far)) (s.pick (ptr far) (ptr near))
        (some p.addr)).child s) = .ok near.isRed ∧
      tr.isRed ((RbNode.mk w.key c' (s.pick (ptr near) (ptr far)) (s.pick (ptr far) (ptr near))
        (some p.addr)).child s.opp) = .ok far.isRed := by
  have inner := represents_near rep
  rw [RbNode.child_near, RbNode.child_far]
  exact ⟨load_frame inner, isRed_ptr inner, isRed_ptr (represents_far rep)⟩

theorem modifyIf_setColor (rep : Represents tr (t.plug fs)) (c : Color) :
    ∃ tr', tr.modifyIf (ptr t) (·.setColor c) = .ok tr' ∧ Represents tr' ((t.paint c).plug fs) := by
  cases t with
  | nil => exact ⟨tr, rfl, rep⟩
  | node c' l v r => exact modify_setColor rep c

theorem liftSibling_represents {p : Cell} {cp : Color} (rep : Represents tr ((ColorTree.node c l v r).plug
    (⟨s, cp, p, join s c' near w far⟩ :: fs))) :
    ∃ tr', liftSibling s tr (some v.addr) (some w.addr) = .ok tr' ∧
      Represents tr' ((join s cp (join s .black (.node c l v r) p near) w (far.paint .black)).plug fs) := by
  have place := represents_swap.mp rep
  obtain ⟨tr₁, step₁, rep₁⟩ := modify_setColor place cp
  obtain ⟨tr₂, step₂, rep₂⟩ := modify_setColor_frame rep₁ .black
  have outer := represents_far (represents_swap.mpr rep₂)
  obtain ⟨tr₃, step₃, rep₃⟩ := modifyIf_setColor outer .black
  have turned : Represents tr₃
      ((join s .black (.node c l v r) p (join s cp near w (far.paint .black))).plug fs) := by
    simpa only [plug, join_opp] using rep₃
  obtain ⟨tr₄, step₄, rep₄⟩ := rotate_represents s turned
  refine ⟨tr₄, ?_, rep₄⟩
  have child := load_frame outer
  simp only [liftSibling, bind, Except.bind, load_represents rep, above, load_frame rep, step₁, step₂, child,
    RbNode.child_near, step₃, step₄]

/-- The child of the sibling on the other side decides, and the inner one moves up
if the outer one is not red. -/
theorem turnSibling_represents {p : Cell} {cp : Color} (rep : Represents tr ((ColorTree.node c l v r).plug
    (⟨s, cp, p, join s c' near w far⟩ :: fs)))
      (black : far.isRed = false) {nc : Color} {nl nr : ColorTree Cell}
    {n : Cell} (inner : near = .node nc nl n nr) :
    ∃ tr', turnSibling s tr (some v.addr) (some w.addr) = .ok (tr', some n.addr) ∧
      Represents tr' ((ColorTree.node c l v r).plug
        (⟨s, cp, p, join s .black (s.pick nl nr) n (join s .red (s.pick nr nl) w far)⟩ :: fs)) := by
  have red := isRed_ptr (represents_far rep)
  rw [black] at red
  have lower := represents_near rep
  obtain ⟨tr₁, step₁, rep₁⟩ := modifyIf_setColor lower .black
  obtain ⟨tr₂, step₂, rep₂⟩ := modify_setColor_frame rep₁ .red
  have turned :
      Represents tr₂ ((join s.opp .red far w (join s.opp .black (s.pick nr nl) n (s.pick nl nr))).plug
      (⟨s.opp, cp, p, .node c l v r⟩ :: fs)) := by
    rw [join_opp, join_opp, ← node_eq_join]
    rw [inner] at rep₂
    exact rep₂
  obtain ⟨tr₃, step₃, rep₃⟩ := rotate_represents s.opp turned
  rw [join_opp, join_opp] at rep₃
  have back : Represents tr₃ ((ColorTree.node c l v r).plug
      (⟨s, cp, p, join s .black (s.pick nl nr) n (join s .red (s.pick nr nl) w far)⟩ :: fs)) :=
    represents_swap.mpr rep₃
  refine ⟨tr₃, ?_, back⟩
  have child := load_frame lower
  have new := sibling_ok back node_ne_nil
  rw [ptr, ptr_join] at new
  simp only [turnSibling, bind, Except.bind, child, RbNode.child_far, RbNode.child_near, red,
    Bool.false_eq_true, if_false, step₁, step₂, step₃, new]
  rfl

theorem turnSibling_outer {p : Cell} {cp : Color} (rep : Represents tr ((ColorTree.node c l v r).plug
    (⟨s, cp, p, join s c' near w far⟩ :: fs))) (red : far.isRed = true) :
    turnSibling s tr (some v.addr) (some w.addr) = .ok (tr, some w.addr) := by
  have outer := represents_far rep
  have color := isRed_ptr outer
  rw [red] at color
  simp only [turnSibling, bind, Except.bind, load_frame outer, RbNode.child_near, color, if_true]
  rfl

/-- A sibling with a red child. -/
theorem settle_represents {p : Cell} {cp : Color} (rep : Represents tr ((ColorTree.node c l v r).plug
    (⟨s, cp, p, join s c' near w far⟩ :: fs))) (red : near.isRed = true ∨ far.isRed = true) :
    ∃ tr₁ w' tr₂, turnSibling s tr (some v.addr) (some w.addr) = .ok (tr₁, w') ∧
      liftSibling s tr₁ (some v.addr) w' = .ok tr₂ ∧
      Represents tr₂ ((settle s cp (.node c l v r) p near w far).plug fs) := by
  cases outer : far.isRed with
  | true =>
    obtain ⟨tr₂, step, rep₂⟩ := liftSibling_represents rep
    refine ⟨tr, _, tr₂, turnSibling_outer rep outer, step, ?_⟩
    rw [settle_outer outer]
    exact rep₂
  | false =>
    cases near with
    | nil => exact absurd red (by rw [outer]; decide)
    | node nc nl n nr =>
      obtain ⟨tr₁, step₁, rep₁⟩ := turnSibling_represents rep outer rfl
      obtain ⟨tr₂, step₂, rep₂⟩ := liftSibling_represents rep₁
      refine ⟨tr₁, _, tr₂, step₁, step₂, ?_⟩
      rw [settle_inner outer]
      have painted : (join s .red (s.pick nr nl) w far).paint .black =
          join s .black (s.pick nr nl) w far := rfl
      rw [painted] at rep₂
      exact rep₂

theorem repairSibling_settle {p : Cell} {cp : Color} (rep : Represents tr ((ColorTree.node c l v r).plug
    (⟨s, cp, p, join s c' near w far⟩ :: fs))) (red : near.isRed = true ∨ far.isRed = true) :
    ∃ tr', repairSibling s tr (some v.addr) (some w.addr) = .ok (tr', tr'.root) ∧
      Represents tr' ((settle s cp (.node c l v r) p near w far).plug fs) := by
  obtain ⟨tr₁, w', tr₂, step₁, step₂, rep₂⟩ := settle_represents rep red
  refine ⟨tr₂, ?_, rep₂⟩
  obtain ⟨record, nearRed, farRed⟩ := sibling_children rep
  simp only [repairSibling, bind, Except.bind, record, nearRed, farRed, step₁, step₂]
  rcases red with red | red <;> simp [red, pure, Except.pure]

/-- A sibling without a red child turns red, and its parent is the next node. -/
theorem repairSibling_paint {p : Cell} {cp : Color} (rep : Represents tr ((ColorTree.node c l v r).plug
    (⟨s, cp, p, join s c' near w far⟩ :: fs)))
    (nearBlack : near.isRed = false) (farBlack : far.isRed = false) :
    ∃ tr', repairSibling s tr (some v.addr) (some w.addr) = .ok (tr', some p.addr) ∧
      Represents tr' ((join s cp (.node c l v r) p (join s .red near w far)).plug fs) := by
  have place : Represents tr ((join s c' near w far).plug (⟨s.opp, cp, p, .node c l v r⟩ :: fs)) :=
    represents_swap.mp rep
  obtain ⟨tr₁, step₁, rep₁⟩ := modify_setColor place .red
  have back : Represents tr₁ ((ColorTree.node c l v r).plug (⟨s, cp, p, join s .red near w far⟩ :: fs)) :=
    represents_swap.mpr rep₁
  refine ⟨tr₁, ?_, back⟩
  obtain ⟨record, nearRed, farRed⟩ := sibling_children rep
  simp only [repairSibling, bind, Except.bind, record, nearRed, farRed, nearBlack, farBlack, Bool.not_false,
    Bool.and_self, if_true, step₁, load_represents back, pure, Except.pure, above]

theorem lowerRedSibling_black {p : Cell} {cp : Color} (rep : Represents tr ((ColorTree.node c l v r).plug
    (⟨s, cp, p, join s .black near w far⟩ :: fs))) :
    lowerRedSibling s tr (some v.addr) (some w.addr) = .ok (tr, some w.addr) := by
  obtain ⟨record, _, _⟩ := sibling_children rep
  simp only [lowerRedSibling, bind, Except.bind, record]
  rfl

/-- A red sibling: it comes to stand above, and its inner child beside `x`. -/
theorem lowerRedSibling_red {p : Cell} {cp : Color} (rep : Represents tr ((ColorTree.node c l v r).plug
    (⟨s, cp, p, join s .red near w far⟩ :: fs))) :
    ∃ tr', lowerRedSibling s tr (some v.addr) (some w.addr) = .ok (tr', ptr near) ∧
      Represents tr' ((ColorTree.node c l v r).plug (⟨s, .red, p, near⟩ :: ⟨s, .black, w, far⟩ :: fs)) := by
  have place : Represents tr ((join s .red near w far).plug (⟨s.opp, cp, p, .node c l v r⟩ :: fs)) :=
    represents_swap.mp rep
  obtain ⟨tr₁, step₁, rep₁⟩ := modify_setColor place .black
  have back : Represents tr₁ ((ColorTree.node c l v r).plug (⟨s, cp, p, join s .black near w far⟩ :: fs)) :=
    represents_swap.mpr rep₁
  obtain ⟨tr₂, step₂, rep₂⟩ := modify_setColor_frame back .red
  obtain ⟨tr₃, step₃, rep₃⟩ := rotate_represents s rep₂
  have new := sibling_ok (show Represents tr₃ ((ColorTree.node c l v r).plug (⟨s, .red, p, near⟩ ::
    ⟨s, .black, w, far⟩ :: fs)) from rep₃) node_ne_nil
  rw [ptr] at new
  refine ⟨tr₃, ?_, rep₃⟩
  obtain ⟨record, _, _⟩ := sibling_children rep
  simp only [lowerRedSibling, bind, Except.bind, record, if_true, step₁, load_represents back,
    above, step₂, step₃, new]
  rfl

/-! ## The loop -/

theorem topmost_mem (f : Frame Cell) (fs : List (Frame Cell)) (p : Ptr) :
    ∃ a ∈ frameAddrs (f :: fs), topmost (f :: fs) p = some a := by
  induction fs generalizing f p with
  | nil => exact ⟨f.value.addr, List.mem_cons_self, rfl⟩
  | cons g fs ih =>
    obtain ⟨a, member, top⟩ := ih g (some f.value.addr)
    exact ⟨a, List.mem_cons_of_mem _ (List.mem_append_right _ member), top⟩

theorem ptr_ne_root (rep : Represents tr ((ColorTree.node c l v r).plug (f :: fs))) :
    some v.addr ≠ tr.root := by
  obtain ⟨root, _, _, nodup⟩ := represents_plug.mp rep
  obtain ⟨a, member, top⟩ := topmost_mem f fs (some v.addr)
  rw [root, ptr, top]
  intro same
  exact List.disjoint_of_nodup_append nodup (Option.some.inj same ▸ List.mem_cons_self) member

/-- A red node, or the root, only turns black. -/
theorem rbDeleteFixup_done (rep : Represents tr (t.plug fs))
    (last : fs = [] ∨ t.isRed = true) (more : 0 < fuel) :
    ∃ tr', rbDeleteFixup fuel tr (ptr t) = .ok tr' ∧ Represents tr' ((t.paint .black).plug fs) := by
  obtain ⟨fuel, rfl⟩ := Nat.exists_eq_add_one.mpr more
  obtain ⟨tr', step, rep'⟩ := modifyIf_setColor rep .black
  refine ⟨tr', ?_, rep'⟩
  have stop : ¬ (ptr t ≠ tr.root ∧ t.isRed = false) := by
    rintro ⟨below, black⟩
    rcases last with rfl | red
    · exact below rep.root.symm
    · cases red.symm.trans black
  simp only [rbDeleteFixup, bind, Except.bind, isRed_ptr rep]
  rw [if_neg stop]
  exact step

theorem rbDeleteFixup_root (rep : Represents tr u) (more : 0 < fuel) :
    ∃ tr', rbDeleteFixup fuel tr tr.root = .ok tr' ∧ Represents tr' (u.paint .black) := by
  rw [rep.root]
  exact rbDeleteFixup_done (show Represents tr (u.plug []) from rep) (Or.inl rfl) more

/-- One turn of the loop at a black node with a sibling, or with none on the left. -/
theorem rbDeleteFixup_step (rep : Represents tr ((ColorTree.node .black l v r).plug (f :: fs)))
    (sibling : f.side = .right ∨ f.other ≠ .nil) :
    rbDeleteFixup (fuel + 1) tr (some v.addr) =
      (deleteFixupBody f.side tr (some v.addr) (ptr f.other)).bind fun result =>
        rbDeleteFixup fuel result.1 result.2 := by
  have black := isRed_ptr rep
  rw [ptr] at black
  have different := ptr_ne_other rep node_ne_nil
  have go : some v.addr ≠ tr.root ∧ (ColorTree.node .black l v r).isRed = false := ⟨ptr_ne_root rep, rfl⟩
  simp only [rbDeleteFixup, bind, Except.bind, black, load_represents rep, above, load_frame rep]
  rw [if_pos go]
  cases side : f.side with
  | left =>
    have present : ptr f.other ≠ none := by
      cases other : f.other with
      | nil => exact absurd other (sibling.resolve_left (by rw [side]; decide))
      | node => exact Option.some_ne_none _
    exact (if_pos rfl).trans (if_neg present)
  | right =>
    exact if_neg different

theorem rbDeleteFixup_break (rep : Represents tr ((ColorTree.node .black l v r).plug (f :: fs)))
    (left : f.side = .left) (missing : f.other = .nil) (more : 0 < fuel) :
    ∃ tr', rbDeleteFixup fuel tr (some v.addr) = .ok tr' ∧
      Represents tr' (((ColorTree.node .black l v r).paint .black).plug (f :: fs)) := by
  obtain ⟨fuel, rfl⟩ := Nat.exists_eq_add_one.mpr more
  obtain ⟨tr', step, rep'⟩ := modifyIf_setColor rep .black
  refine ⟨tr', ?_, rep'⟩
  have black := isRed_ptr rep
  rw [ptr] at black
  have go : some v.addr ≠ tr.root ∧ (ColorTree.node .black l v r).isRed = false := ⟨ptr_ne_root rep, rfl⟩
  simp only [rbDeleteFixup, bind, Except.bind, black, load_represents rep, above, load_frame rep]
  rw [if_pos go, left, missing]
  exact (if_pos rfl).trans ((if_pos rfl).trans step)

theorem black_node (nonempty : t ≠ .nil) (black : ¬ t.isRed = true) : ∃ l v r, t = .node .black l v r := by
  cases t with
  | nil => exact absurd rfl nonempty
  | node c l v r =>
    cases c with
    | red => exact absurd rfl black
    | black => exact ⟨l, v, r, rfl⟩

theorem pick_red (s : Side) (child : l.isRed = true ∨ r.isRed = true) :
    (s.pick l r).isRed = true ∨ (s.pick r l).isRed = true := by
  cases s
  · exact child
  · exact child.symm

theorem pick_black (s : Side) (childless : ¬ (l.isRed || r.isRed) = true) :
    (s.pick l r).isRed = false ∧ (s.pick r l).isRed = false := by
  simp only [Bool.or_eq_true, not_or, Bool.not_eq_true] at childless
  cases s
  · exact childless
  · exact childless.symm

/-- One turn beside a red sibling: what is repaired is its inner child. -/
theorem rbDeleteFixup_red (fuel : Nat) (rep : Represents tr ((ColorTree.node .black l v r).plug (f :: fs)))
    {wl wr : ColorTree Cell} (red : f.other = .node .red wl w wr) :
    ∃ tr', rbDeleteFixup (fuel + 1) tr (some v.addr) =
        (repairSibling f.side tr' (some v.addr) (ptr (f.side.pick wl wr))).bind (fun result =>
          rbDeleteFixup fuel result.1 result.2) ∧
      Represents tr' ((ColorTree.node .black l v r).plug
        (⟨f.side, .red, f.value, f.side.pick wl wr⟩ :: ⟨f.side, .black, w, f.side.pick wr wl⟩ :: fs)) := by
  obtain ⟨s, cp, p, other⟩ := f
  change other = _ at red
  subst red
  obtain ⟨tr', step, rep'⟩ := lowerRedSibling_red (node_eq_join s .red wl w wr ▸ rep)
  refine ⟨tr', ?_, rep'⟩
  rw [rbDeleteFixup_step rep (Or.inr node_ne_nil), ptr]
  simp only [deleteFixupBody, bind, Except.bind, step]

/-- One turn beside a black sibling. -/
theorem rbDeleteFixup_black (fuel : Nat)
    (rep : Represents tr ((ColorTree.node .black l v r).plug (f :: fs)))
    {wl wr : ColorTree Cell} (black : f.other = .node .black wl w wr) :
    rbDeleteFixup (fuel + 1) tr (some v.addr) =
        (repairSibling f.side tr (some v.addr) (some w.addr)).bind (fun result =>
          rbDeleteFixup fuel result.1 result.2) ∧
      Represents tr ((ColorTree.node .black l v r).plug
        (⟨f.side, f.color, f.value, join f.side .black (f.side.pick wl wr) w (f.side.pick wr wl)⟩ ::
          fs)) := by
  obtain ⟨s, cp, p, other⟩ := f
  change other = _ at black
  subst black
  have joined := node_eq_join s .black wl w wr ▸ rep
  refine ⟨?_, joined⟩
  have step := lowerRedSibling_black joined
  rw [rbDeleteFixup_step rep (Or.inr node_ne_nil), ptr]
  simp only [deleteFixupBody, bind, Except.bind, step]

/-- `rb_delete_fixup` at a nonempty place repairs the tree as `deleteFix` does, and
reads through a null pointer where `deleteFix` has no result. -/
theorem rbDeleteFixup_represents (rep : Represents tr (t.plug fs)) (nonempty : t ≠ .nil)
    (more : fs.length + 1 < fuel) :
    match deleteFix t fs with
    | some u => ∃ tr', rbDeleteFixup fuel tr (ptr t) = .ok tr' ∧ Represents tr' u
    | none => rbDeleteFixup fuel tr (ptr t) = .error .nullDeref := by
  obtain ⟨fuel, rfl⟩ := Nat.exists_eq_add_one.mpr (Nat.zero_lt_of_lt more)
  fun_induction deleteFix t fs generalizing tr fuel with
  | case1 t => exact rbDeleteFixup_done rep (Or.inl rfl) (Nat.succ_pos fuel)
  | case2 t f fs red => exact rbDeleteFixup_done rep (Or.inr red) (Nat.succ_pos fuel)
  | case3 t f fs black missing left =>
    obtain ⟨l, v, r, rfl⟩ := black_node nonempty black
    exact rbDeleteFixup_break rep left missing (Nat.succ_pos fuel)
  | case4 t f fs black missing right =>
    obtain ⟨l, v, r, rfl⟩ := black_node nonempty black
    rw [ptr, rbDeleteFixup_step rep (Or.inl (Side.eq_opp right)), missing]
    rfl
  | case5 t f fs black wl w wr red missing =>
    obtain ⟨l, v, r, rfl⟩ := black_node nonempty black
    obtain ⟨tr₁, turn, _⟩ := rbDeleteFixup_red fuel rep red
    rw [ptr, turn, missing]
    rfl
  | case6 t f fs black wl w wr red nc nl n nr inner child =>
    obtain ⟨l, v, r, rfl⟩ := black_node nonempty black
    obtain ⟨tr₁, turn, rep₁⟩ := rbDeleteFixup_red fuel rep red
    rw [inner] at turn rep₁
    obtain ⟨tr₂, step, rep₂⟩ := repairSibling_settle (node_eq_join f.side nc nl n nr ▸ rep₁)
      (pick_red f.side (Bool.or_eq_true _ _ ▸ child))
    rw [ptr, turn, ptr, step]
    exact rbDeleteFixup_root rep₂ (show 0 < fuel by omega)
  | case7 t f fs black wl w wr red nc nl n nr inner childless =>
    obtain ⟨l, v, r, rfl⟩ := black_node nonempty black
    obtain ⟨tr₁, turn, rep₁⟩ := rbDeleteFixup_red fuel rep red
    rw [inner] at turn rep₁
    obtain ⟨nearBlack, farBlack⟩ := pick_black f.side childless
    obtain ⟨tr₂, step, rep₂⟩ :=
      repairSibling_paint (node_eq_join f.side nc nl n nr ▸ rep₁) nearBlack farBlack
    rw [← node_eq_join f.side .red nl n nr] at rep₂
    rw [ptr, turn, ptr, step]
    exact rbDeleteFixup_done rep₂ (Or.inr (join_isRed ..)) (show 0 < fuel by omega)
  | case8 t f fs black wl w wr sibling child =>
    obtain ⟨l, v, r, rfl⟩ := black_node nonempty black
    obtain ⟨turn, joined⟩ := rbDeleteFixup_black fuel rep sibling
    obtain ⟨tr₂, step, rep₂⟩ :=
      repairSibling_settle joined (pick_red f.side (Bool.or_eq_true _ _ ▸ child))
    rw [ptr, turn, step]
    exact rbDeleteFixup_root rep₂ (show 0 < fuel by omega)
  | case9 t f fs black wl w wr sibling childless ih =>
    obtain ⟨l, v, r, rfl⟩ := black_node nonempty black
    obtain ⟨turn, joined⟩ := rbDeleteFixup_black fuel rep sibling
    obtain ⟨nearBlack, farBlack⟩ := pick_black f.side childless
    obtain ⟨tr₂, step, rep₂⟩ := repairSibling_paint joined nearBlack farBlack
    rw [← node_eq_join f.side .red wl w wr] at rep₂
    simp only [List.length_cons] at more
    obtain ⟨fuel, rfl⟩ := Nat.exists_eq_add_one.mpr (show 0 < fuel by omega)
    rw [ptr, turn, step]
    exact ih rep₂ join_ne_nil fuel (show fs.length + 1 < fuel + 1 by omega)

end RbTree
end Laomb.RBTree
