import Laomb.Base.Transition
import Laomb.RBTree.Links

/-! `rb_insert` as insertion into the tree that the heap represents. -/
namespace Laomb.RBTree
open VFS RedBlack ColorTree Transition

variable {s : Side} {c c' : Color} {l r t u near far : ColorTree Cell} {v : Cell} {f g : Frame Cell}
  {fs : List (Frame Cell)} {tr tr' : RbTree} {a : Addr} {fuel key : Nat}

namespace RbTree

theorem rbInsertFixup_done (rep : Represents tr ((ColorTree.node c l v r).plug fs))
    (black : ∀ f ∈ fs.head?, f.color ≠ .red) (more : 0 < fuel) :
    ∃ tr', rbInsertFixup fuel tr (some v.addr) = .ok tr' ∧
      Represents tr' (((ColorTree.node c l v r).plug fs).paint .black) := by
  obtain ⟨fuel, rfl⟩ := Nat.exists_eq_add_one.mpr more
  obtain ⟨tr', step, rep'⟩ := modify_root rep (plug_ne_nil node_ne_nil)
  refine ⟨tr', ?_, rep'⟩
  have stop : tr.isRed (above fs) = .ok false := by
    cases fs with
    | nil => rfl
    | cons f fs => rw [isRed_above rep, decide_eq_false (black f rfl)]
  simp only [rbInsertFixup, load_represents rep, bind, Except.bind, stop, step]
  rfl

theorem isRed_uncle (rep : Represents tr (t.plug (f :: g :: fs))) :
    tr.isRed (ptr g.other) = .ok g.other.isRed := by
  rw [plug, plug_swap] at rep
  exact isRed_ptr rep

/-- A red uncle: parent and uncle take the grandparent's black. -/
theorem insertFixupBody_recolor (rep : Represents tr ((ColorTree.node c l v r).plug (f :: g :: fs)))
    (uncle : g.other.isRed = true) :
    ∃ tr', insertFixupBody g.side tr (some v.addr) = .ok (tr', some g.value.addr) ∧
      Represents tr' ((join g.side .red (join f.side .black (.node c l v r) f.value f.other) g.value
        (g.other.paint .black)).plug fs) := by
  have repParent : Represents tr ((join f.side f.color (.node c l v r) f.value f.other).plug (g :: fs)) := rep
  have red := isRed_uncle rep
  obtain ⟨tr₁, step₁, rep₁⟩ := modify_setColor_frame rep .black
  rw [plug, plug_swap] at rep₁
  cases other : g.other with
  | nil => simp [other, ColorTree.isRed] at uncle
  | node uc ul uv ur =>
    rw [other] at rep₁
    obtain ⟨tr₂, step₂, rep₂⟩ := modify_setColor rep₁ .black
    obtain ⟨tr₃, step₃, rep₃⟩ := modify_setColor_frame rep₂ .red
    rw [uncle, other, ptr] at red
    refine ⟨tr₃, ?_, ?_⟩
    · simp only [insertFixupBody, bind, Except.bind, load_represents rep, above, load_frame rep,
        load_frame repParent, RbNode.child_far, other, ptr, red, if_true, step₁, step₂, step₃]
      rfl
    · rw [plug_swap, plug] at rep₃
      simpa only [join_opp, paint] using rep₃

/-- What the body does after the nodes are in line: `z` under a parent on side
`s`, which is lifted over the grandparent. -/
theorem insertFixupBody_lift {x y : Cell} {lower mid : ColorTree Cell} (s : Side)
    (rep : Represents tr ((join s c (join s c' lower x mid) y far).plug fs)) :
    ∃ tr₁ tr₂ tr₃, tr.modify (some x.addr) (·.setColor .black) = .ok tr₁ ∧
      tr₁.load (some x.addr) = .ok ⟨x.key, .black, s.pick (ptr lower) (ptr mid), s.pick (ptr mid) (ptr lower),
        some y.addr⟩ ∧
      tr₁.modify (some y.addr) (·.setColor .red) = .ok tr₂ ∧
      rotate s.opp tr₂ (some y.addr) = .ok tr₃ ∧
      Represents tr₃ ((join s .black lower x (join s .red mid y far)).plug fs) := by
  have place : Represents tr ((join s c' lower x mid).plug (⟨s, c, y, far⟩ :: fs)) := rep
  obtain ⟨tr₁, step₁, rep₁⟩ := modify_setColor place .black
  obtain ⟨tr₂, step₂, rep₂⟩ := modify_setColor_frame rep₁ .red
  have turned : Represents tr₂ ((join s.opp .red far y (join s.opp .black mid x lower)).plug fs) := by
    rw [join_opp, join_opp]
    exact rep₂
  obtain ⟨tr₃, step₃, rep₃⟩ := rotate_represents s.opp turned
  rw [join_opp, join_opp] at rep₃
  have loaded := load_frame
    (show Represents tr₁ (lower.plug (⟨s, .black, x, mid⟩ :: ⟨s, c, y, far⟩ :: fs)) from rep₁)
  exact ⟨tr₁, tr₂, tr₃, step₁, loaded, step₂, step₃, rep₃⟩

/-- A black uncle and `z` on the outer side. -/
theorem insertFixupBody_outer (rep : Represents tr ((ColorTree.node c l v r).plug (f :: g :: fs)))
    (uncle : g.other.isRed = false) (outer : f.side = g.side) :
    ∃ tr', insertFixupBody g.side tr (some v.addr) = .ok (tr', some v.addr) ∧
      Represents tr' ((join g.side .black (.node c l v r) f.value
        (join g.side .red f.other g.value g.other)).plug fs) := by
  have repParent : Represents tr ((join f.side f.color (.node c l v r) f.value f.other).plug (g :: fs)) := rep
  have red := isRed_uncle rep
  rw [uncle] at red
  have notInner : some v.addr ≠ ptr f.other := ptr_ne_other rep node_ne_nil
  rw [outer] at repParent
  obtain ⟨tr₁, tr₂, tr₃, step₁, parent, step₂, step₃, rep₃⟩ := insertFixupBody_lift g.side repParent
  refine ⟨tr₃, ?_, rep₃⟩
  have child := load_frame rep
  rw [outer] at child
  simp only [insertFixupBody, bind, Except.bind, pure, Except.pure, load_represents rep, above, child,
    load_frame repParent, RbNode.child_far, red, Bool.false_eq_true, if_false, if_neg notInner, step₁, parent,
    step₂, step₃]

/-- A black uncle and `z` on the inner side: the parent is the next `z`. -/
theorem insertFixupBody_inner (rep : Represents tr ((ColorTree.node c l v r).plug (f :: g :: fs)))
    (uncle : g.other.isRed = false) (inner : f.side ≠ g.side) :
    ∃ tr', insertFixupBody g.side tr (some v.addr) = .ok (tr', some f.value.addr) ∧
      Represents tr' ((join g.side .black (join g.side f.color f.other f.value (g.side.pick l r)) v
        (join g.side .red (g.side.pick r l) g.value g.other)).plug fs) := by
  have repParent : Represents tr ((join f.side f.color (.node c l v r) f.value f.other).plug (g :: fs)) := rep
  have red := isRed_uncle rep
  rw [uncle] at red
  have grand := load_frame repParent
  rw [Side.eq_opp inner, join_opp, node_eq_join g.side] at repParent
  obtain ⟨tr₁, step₁, rep₁⟩ := rotate_represents g.side repParent
  have line : Represents tr₁ ((join g.side g.color
      (join g.side c (join g.side f.color f.other f.value (g.side.pick l r)) v (g.side.pick r l))
      g.value g.other).plug fs) := rep₁
  obtain ⟨tr₂, tr₃, tr₄, step₂, parent, step₃, step₄, rep₄⟩ := insertFixupBody_lift g.side line
  refine ⟨tr₄, ?_, rep₄⟩
  have lowered : Represents tr₁ ((join g.side f.color f.other f.value (g.side.pick l r)).plug
      (⟨g.side, c, v, g.side.pick r l⟩ :: g :: fs)) := rep₁
  have child := load_frame rep
  rw [Side.eq_opp inner] at child
  have inside : some v.addr =
      (RbNode.mk f.value.key f.color (g.side.opp.pick (ptr (.node c l v r)) (ptr f.other))
        (g.side.opp.pick (ptr f.other) (ptr (.node c l v r))) (above (g :: fs))).child g.side.opp :=
    RbNode.child_near.symm
  simp only [insertFixupBody, bind, Except.bind, pure, Except.pure, load_represents rep, above, child,
    grand, RbNode.child_far, red, Bool.false_eq_true, if_false, step₁, load_represents lowered, step₂,
    parent, step₃, step₄]
  exact if_pos inside

/-- One turn of the loop under a red parent. -/
theorem rbInsertFixup_step (rep : Represents tr ((ColorTree.node c l v r).plug (f :: g :: fs)))
    (red : f.color = .red) {result : RbTree × Ptr}
    (body : insertFixupBody g.side tr (some v.addr) = .ok result) :
    rbInsertFixup (fuel + 1) tr (some v.addr) = rbInsertFixup fuel result.1 result.2 := by
  have repParent : Represents tr ((join f.side f.color (.node c l v r) f.value f.other).plug (g :: fs)) := rep
  have parentRed := isRed_above rep
  rw [above, decide_eq_true red] at parentRed
  have side := side_eq repParent join_ne_nil
  rw [ptr_join] at side
  simp only [rbInsertFixup, bind, Except.bind, load_represents rep, above, parentRed, if_true, load_frame rep,
    load_frame repParent, ptr_join, side, body]

/-- `rb_insert_fixup` from a red node repairs the tree as `insertFix` does. -/
theorem rbInsertFixup_represents (rep : Represents tr ((ColorTree.node .red l v r).plug fs))
    (done : insertFix l v r fs = some u) (more : fs.length < fuel) :
    ∃ tr', rbInsertFixup fuel tr (some v.addr) = .ok tr' ∧ Represents tr' (u.paint .black) := by
  fun_induction insertFix l v r fs generalizing tr fuel with
  | case1 l v r =>
    cases done
    exact rbInsertFixup_done rep (by simp) more
  | case2 => cases done
  | case3 l v r f black =>
    cases done
    exact rbInsertFixup_done rep (fun _ head => Option.some.inj head ▸ black) (Nat.zero_lt_of_lt more)
  | case4 l v r f g fs red uncle ih =>
    simp only [List.length_cons] at more
    obtain ⟨fuel, rfl⟩ := Nat.exists_eq_add_one.mpr (Nat.zero_lt_of_lt more)
    obtain ⟨tr₁, body, rep₁⟩ := insertFixupBody_recolor rep uncle
    obtain ⟨tr₂, rest, rep₂⟩ := ih rep₁ done (show fs.length < fuel by omega)
    exact ⟨tr₂, (rbInsertFixup_step rep red body).trans rest, rep₂⟩
  | case5 l v r f g fs red uncle same =>
    cases done
    simp only [List.length_cons] at more
    obtain ⟨fuel, rfl⟩ := Nat.exists_eq_add_one.mpr (Nat.zero_lt_of_lt more)
    obtain ⟨tr₁, body, rep₁⟩ := insertFixupBody_outer rep (Bool.eq_false_iff.mpr uncle) same
    have below : Represents tr₁ ((ColorTree.node .red l v r).plug
      (⟨g.side, .black, f.value, join g.side .red f.other g.value g.other⟩ :: fs)) := rep₁
    obtain ⟨tr₂, rest, rep₂⟩ := rbInsertFixup_done below
      (fun _ head => Option.some.inj head ▸ Color.black_ne_red) (show 0 < fuel by omega)
    exact ⟨tr₂, (rbInsertFixup_step rep red body).trans rest, rep₂⟩
  | case6 l v r f g fs red uncle inner =>
    cases done
    simp only [List.length_cons] at more
    obtain ⟨fuel, rfl⟩ := Nat.exists_eq_add_one.mpr (Nat.zero_lt_of_lt more)
    obtain ⟨tr₁, body, rep₁⟩ := insertFixupBody_inner rep (Bool.eq_false_iff.mpr uncle) inner
    rw [red] at rep₁
    have below : Represents tr₁ ((join g.side .red f.other f.value (g.side.pick l r)).plug
      (⟨g.side, .black, v, join g.side .red (g.side.pick r l) g.value g.other⟩ :: fs)) := rep₁
    obtain ⟨tr₂, rest, rep₂⟩ := rbInsertFixup_done below
      (fun _ head => Option.some.inj head ▸ Color.black_ne_red) (show 0 < fuel by omega)
    exact ⟨tr₂, (rbInsertFixup_step rep red body).trans rest, rep₂⟩
  | case7 l v r f g fs black =>
    cases done
    exact rbInsertFixup_done rep (fun _ head => Option.some.inj head ▸ black) (Nat.zero_lt_of_lt more)

end RbTree

/-! ## The whole insertion -/

/-- Where `rb_insert` goes at a node. -/
def insertSide (key : Nat) : Cell → Option Side := guide Cell.key key

/-- The place for a new key, as the frames above it. -/
def insertPlace (key : Nat) (t : ColorTree Cell) : List (Frame Cell) := (seek (insertSide key) t []).2

/-- The tree after `rb_insert`, if its fixup finds every node it needs. -/
def inserted (t : ColorTree Cell) (v : Cell) : Option (ColorTree Cell) :=
  (insertFix .nil v .nil (insertPlace v.key t)).map (paint .black)

namespace RbTree

theorem descend_seek (rep : Represents tr (t.plug fs)) (more : (addrs t).length < fuel) :
    descend key fuel tr (above fs) (ptr t) = .ok (above (seek (insertSide key) t fs).2) := by
  induction t generalizing fs fuel with
  | nil =>
    obtain ⟨fuel, rfl⟩ := Nat.exists_eq_add_one.mpr more
    rfl
  | node c l v r ihl ihr =>
    obtain ⟨fuel, rfl⟩ := Nat.exists_eq_add_one.mpr (Nat.zero_lt_of_lt more)
    simp only [addrs, List.length_cons, List.length_append] at more
    simp only [descend, ptr, load_represents rep, bind, Except.bind, seek, insertSide, guide]
    by_cases less : key < v.key
    · simp only [if_pos less]
      have lower : Represents tr (l.plug (⟨.left, c, v, r⟩ :: fs)) := rep
      exact ihl lower (Nat.lt_of_le_of_lt (Nat.le_add_right ..) (Nat.lt_of_succ_lt_succ more))
    · simp only [if_neg less]
      have lower : Represents tr (r.plug (⟨.right, c, v, l⟩ :: fs)) := rep
      exact ihr lower (Nat.lt_of_le_of_lt (Nat.le_add_left ..) (Nat.lt_of_succ_lt_succ more))

end RbTree

theorem Linked.live {h : Addr → Option RbNode} {p : Ptr} (linked : Linked h p t) :
    ∀ a ∈ addrs t, ∃ n, h a = some n := by
  induction t generalizing p with
  | nil => exact fun a member => absurd member List.not_mem_nil
  | node c l v r ihl ihr =>
    obtain ⟨record, left, right⟩ := linked
    simp only [addrs, List.mem_cons, List.mem_append]
    rintro a (rfl | member | member)
    · exact ⟨_, record⟩
    · exact ihl left a member
    · exact ihr right a member

theorem Represents.unused (rep : Represents tr t) (free : tr.heap a = none) : a ∉ addrs t := by
  intro member
  obtain ⟨n, found⟩ := rep.linked.live a member
  cases free.symm.trans found

theorem Represents.length_le (rep : Represents tr t) :
    (addrs t).length ≤ 2 ^ 32 :=
  length_le_addresses rep.nodup

theorem Represents.length_lt (rep : Represents tr t) : (addrs t).length < limit :=
  rep.length_le.trans_lt (by decide)

theorem length_frameAddrs (fs : List (Frame Cell)) : fs.length ≤ (frameAddrs fs).length := by
  induction fs with
  | nil => exact Nat.le_refl _
  | cons f fs ih =>
    simp only [frameAddrs, List.length_cons, List.length_append]
    omega

theorem Represents.frames_lt (rep : Represents tr (t.plug fs)) : fs.length < limit := by
  have whole := rep.length_lt
  rw [addrs_plug.length_eq, List.length_append] at whole
  exact (length_frameAddrs fs).trans_lt (by omega)

namespace RbTree

/-- A new node in an empty place. -/
theorem linkChild_represents (rep : Represents tr ((ColorTree.nil : ColorTree Cell).plug fs))
    (fresh : v.addr ∉ frameAddrs fs)
    (record : tr.heap v.addr = some ⟨v.key, .red, none, none, above fs⟩)
    (sides : ∀ f ∈ fs.head?, insertSide v.key f.value = some f.side) :
    ∃ tr', linkChild v.key tr (above fs) (some v.addr) = .ok tr' ∧
      Represents tr' ((ColorTree.node .red .nil v .nil).plug fs) := by
  obtain ⟨root, _, framed, nodup⟩ := represents_plug.mp rep
  have nodup' : (addrs (ColorTree.node .red .nil v .nil) ++ frameAddrs fs).Nodup :=
    List.nodup_cons.mpr ⟨fresh, nodup⟩
  cases fs with
  | nil => exact ⟨_, rfl, represents_plug.mpr ⟨rfl, ⟨record, trivial, trivial⟩, trivial, nodup'⟩⟩
  | cons f fs =>
    obtain ⟨tr', step, framed', root', same⟩ := modify_setChild framed nodup (some v.addr)
    refine ⟨tr', ?_, represents_plug.mpr ⟨root'.trans root, ⟨?_, trivial, trivial⟩, framed', nodup'⟩⟩
    · have side := Option.some.inj (sides f rfl)
      simp only [linkChild, above, load_frame rep, bind, Except.bind, side, step]
    · exact (same _ fresh).trans record

/-- `rb_insert` in memory that holds a tree. -/
theorem rbInsert_represents (rep : Represents tr t) (free : tr.heap a = none)
    (done : inserted t ⟨a, key⟩ = some u) :
    ∃ tr', tr.rbInsert key a = .ok tr' ∧ Represents tr' u := by
  obtain ⟨u, fixed, rfl⟩ := Option.map_eq_some_iff.mp done
  have outside := rep.unused free
  have rep₀ : Represents (tr.rbNewNode key a) t :=
    ⟨rep.root,
      rep.linked.congr fun b member => store_heap_ne _ _ fun same => outside (same ▸ member), rep.nodup⟩
  have place : t = (ColorTree.nil : ColorTree Cell).plug (insertPlace key t) := by
    have whole := seek_plug (insertSide key) t []
    rw [insertSide, seek_nil guide_total] at whole
    exact whole.symm
  have sides : ∀ f ∈ (insertPlace key t).head?, insertSide key f.value = some f.side :=
    seek_head _ _ _ (by simp)
  have found : descend key limit (tr.rbNewNode key a) none (tr.rbNewNode key a).root =
      .ok (above (insertPlace key t)) := by
    rw [rep₀.root]
    exact descend_seek (show Represents _ (t.plug []) from rep₀) rep.length_lt
  change insertFix .nil ⟨a, key⟩ .nil (insertPlace key t) = some u at fixed
  generalize insertPlace key t = fs at place sides found fixed
  subst place
  have notFrame : a ∉ frameAddrs fs := fun member =>
    outside (addrs_plug.mem_iff.mpr (List.mem_append_right _ member))
  obtain ⟨root₀, _, framed₀, nodup₀⟩ := represents_plug.mp rep₀
  obtain ⟨tr₁, step₁, record₁, root₁, same₁⟩ := modify_ok (store_heap_self tr a _) (·.setParent (above fs))
  have rep₁ : Represents tr₁ ((ColorTree.nil : ColorTree Cell).plug fs) :=
    represents_plug.mpr ⟨root₁.trans root₀, trivial,
    framed₀.congr fun b member => same₁ b fun same => notFrame (same ▸ member), nodup₀⟩
  obtain ⟨tr₂, step₂, rep₂⟩ := linkChild_represents (v := ⟨a, key⟩) rep₁ notFrame record₁ sides
  obtain ⟨tr₃, step₃, rep₃⟩ := rbInsertFixup_represents rep₂ fixed rep₁.frames_lt
  refine ⟨tr₃, ?_, rep₃⟩
  have step₁' : ((tr.rbNewNode key a).modify (some a) fun x => x.setParent (above fs)) = .ok tr₁ := step₁
  simp only [rbInsert, bind, Except.bind, found, step₁', step₂, step₃]

end RbTree

/-- The keys from left to right. -/
def keys (t : ColorTree Cell) : List Nat := t.toList.map Cell.key

/-- Insertion into a balanced ordered tree. -/
theorem inserted_balanced (balanced : t.Balanced) (v : Cell) :
    ∃ u, inserted t v = some u ∧ u.Balanced := by
  have place : ((ColorTree.nil : ColorTree Cell).plug (insertPlace v.key t)).Balanced := by
    have whole := seek_plug (insertSide v.key) t []
    rw [insertSide, seek_nil guide_total] at whole
    exact whole ▸ balanced
  obtain ⟨n, _, height, fits, _⟩ := balanced_plug_iff.mp place
  cases height
  obtain ⟨u, fixed, repaired⟩ := insertFix_balanced (l := .nil) (v := v) (r := .nil)
    ⟨fun _ => ⟨rfl, rfl⟩, trivial, trivial⟩ (.red .nil .nil) fits
  exact ⟨_, Option.map_eq_some_iff.mpr ⟨u, fixed, rfl⟩, repaired⟩

theorem inserted_ordered (ordered : Ordered Cell.key t) (done : inserted t v = some u) :
    (keys u).Perm (v.key :: keys t) ∧ Ordered Cell.key u := by
  obtain ⟨u, fixed, rfl⟩ := Option.map_eq_some_iff.mp done
  obtain ⟨perm, ordered'⟩ := insertFix_ordered ordered fixed
  constructor
  · rw [keys, paint_toList]
    exact perm.map Cell.key
  · rwa [Ordered, paint_toList]

theorem createTree_represents : Represents createTree .nil := ⟨rfl, trivial, List.nodup_nil⟩

theorem nil_balanced : (ColorTree.nil : ColorTree Cell).Balanced := ⟨rfl, trivial, 0, .nil⟩

/-- `rb_insert` of a key, where `kmalloc` returns an address that is not in use. -/
def InsertStep (tr : RbTree) (call : Nat × Addr) (tr' : RbTree) : Prop :=
  tr.heap call.2 = none ∧ tr.rbInsert call.1 call.2 = .ok tr'

/-- What insertions keep: the heap holds a balanced ordered tree. -/
def HoldsBalanced (tr : RbTree) (ks : List Nat) : Prop :=
  ∃ t, Represents tr t ∧ t.Balanced ∧ Ordered Cell.key t ∧ (keys t).Perm ks

theorem HoldsBalanced.insert {ks : List Nat} (held : HoldsBalanced tr ks) (free : tr.heap a = none)
    (key : Nat) :
    ∃ tr', tr.rbInsert key a = .ok tr' ∧ HoldsBalanced tr' (key :: ks) := by
  obtain ⟨t, rep, balanced, ordered, perm⟩ := held
  obtain ⟨u, done, balanced'⟩ := inserted_balanced balanced ⟨a, key⟩
  obtain ⟨tr', run, rep'⟩ := RbTree.rbInsert_represents rep free done
  obtain ⟨perm', ordered'⟩ := inserted_ordered ordered done
  exact ⟨tr', run, u, rep', balanced', ordered', perm'.trans (perm.cons key)⟩

theorem insert_run_holds {ks : List Nat} {calls : List (Nat × Addr)} (held : HoldsBalanced tr ks)
    (run : Run InsertStep tr calls tr') : HoldsBalanced tr' ((calls.map Prod.fst).reverse ++ ks) := by
  induction run generalizing ks with
  | refl => exact held
  | next step _ ih =>
    obtain ⟨t, run, held'⟩ := held.insert step.1 _
    cases Except.ok.inj (run.symm.trans step.2)
    have rest := ih held'
    rwa [List.map_cons, List.reverse_cons, List.append_assoc]

/-- After any insertions into the empty tree the heap holds a red-black tree,
parent pointers included, whose keys from left to right are the inserted ones in
order; and the next insertion finishes without a fault. -/
theorem insert_run {calls : List (Nat × Addr)} (run : Run InsertStep createTree calls tr) :
    (∃ t, Represents tr t ∧ t.Balanced ∧ keys t = (calls.map Prod.fst).insertionSort (· ≤ ·)) ∧
      ∀ key a, tr.heap a = none → ∃ tr', tr.rbInsert key a = .ok tr' := by
  have held := insert_run_holds
    ⟨.nil, createTree_represents, nil_balanced, List.Pairwise.nil, List.Perm.refl []⟩ run
  refine ⟨?_, fun key a free => ?_⟩
  · obtain ⟨t, rep, balanced, ordered, perm⟩ := held
    rw [List.append_nil] at perm
    refine ⟨t, rep, balanced, List.Perm.eq_of_pairwise' (r := (· ≤ ·)) (List.pairwise_map.mpr ordered)
      (List.pairwise_insertionSort _ _) ?_⟩
    exact perm.trans ((List.reverse_perm _).trans (List.perm_insertionSort _ _).symm)
  · obtain ⟨tr', done, _⟩ := held.insert free key
    exact ⟨tr', done⟩

/-- One insertion, if the address is free and it finishes. -/
def insertCall (tr : RbTree) (call : Nat × Addr) : Option RbTree :=
  if tr.heap call.2 = none then (tr.rbInsert call.1 call.2).toOption else none

theorem insertCall_step (tr : RbTree) (call : Nat × Addr) (tr' : RbTree)
    (done : insertCall tr call = some tr') :
    InsertStep tr call tr' := by
  unfold insertCall at done
  split at done
  · rename_i free
    exact ⟨free, ok_of_toOption done⟩
  · cases done

/-- Equal keys and every kind of repair. -/
theorem insert_run_five : ∃ tr, Run InsertStep createTree [(3, 1), (1, 2), (2, 3), (3, 4), (4, 5)] tr ∧
    ∃ t, Represents tr t ∧ t.Balanced ∧ keys t = [3, 1, 2, 3, 4].insertionSort (· ≤ ·) := by
  have tested : ([(3, 1), (1, 2), (2, 3), (3, 4), (4, 5)].foldlM insertCall createTree).any
      (fun _ => True) = true := by
    decide +kernel
  obtain ⟨tr, run, _⟩ := Run.of_tested insertCall_step tested
  exact ⟨tr, run, (insert_run run).1⟩

end Laomb.RBTree
