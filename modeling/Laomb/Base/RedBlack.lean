import Mathlib.Data.List.Sort

/-! Binary trees with coloured nodes, seen from a place inside them: a subtree
and the path of frames above it. Both sides are handled at once. -/
namespace Laomb.RedBlack

inductive Color where
  | red
  | black
deriving DecidableEq, Repr

theorem Color.black_ne_red : Color.black ≠ Color.red := by decide

inductive Side where
  | left
  | right
deriving DecidableEq, Repr

def Side.opp : Side → Side
  | left => right
  | right => left

/-- The one of two things that belongs to side `s` when the first is the left one. -/
def Side.pick {β : Type*} (s : Side) (a b : β) : β :=
  match s with
  | left => a
  | right => b

theorem Side.eq_opp {s t : Side} (different : s ≠ t) : s = t.opp := by
  cases s <;> cases t <;> first | rfl | exact absurd rfl different

inductive ColorTree (α : Type*) where
  | nil
  | node (color : Color) (left : ColorTree α) (value : α) (right : ColorTree α)
deriving DecidableEq, Repr

/-- A node on the way up from a place: the side the place is on, and the subtree
on the other side. -/
structure Frame (α : Type*) where
  side : Side
  color : Color
  value : α
  other : ColorTree α
deriving DecidableEq, Repr

variable {α : Type*} {s : Side} {c : Color} {l r t u near far : ColorTree α} {v : α} {f g : Frame α}
  {fs gs : List (Frame α)} {n m : Nat}

namespace ColorTree

/-- A node with `near` on side `s` and `far` on the other. -/
def join (s : Side) (c : Color) (near : ColorTree α) (v : α) (far : ColorTree α) : ColorTree α :=
  .node c (s.pick near far) v (s.pick far near)

def toList : ColorTree α → List α
  | nil => []
  | node _ l v r => l.toList ++ v :: r.toList

def isRed : ColorTree α → Bool
  | node .red _ _ _ => true
  | _ => false

def paint (c : Color) : ColorTree α → ColorTree α
  | nil => nil
  | node _ l v r => node c l v r

/-- Put `t` back under the frames, the innermost first. -/
def plug (t : ColorTree α) : List (Frame α) → ColorTree α
  | [] => t
  | f :: fs => plug (join f.side f.color t f.value f.other) fs

/-- Every path down to an empty tree has `n` black nodes. -/
inductive Height : ColorTree α → Nat → Prop where
  | nil : Height nil 0
  | red {l r : ColorTree α} {v : α} {n : Nat} : Height l n → Height r n → Height (node .red l v r) n
  | black {l r : ColorTree α} {v : α} {n : Nat} : Height l n → Height r n → Height (node .black l v r) (n + 1)

/-- No red node has a red child. -/
def Proper : ColorTree α → Prop
  | nil => True
  | node c l _ r => (c = .red → l.isRed = false ∧ r.isRed = false) ∧ l.Proper ∧ r.Proper

structure Balanced (t : ColorTree α) : Prop where
  root : t.isRed = false
  proper : t.Proper
  height : ∃ n, t.Height n

/-! ## Nodes and paths -/

theorem node_eq_join (s : Side) (c : Color) (l : ColorTree α) (v : α) (r : ColorTree α) :
    node c l v r = join s c (s.pick l r) v (s.pick r l) := by
  cases s <;> rfl

theorem node_ne_nil : node c l v r ≠ nil := by simp

theorem join_ne_nil : join s c near v far ≠ nil := node_ne_nil

theorem join_opp (s : Side) (c : Color) (near : ColorTree α) (v : α) (far : ColorTree α) :
    join s.opp c near v far = join s c far v near := by
  cases s <;> rfl

theorem join_isRed (s : Side) (near : ColorTree α) (v : α) (far : ColorTree α) :
    (join s .red near v far).isRed = true := rfl

theorem join_color (s : Side) (c : Color) (near : ColorTree α) (v : α) (far : ColorTree α) :
    (join s c near v far).isRed = decide (c = .red) := by
  cases c <;> rfl

theorem join_proper : (join s c near v far).Proper ↔
    (c = .red → near.isRed = false ∧ far.isRed = false) ∧ near.Proper ∧ far.Proper := by
  cases s with
  | left => exact Iff.rfl
  | right =>
    change (c = .red → far.isRed = false ∧ near.isRed = false) ∧ far.Proper ∧ near.Proper ↔ _
    rw [and_comm (a := far.Proper), and_comm (a := far.isRed = false)]

theorem join_red_height : (join s .red near v far).Height n ↔ near.Height n ∧ far.Height n := by
  constructor
  · intro height
    cases s <;> cases height with | red left right => first | exact ⟨left, right⟩ | exact ⟨right, left⟩
  · rintro ⟨left, right⟩
    cases s
    · exact .red left right
    · exact .red right left

theorem join_black_height :
    (join s .black near v far).Height n ↔ ∃ m, n = m + 1 ∧ near.Height m ∧ far.Height m := by
  constructor
  · intro height
    cases s <;> cases height with
    | black left right => first | exact ⟨_, rfl, left, right⟩ | exact ⟨_, rfl, right, left⟩
  · rintro ⟨m, rfl, left, right⟩
    cases s
    · exact .black left right
    · exact .black right left

theorem Height.swap (height : (node c l v r).Height n) : (node c r v l).Height n := by
  cases height with
  | red left right => exact .red right left
  | black left right => exact .black right left

theorem Height.unique (first : t.Height n) (second : t.Height m) : n = m := by
  induction first generalizing m with
  | nil => cases second; rfl
  | red _ _ ih _ => cases second with | red left _ => exact ih left
  | black _ _ ih _ => cases second with | black left _ => rw [ih left]

theorem paint_isRed_black : (t.paint .black).isRed = false := by cases t <;> rfl

@[simp] theorem paint_toList : (t.paint c).toList = t.toList := by cases t <;> rfl

theorem paint_proper (proper : t.Proper) : (t.paint .black).Proper := by
  cases t with
  | nil => trivial
  | node c l v r => exact ⟨fun red => absurd red Color.black_ne_red, proper.2⟩

/-- What stands in front of a place and behind it, in order. -/
def before : List (Frame α) → List α
  | [] => []
  | f :: fs => before fs ++ f.side.pick [] (f.other.toList ++ [f.value])

def after : List (Frame α) → List α
  | [] => []
  | f :: fs => f.side.pick (f.value :: f.other.toList) [] ++ after fs

theorem plug_toList : (t.plug fs).toList = before fs ++ t.toList ++ after fs := by
  induction fs generalizing t with
  | nil => simp [plug, before, after]
  | cons f fs ih =>
    rw [plug, ih]
    cases side : f.side <;> simp [join, toList, before, after, side, Side.pick]

theorem plug_append : t.plug (fs ++ gs) = (t.plug fs).plug gs := by
  induction fs generalizing t with
  | nil => rfl
  | cons f fs ih => exact ih

/-- The order of a rotation: either way round, the same values in the same order. -/
theorem rotate_toList (s : Side) (c₁ c₂ c₃ c₄ : Color) (a : ColorTree α) (x : α) (b : ColorTree α)
    (y : α) (d : ColorTree α) :
    (join s c₁ (join s c₂ a x b) y d).toList = (join s c₃ a x (join s c₄ b y d)).toList := by
  cases s <;> simp [join, toList, Side.pick]

theorem join_toList_congr {near' far' : ColorTree α} {c' : Color} (left : near.toList = near'.toList)
    (right : far.toList = far'.toList) :
    (join s c near v far).toList = (join s c' near' v far').toList := by
  cases s <;> simp [join, toList, Side.pick, left, right]

theorem plug_toList_congr (same : t.toList = u.toList) : (t.plug fs).toList = (u.plug fs).toList := by
  rw [plug_toList, plug_toList, same]

theorem plug_swap : t.plug (f :: fs) = f.other.plug (⟨f.side.opp, f.color, f.value, t⟩ :: fs) := by
  rw [plug, plug, join_opp]

/-! ## Descending -/

/-- The place that is reached from `t` under `fs` along the sides that `go` names,
where it names none or the tree ends. -/
def seek (go : α → Option Side) : ColorTree α → List (Frame α) → ColorTree α × List (Frame α)
  | nil, fs => (nil, fs)
  | node c l v r, fs =>
    match go v with
    | none => (node c l v r, fs)
    | some .left => seek go l (⟨.left, c, v, r⟩ :: fs)
    | some .right => seek go r (⟨.right, c, v, l⟩ :: fs)

theorem seek_plug (go : α → Option Side) (t : ColorTree α) (fs : List (Frame α)) :
    (seek go t fs).1.plug (seek go t fs).2 = t.plug fs := by
  fun_induction seek go t fs with
  | case1 | case2 => rfl
  | case3 _ _ _ _ _ _ ih => exact ih
  | case4 _ _ _ _ _ _ ih => exact ih

/-- The innermost frame is on the side that `go` names. -/
theorem seek_head (go : α → Option Side) (t : ColorTree α) (fs : List (Frame α))
    (head : ∀ f ∈ fs.head?, go f.value = some f.side) :
    ∀ f ∈ (seek go t fs).2.head?, go f.value = some f.side := by
  fun_induction seek go t fs with
  | case1 | case2 => exact head
  | case3 _ _ _ _ _ side ih | case4 _ _ _ _ _ side ih =>
    refine ih fun f inner => ?_
    cases inner
    exact side

/-- Where every node names a side, the descent ends in an empty tree. -/
theorem seek_nil {go : α → Option Side} (total : ∀ v, go v ≠ none) (t : ColorTree α) (fs : List (Frame α)) :
    (seek go t fs).1 = nil := by
  fun_induction seek go t fs with
  | case1 => rfl
  | case2 _ _ v _ _ stop => exact absurd stop (total v)
  | case3 _ _ _ _ _ _ ih => exact ih
  | case4 _ _ _ _ _ _ ih => exact ih

/-- The first node in order of the tree with the root `v`: its colour, itself, its
right subtree and the frames above it. -/
def leftmost : (l : ColorTree α) → Color → α → (r : ColorTree α) → List (Frame α) →
    Color × α × ColorTree α × List (Frame α)
  | nil, c, v, r, fs => (c, v, r, fs)
  | node c' l' v' r', c, v, r, fs => leftmost l' c' v' r' (⟨.left, c, v, r⟩ :: fs)

theorem leftmost_plug (l : ColorTree α) (c : Color) (v : α) (r : ColorTree α) (fs : List (Frame α))
    {c' : Color} {v' : α}
    {r' : ColorTree α} {fs' : List (Frame α)} (first : leftmost l c v r fs = (c', v', r', fs')) :
    (node c' nil v' r').plug fs' = (node c l v r).plug fs := by
  induction l generalizing c v r fs with
  | nil =>
    cases first
    rfl
  | node c₁ l₁ v₁ r₁ ih _ => exact ih c₁ v₁ r₁ _ first

/-- All frames the search for the first node adds are on the left. -/
theorem leftmost_side (l : ColorTree α) (c : Color) (v : α) (r : ColorTree α) (fs : List (Frame α))
    {c' : Color} {v' : α}
    {r' : ColorTree α} {fs' : List (Frame α)} (first : leftmost l c v r fs = (c', v', r', fs'))
    (left : ∀ f ∈ fs, f.side = .left) : ∀ f ∈ fs', f.side = .left := by
  induction l generalizing c v r fs with
  | nil =>
    cases first
    exact left
  | node c₁ l₁ v₁ r₁ ih _ =>
    refine ih c₁ v₁ r₁ _ first fun f member => ?_
    rcases List.mem_cons.mp member with rfl | member
    · rfl
    · exact left f member

/-- Nothing stands in front of a place that is reached to the left only. -/
theorem before_left (left : ∀ f ∈ fs, f.side = .left) : before fs = [] := by
  induction fs with
  | nil => rfl
  | cons f fs ih =>
    have outer := ih fun g member => left g (List.mem_cons_of_mem _ member)
    rw [before, outer, left f List.mem_cons_self]
    rfl

/-- The first value in order and those after it. -/
theorem leftmost_toList (l : ColorTree α) (c : Color) (v : α) (r : ColorTree α) {c' : Color} {v' : α}
    {r' : ColorTree α} {fs : List (Frame α)} (first : leftmost l c v r [] = (c', v', r', fs)) :
    (node c l v r).toList = v' :: (r'.plug fs).toList := by
  have whole := leftmost_plug l c v r [] first
  have front := before_left (leftmost_side l c v r [] first fun _ member => absurd member List.not_mem_nil)
  calc (node c l v r).toList = ((node c' nil v' r').plug fs).toList := (congrArg toList whole).symm
    _ = v' :: (r'.plug fs).toList := by simp [plug_toList, front, toList]

/-- Where the descent does not run out of the tree, `go` names no side. -/
theorem seek_stop (go : α → Option Side) (t : ColorTree α) (fs : List (Frame α))
    (stopped : (seek go t fs).1 = node c l v r) : go v = none := by
  fun_induction seek go t fs with
  | case1 => cases stopped
  | case2 _ _ _ _ _ stop =>
    cases stopped
    exact stop
  | case3 _ _ _ _ _ _ ih => exact ih stopped
  | case4 _ _ _ _ _ _ ih => exact ih stopped

/-! ## Order -/

section Order
variable {K : Type*} [LinearOrder K] {key : α → K} {k : K}

/-- The keys do not decrease from left to right. -/
def Ordered (key : α → K) (t : ColorTree α) : Prop := t.toList.Pairwise fun a b => key a ≤ key b

/-- Down to where `k` is inserted: to the left of larger keys only. -/
def guide (key : α → K) (k : K) (v : α) : Option Side := some (if k < key v then .left else .right)

theorem guide_total (v : α) : guide key k v ≠ none := by simp [guide]

/-- The descent keeps the keys up to `k` in front of it and the larger ones behind. -/
theorem seek_guide (ordered : Ordered key t) (front : ∀ v ∈ before fs, key v ≤ k)
    (back : ∀ v ∈ after fs, k < key v) :
    (∀ v ∈ before (seek (guide key k) t fs).2, key v ≤ k) ∧
      ∀ v ∈ after (seek (guide key k) t fs).2, k < key v := by
  induction t generalizing fs with
  | nil => exact ⟨front, back⟩
  | node c l v r ihl ihr =>
    obtain ⟨left, middle, cross⟩ := List.pairwise_append.mp ordered
    obtain ⟨first, right⟩ := List.pairwise_cons.mp middle
    by_cases less : k < key v
    · simp only [seek, guide, if_pos less]
      refine ihl left (by simpa [before, Side.pick] using front) fun w member => ?_
      simp only [after, Side.pick, List.cons_append, List.mem_cons, List.mem_append] at member
      rcases member with rfl | member | member
      · exact less
      · exact less.trans_le (first w member)
      · exact back w member
    · simp only [seek, guide, if_neg less]
      refine ihr right (fun w member => ?_) (by simpa [after, Side.pick] using back)
      simp only [before, Side.pick, List.mem_append, List.mem_singleton] at member
      rcases member with member | member | rfl
      · exact front w member
      · exact (cross w member v List.mem_cons_self).trans (not_lt.mp less)
      · exact not_lt.mp less

/-- The descent to a value with the key `k`. -/
def aim (key : α → K) (k : K) (v : α) : Option Side :=
  if key v = k then none else some (if k < key v then .left else .right)

theorem aim_none {v : α} (stop : aim key k v = none) : key v = k := by
  by_contra other
  rw [aim, if_neg other] at stop
  cases stop

/-- In an ordered tree the descent only runs out if no value has the key. -/
theorem seek_aim_nil (ordered : Ordered key t) (missed : (seek (aim key k) t fs).1 = nil) :
    ∀ v ∈ t.toList, key v ≠ k := by
  induction t generalizing fs with
  | nil => exact fun v member => absurd member List.not_mem_nil
  | node c l v r ihl ihr =>
    obtain ⟨left, middle, cross⟩ := List.pairwise_append.mp ordered
    obtain ⟨first, right⟩ := List.pairwise_cons.mp middle
    by_cases found : key v = k
    · simp only [seek, aim, if_pos found] at missed
      cases missed
    intro w member
    rw [toList, List.mem_append, List.mem_cons] at member
    by_cases less : k < key v
    · simp only [seek, aim, if_neg found, if_pos less] at missed
      rcases member with member | rfl | member
      · exact ihl left missed w member
      · exact found
      · exact (less.trans_le (first w member)).ne'
    · simp only [seek, aim, if_neg found, if_neg less] at missed
      rcases member with member | rfl | member
      · have greater := lt_of_le_of_ne (not_lt.mp less) found
        exact ((cross w member v List.mem_cons_self).trans_lt greater).ne
      · exact found
      · exact ihr right missed w member

end Order

/-! ## Balance seen from a place -/

/-- The innermost frame exists and is black: the place may hold a red node. -/
def HeadBlack : List (Frame α) → Prop
  | [] => False
  | f :: _ => f.color = .black

/-- A balanced tree results if the place holds a proper tree of black height `n`
whose root is black. -/
def Fits : List (Frame α) → Nat → Prop
  | [], _ => True
  | f :: fs, n => f.other.Proper ∧ f.other.Height n ∧
    match f.color with
    | .black => Fits fs (n + 1)
    | .red => f.other.isRed = false ∧ HeadBlack fs ∧ Fits fs n

/-- A red frame fits under a black one, which the black height counts. -/
theorem Fits.of_red (fits : Fits (f :: g :: fs) n) (red : f.color = .red) :
    f.other.Proper ∧ f.other.Height n ∧ f.other.isRed = false ∧ g.other.Proper ∧ g.other.Height n ∧
      Fits fs (n + 1) := by
  simp only [Fits, red, HeadBlack] at fits
  obtain ⟨sibling, same, siblingBlack, black, outer, outerHeight, fits⟩ := fits
  rw [black] at fits
  exact ⟨sibling, same, siblingBlack, outer, outerHeight, fits⟩

theorem balanced_plug_iff : (t.plug fs).Balanced ↔
    ∃ n, t.Proper ∧ t.Height n ∧ Fits fs n ∧ (t.isRed = true → HeadBlack fs) := by
  induction fs generalizing t with
  | nil =>
    constructor
    · rintro ⟨root, proper, n, height⟩
      exact ⟨n, proper, height, trivial, fun red => absurd red (Bool.eq_false_iff.mp root)⟩
    · rintro ⟨n, proper, height, _, root⟩
      exact ⟨Bool.eq_false_iff.mpr root, proper, n, height⟩
  | cons f fs ih =>
    rw [plug, ih]
    obtain ⟨side, color, value, other⟩ := f
    simp only [join_proper, Fits, HeadBlack]
    cases color with
    | red =>
      simp only [join_red_height, forall_const, reduceCtorEq, imp_false, Bool.not_eq_true]
      have root : (join side .red t value other).isRed = true := by cases side <;> rfl
      simp only [root, forall_const]
      constructor
      · rintro ⟨n, ⟨⟨black, sibling⟩, proper, other⟩, ⟨height, same⟩, fits, head⟩
        exact ⟨n, proper, height, ⟨other, same, sibling, head, fits⟩, black⟩
      · rintro ⟨n, proper, height, ⟨other, same, sibling, head, fits⟩, black⟩
        exact ⟨n, ⟨⟨black, sibling⟩, proper, other⟩, ⟨height, same⟩, fits, head⟩
    | black =>
      simp only [join_black_height, reduceCtorEq, false_imp_iff, true_and, implies_true, and_true]
      have root : (join side .black t value other).isRed = false := by cases side <;> rfl
      simp only [root, Bool.false_eq_true, false_imp_iff, and_true]
      constructor
      · rintro ⟨_, ⟨proper, other⟩, ⟨n, rfl, height, same⟩, fits⟩
        exact ⟨n, proper, height, other, same, fits⟩
      · rintro ⟨n, proper, height, other, same, fits⟩
        exact ⟨n + 1, ⟨proper, other⟩, ⟨n, rfl, height, same⟩, fits⟩

/-- The colour at the top is that of the outermost frame. -/
theorem plug_isRed : (t.plug fs).isRed =
    ((fs.map Frame.color).getLast?.map fun c => decide (c = .red)).getD t.isRed := by
  induction fs generalizing t with
  | nil => rfl
  | cons f fs ih =>
    rw [plug, ih, join_color, List.map_cons, List.getLast?_cons]
    cases (fs.map Frame.color).getLast? <;> rfl

/-- What balance asks of a frame: everything but the value. -/
def shape (f : Frame α) : Side × Color × ColorTree α := (f.side, f.color, f.other)

theorem Fits.congr (fits : Fits fs n) (same : fs.map shape = gs.map shape) : Fits gs n := by
  induction fs generalizing gs n with
  | nil =>
    rw [List.map_nil, eq_comm, List.map_eq_nil_iff] at same
    rw [same]
    trivial
  | cons f fs ih =>
    obtain ⟨g, gs, rfl, first, rest⟩ := List.map_eq_cons_iff.mp same.symm
    obtain ⟨_, color, other⟩ : g.side = f.side ∧ g.color = f.color ∧ g.other = f.other := by
      simpa [shape] using first
    obtain ⟨proper, height, upper⟩ := fits
    refine ⟨other ▸ proper, other ▸ height, ?_⟩
    rw [color]
    cases inner : f.color with
    | black =>
      rw [inner] at upper
      exact ih upper rest.symm
    | red =>
      rw [inner] at upper
      refine ⟨other ▸ upper.1, ?_, ih upper.2.2 rest.symm⟩
      have head := upper.2.1
      cases fs with
      | nil => exact head.elim
      | cons f' fs =>
        obtain ⟨g', gs, rfl, first, _⟩ := List.map_eq_cons_iff.mp rest
        have color : g'.color = f'.color := congrArg (fun q => q.2.1) first
        exact color.trans head

/-! ## Insertion -/

/-- What a red node `v` with subtrees `l` and `r` grows into under the frames: a
red parent is repaired by recolouring, which goes on two levels higher, or by
one or two rotations. There is no repair for a red parent at the top. -/
def insertFix (l : ColorTree α) (v : α) (r : ColorTree α) : List (Frame α) → Option (ColorTree α)
  | [] => some (.node .red l v r)
  | [f] => if f.color = .red then none else some ((node .red l v r).plug [f])
  | f :: g :: fs =>
    if f.color = .red then
      if g.other.isRed then
        insertFix (g.side.pick (join f.side .black (node .red l v r) f.value f.other)
          (g.other.paint .black)) g.value
          (g.side.pick (g.other.paint .black) (join f.side .black (node .red l v r) f.value f.other)) fs
      else if f.side = g.side then
        some ((join g.side .black (node .red l v r) f.value
          (join g.side .red f.other g.value g.other)).plug fs)
      else
        some ((join g.side .black (join g.side .red f.other f.value (g.side.pick l r)) v
          (join g.side .red (g.side.pick r l) g.value g.other)).plug fs)
    else some ((node .red l v r).plug (f :: g :: fs))

theorem insertFix_toList (done : insertFix l v r fs = some u) :
    u.toList = ((node .red l v r).plug fs).toList := by
  fun_induction insertFix l v r fs with
  | case1 => cases done; rfl
  | case2 => cases done
  | case3 => cases done; rfl
  | case4 l v r f g fs _ _ ih =>
    rw [ih done]
    apply plug_toList_congr
    change (join g.side .red (join f.side .black (node .red l v r) f.value f.other) g.value
      (g.other.paint .black)).toList = _
    exact join_toList_congr (join_toList_congr rfl rfl) paint_toList
  | case5 l v r f g fs _ _ same =>
    cases done
    apply plug_toList_congr
    rw [same, ← rotate_toList g.side .red f.color]
    exact join_toList_congr rfl rfl
  | case6 l v r f g fs _ _ inner =>
    cases done
    apply plug_toList_congr
    rw [Side.eq_opp inner, join_opp, rotate_toList g.side g.color f.color .black .red,
      node_eq_join g.side .red l v r, rotate_toList g.side .black .red .black .red]
    exact join_toList_congr rfl (rotate_toList ..).symm
  | case7 => cases done; rfl

theorem Balanced.paint_eq (balanced : t.Balanced) : t.paint .black = t := by
  obtain ⟨root, _, _⟩ := balanced
  cases t with
  | nil => rfl
  | node c l v r =>
    cases c with
    | red => cases root
    | black => rfl

theorem paint_height_black (red : t.isRed = true) (height : t.Height n) :
    (t.paint .black).Height (n + 1) := by
  cases height with
  | nil => cases red
  | red left right => exact .black left right
  | black => cases red

/-- A red node with black children of equal height in a fitting place: repairing
its parent ends in a balanced tree, up to the colour of the root. -/
theorem insertFix_balanced (proper : (node .red l v r).Proper) (height : (node .red l v r).Height n)
    (fits : Fits fs n) : ∃ u, insertFix l v r fs = some u ∧ (u.paint .black).Balanced := by
  have finish {t : ColorTree α} {fs : List (Frame α)} {n : Nat} (proper : t.Proper) (height : t.Height n)
      (fits : Fits fs n) (root : t.isRed = true → HeadBlack fs) :
      ∃ u, some (t.plug fs) = some u ∧ (u.paint .black).Balanced := by
    have balanced : (t.plug fs).Balanced := balanced_plug_iff.mpr ⟨n, proper, height, fits, root⟩
    exact ⟨_, rfl, balanced.paint_eq.symm ▸ balanced⟩
  fun_induction insertFix l v r fs generalizing n with
  | case1 l v r =>
    refine ⟨_, rfl, rfl, paint_proper proper, n + 1, ?_⟩
    exact paint_height_black rfl height
  | case2 l v r f red =>
    simp only [Fits, red, HeadBlack, false_and, and_false] at fits
  | case3 l v r f black =>
    refine finish proper height fits fun _ => ?_
    cases color : f.color with
    | red => exact absurd color black
    | black => exact color
  | case4 l v r f g fs red uncleRed ih =>
    obtain ⟨sibling, same, siblingBlack, outer, outerHeight, fits⟩ := fits.of_red red
    have parentBlack : (join f.side .black (node .red l v r) f.value f.other).isRed = false := by
      cases f.side <;> rfl
    refine ih (n := n + 1) ?_ ?_ fits
    · exact join_proper (s := g.side).mpr ⟨fun _ => ⟨parentBlack, paint_isRed_black⟩,
        join_proper.mpr ⟨fun red => absurd red Color.black_ne_red, proper, sibling⟩, paint_proper outer⟩
    · exact join_red_height (s := g.side).mpr
        ⟨join_black_height.mpr ⟨n, rfl, height, same⟩, paint_height_black uncleRed outerHeight⟩
  | case5 l v r f g fs red uncleBlack same =>
    obtain ⟨sibling, sameHeight, siblingBlack, outer, outerHeight, fits⟩ := fits.of_red red
    refine finish ?_ ?_ fits ?_
    · exact join_proper.mpr ⟨fun red => absurd red Color.black_ne_red, proper, join_proper.mpr
        ⟨fun _ => ⟨siblingBlack, by simpa using uncleBlack⟩, sibling, outer⟩⟩
    · exact join_black_height.mpr ⟨n, rfl, height, join_red_height.mpr ⟨sameHeight, outerHeight⟩⟩
    · rw [join_color]
      exact fun red => absurd red (by decide)
  | case6 l v r f g fs red uncleBlack inner =>
    obtain ⟨sibling, sameHeight, siblingBlack, outer, outerHeight, fits⟩ := fits.of_red red
    rw [node_eq_join g.side, join_proper] at proper
    rw [node_eq_join g.side, join_red_height] at height
    obtain ⟨children, nearProper, farProper⟩ := proper
    refine finish ?_ ?_ fits ?_
    · exact join_proper.mpr ⟨fun red => absurd red Color.black_ne_red,
        join_proper.mpr ⟨fun _ => ⟨siblingBlack, (children rfl).1⟩, sibling, nearProper⟩,
        join_proper.mpr ⟨fun _ => ⟨(children rfl).2, by simpa using uncleBlack⟩, farProper, outer⟩⟩
    · exact join_black_height.mpr ⟨n, rfl, join_red_height.mpr ⟨sameHeight, height.1⟩,
        join_red_height.mpr ⟨height.2, outerHeight⟩⟩
    · rw [join_color]
      exact fun red => absurd red (by decide)
  | case7 l v r f g fs black =>
    refine finish proper height fits fun _ => ?_
    cases color : f.color with
    | red => exact absurd color black
    | black => exact color

/-- Below a black root the repair always finds a grandparent. -/
theorem insertFix_some (top : ∀ c ∈ (fs.map Frame.color).getLast?, c = .black) :
    ∃ u, insertFix l v r fs = some u := by
  fun_induction insertFix l v r fs with
  | case1 | case3 | case5 | case6 | case7 => exact ⟨_, rfl⟩
  | case2 l v r f red =>
    have black := top f.color rfl
    rw [red] at black
    cases black
  | case4 l v r f g fs _ _ ih =>
    refine ih fun c last => top c ?_
    exact List.mem_getLast?_cons (List.mem_getLast?_cons last)

section Insert
variable {K : Type*} [LinearOrder K] {key : α → K}

/-- Insertion where the guide leads, then repair: the values are the old ones and
the new one, still in order. -/
theorem insertFix_ordered (ordered : Ordered key t)
    (done : insertFix .nil v .nil (seek (guide key (key v)) t []).2 = some u) :
    u.toList.Perm (v :: t.toList) ∧ Ordered key u := by
  have old := seek_plug (guide key (key v)) t []
  rw [seek_nil guide_total] at old
  have none : ∀ w ∈ before ([] : List (Frame α)), key w ≤ key v :=
    fun _ member => absurd member List.not_mem_nil
  obtain ⟨front, back⟩ := seek_guide ordered none fun _ member => absurd member List.not_mem_nil
  have new := insertFix_toList done
  generalize (seek (guide key (key v)) t []).2 = fs at old front back new
  have split : t.toList = before fs ++ after fs := by
    rw [← (congrArg toList old : _ = t.toList), plug_toList]
    simp [toList]
  rw [plug_toList] at new
  simp only [toList, List.nil_append, List.append_assoc, List.cons_append] at new
  constructor
  · rw [new, split]
    exact List.perm_middle
  · rw [Ordered, split] at ordered
    obtain ⟨left, right, cross⟩ := List.pairwise_append.mp ordered
    rw [Ordered, new, List.pairwise_append, List.pairwise_cons]
    refine ⟨left, ⟨fun w member => (back w member).le, right⟩, fun w member x later => ?_⟩
    rcases List.mem_cons.mp later with rfl | later
    · exact front w member
    · exact cross w member x later

end Insert

end ColorTree
end Laomb.RedBlack
