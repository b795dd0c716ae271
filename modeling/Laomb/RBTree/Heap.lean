import Laomb.Base.RedBlack
import Laomb.VFS.Node

/-! The functions of `rbtree.c` on a heap of `struct rb_node` records. The
mirrored halves of the source are one definition over a side; the messages of
`kprintf` are left out. -/
namespace Laomb.RBTree
open VFS RedBlack

structure RbNode where
  key : Nat
  color : Color
  left : Ptr
  right : Ptr
  parent : Ptr
deriving DecidableEq, Repr

namespace RbNode

def child (n : RbNode) (s : Side) : Ptr := s.pick n.left n.right

def setChild (n : RbNode) (s : Side) (p : Ptr) : RbNode :=
  match s with
  | .left => { n with left := p }
  | .right => { n with right := p }

def setParent (n : RbNode) (p : Ptr) : RbNode := { n with parent := p }

def setColor (n : RbNode) (c : Color) : RbNode := { n with color := c }

end RbNode

/-- The heap of nodes and `tree->root`. -/
structure RbTree where
  heap : Addr → Option RbNode
  root : Ptr

/-- `create_tree`. -/
def createTree : RbTree := ⟨fun _ => none, none⟩

namespace RbTree

/-- `*p`, a fault if `p` is null or points to freed memory. -/
def load (tr : RbTree) (p : Ptr) : Result RbNode :=
  match p with
  | none => .error .nullDeref
  | some a =>
    match tr.heap a with
    | none => .error .useAfterFree
    | some n => .ok n

def store (tr : RbTree) (a : Addr) (n : RbNode) : RbTree :=
  { tr with heap := Function.update tr.heap a (some n) }

/-- An assignment to a field of `*p`. -/
def modify (tr : RbTree) (p : Ptr) (f : RbNode → RbNode) : Result RbTree :=
  match p with
  | none => .error .nullDeref
  | some a => do
    let n ← tr.load (some a)
    pure (tr.store a (f n))

/-- The same behind a test `p != nullptr`. -/
def modifyIf (tr : RbTree) (p : Ptr) (f : RbNode → RbNode) : Result RbTree :=
  match p with
  | none => pure tr
  | some a => tr.modify (some a) f

def setRoot (tr : RbTree) (p : Ptr) : RbTree := { tr with root := p }

def kfree (tr : RbTree) (a : Addr) : RbTree := { tr with heap := Function.update tr.heap a none }

/-- `p != nullptr && p->color == RED`. -/
def isRed (tr : RbTree) (p : Ptr) : Result Bool :=
  match p with
  | none => pure false
  | some a => do
    let n ← tr.load (some a)
    pure (n.color = .red)

/-- The memory `kmalloc` returns is `fresh`. -/
def rbNewNode (tr : RbTree) (key : Nat) (fresh : Addr) : RbTree :=
  tr.store fresh ⟨key, .red, none, none, none⟩

/-- Put `new` into the link that leads from `p`, or from the tree, to `old`. -/
def replaceChild (s : Side) (tr : RbTree) (p old new : Ptr) : Result RbTree :=
  match p with
  | none => pure (tr.setRoot new)
  | some a => do
    let n ← tr.load (some a)
    if old = n.child s then tr.modify (some a) (·.setChild s new)
    else tr.modify (some a) (·.setChild s.opp new)

/-- Rotate `x` down to side `s`. -/
def rotate (s : Side) (tr : RbTree) (x : Ptr) : Result RbTree := do
  let y := (← tr.load x).child s.opp
  let tr ← tr.modify x (·.setChild s.opp ((← tr.load y).child s))
  let tr ← tr.modifyIf ((← tr.load y).child s) (·.setParent x)
  let parent := (← tr.load x).parent
  let tr ← tr.modify y (·.setParent parent)
  let tr ← replaceChild s tr parent x y
  let tr ← tr.modify y (·.setChild s x)
  tr.modify x (·.setParent y)

def rbRotateLeft (tr : RbTree) (x : Ptr) : Result RbTree := rotate .left tr x

def rbRotateRight (tr : RbTree) (y : Ptr) : Result RbTree := rotate .right tr y

/-! ## Insertion -/

/-- The body of the loop in `rb_insert_fixup` where the parent of `z` is the
child on side `s`, with the next `z`. -/
def insertFixupBody (s : Side) (tr : RbTree) (z : Ptr) : Result (RbTree × Ptr) := do
  let parent := (← tr.load z).parent
  let grand := (← tr.load parent).parent
  let y := (← tr.load grand).child s.opp
  if ← tr.isRed y then
    let tr ← tr.modify parent (·.setColor .black)
    let tr ← tr.modify y (·.setColor .black)
    let tr ← tr.modify grand (·.setColor .red)
    pure (tr, grand)
  else
    let (tr, z) ←
      if z = (← tr.load parent).child s.opp then do
        let tr ← rotate s tr parent
        pure (tr, parent)
      else pure (tr, z)
    let parent := (← tr.load z).parent
    let tr ← tr.modify parent (·.setColor .black)
    let grand := (← tr.load parent).parent
    let tr ← tr.modify grand (·.setColor .red)
    let tr ← rotate s.opp tr grand
    pure (tr, z)

def rbInsertFixup : (fuel : Nat) → (tr : RbTree) → (z : Ptr) → Result RbTree
  | 0, _, _ => .error .diverges
  | fuel + 1, tr, z => do
    let parent := (← tr.load z).parent
    if ← tr.isRed parent then
      let grand := (← tr.load parent).parent
      let s := if parent = (← tr.load grand).left then .left else .right
      let (tr, z) ← insertFixupBody s tr z
      rbInsertFixup fuel tr z
    else tr.modify tr.root (·.setColor .black)

/-- The descent of `rb_insert` from `x`, with the node `y` above it. -/
def descend (key : Nat) : (fuel : Nat) → (tr : RbTree) → (y x : Ptr) → Result Ptr
  | 0, _, _, _ => .error .diverges
  | _ + 1, _, y, none => pure y
  | fuel + 1, tr, _, some x => do
    let n ← tr.load (some x)
    descend key fuel tr (some x) (if key < n.key then n.left else n.right)

/-- Link the new node `z` below `y`. -/
def linkChild (key : Nat) (tr : RbTree) (y z : Ptr) : Result RbTree :=
  match y with
  | none => pure (tr.setRoot z)
  | some y => do
    let n ← tr.load (some y)
    tr.modify (some y) (·.setChild (if key < n.key then .left else .right) z)

def rbInsert (tr : RbTree) (key : Nat) (fresh : Addr) : Result RbTree := do
  let tr := tr.rbNewNode key fresh
  let y ← descend key limit tr none tr.root
  let tr ← tr.modify (some fresh) (·.setParent y)
  let tr ← linkChild key tr y (some fresh)
  rbInsertFixup limit tr (some fresh)

/-! ## Search -/

def rbSearch (key : Nat) : (fuel : Nat) → (tr : RbTree) → (node : Ptr) → Result Ptr
  | 0, _, _ => .error .diverges
  | _ + 1, _, none => pure none
  | fuel + 1, tr, some node => do
    let n ← tr.load (some node)
    if n.key = key then pure (some node)
    else rbSearch key fuel tr (if key < n.key then n.left else n.right)

def rbMinimum : (fuel : Nat) → (tr : RbTree) → (node : Ptr) → Result Ptr
  | 0, _, _ => .error .diverges
  | fuel + 1, tr, node => do
    let n ← tr.load node
    match n.left with
    | none => pure node
    | some left => rbMinimum fuel tr (some left)

/-! ## Deletion -/

/-- The sibling of `x` on the other side, through `x->parent`. -/
def sibling (s : Side) (tr : RbTree) (x : Ptr) : Result Ptr := do
  let parent ← tr.load (← tr.load x).parent
  pure (parent.child s.opp)

/-- A red sibling `w` is rotated over the parent of `x`; the new sibling. -/
def lowerRedSibling (s : Side) (tr : RbTree) (x w : Ptr) : Result (RbTree × Ptr) := do
  if (← tr.load w).color = .red then
    let tr ← tr.modify w (·.setColor .black)
    let parent := (← tr.load x).parent
    let tr ← tr.modify parent (·.setColor .red)
    let tr ← rotate s tr parent
    pure (tr, ← sibling s tr x)
  else pure (tr, w)

/-- A red inner child of the sibling `w` is rotated over it; the new sibling. -/
def turnSibling (s : Side) (tr : RbTree) (x w : Ptr) : Result (RbTree × Ptr) := do
  let n ← tr.load w
  if ← tr.isRed (n.child s.opp) then pure (tr, w)
  else
    let tr ← tr.modifyIf (n.child s) (·.setColor .black)
    let tr ← tr.modify w (·.setColor .red)
    let tr ← rotate s.opp tr w
    pure (tr, ← sibling s tr x)

/-- The sibling `w` is rotated over the parent of `x`, with its outer child black. -/
def liftSibling (s : Side) (tr : RbTree) (x w : Ptr) : Result RbTree := do
  let parent := (← tr.load x).parent
  let color := (← tr.load parent).color
  let tr ← tr.modify w (·.setColor color)
  let tr ← tr.modify parent (·.setColor .black)
  let tr ← tr.modifyIf ((← tr.load w).child s.opp) (·.setColor .black)
  rotate s tr parent

/-- The two outcomes for a sibling `w` that was not red or is no longer, with the
next `x`. -/
def repairSibling (s : Side) (tr : RbTree) (x w : Ptr) : Result (RbTree × Ptr) := do
  let n ← tr.load w
  if !(← tr.isRed (n.child s)) && !(← tr.isRed (n.child s.opp)) then
    let tr ← tr.modify w (·.setColor .red)
    pure (tr, (← tr.load x).parent)
  else
    let (tr, w) ← turnSibling s tr x w
    let tr ← liftSibling s tr x w
    pure (tr, tr.root)

/-- The body of the loop in `rb_delete_fixup` where `x` is the child on side `s`
and `w` its sibling, with the next `x`. -/
def deleteFixupBody (s : Side) (tr : RbTree) (x w : Ptr) : Result (RbTree × Ptr) := do
  let (tr, w) ← lowerRedSibling s tr x w
  repairSibling s tr x w

/-- Only the left half tests for a missing sibling. -/
def rbDeleteFixup : (fuel : Nat) → (tr : RbTree) → (x : Ptr) → Result RbTree
  | 0, _, _ => .error .diverges
  | fuel + 1, tr, x => do
    let red ← tr.isRed x
    if x ≠ tr.root ∧ red = false then
      let n ← tr.load (← tr.load x).parent
      if x = n.left then
        if n.right = none then tr.modifyIf x (·.setColor .black)
        else
          let (tr, x) ← deleteFixupBody .left tr x n.right
          rbDeleteFixup fuel tr x
      else
        let (tr, x) ← deleteFixupBody .right tr x n.left
        rbDeleteFixup fuel tr x
    else tr.modifyIf x (·.setColor .black)

/-- Free the node `z`, whose only child, if it has one, is `x`. -/
def spliceOut (tr : RbTree) (z : Addr) (x : Ptr) : Result RbTree := do
  let tr ← tr.modifyIf x (·.setParent (← tr.load (some z)).parent)
  let tr ← replaceChild .left tr (← tr.load (some z)).parent (some z) x
  pure (tr.kfree z)

/-- `y` leaves its place to its right child `x` and takes over the right subtree
of `z`, unless it is the root of that subtree. -/
def detachMin (tr : RbTree) (z : Addr) (y x : Ptr) : Result RbTree := do
  if (← tr.load y).parent ≠ some z then
    let parent := (← tr.load y).parent
    let tr ← tr.modifyIf x (·.setParent parent)
    let tr ← tr.modify parent (·.setChild .left x)
    let right := (← tr.load (some z)).right
    let tr ← tr.modify y (·.setChild .right right)
    tr.modify right (·.setParent y)
  else pure tr

/-- `y` takes the place, the left subtree and the colour of `z`. -/
def takePlace (tr : RbTree) (z : Addr) (y : Ptr) : Result RbTree := do
  let tr ← replaceChild .left tr (← tr.load (some z)).parent (some z) y
  let n ← tr.load (some z)
  let tr ← tr.modify y (·.setParent n.parent)
  let tr ← tr.modify y (·.setChild .left n.left)
  let tr ← tr.modify n.left (·.setParent y)
  let tr ← tr.modify y (·.setColor n.color)
  pure (tr.kfree z)

/-- Take the node `z` out: the colour that goes and the node `x` in its place. -/
def unlinkNode (tr : RbTree) (z : Addr) : Result (RbTree × Color × Ptr) := do
  let n ← tr.load (some z)
  if n.left = none then
    let tr ← spliceOut tr z n.right
    pure (tr, n.color, n.right)
  else if n.right = none then
    let tr ← spliceOut tr z n.left
    pure (tr, n.color, n.left)
  else
    let y ← rbMinimum limit tr n.right
    let m ← tr.load y
    let tr ← detachMin tr z y m.right
    let tr ← takePlace tr z y
    pure (tr, m.color, m.right)

def rbDelete (tr : RbTree) (key : Nat) : Result RbTree := do
  match ← rbSearch key limit tr tr.root with
  | none => pure tr
  | some z =>
    let (tr, color, x) ← unlinkNode tr z
    if color = .black ∧ x ≠ none then rbDeleteFixup limit tr x else pure tr

end RbTree
end Laomb.RBTree
