import Mathlib.Data.List.Basic

/-! Doubly linked lists over arbitrary `prev` and `next`: what a stretch of links says about every
place of the list, and how a node is put in and taken out. -/
namespace Laomb.DoublyLinked

variable {α : Type*} {null p a b : α} {prev next prev' next' : α → α} {l xs ys : List α}

/-- The nodes of `l` are linked in both directions; the first has `p` before it and the last
`null` behind it. -/
def Linked (null : α) (prev next : α → α) : α → List α → Prop
  | _, [] => True
  | p, a :: l => prev a = p ∧ next a = l.headD null ∧ Linked null prev next a l

namespace Linked

theorem congr (linked : Linked null prev next p l) (prevs : ∀ a ∈ l, prev' a = prev a)
    (nexts : ∀ a ∈ l, next' a = next a) : Linked null prev' next' p l := by
  induction l generalizing p with
  | nil => trivial
  | cons a l ih =>
    obtain ⟨before, after, rest⟩ := linked
    refine ⟨(prevs a List.mem_cons_self).trans before, (nexts a List.mem_cons_self).trans after, ?_⟩
    exact ih rest (fun b member => prevs b (List.mem_cons_of_mem a member))
      fun b member => nexts b (List.mem_cons_of_mem a member)

/-- What the node at one place of the list says. -/
theorem at_split (linked : Linked null prev next p (xs ++ a :: ys)) :
    prev a = xs.getLastD p ∧ next a = ys.headD null := by
  induction xs generalizing p with
  | nil => exact ⟨linked.1, linked.2.1⟩
  | cons b xs ih =>
    rw [List.getLastD_cons]
    exact ih linked.2.2

/-- Everything but the first link only depends on the list. -/
theorem change_first (linked : Linked null prev next p (a :: l)) (first : prev' a = b)
    (prevs : ∀ c ∈ l, prev' c = prev c) (nexts : ∀ c ∈ a :: l, next' c = next c) :
    Linked null prev' next' b (a :: l) := by
  obtain ⟨_, after, rest⟩ := linked
  refine ⟨first, (nexts a List.mem_cons_self).trans after, ?_⟩
  exact rest.congr prevs fun c member => nexts c (List.mem_cons_of_mem a member)

/-- A node `a` between `xs` and `ys`: the two neighbours lead to it, and all other links stay. -/
theorem insert (linked : Linked null prev next p (xs ++ ys)) (prevA : prev' a = xs.getLastD p)
    (nextA : next' a = ys.headD null) (before : ∀ b ∈ xs.getLast?, next' b = a)
    (after : ∀ c ∈ ys.head?, prev' c = a) (prevs : ∀ b ∈ xs ++ ys.tail, prev' b = prev b)
    (nexts : ∀ b ∈ xs.dropLast ++ ys, next' b = next b) :
    Linked null prev' next' p (xs ++ a :: ys) := by
  induction xs generalizing p with
  | nil =>
    refine ⟨prevA, nextA, ?_⟩
    cases ys with
    | nil => trivial
    | cons c ys => exact linked.change_first (after c rfl) prevs nexts
  | cons b xs ih =>
    obtain ⟨first, second, rest⟩ := linked
    refine ⟨(prevs b List.mem_cons_self).trans first, ?_, ?_⟩
    · cases xs with
      | nil => exact before b rfl
      | cons c xs => exact (nexts b List.mem_cons_self).trans second
    · refine ih rest ?_ ?_ (fun c member => prevs c (List.mem_cons_of_mem b member)) ?_
      · rw [prevA, List.getLastD_cons]
      · intro c last
        cases xs with
        | nil => cases last
        | cons d xs => exact before c (by rwa [List.getLast?_cons_cons])
      · intro c member
        cases xs with
        | nil => exact nexts c member
        | cons d xs => exact nexts c (List.mem_cons_of_mem b member)

/-- The node `a` between `xs` and `ys` is taken out: its neighbours lead to each other. -/
theorem erase (linked : Linked null prev next p (xs ++ a :: ys))
    (before : ∀ b ∈ xs.getLast?, next' b = ys.headD null)
    (after : ∀ c ∈ ys.head?, prev' c = xs.getLastD p) (prevs : ∀ b ∈ xs ++ ys.tail, prev' b = prev b)
    (nexts : ∀ b ∈ xs.dropLast ++ ys, next' b = next b) : Linked null prev' next' p (xs ++ ys) := by
  induction xs generalizing p with
  | nil =>
    cases ys with
    | nil => trivial
    | cons c ys => exact linked.2.2.change_first (after c rfl) prevs nexts
  | cons b xs ih =>
    obtain ⟨first, second, rest⟩ := linked
    refine ⟨(prevs b List.mem_cons_self).trans first, ?_, ?_⟩
    · cases xs with
      | nil => exact before b rfl
      | cons c xs => exact (nexts b List.mem_cons_self).trans second
    · refine ih rest ?_ ?_ (fun c member => prevs c (List.mem_cons_of_mem b member)) ?_
      · intro c last
        cases xs with
        | nil => cases last
        | cons d xs => exact before c (by rwa [List.getLast?_cons_cons])
      · intro c first
        rw [after c first, List.getLastD_cons]
      · intro c member
        cases xs with
        | nil => exact nexts c member
        | cons d xs => exact nexts c (List.mem_cons_of_mem b member)

end Linked
end Laomb.DoublyLinked
