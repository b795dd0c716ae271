import Mathlib.Data.List.Nodup
import Mathlib.Data.List.Basic
import Mathlib.Data.Option.Basic

/-! Singly linked chains in an arbitrary store. `next a` is `none` for a cell
that does not exist and `some q` for a cell whose link is `q`. Chains are
finite by definition; a link structure that loops has no chain. -/
namespace Laomb.LinkedList

variable {α : Type*}

inductive Chain (next : α → Option (Option α)) : Option α → List α → Prop where
  | nil : Chain next none []
  | cons {a : α} {q : Option α} {l : List α} :
      next a = some q → Chain next q l → Chain next (some a) (a :: l)

/-- `a` is met when links are followed from a pointer, whether or not they end. -/
inductive Passes (next : α → Option (Option α)) : Option α → α → Prop where
  | here {a : α} : Passes next (some a) a
  | later {a b : α} {q : Option α} : next b = some q → Passes next q a → Passes next (some b) a

variable {next next' : α → Option (Option α)} {p q : Option α} {a b : α} {l m xs ys : List α}

namespace Chain

theorem unique (left : Chain next p l) (right : Chain next p m) : l = m := by
  induction left generalizing m with
  | nil => cases right; rfl
  | cons link _ ih =>
    cases right with
    | cons link' rest =>
      cases Option.some.inj (link.symm.trans link')
      rw [ih rest]

theorem some_cons (chain : Chain next (some a) l) :
    ∃ q rest, l = a :: rest ∧ next a = some q ∧ Chain next q rest := by
  cases chain with
  | cons link rest => exact ⟨_, _, rfl, link, rest⟩

theorem head (chain : Chain next p l) : p = l.head? := by
  cases chain <;> rfl

theorem linked (chain : Chain next p l) : ∀ a ∈ l, ∃ q, next a = some q := by
  induction chain with
  | nil => exact fun a member => absurd member List.not_mem_nil
  | cons link _ ih =>
    intro b member
    rcases List.mem_cons.mp member with rfl | later
    · exact ⟨_, link⟩
    · exact ih b later

/-- The list from any member on is determined by that member alone. -/
theorem suffix (chain : Chain next p (xs ++ a :: ys)) : Chain next (some a) (a :: ys) := by
  induction xs generalizing p with
  | nil =>
    cases chain with
    | cons link rest => exact .cons link rest
  | cons x xs ih =>
    cases chain with
    | cons _ rest => exact ih rest

theorem consecutive (chain : Chain next p (xs ++ b :: a :: ys)) : next b = some (some a) := by
  obtain ⟨q, rest, split, link, tail⟩ := chain.suffix.some_cons
  cases split
  cases tail with
  | cons _ _ => exact link

theorem nodup (chain : Chain next p l) : l.Nodup := by
  induction chain with
  | nil => exact .nil
  | @cons a q l link rest ih =>
    refine List.nodup_cons.mpr ⟨?_, ih⟩
    intro member
    obtain ⟨xs, ys, split⟩ := List.append_of_mem member
    have short : Chain next (some a) (a :: ys) := (split ▸ rest).suffix
    have same := (Chain.cons link rest).unique short
    have lengths := congrArg List.length (List.cons.inj same).2
    rw [split] at lengths
    simp only [List.length_append, List.length_cons] at lengths
    omega

/-- Two cells that link to each other have no chain. -/
theorem not_loop (there : next a = some (some b)) (back : next b = some (some a)) :
    ¬ Chain next (some a) l := by
  intro chain
  have distinct := chain.nodup
  obtain ⟨q, rest, rfl, link, tail⟩ := chain.some_cons
  cases Option.some.inj (there.symm.trans link)
  obtain ⟨q', rest', rfl, link', tail'⟩ := tail.some_cons
  cases Option.some.inj (back.symm.trans link')
  obtain ⟨q'', rest'', rfl, _, _⟩ := tail'.some_cons
  simp at distinct

/-- A chain only depends on the links of its own cells. -/
theorem congr (chain : Chain next p l) (same : ∀ a ∈ l, next' a = next a) : Chain next' p l := by
  induction chain with
  | nil => exact .nil
  | @cons a q l link _ ih =>
    exact .cons ((same a List.mem_cons_self).trans link)
      (ih fun b member => same b (List.mem_cons_of_mem a member))

/-- Relinking the last cell to a new end cell appends it. -/
theorem snoc (chain : Chain next (some b) (xs ++ [a])) {z : α} (others : ∀ c ∈ xs, next' c = next c)
    (last : next' a = some (some z)) (fresh : next' z = some none) :
    Chain next' (some b) (xs ++ [a, z]) := by
  induction xs generalizing b with
  | nil =>
    cases chain with
    | cons _ _ => exact .cons last (.cons fresh .nil)
  | cons x xs ih =>
    cases chain with
    | cons link rest =>
      cases xs with
      | nil =>
        cases rest with
        | cons link' rest' =>
          exact .cons ((others _ List.mem_cons_self).trans link) (.cons last (.cons fresh .nil))
      | cons y ys =>
        cases rest with
        | cons link' rest' =>
          exact .cons ((others _ List.mem_cons_self).trans link)
            (ih (.cons link' rest') fun c member => others c (List.mem_cons_of_mem _ member))

/-- Linking the cell before `a` past it removes `a`. -/
theorem unlink (chain : Chain next p (xs ++ b :: a :: ys)) (after : next a = some q)
    (others : ∀ c ∈ xs ++ ys, next' c = next c) (past : next' b = some q) :
    Chain next' p (xs ++ b :: ys) := by
  induction xs generalizing p with
  | nil =>
    cases chain with
    | cons _ rest =>
      cases rest with
      | cons link rest' =>
        cases Option.some.inj (after.symm.trans link)
        exact .cons past (rest'.congr others)
  | cons x xs ih =>
    cases chain with
    | cons link rest =>
      exact .cons ((others _ List.mem_cons_self).trans link)
        (ih rest fun c member => others c (List.mem_cons_of_mem _ member))

theorem passes_iff (chain : Chain next p l) : Passes next p a ↔ a ∈ l := by
  constructor
  · intro passes
    induction passes generalizing l with
    | here =>
      obtain ⟨q, rest, rfl, _, _⟩ := chain.some_cons
      exact List.mem_cons_self
    | later link _ ih =>
      obtain ⟨q, rest, rfl, link', tail⟩ := chain.some_cons
      cases Option.some.inj (link.symm.trans link')
      exact List.mem_cons_of_mem _ (ih tail)
  · intro member
    induction chain with
    | nil => exact absurd member List.not_mem_nil
    | cons link _ ih =>
      rcases List.mem_cons.mp member with rfl | later
      · exact .here
      · exact .later link (ih later)

end Chain
end Laomb.LinkedList
