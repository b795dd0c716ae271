import Laomb.Base.Chain
import Mathlib.Data.List.Chain

/-! Rings: what following a successor from one element passes before it comes
back. A linked list whose last cell leads to the first is a ring from each of
its cells. -/
namespace Laomb.LinkedList

variable {α : Type*} {succ succ' : α → Option α} {c d : α} {xs us vs : List α}

/-- From `c` the successor passes `xs` and then `c` again. -/
def CyclicChain (succ : α → Option α) (c : α) (xs : List α) : Prop :=
  (c :: xs ++ [c]).IsChain fun x y => succ x = some y

/-- The successor in a list whose end leads back to `p`. -/
def around (next : α → Option (Option α)) (p : Option α) (a : α) : Option α :=
  (next a).bind fun q => q.or p

namespace CyclicChain

/-- The same ring seen from another of its elements. -/
theorem rotate (ring : CyclicChain succ c (us ++ d :: vs)) : CyclicChain succ d (vs ++ c :: us) := by
  have whole : ((c :: us) ++ (d :: vs ++ [c])).IsChain fun x y => succ x = some y := by
    simpa only [CyclicChain, List.cons_append, List.append_assoc] using ring
  obtain ⟨front, back, joint⟩ := List.isChain_append.mp whole
  have there : ((d :: vs) ++ ((c :: us) ++ [d])).IsChain fun x y => succ x = some y := by
    obtain ⟨left, _, last⟩ := List.isChain_append.mp back
    refine List.isChain_append.mpr ⟨left, List.isChain_append.mpr ⟨front, .singleton _, ?_⟩, ?_⟩
    · intro x member y first
      exact joint x member y (by simpa using first)
    · intro x member y first
      exact last x member y (by simpa using first)
  simpa only [CyclicChain, List.cons_append, List.append_assoc] using there

theorem congr (ring : CyclicChain succ c xs) (same : ∀ a ∈ c :: xs, succ' a = succ a) :
    CyclicChain succ' c xs := by
  rw [CyclicChain, List.isChain_append] at ring ⊢
  obtain ⟨front, _, joint⟩ := ring
  refine ⟨?_, .singleton _, fun x member y first => ?_⟩
  · exact List.isChain_iff_forall_rel_of_append_cons_cons.mpr fun a b l₁ l₂ split => by
      have link := List.isChain_iff_forall_rel_of_append_cons_cons.mp front split
      exact (same a (by simp [split])).trans link
  · exact (same x (List.mem_of_mem_getLast? member)).trans (joint x member y first)

end CyclicChain

namespace Chain
variable {next : α → Option (Option α)} {p : Option α} {l pre post : List α}

theorem isChain (chain : Chain next p l) : l.IsChain fun x y => next x = some (some y) := by
  induction chain with
  | nil => exact .nil
  | cons link rest ih =>
    refine List.isChain_cons.mpr ⟨fun y first => ?_, ih⟩
    rw [link, rest.head, Option.mem_def.mp first]

theorem last (chain : Chain next p l) : ∀ a ∈ l.getLast?, next a = some none := by
  induction chain with
  | nil => exact fun a member => absurd member (Option.not_mem_none a)
  | @cons b q l link rest ih =>
    intro a member
    cases l with
    | nil =>
      cases member
      cases rest
      exact link
    | cons c l => exact ih a (by simpa using member)

/-- A list that leads back to its head is a ring from each cell. -/
theorem ring (chain : Chain next p (pre ++ c :: post)) : CyclicChain (around next p) c (post ++ pre) := by
  have links : (pre ++ c :: post).IsChain fun x y => around next p x = some y :=
    chain.isChain.imp fun x y link => by rw [around, link]; rfl
  have ends := chain.last
  have head := chain.head
  obtain ⟨front, back, joint⟩ := List.isChain_append.mp links
  have whole : ((c :: post) ++ (pre ++ [c])).IsChain fun x y => around next p x = some y := by
    refine List.isChain_append.mpr ⟨back, List.isChain_append.mpr ⟨front, .singleton _, ?_⟩, ?_⟩
    · intro x member y first
      exact joint x member y (by simpa using first)
    · intro x member y first
      have closing : next x = some none := ends x (List.mem_getLast?_append_of_mem_getLast? member)
      rw [around, closing, Option.bind_some, Option.none_or, head]
      cases pre with
      | nil => simpa using first
      | cons a pre => simpa using first
  simpa only [CyclicChain, List.cons_append, List.append_assoc] using whole

end Chain
end Laomb.LinkedList
