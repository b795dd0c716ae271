import Mathlib.Algebra.GroupWithZero.Nat
import Mathlib.Data.List.Basic
import Laomb.Base.Fields

/-! The fields of a separated list together with the places where they start. -/
namespace Laomb.Fields

variable {α : Type*} {sep : α → Bool} {c : α} {l m part : List α} {p q : ℕ}

/-- Each part with its place, one separator after each. -/
def places : (p : ℕ) → List (List α) → List (ℕ × List α)
  | _, [] => []
  | p, part :: parts => (p, part) :: places (p + part.length + 1) parts

/-- The fields of `l`, which starts at `p`, with their places. -/
def fieldsAt (sep : α → Bool) (p : ℕ) (l : List α) : List (ℕ × List α) :=
  (places p (l.splitOnP sep)).filter (!·.2.isEmpty)

/-- A stretch of `l` between separators or ends of `l`, and its place. -/
structure Maximal (sep : α → Bool) (p : ℕ) (l : List α) (q : ℕ) (part : List α) : Prop where
  segment : Segment sep part
  stretch : ∃ front back, l = front ++ (part ++ back) ∧ q = p + front.length ∧
    (∀ c ∈ front.getLast?, sep c) ∧ ∀ c ∈ back.head?, sep c

/-- Exactly the longest segments, from left to right. -/
structure Listing (sep : α → Bool) (p : ℕ) (l : List α) (found : List (ℕ × List α)) : Prop where
  exact : ∀ q part, (q, part) ∈ found ↔ Maximal sep p l q part
  ordered : found.Pairwise fun f g => f.1 + f.2.length < g.1

theorem places_append (p : ℕ) (parts more : List (List α)) : places p (parts ++ more) =
    places p parts ++ places (p + (parts.map (·.length + 1)).sum) more := by
  induction parts generalizing p with
  | nil => rfl
  | cons part parts ih =>
    rw [List.cons_append, places, places, ih, List.map_cons, List.sum_cons, List.cons_append]
    simp only [Nat.add_assoc]

theorem splitOnP_lengths (sep : α → Bool) (l : List α) :
    ((l.splitOnP sep).map (·.length + 1)).sum = l.length + 1 := by
  induction l with
  | nil => rfl
  | cons c l ih =>
    rw [List.splitOnP_cons_eq_if_modifyHead]
    split
    · rw [List.map_cons, List.sum_cons, ih, List.length_nil, List.length_cons, Nat.zero_add, Nat.add_comm]
    · obtain ⟨part, parts, shape⟩ := List.exists_cons_of_ne_nil (List.splitOnP_ne_nil sep l)
      rw [shape, List.map_cons, List.sum_cons] at ih
      rw [shape, List.modifyHead_cons, List.map_cons, List.sum_cons, List.length_cons, List.length_cons]
      omega

theorem fieldsAt_append_sep (isSep : sep c) (p : ℕ) : fieldsAt sep p (l ++ c :: m) =
    fieldsAt sep p l ++ fieldsAt sep (p + l.length + 1) m := by
  rw [fieldsAt, List.splitOnP_append_cons l m isSep, places_append, splitOnP_lengths, List.filter_append]
  rfl

@[simp] theorem fieldsAt_nil (sep : α → Bool) (p : ℕ) : fieldsAt sep p [] = [] := rfl

theorem fieldsAt_sep_cons (isSep : sep c) (p : ℕ) : fieldsAt sep p (c :: l) = fieldsAt sep (p + 1) l :=
  fieldsAt_append_sep (l := []) isSep p

theorem fieldsAt_part (segment : Segment sep l) (p : ℕ) : fieldsAt sep p l = [(p, l)] := by
  rw [fieldsAt, List.splitOnP_eq_singleton segment.2]
  exact List.filter_cons_of_pos (by simpa using segment.1)

/-- Separators in front only move the fields. -/
theorem fieldsAt_skip {front : List α} (skipped : ∀ c ∈ front, sep c) (p : ℕ) (l : List α) :
    fieldsAt sep p (front ++ l) = fieldsAt sep (p + front.length) l := by
  induction front generalizing p with
  | nil => rfl
  | cons c front ih =>
    rw [List.cons_append, fieldsAt_sep_cons (skipped c List.mem_cons_self),
      ih (fun x member => skipped x (List.mem_cons_of_mem c member)), List.length_cons, Nat.add_right_comm,
      Nat.add_assoc]

theorem fieldsAt_snd (sep : α → Bool) (p : ℕ) (l : List α) :
    (fieldsAt sep p l).map Prod.snd = fields sep l := by
  have each : ∀ p (parts : List (List α)),
      ((places p parts).filter (!·.2.isEmpty)).map Prod.snd = parts.filter (!·.isEmpty) := by
    intro p parts
    induction parts generalizing p with
    | nil => rfl
    | cons part parts ih =>
      rw [places, List.filter_cons, List.filter_cons]
      split
      · rw [List.map_cons, ih]
      · exact ih _
  exact each p (l.splitOnP sep)

theorem fieldsAt_blank (blank : ∀ c ∈ l, sep c) (p : ℕ) : fieldsAt sep p l = [] := by
  have all := fieldsAt_skip blank p []
  rwa [List.append_nil, fieldsAt_nil] at all

theorem fieldsAt_last {front : List α} (skipped : ∀ c ∈ front, sep c) (segment : Segment sep part) (p : ℕ) :
    fieldsAt sep p (front ++ part) = [(p + front.length, part)] := by
  rw [fieldsAt_skip skipped, fieldsAt_part segment]

theorem fieldsAt_more {front rest : List α} (skipped : ∀ c ∈ front, sep c) (segment : Segment sep part)
    (isSep : sep c) (p : ℕ) : fieldsAt sep p (front ++ (part ++ c :: rest)) =
      (p + front.length, part) :: fieldsAt sep (p + front.length + part.length + 1) rest := by
  rw [fieldsAt_skip skipped, fieldsAt_append_sep isSep, fieldsAt_part segment, List.singleton_append]

theorem places_ge {f : ℕ × List α} {parts : List (List α)} (member : f ∈ places p parts) : p ≤ f.1 := by
  induction parts generalizing p with
  | nil => exact absurd member List.not_mem_nil
  | cons part parts ih =>
    rcases List.mem_cons.mp member with rfl | later
    · exact Nat.le_refl p
    · have bound := ih later
      omega

theorem places_ordered (p : ℕ) (parts : List (List α)) :
    (places p parts).Pairwise fun f g => f.1 + f.2.length < g.1 := by
  induction parts generalizing p with
  | nil => exact .nil
  | cons part parts ih => exact .cons (fun g member => places_ge member) (ih _)

theorem maximal_segment (segment : Segment sep l) : Maximal sep p l q part ↔ q = p ∧ part = l := by
  constructor
  · rintro ⟨_, front, back, shape, place, before, behind⟩
    have inside : ∀ c ∈ front ++ (part ++ back), sep c = false := shape ▸ segment.2
    have first : front = [] := by
      cases last : front.getLast? with
      | none => exact List.getLast?_eq_none_iff.mp last
      | some c =>
        have member := List.mem_append_left (part ++ back) (List.mem_of_getLast? last)
        exact absurd (before c last) (by simp [inside c member])
    have final : back = [] := by
      cases back with
      | nil => rfl
      | cons c back =>
        have member : c ∈ front ++ (part ++ c :: back) := by simp
        exact absurd (behind c rfl) (by simp [inside c member])
    subst first final
    exact ⟨place, by simpa using shape.symm⟩
  · rintro ⟨rfl, rfl⟩
    exact ⟨segment, [], [], by simp, rfl, by simp, by simp⟩

/-- A separator is in no segment, so each stretch lies on one side of it. -/
theorem maximal_append_sep (isSep : sep c) : Maximal sep p (l ++ c :: m) q part ↔
    Maximal sep p l q part ∨ Maximal sep (p + l.length + 1) m q part := by
  constructor
  · rintro ⟨segment, front, back, shape, place, before, behind⟩
    have outside : c ∉ part := fun member => by simp [segment.2 c member] at isSep
    rcases List.append_eq_append_iff.mp shape with ⟨between, rfl, rest⟩ | ⟨between, rfl, rest⟩
    · cases between with
      | nil =>
        obtain ⟨head, part', rfl⟩ := List.exists_cons_of_ne_nil segment.1
        exact absurd (List.mem_cons.mpr (.inl (List.cons.inj rest).1)) outside
      | cons d between =>
        obtain ⟨rfl, rfl⟩ := List.cons.inj rest
        refine .inr ⟨segment, between, back, rfl, ?_, fun x last => before x ?_, behind⟩
        · rw [place, List.length_append, List.length_cons]
          omega
        · rw [List.getLast?_append_cons, List.getLast?_cons, Option.mem_def.mp last]
          rfl
    · rcases List.append_eq_append_iff.mp rest with ⟨tail, rfl, rest'⟩ | ⟨tail, rfl, rest'⟩
      · exact .inl ⟨segment, front, tail, rfl, place, before, by
          cases tail with
          | nil => simp
          | cons d tail => simpa [rest'] using behind⟩
      · cases tail with
        | nil => exact .inl ⟨segment, front, [], by simp, place, before, by simp⟩
        | cons d tail =>
          obtain ⟨rfl, _⟩ := List.cons.inj rest'
          exact absurd (List.mem_append_right between List.mem_cons_self) outside
  · rintro (⟨segment, front, back, rfl, place, before, behind⟩ |
      ⟨segment, front, back, rfl, place, before, behind⟩)
    · refine ⟨segment, front, back ++ c :: m, by simp, place, before, fun x first => ?_⟩
      cases back with
      | nil =>
        obtain rfl : c = x := by simpa using first
        exact isSep
      | cons d back => exact behind x (by simpa using first)
    · refine ⟨segment, l ++ c :: front, back, by simp, ?_, fun x last => ?_, behind⟩
      · rw [place, List.length_append, List.length_cons]
        omega
      · rw [List.getLast?_append_cons, List.getLast?_cons] at last
        cases inner : front.getLast? with
        | none =>
          obtain rfl : c = x := by simpa [inner] using last
          exact isSep
        | some d =>
          obtain rfl : d = x := by simpa [inner] using last
          exact before d inner

theorem fieldsAt_exact (sep : α → Bool) (p : ℕ) (l : List α) (q : ℕ) (part : List α) :
    (q, part) ∈ fieldsAt sep p l ↔ Maximal sep p l q part := by
  induction h : l.length using Nat.strongRecOn generalizing p l with
  | _ n ih =>
    subst h
    by_cases cut : ∃ c ∈ l, sep c
    · obtain ⟨c, member, isSep⟩ := cut
      obtain ⟨front, back, rfl⟩ := List.append_of_mem member
      rw [fieldsAt_append_sep isSep, List.mem_append, maximal_append_sep isSep,
        ih front.length (by simp) p front rfl, ih back.length (by simp; omega) _ back rfl]
    · have whole : ∀ c ∈ l, sep c = false := fun c member => by
        by_contra isSep
        exact cut ⟨c, member, by simpa using isSep⟩
      by_cases empty : l = []
      · subst empty
        refine ⟨fun member => absurd member List.not_mem_nil, ?_⟩
        rintro ⟨segment, front, back, shape, _⟩
        have all : front = [] ∧ part = [] ∧ back = [] := by simpa using shape.symm
        exact absurd all.2.1 segment.1
      · rw [fieldsAt_part ⟨empty, whole⟩, maximal_segment ⟨empty, whole⟩, List.mem_singleton, Prod.mk.injEq]

theorem fieldsAt_listing (sep : α → Bool) (p : ℕ) (l : List α) : Listing sep p l (fieldsAt sep p l) where
  exact := fieldsAt_exact sep p l
  ordered := (places_ordered p _).filter _

end Laomb.Fields
