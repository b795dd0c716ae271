import Mathlib.Data.List.TakeWhile

/-! The non-empty fields of a separated list, and joining fields back with a
leading separator. -/
namespace Laomb.Fields

variable {α : Type*} {sep : α → Bool} {c : α} {l m field front part rest : List α}

/-- Maximal non-empty runs free of separators, in order. -/
def fields (sep : α → Bool) (l : List α) : List (List α) := (l.splitOnP sep).filter (!·.isEmpty)

/-- Each field with `c` in front. -/
def join (c : α) (parts : List (List α)) : List α := parts.flatMap (c :: ·)

/-- What a part must be to come back as a field. -/
def Segment (sep : α → Bool) (part : List α) : Prop := part ≠ [] ∧ ∀ c ∈ part, sep c = false

theorem fields_append_sep (isSep : sep c) : fields sep (l ++ c :: m) = fields sep l ++ fields sep m := by
  simp only [fields, List.splitOnP_append_cons l m isSep, List.filter_append]

@[simp] theorem fields_nil : fields sep [] = [] := rfl

theorem fields_sep_cons (isSep : sep c) : fields sep (c :: l) = fields sep l :=
  fields_append_sep (l := []) isSep

theorem fields_part (part : Segment sep l) : fields sep l = [l] := by
  obtain ⟨head, rest, rfl⟩ := List.exists_cons_of_ne_nil part.1
  simp [fields, List.splitOnP_eq_singleton part.2]

/-- Separators in front make no difference. -/
theorem fields_skip (skipped : ∀ c ∈ front, sep c) (l : List α) : fields sep (front ++ l) = fields sep l := by
  induction front with
  | nil => rfl
  | cons c front ih =>
    rw [List.cons_append, fields_sep_cons (skipped c List.mem_cons_self),
      ih fun x member => skipped x (List.mem_cons_of_mem c member)]

/-- How a list begins: separators only, or separators and then a field that either is the rest
or has a separator behind it. -/
inductive Start (sep : α → Bool) : List α → Prop where
  | blank {l : List α} (blank : ∀ c ∈ l, sep c) : Start sep l
  | last {front part : List α} (skipped : ∀ c ∈ front, sep c) (segment : Segment sep part) :
      Start sep (front ++ part)
  | more {front part rest : List α} {c : α} (skipped : ∀ c ∈ front, sep c) (segment : Segment sep part)
      (isSep : sep c) : Start sep (front ++ (part ++ c :: rest))

theorem start (sep : α → Bool) (l : List α) : Start sep l := by
  have skipped : ∀ c ∈ l.takeWhile sep, sep c := fun c member => List.mem_takeWhile_imp member
  rw [← List.takeWhile_append_dropWhile (p := sep) (l := l)]
  cases body : l.dropWhile sep with
  | nil =>
    rw [List.append_nil]
    exact .blank skipped
  | cons c rest =>
    have first : sep c = false := by
      have stop := List.head_dropWhile_not sep (l := l) (by simp [body])
      simpa [body] using stop
    have segment : Segment sep ((c :: rest).takeWhile (!sep ·)) := by
      refine ⟨by simp [first], fun x member => ?_⟩
      simpa using List.mem_takeWhile_imp member
    rw [← List.takeWhile_append_dropWhile (p := (!sep ·)) (l := c :: rest)]
    cases after : (c :: rest).dropWhile (!sep ·) with
    | nil =>
      rw [List.append_nil]
      exact .last skipped segment
    | cons d rest' =>
      have isSep : sep d := by
        have stop := List.head_dropWhile_not (!sep ·) (l := c :: rest) (by simp [after])
        simpa [after] using stop
      exact .more skipped segment isSep

theorem fields_blank (blank : ∀ c ∈ l, sep c) : fields sep l = [] := by
  have all := fields_skip blank []
  rwa [List.append_nil, fields_nil] at all

theorem fields_last (skipped : ∀ c ∈ front, sep c) (segment : Segment sep part) :
    fields sep (front ++ part) = [part] := by
  rw [fields_skip skipped, fields_part segment]

theorem fields_more (skipped : ∀ c ∈ front, sep c) (segment : Segment sep part) (isSep : sep c) :
    fields sep (front ++ (part ++ c :: rest)) = part :: fields sep rest := by
  rw [fields_skip skipped, fields_append_sep isSep, fields_part segment, List.singleton_append]

/-- Field by field, from the left. -/
@[elab_as_elim]
theorem field_induction (sep : α → Bool) {motive : List α → Prop} (l : List α)
    (blank : ∀ l, (∀ c ∈ l, sep c) → motive l)
    (last : ∀ front part, (∀ c ∈ front, sep c) → Segment sep part → motive (front ++ part))
    (more : ∀ front part c rest, (∀ c ∈ front, sep c) → Segment sep part → sep c → motive rest →
      motive (front ++ (part ++ c :: rest))) : motive l := by
  induction h : l.length using Nat.strongRecOn generalizing l with
  | _ n ih =>
    subst h
    cases start sep l with
    | blank all => exact blank l all
    | last skipped segment => exact last _ _ skipped segment
    | @more front part rest c skipped segment isSep =>
      refine more front part c rest skipped segment isSep (ih rest.length ?_ rest rfl)
      simp only [List.length_append, List.length_cons]
      omega

theorem part_of_mem (member : field ∈ fields sep l) : Segment sep field := by
  induction l using field_induction sep with
  | blank l all =>
    rw [fields_blank all] at member
    exact absurd member List.not_mem_nil
  | last front part skipped segment =>
    rw [fields_last skipped segment] at member
    exact List.mem_singleton.mp member ▸ segment
  | more front part c rest skipped segment isSep ih =>
    rw [fields_more skipped segment isSep] at member
    rcases List.mem_cons.mp member with rfl | later
    · exact segment
    · exact ih later

theorem fields_join (isSep : sep c) {parts : List (List α)} (good : ∀ part ∈ parts, Segment sep part) :
    fields sep (join c parts) = parts := by
  induction parts with
  | nil => rfl
  | cons part parts ih =>
    have rest := ih fun p member => good p (List.mem_cons_of_mem part member)
    have shape : join c (part :: parts) = c :: (part ++ join c parts) := by
      simp [join]
    rw [shape, fields_sep_cons isSep]
    cases parts with
    | nil => simpa [join] using fields_part (good part List.mem_cons_self)
    | cons next parts =>
      have more : join c (next :: parts) = c :: (next ++ join c parts) := by simp [join]
      rw [more] at rest ⊢
      rw [fields_append_sep isSep, fields_part (good part List.mem_cons_self), List.singleton_append,
        ← fields_sep_cons isSep, rest]

/-- The fields with a separator before each take at most one element more than the list they come from. -/
theorem join_fields_length (sep : α → Bool) (c : α) (l : List α) :
    (join c (fields sep l)).length ≤ l.length + 1 := by
  induction l using field_induction sep with
  | blank l all =>
    rw [fields_blank all]
    exact Nat.zero_le _
  | last front part skipped segment =>
    rw [fields_last skipped segment]
    simp [join]
  | more front part x rest skipped segment isSep ih =>
    rw [fields_more skipped segment isSep, join, List.flatMap_cons, ← join]
    simp only [List.length_append, List.length_cons]
    omega

theorem join_fields_sep_length {x : α} (c : α) (l : List α) (isSep : sep x) :
    (join c (fields sep (x :: l))).length ≤ (x :: l).length := by
  rw [fields_sep_cons isSep]
  exact join_fields_length sep c l

end Laomb.Fields
