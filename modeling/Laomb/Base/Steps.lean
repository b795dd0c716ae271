import Mathlib.Data.List.Basic

/-! A machine that takes one step for each input, and what holds at every step that a
list of inputs makes it take. -/
namespace Laomb.Steps

variable {S L : Type*} {exec : S → L → S} {P Q : S → L → Prop} {I : S → Prop} {s : S} {ls : List L}

/-- `P` holds of each input and of the state that it finds. -/
def Throughout (exec : S → L → S) (P : S → L → Prop) : S → List L → Prop
  | _, [] => True
  | s, l :: ls => P s l ∧ Throughout exec P (exec s l) ls

@[simp]
theorem throughout_cons {l : L} :
    Throughout exec P s (l :: ls) ↔ P s l ∧ Throughout exec P (exec s l) ls := Iff.rfl

/-- Two conditions that agree under an invariant, which the second keeps, hold along the
same runs. -/
theorem throughout_iff (agree : ∀ s, I s → ∀ l ∈ ls, Q s l ↔ P s l)
    (keeps : ∀ s, I s → ∀ l ∈ ls, P s l → I (exec s l)) (initial : I s) :
    Throughout exec Q s ls ↔ Throughout exec P s ls := by
  induction ls generalizing s with
  | nil => rfl
  | cons l ls ih =>
    rw [throughout_cons, throughout_cons, agree s initial l List.mem_cons_self]
    refine and_congr_right fun holds => ?_
    exact ih (fun s inv m member => agree s inv m (List.mem_cons_of_mem l member))
      (fun s inv m member => keeps s inv m (List.mem_cons_of_mem l member))
      (keeps s initial l List.mem_cons_self holds)

end Laomb.Steps
