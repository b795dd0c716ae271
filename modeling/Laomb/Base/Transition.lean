import Mathlib.Data.Option.Basic

/-! Finite labelled executions of an arbitrary step relation. Runs are closed
under prefixes, so a fact about the last state is a fact about every state. -/
namespace Laomb.Transition

variable {S L : Type*} {step step' : S → L → S → Prop}

/-- A finite execution together with the labels of its steps, in order. -/
inductive Run (step : S → L → S → Prop) : S → List L → S → Prop where
  | refl (s : S) : Run step s [] s
  | next {s t u : S} {l : L} {ls : List L} :
      step s l t → Run step t ls u → Run step s (l :: ls) u

/-- States some run leads to. -/
def Reachable (step : S → L → S → Prop) (s t : S) : Prop := ∃ ls, Run step s ls t

/-- Keep only the steps taken from a state, with a label, that satisfy `Q`. -/
def Along (step : S → L → S → Prop) (Q : S → L → Prop) : S → L → S → Prop :=
  fun s l t => step s l t ∧ Q s l

/-- Keep only the steps that satisfy `Safe`. -/
def Within (step : S → L → S → Prop) (Safe : S → L → S → Prop) : S → L → S → Prop :=
  fun s l t => step s l t ∧ Safe s l t

namespace Run

theorem single {s t : S} {l : L} (h : step s l t) : Run step s [l] t := .next h (.refl t)

theorem trans {s t u : S} {ls ms : List L} (first : Run step s ls t) (second : Run step t ms u) :
    Run step s (ls ++ ms) u := by
  induction first with
  | refl => exact second
  | next head _ ih => exact .next head (ih second)

theorem mono (imp : ∀ s l t, step s l t → step' s l t) {s t : S} {ls : List L}
    (run : Run step s ls t) : Run step' s ls t := by
  induction run with
  | refl => exact .refl _
  | next head _ ih => exact .next (imp _ _ _ head) ih

/-- Executing labels one after another with a function that only takes steps. -/
theorem of_foldlM {exec : S → L → Option S} (sound : ∀ s l t, exec s l = some t → step s l t) {s t : S}
    {ls : List L} (done : ls.foldlM exec s = some t) : Run step s ls t := by
  induction ls generalizing s with
  | nil =>
    cases done
    exact .refl _
  | cons l ls ih =>
    obtain ⟨u, first, rest⟩ := Option.bind_eq_some_iff.mp done
    exact .next (sound s l u first) (ih rest)

/-- The same, together with a test that the last state passes. -/
theorem of_tested {exec : S → L → Option S} (sound : ∀ s l t, exec s l = some t → step s l t)
    {P : S → Prop} [DecidablePred P] {s : S} {ls : List L}
    (tested : (ls.foldlM exec s).any (fun t => P t) = true) : ∃ t, Run step s ls t ∧ P t := by
  obtain ⟨t, done, passed⟩ := (Option.any_eq_true _ _).mp tested
  exact ⟨t, of_foldlM sound done, of_decide_eq_true passed⟩

/-- The induction rule for safety: what holds first and survives every step
holds at the end of every run. -/
theorem invariant {I : S → Prop} (stable : ∀ s l t, I s → step s l t → I t) {s t : S} {ls : List L}
    (initial : I s) (run : Run step s ls t) : I t := by
  induction run with
  | refl => exact initial
  | next head _ ih => exact ih (stable _ _ _ initial head)

/-- Two step relations have the same runs if they agree wherever an invariant of the first holds. -/
theorem congr_of_invariant {I : S → Prop} (agree : ∀ s l t, I s → (step s l t ↔ step' s l t))
    (stable : ∀ s l t, I s → step s l t → I t) {s t : S} {ls : List L} (initial : I s) :
    Run step s ls t ↔ Run step' s ls t := by
  induction ls generalizing s with
  | nil =>
    constructor
    · rintro ⟨⟩
      exact .refl _
    · rintro ⟨⟩
      exact .refl _
  | cons l ls ih =>
    constructor
    · rintro (_ | ⟨head, rest⟩)
      exact .next ((agree _ _ _ initial).mp head) ((ih (stable _ _ _ initial head)).mp rest)
    · rintro (_ | ⟨head, rest⟩)
      have head' := (agree _ _ _ initial).mpr head
      exact .next head' ((ih (stable _ _ _ initial head')).mpr rest)

/-- The steps of a run are all safe if and only if they are all careful, when an invariant that safe
steps keep makes the safe steps the careful ones. -/
theorem within_iff_along {I : S → Prop} {Safe : S → L → S → Prop} {Careful : S → L → Prop}
    (agree : ∀ s l t, I s → step s l t → (Safe s l t ↔ Careful s l))
    (stable : ∀ s l t, I s → step s l t → Safe s l t → I t) {s t : S} {ls : List L} (initial : I s) :
    Run (Within step Safe) s ls t ↔ Run (Along step Careful) s ls t :=
  congr_of_invariant (fun s l t inv => and_congr_right fun head => agree s l t inv head)
    (fun s l t inv both => stable s l t inv both.1 both.2) initial

end Run

theorem Reachable.invariant {I : S → Prop} (stable : ∀ s l t, I s → step s l t → I t) {s t : S}
    (initial : I s) (reached : Reachable step s t) : I t := by
  obtain ⟨_, run⟩ := reached
  exact run.invariant stable initial

theorem Reachable.refl (s : S) : Reachable step s s := ⟨[], .refl s⟩

theorem Reachable.snoc {s t u : S} {l : L} (reached : Reachable step s t) (last : step t l u) :
    Reachable step s u := by
  obtain ⟨_, run⟩ := reached
  exact ⟨_, run.trans (.single last)⟩

end Laomb.Transition
