import Mathlib.Data.Nat.Notation
import Mathlib.Order.Basic

/-! A loop with fuel over a step that goes on with a new state or ends with a result. Enough
fuel gives the result, whatever the amount, and a loop that always goes on gives none. -/
namespace Laomb.Loop

variable {S R S' R' : Type*} {step : S → S ⊕ R} {step' : S' → S' ⊕ R'} {s t u : S} {s' : S'}
    {r r' : R} {n m k : ℕ}

def loop (step : S → S ⊕ R) : ℕ → S → Option R
  | 0, _ => none
  | n + 1, s =>
    match step s with
    | .inl t => loop step n t
    | .inr r => some r

/-- The loop goes on `k` times. -/
inductive Goes (step : S → S ⊕ R) : ℕ → S → S → Prop where
  | zero (s : S) : Goes step 0 s s
  | succ {s t u : S} {k : ℕ} : step s = .inl t → Goes step k t u → Goes step (k + 1) s u

theorem Goes.single (first : step s = .inl t) : Goes step 1 s t := .succ first (.zero t)

theorem Goes.trans (first : Goes step k s t) (second : Goes step m t u) : Goes step (k + m) s u := by
  induction first with
  | zero => rwa [Nat.zero_add]
  | succ head _ ih =>
    rw [Nat.succ_add]
    exact .succ head (ih second)

theorem loop_inl (head : step s = .inl t) : loop step (n + 1) s = loop step n t := by rw [loop, head]

theorem loop_inr (head : step s = .inr r) : loop step (n + 1) s = some r := by rw [loop, head]

theorem Goes.loop_eq (goes : Goes step k s t) (n : ℕ) : loop step (n + k) s = loop step n t := by
  induction goes with
  | zero => rfl
  | succ head _ ih =>
    rw [← Nat.add_assoc, loop_inl head]
    exact ih

theorem Goes.ends (goes : Goes step k s t) (last : step t = .inr r) : loop step (k + 1) s = some r := by
  rw [Nat.add_comm, goes.loop_eq]
  exact loop_inr last

/-- What a loop returns is what the last of its steps ends with. -/
theorem loop_result (done : loop step n s = some r) : ∃ k t, Goes step k s t ∧ step t = .inr r := by
  induction n generalizing s with
  | zero => cases done
  | succ n ih =>
    cases head : step s with
    | inl t =>
      rw [loop_inl head] at done
      obtain ⟨k, u, goes, last⟩ := ih done
      exact ⟨k + 1, u, .succ head goes, last⟩
    | inr r' =>
      rw [loop_inr head] at done
      exact ⟨0, s, .zero s, head.trans (congrArg _ (Option.some.inj done))⟩

theorem loop_mono (done : loop step n s = some r) (more : n ≤ m) : loop step m s = some r := by
  induction n generalizing s m with
  | zero => cases done
  | succ n ih =>
    obtain ⟨m, rfl⟩ := Nat.exists_eq_add_of_le' (Nat.lt_of_lt_of_le (Nat.succ_pos n) more)
    cases head : step s with
    | inl t =>
      rw [loop_inl head] at done ⊢
      exact ih done (Nat.le_of_succ_le_succ more)
    | inr r' =>
      rw [loop_inr head] at done ⊢
      exact done

theorem loop_unique (left : loop step n s = some r) (right : loop step m s = some r') : r = r' := by
  have left' := loop_mono left (Nat.le_max_left n m)
  have right' := loop_mono right (Nat.le_max_right n m)
  exact Option.some.inj (left'.symm.trans right')

/-- A loop that goes on any number of times never ends. -/
theorem loop_never (forever : ∀ n, ∃ k t, n ≤ k ∧ Goes step k s t) (n : ℕ) : loop step n s = none := by
  obtain ⟨k, t, more, goes⟩ := forever n
  cases ended : loop step n s with
  | none => rfl
  | some r =>
    have short := goes.loop_eq 0
    rw [Nat.zero_add, loop_mono ended more] at short
    cases short

/-- Two loops in lockstep: while the first only comes to states with `P`, states that are
alike go on to states that are, or end with results that are. -/
theorem loop_lockstep {Alike : S → S' → Prop} {Same : R → R' → Prop} {P : S → Prop}
    (one : ∀ s s', Alike s s' → P s → Sum.LiftRel Alike Same (step s) (step' s')) (alike : Alike s s')
    (safe : ∀ k t, Goes step k s t → P t) (n : ℕ) : Option.Rel Same (loop step n s) (loop step' n s') := by
  induction n generalizing s s' with
  | zero => exact .none
  | succ n ih =>
    have both := one s s' alike (safe 0 s (.zero s))
    cases head : step s with
    | inl t =>
      rw [head] at both
      generalize head' : step' s' = result' at both
      cases both with
      | inl next =>
        rw [loop_inl head, loop_inl head']
        exact ih next fun k u goes => safe (k + 1) u (.succ head goes)
    | inr r =>
      rw [head] at both
      generalize head' : step' s' = result' at both
      cases both with
      | inr same =>
        rw [loop_inr head, loop_inr head']
        exact .some same

end Laomb.Loop
