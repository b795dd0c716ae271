import Mathlib.Data.Nat.Init
import Mathlib.Order.Basic

/-! First fit over an arbitrary predicate: the lowest run of `n` consecutive
indices below a bound. A left-to-right scan that only remembers the length of
the free run ending at its cursor decides the question. -/
namespace Laomb.FirstFit

/-- `n` consecutive indices from `p`, all free and below the bound. -/
def RunAt (free : Nat → Prop) (bound n p : Nat) : Prop :=
  p + n ≤ bound ∧ ∀ i, p ≤ i → i < p + n → free i

instance {free : Nat → Prop} [DecidablePred free] {bound n p : Nat} : Decidable (RunAt free bound n p) :=
  inferInstanceAs (Decidable (_ ∧ ∀ i, p ≤ i → i < p + n → free i))

structure First (free : Nat → Prop) (bound n p : Nat) : Prop where
  fits : RunAt free bound n p
  least : ∀ q < p, ¬ RunAt free bound n q

instance {free : Nat → Prop} [DecidablePred free] {bound n p : Nat} : Decidable (First free bound n p) :=
  decidable_of_iff (RunAt free bound n p ∧ ∀ q < p, ¬ RunAt free bound n q)
    ⟨fun both => ⟨both.1, both.2⟩, fun first => ⟨first.fits, first.least⟩⟩

variable {free : Nat → Prop} {bound n i count p q : Nat}

theorem runAt_one : RunAt free bound 1 p ↔ p < bound ∧ free p := by
  constructor
  · rintro ⟨fits, all⟩
    exact ⟨by omega, all p (Nat.le_refl p) (by omega)⟩
  · rintro ⟨below, unused⟩
    refine ⟨by omega, fun i low high => ?_⟩
    have here : i = p := by omega
    exact here ▸ unused

theorem First.unique (hp : First free bound n p) (hq : First free bound n q) : p = q := by
  rcases Nat.lt_trichotomy p q with less | same | greater
  · exact absurd hp.fits (hq.least p less)
  · exact same
  · exact absurd hq.fits (hp.least q greater)

/-- What a scan knows with its cursor at `i` and `count` free indices behind it:
every start before that free run is blocked by an index already passed. -/
structure Scanned (free : Nat → Prop) (n i count : Nat) : Prop where
  behind : count ≤ i
  short : count < n
  tail : ∀ j, i - count ≤ j → j < i → free j
  blocked : ∀ q < i - count, ∃ j, q ≤ j ∧ j < q + n ∧ j < i ∧ ¬ free j

namespace Scanned

theorem start (positive : 0 < n) : Scanned free n 0 0 :=
  ⟨Nat.le_refl 0, positive, fun _ _ h => absurd h (Nat.not_lt_zero _),
    fun _ h => absurd h (Nat.not_lt_zero _)⟩

theorem skip (scanned : Scanned free n i count) (used : ¬ free i) : Scanned free n (i + 1) 0 := by
  refine ⟨Nat.zero_le _, Nat.zero_lt_of_lt scanned.short, fun j low high => by omega, ?_⟩
  intro q below
  by_cases early : q < i - count
  · obtain ⟨j, low, high, passed, occupied⟩ := scanned.blocked q early
    exact ⟨j, low, high, by omega, occupied⟩
  · have short := scanned.short
    exact ⟨i, by omega, by omega, by omega, used⟩

theorem extend (scanned : Scanned free n i count) (unused : free i) (more : count + 1 < n) :
    Scanned free n (i + 1) (count + 1) := by
  have behind := scanned.behind
  refine ⟨by omega, more, ?_, ?_⟩
  · intro j low high
    by_cases last : j = i
    · exact last ▸ unused
    · exact scanned.tail j (by omega) (by omega)
  · intro q below
    obtain ⟨j, low, high, passed, occupied⟩ := scanned.blocked q (by omega)
    exact ⟨j, low, high, by omega, occupied⟩

theorem found (scanned : Scanned free n i count) (unused : free i) (full : count + 1 = n)
    (inside : i < bound) : First free bound n (i - count) := by
  have behind := scanned.behind
  refine ⟨⟨by omega, ?_⟩, ?_⟩
  · intro j low high
    by_cases last : j = i
    · exact last ▸ unused
    · exact scanned.tail j low (by omega)
  · rintro q below ⟨_, all⟩
    obtain ⟨j, low, high, _, occupied⟩ := scanned.blocked q below
    exact occupied (all j low high)

theorem exhausted (scanned : Scanned free n bound count) : ∀ p, ¬ RunAt free bound n p := by
  rintro p ⟨fits, all⟩
  have short := scanned.short
  obtain ⟨j, low, high, _, occupied⟩ := scanned.blocked p (by omega)
  exact occupied (all j low high)

end Scanned
end Laomb.FirstFit
