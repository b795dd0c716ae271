import Mathlib.Data.List.Flatten
import Mathlib.Order.WellFoundedSet
import Mathlib.Logic.Relation

/-! Searching loops: the first call of the body that hits anything ends the loop, and
a call that never returns, here `none`, keeps it from going on. Also nested searches
along a relation, which come to an end unless the relation turns back on itself. -/
namespace Laomb.FirstHit

variable {ι κ β : Type*} [DecidableEq β] [OfNat β 0] {body body' : ι → Option β} {xs ys : List ι}
  {t : β}

/-- The loop, where zero is no hit. -/
def firstHit (body : ι → Option β) : List ι → Option β
  | [] => some 0
  | x :: xs => do
    let t ← body x
    if t ≠ 0 then some t else firstHit body xs

theorem firstHit_cons (x : ι) (done : body x = some t) :
    firstHit body (x :: xs) = if t ≠ 0 then some t else firstHit body xs := by
  simp only [firstHit, done, bind, Option.bind_some]

theorem firstHit_append (body : ι → Option β) (xs ys : List ι) : firstHit body (xs ++ ys) =
    (firstHit body xs).bind fun t => if t ≠ 0 then some t else firstHit body ys := by
  induction xs with
  | nil => exact (if_neg (not_not.mpr rfl)).symm
  | cons x xs ih =>
    simp only [List.cons_append, firstHit, bind]
    cases body x with
    | none => rfl
    | some t =>
      by_cases found : t ≠ 0
      · simp only [Option.bind_some, if_pos found]
      · simp only [Option.bind_some, if_neg found, ih]

theorem firstHit_map (f : κ → ι) (body : ι → Option β) (xs : List κ) :
    firstHit body (xs.map f) = firstHit (fun x => body (f x)) xs := by
  induction xs with
  | nil => rfl
  | cons x xs ih => simp only [List.map_cons, firstHit, ih]

/-- A loop in a loop is one loop over the pairs. -/
theorem firstHit_flatMap (body : ι → κ → Option β) (inner : ι → List κ) (xs : List ι) :
    firstHit (fun x => firstHit (body x) (inner x)) xs =
      firstHit (fun p : ι × κ => body p.1 p.2) (xs.flatMap fun x => (inner x).map (x, ·)) := by
  induction xs with
  | nil => rfl
  | cons x xs ih => rw [List.flatMap_cons, firstHit_append, firstHit_map, ← ih]; rfl

theorem firstHit_mono (more : ∀ x ∈ xs, ∀ t, body x = some t → body' x = some t)
    (done : firstHit body xs = some t) : firstHit body' xs = some t := by
  induction xs with
  | nil => exact done
  | cons x xs ih =>
    obtain ⟨u, first, rest⟩ := Option.bind_eq_some_iff.mp done
    rw [firstHit_cons x (more x List.mem_cons_self u first)]
    split at rest
    · rename_i found
      rwa [if_pos found]
    · rename_i missed
      rw [if_neg missed]
      exact ih (fun y member => more y (List.mem_cons_of_mem x member)) rest

/-- A loop returns if its body does. -/
theorem firstHit_returns (returns : ∀ x ∈ xs, ∃ t, body x = some t) : ∃ t, firstHit body xs = some t := by
  induction xs with
  | nil => exact ⟨0, rfl⟩
  | cons x xs ih =>
    obtain ⟨t, first⟩ := returns x List.mem_cons_self
    rw [firstHit_cons x first]
    split
    · exact ⟨t, rfl⟩
    · exact ih fun y member => returns y (List.mem_cons_of_mem x member)

theorem firstHit_zero : firstHit body xs = some 0 ↔ ∀ x ∈ xs, body x = some 0 := by
  induction xs with
  | nil => simp [firstHit]
  | cons x xs ih =>
    rw [List.forall_mem_cons, ← ih]
    constructor
    · intro done
      obtain ⟨t, first, rest⟩ := Option.bind_eq_some_iff.mp done
      split at rest
      · rename_i found
        exact absurd (Option.some.inj rest) found
      · rename_i missed
        rw [not_not] at missed
        exact ⟨missed ▸ first, rest⟩
    · rintro ⟨first, rest⟩
      rw [firstHit_cons x first, if_neg (not_not.mpr rfl), rest]

theorem firstHit_found (done : firstHit body xs = some t) (found : t ≠ 0) : ∃ x ∈ xs, body x = some t := by
  induction xs with
  | nil => exact absurd (Option.some.inj done).symm found
  | cons x xs ih =>
    obtain ⟨u, first, rest⟩ := Option.bind_eq_some_iff.mp done
    split at rest
    · exact ⟨x, List.mem_cons_self, first.trans rest⟩
    · obtain ⟨y, member, hit⟩ := ih rest
      exact ⟨y, List.mem_cons_of_mem x member, hit⟩

theorem firstHit_miss (miss : ∀ x ∈ xs, ∀ t, body x = some t → t = 0) (done : firstHit body xs = some t) :
    t = 0 := by
  by_contra found
  obtain ⟨x, member, hit⟩ := firstHit_found done found
  exact found (miss x member t hit)

section Search

variable {ν : Type*} {items : ν → List (Option ν × β)} {n m : ℕ} {x y : ν}

/-- A search at every node, where an item may first search another node and drop what that finds. -/
def search (items : ν → List (Option ν × β)) : ℕ → ν → Option β
  | 0, _ => none
  | n + 1, x => firstHit
      (fun item => item.1.elim (some item.2) fun y => (search items n y).map fun _ => item.2) (items x)

/-- The search of `x` may start the search of `y`. -/
def Enters (items : ν → List (Option ν × β)) (x y : ν) : Prop := ∃ t, (some y, t) ∈ items x

theorem search_succ (done : search items n x = some t) : search items (n + 1) x = some t := by
  induction n generalizing x t with
  | zero => cases done
  | succ n ih =>
    apply firstHit_mono _ done
    rintro ⟨_ | y, u⟩ _ v result
    · exact result
    · obtain ⟨w, inner, rfl⟩ := Option.map_eq_some_iff.mp result
      exact Option.map_eq_some_iff.mpr ⟨w, ih inner, rfl⟩

theorem search_mono (more : n ≤ m) (done : search items n x = some t) : search items m x = some t := by
  induction m, more using Nat.le_induction with
  | base => exact done
  | succ m _ ih => exact search_succ ih

theorem search_common (xs : List ν) (returns : ∀ y ∈ xs, ∃ n t, search items n y = some t) :
    ∃ n, ∀ y ∈ xs, ∃ t, search items n y = some t := by
  induction xs with
  | nil => exact ⟨0, fun y member => absurd member List.not_mem_nil⟩
  | cons x xs ih =>
    obtain ⟨n, t, first⟩ := returns x List.mem_cons_self
    obtain ⟨m, rest⟩ := ih fun y member => returns y (List.mem_cons_of_mem x member)
    refine ⟨max n m, List.forall_mem_cons.mpr ⟨⟨t, search_mono (le_max_left n m) first⟩, fun y member => ?_⟩⟩
    obtain ⟨u, done⟩ := rest y member
    exact ⟨u, search_mono (le_max_right n m) done⟩

/-- A search returns from every node whose nested searches are well founded. -/
theorem search_returns (grounded : Acc (Function.swap (Enters items)) x) :
    ∃ n t, search items n x = some t := by
  induction grounded with
  | intro x _ ih =>
    have each : ∀ y ∈ (items x).filterMap Prod.fst, ∃ n t, search items n y = some t := by
      intro y member
      obtain ⟨⟨_, t⟩, inside, rfl⟩ := List.mem_filterMap.mp member
      exact ih y ⟨t, inside⟩
    obtain ⟨n, inner⟩ := search_common _ each
    refine ⟨n + 1, firstHit_returns ?_⟩
    rintro ⟨_ | y, t⟩ member
    · exact ⟨t, rfl⟩
    · obtain ⟨u, done⟩ := inner y (List.mem_filterMap.mpr ⟨_, member, rfl⟩)
      exact ⟨t, Option.map_eq_some_iff.mpr ⟨u, done, rfl⟩⟩

theorem search_miss (miss : ∀ x, ∀ item ∈ items x, item.2 = 0) (done : search items n x = some t) :
    t = 0 := by
  cases n with
  | zero => cases done
  | succ n =>
    apply firstHit_miss _ done
    rintro ⟨_ | y, v⟩ member u result
    · rw [← Option.some.inj result]
      exact miss x _ member
    · obtain ⟨w, _, rfl⟩ := Option.map_eq_some_iff.mp result
      exact miss x _ member

/-- What a search finds is the value of an item of its own, never one of a nested search. -/
theorem search_found (done : search items n x = some t) (found : t ≠ 0) : ∃ item ∈ items x, item.2 = t := by
  cases n with
  | zero => cases done
  | succ n =>
    obtain ⟨⟨_ | y, v⟩, member, result⟩ := firstHit_found done found
    · exact ⟨_, member, Option.some.inj result⟩
    · obtain ⟨w, _, value⟩ := Option.map_eq_some_iff.mp result
      exact ⟨_, member, value⟩

theorem search_zero (done : search items n x = some 0) : ∀ item ∈ items x, item.2 = 0 := by
  cases n with
  | zero => cases done
  | succ n =>
    rintro ⟨_ | y, v⟩ member
    · exact Option.some.inj (firstHit_zero.mp done _ member)
    · obtain ⟨w, _, value⟩ := Option.map_eq_some_iff.mp (firstHit_zero.mp done _ member)
      exact value

/-- A search that finds nothing goes through all of its items, hence into every nested search. -/
theorem grounded_of_search (miss : ∀ x, ∀ item ∈ items x, item.2 = 0) (done : search items n x = some t) :
    Acc (Function.swap (Enters items)) x := by
  obtain rfl := search_miss miss done
  induction n generalizing x with
  | zero => cases done
  | succ n ih =>
    have through := firstHit_zero.mp done
    constructor
    rintro y ⟨u, member⟩
    obtain ⟨w, inner, _⟩ := Option.map_eq_some_iff.mp (through _ member)
    obtain rfl := search_miss miss inner
    exact ih inner

end Search

section Grounded

variable {ν : Type*} {r : ν → ν → Prop} {x : ν}

theorem no_cycle_of_acc (grounded : Acc (Function.swap r) x) : ¬ Relation.TransGen r x x := by
  induction grounded with
  | intro x _ ih =>
    intro cycle
    obtain ⟨y, first, rest⟩ := Relation.TransGen.head'_iff.mp cycle
    exact ih y first (Relation.TransGen.tail' rest first)

theorem acc_of_reaches (grounded : Acc (Function.swap r) x) {y : ν} (path : Relation.ReflTransGen r x y) :
    Acc (Function.swap r) y := by
  induction path with
  | refl => exact grounded
  | tail _ last ih => exact ih.inv last

/-- Where only finitely many nodes are in reach, a node is well founded just if none of
these leads back to itself. -/
theorem acc_iff_no_cycle (finite : {y | Relation.ReflTransGen r x y}.Finite) :
    Acc (Function.swap r) x ↔ ∀ y, Relation.ReflTransGen r x y → ¬ Relation.TransGen r y y := by
  constructor
  · intro grounded y path
    exact no_cycle_of_acc (acc_of_reaches grounded path)
  · intro acyclic
    let below : ν → ν → Prop := fun z y => Relation.ReflTransGen r x y ∧ Relation.TransGen r y z
    have _ : IsStrictOrder ν below :=
      { irrefl := fun y ⟨reached, cycle⟩ => acyclic y reached cycle
        trans := fun _ _ _ ⟨_, later⟩ ⟨reached, sooner⟩ => ⟨reached, sooner.trans later⟩ }
    apply (finite.wellFoundedOn (r := below)).induction (P := fun y => Acc (Function.swap r) y) .refl
    intro y reached ih
    exact ⟨y, fun z step => ih z (reached.tail step) ⟨reached, .single step⟩⟩

end Grounded

end Laomb.FirstHit
