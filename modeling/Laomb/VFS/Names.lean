import Laomb.VFS.Calls

/-! Directories whose children all have different names. There a node other
than the root has one path, and creating or removing a node changes the paths
through it and no others. -/
namespace Laomb.VFS
open LinkedList Vfs

/-- The node some components lead to from `d`, where no mounts interfere. -/
def Vfs.resolve (s : Vfs) (kids : Kids) : (d : Addr) → List CString → Ptr
  | d, [] => some d
  | d, t :: ts => (s.child kids d t).bind fun c => s.resolve kids c ts

/-- Children of one directory have different names. -/
def DistinctNames (s : Vfs) (kids : Kids) : Prop :=
  ∀ d, ∀ x ∈ kids d, ∀ y ∈ kids d, s.nameOf x = s.nameOf y → x = y

variable {s s' : Vfs} {kids : Kids} {a b c d e x : Addr} {t name : CString} {type : NodeType}
  {ts us ps qs parts : List CString}

namespace Vfs

theorem resolve_append (s : Vfs) (kids : Kids) (d : Addr) (ts us : List CString) :
    s.resolve kids d (ts ++ us) = (s.resolve kids d ts).bind fun c => s.resolve kids c us := by
  induction ts generalizing d with
  | nil => rfl
  | cons t ts ih =>
    simp only [List.cons_append, resolve]
    cases s.child kids d t with
    | none => rfl
    | some c => exact ih c

theorem resolve_snoc (s : Vfs) (kids : Kids) (d : Addr) (ts : List CString) (t : CString) :
    s.resolve kids d (ts ++ [t]) = (s.resolve kids d ts).bind fun c => s.child kids c t := by
  rw [resolve_append]
  congr 1
  funext c
  simp [resolve]

end Vfs

namespace Forest

theorem walk_resolve (forest : Forest s kids) (plain : s.mounts = []) (alive : s.Live d) :
    s.walk d ts = .ok (s.resolve kids d ts) := by
  induction ts generalizing d with
  | nil => rfl
  | cons t ts ih =>
    have here : s.redirect d = d := redirect_plain (by simp [plain])
    simp only [walk, here, forest.search alive, bind, Except.bind, resolve]
    cases found : s.child kids d t with
    | none => rfl
    | some c => exact ih (forest.live (child_some found).1)

theorem resolve_live (forest : Forest s kids) (alive : s.Live d) (found : s.resolve kids d ts = some e) :
    s.Live e := by
  rcases List.eq_nil_or_concat' ts with rfl | ⟨us, t, rfl⟩
  · cases found
    exact alive
  · rw [resolve_snoc] at found
    obtain ⟨p, _, last⟩ := Option.bind_eq_some_iff.mp found
    exact forest.live (child_some last).1

/-- Two paths from an unlisted root to one node are the same path. -/
theorem resolve_injective (forest : Forest s kids) (outside : Unlisted kids d)
    (left : s.resolve kids d ps = some e) (right : s.resolve kids d qs = some e) : ps = qs := by
  induction ps using List.reverseRecOn generalizing qs e with
  | nil =>
    cases left
    rcases List.eq_nil_or_concat' qs with rfl | ⟨us, t, rfl⟩
    · rfl
    · rw [resolve_snoc] at right
      obtain ⟨p, _, last⟩ := Option.bind_eq_some_iff.mp right
      exact absurd (child_some last).1 (outside p)
  | append_singleton ps t ih =>
    rw [resolve_snoc] at left
    obtain ⟨p, first, last⟩ := Option.bind_eq_some_iff.mp left
    rcases List.eq_nil_or_concat' qs with rfl | ⟨us, u, rfl⟩
    · cases right
      exact absurd (child_some last).1 (outside p)
    · rw [resolve_snoc] at right
      obtain ⟨q, first', last'⟩ := Option.bind_eq_some_iff.mp right
      have host := forest.owner (child_some last).1 (child_some last').1
      subst host
      have names := (child_some last).2.symm.trans (child_some last').2
      rw [ih first first', Option.some.inj names]

theorem child_of_mem (distinct : DistinctNames s kids) (member : c ∈ kids d)
    (named : s.nameOf c = some t) : s.child kids d t = some c := by
  cases found : s.child kids d t with
  | none => exact absurd named (child_none found c member)
  | some x =>
    obtain ⟨listed, name⟩ := child_some found
    rw [distinct d x listed c member (name.trans named.symm)]

/-- Whatever lies below a node has a path from it. -/
theorem below_resolve (forest : Forest s kids) (distinct : DistinctNames s kids)
    (below : Below kids c e) : ∃ ts, s.resolve kids c ts = some e := by
  induction below with
  | refl => exact ⟨[], rfl⟩
  | @tail p x _ member ih =>
    obtain ⟨ts, found⟩ := ih
    obtain ⟨t, named⟩ := forest.name (forest.live member)
    refine ⟨ts ++ [t], ?_⟩
    rw [resolve_snoc, found, Option.bind_some, child_of_mem distinct member named]

theorem resolve_below (found : s.resolve kids c ts = some e) : Below kids c e := by
  induction ts generalizing c with
  | nil =>
    cases found
    exact .refl
  | cons t ts ih =>
    obtain ⟨x, first, rest⟩ := Option.bind_eq_some_iff.mp found
    exact .head (child_some first).1 (ih rest)

theorem below_iff_prefix (forest : Forest s kids) (distinct : DistinctNames s kids)
    (outside : Unlisted kids a) (target : s.resolve kids a parts = some c)
    (found : s.resolve kids a qs = some e) : Below kids c e ↔ parts <+: qs := by
  constructor
  · intro below
    obtain ⟨ts, path⟩ := forest.below_resolve distinct below
    have whole : s.resolve kids a (parts ++ ts) = some e := by
      rw [resolve_append, target, Option.bind_some, path]
    exact ⟨ts, forest.resolve_injective outside whole found⟩
  · rintro ⟨ts, rfl⟩
    rw [resolve_append, target, Option.bind_some] at found
    exact resolve_below found

end Forest

namespace Created

theorem distinct (forest : Forest s kids) (free : s.Fresh a) (created : Created s kids d name type a s')
    (names : DistinctNames s kids) (absent : s.child kids d name = none) :
    DistinctNames s' (Function.update kids d (kids d ++ [a])) := by
  have old : ∀ {e x}, x ∈ kids e → s'.nameOf x = s.nameOf x := by
    intro e x member
    have other : x ≠ a := fun same => forest.unlisted_dead free e (same ▸ member)
    exact nameOf_of_core (created.core x other)
  have fresh : ∀ x ∈ kids d, s'.nameOf x ≠ s'.nameOf a := by
    intro x member
    rw [old member, created.nameOf]
    exact child_none absent x member
  intro e x inX y inY same
  by_cases host : e = d
  · subst host
    rw [Function.update_self] at inX inY
    rcases List.mem_append.mp inX with oldX | newX
    · rcases List.mem_append.mp inY with oldY | newY
      · exact names e x oldX y oldY ((old oldX).symm.trans (same.trans (old oldY)))
      · cases List.mem_singleton.mp newY
        exact absurd same (fresh x oldX)
    · cases List.mem_singleton.mp newX
      rcases List.mem_append.mp inY with oldY | newY
      · exact absurd same.symm (fresh y oldY)
      · exact (List.mem_singleton.mp newY).symm
  · rw [Function.update_of_ne host] at inX inY
    exact names e x inX y inY ((old inX).symm.trans (same.trans (old inY)))

/-- The new node is found under its own path; every other path is as before. -/
theorem resolve (forest : Forest s kids) (free : s.Fresh a) (created : Created s kids d name type a s')
    (outside : Unlisted kids b) (host : s.resolve kids b ps = some d) (alive : s.Live d)
    (absent : s.child kids d name = none) (qs : List CString) :
    s'.resolve (Function.update kids d (kids d ++ [a])) b qs =
      if qs = ps ++ [name] then some a else s.resolve kids b qs := by
  have ne : a ≠ d := (alive.ne_fresh free).symm
  induction qs using List.reverseRecOn with
  | nil =>
    rw [if_neg (by simp)]
    rfl
  | append_singleton qs t ih =>
    rw [resolve_snoc, resolve_snoc, ih]
    by_cases here : qs = ps ++ [name]
    · -- nothing is below the new node
      have other : qs ++ [t] ≠ ps ++ [name] := by
        rw [here]
        simp
      have before : s.resolve kids b qs = none := by
        rw [here, resolve_snoc, host, Option.bind_some, absent]
      rw [if_pos here, if_neg other, before, Option.bind_some, created.child_other forest free ne]
      simp [child, forest.dead a free]
    · rw [if_neg here]
      cases step : s.resolve kids b qs with
      | none =>
        have other : qs ++ [t] ≠ ps ++ [name] := by
          intro same
          rw [(List.append_inj' same rfl).1, host] at step
          cases step
        rw [if_neg other]
        rfl
      | some e =>
        rw [Option.bind_some, Option.bind_some]
        by_cases inside : e = d
        · subst inside
          have same : qs = ps := forest.resolve_injective outside step host
          subst same
          rw [created.child_host forest free]
          by_cases hit : name = t
          · subst hit
            rw [absent, if_pos rfl, if_pos rfl, Option.none_or]
          · have other : qs ++ [t] ≠ qs ++ [name] := by
              intro same
              exact hit (List.cons.inj (List.append_cancel_left same)).1.symm
            rw [if_neg hit, if_neg other, Option.or_none]
        · have other : qs ++ [t] ≠ ps ++ [name] := by
            intro same
            rw [(List.append_inj' same rfl).1, host] at step
            exact inside (Option.some.inj step).symm
          rw [if_neg other, created.child_other forest free inside]

end Created

namespace Destroyed
variable {F : Set Addr}

theorem distinct (destroyed : Destroyed F s kids s') (names : DistinctNames s kids) :
    DistinctNames s' (prune F kids) := by
  intro e x inX y inY same
  obtain ⟨_, oldX, keptX⟩ := mem_prune.mp inX
  obtain ⟨_, oldY, keptY⟩ := mem_prune.mp inY
  exact names e x oldX y oldY ((destroyed.nameOf keptX).symm.trans (same.trans (destroyed.nameOf keptY)))

theorem child (destroyed : Destroyed F s kids s') (names : DistinctNames s kids)
    (stays : e ∉ F) : s'.child (prune F kids) e t = some x ↔ s.child kids e t = some x ∧ x ∉ F := by
  constructor
  · intro found
    obtain ⟨member, name⟩ := child_some found
    obtain ⟨_, old, kept⟩ := mem_prune.mp member
    rw [destroyed.nameOf kept] at name
    exact ⟨Forest.child_of_mem names old name, kept⟩
  · rintro ⟨found, kept⟩
    obtain ⟨member, name⟩ := child_some found
    rw [← destroyed.nameOf kept] at name
    exact Forest.child_of_mem (destroyed.distinct names) (mem_prune.mpr ⟨stays, member, kept⟩) name

/-- Removing a node makes every path through it lead nowhere and keeps the others. -/
theorem resolve (forest : Forest s kids) (names : DistinctNames s kids) (outside : Unlisted kids b)
    (target : s.resolve kids b parts = some c) (proper : parts ≠ [])
    (destroyed : Destroyed (subtree kids c) s kids s') (qs : List CString) (x : Addr) :
    s'.resolve (prune (subtree kids c) kids) b qs = some x ↔
      s.resolve kids b qs = some x ∧ ¬ parts <+: qs := by
  have gone : ∀ {qs e}, s.resolve kids b qs = some e → (e ∈ subtree kids c ↔ parts <+: qs) :=
    fun found => forest.below_iff_prefix names outside target found
  induction qs using List.reverseRecOn generalizing x with
  | nil => simp [Vfs.resolve, proper]
  | append_singleton qs t ih =>
    rw [resolve_snoc, resolve_snoc, Option.bind_eq_some_iff, Option.bind_eq_some_iff]
    constructor
    · rintro ⟨e, first, last⟩
      obtain ⟨found, short⟩ := (ih e).mp first
      have stays : e ∉ subtree kids c := fun below => short ((gone found).mp below)
      obtain ⟨old, kept⟩ := (destroyed.child names stays).mp last
      have path : s.resolve kids b (qs ++ [t]) = some x := by
        rw [resolve_snoc, found, Option.bind_some, old]
      exact ⟨⟨e, found, old⟩, fun through => kept ((gone path).mpr through)⟩
    · rintro ⟨⟨e, found, old⟩, short⟩
      have path : s.resolve kids b (qs ++ [t]) = some x := by
        rw [resolve_snoc, found, Option.bind_some, old]
      have early : ¬ parts <+: qs := fun through => short (through.trans (List.prefix_append qs [t]))
      have stays : e ∉ subtree kids c := fun below => early ((gone found).mp below)
      exact ⟨e, (ih e).mpr ⟨found, early⟩, (destroyed.child names stays).mpr
        ⟨old, fun below => short ((gone path).mp below)⟩⟩

end Destroyed
end Laomb.VFS
