import Laomb.VFS.Siblings
import Mathlib.Logic.Relation
import Mathlib.Data.Set.Card

/-! `vfs_remove_node` frees exactly the subtree of its node. The recursion
unlinks before it descends, so the number of listed nodes bounds its depth;
no acyclicity is needed. -/
namespace Laomb.VFS
open LinkedList

/-- `b` is `a` or lies below it along children lists. -/
def Below (kids : Kids) : Addr → Addr → Prop := Relation.ReflTransGen fun d c => c ∈ kids d

def Unlisted (kids : Kids) (c : Addr) : Prop := ∀ e, c ∉ kids e

/-- The lists without the entry for `c`. -/
def without (kids : Kids) (c : Addr) : Kids := fun d => (kids d).filter (· ≠ c)

open Classical in
/-- The lists once the nodes of `F` are gone. -/
noncomputable def prune (F : Set Addr) (kids : Kids) : Kids :=
  fun d => if d ∈ F then [] else (kids d).filter (· ∉ F)

/-- The nodes of `F` were freed and no other record lost more than links. -/
structure Destroyed (F : Set Addr) (s : Vfs) (kids : Kids) (s' : Vfs) : Prop where
  dead : ∀ c ∈ F, s'.heap c = none
  core : ∀ c, c ∉ F → (s'.heap c).map Node.core = (s.heap c).map Node.core
  forest : Forest s' (prune F kids)
  root : s'.root = s.root
  mounts : s'.mounts = s.mounts

def listed (kids : Kids) : Set Addr := {c | ∃ d, c ∈ kids d}

variable {s s' s'' : Vfs} {kids kids' : Kids} {a b c d e x : Addr} {n p : Node} {F G : Set Addr}

theorem mem_without : x ∈ without kids c d ↔ x ∈ kids d ∧ x ≠ c := by
  simp only [without, List.mem_filter, decide_eq_true_eq]

theorem prune_inside (gone : d ∈ F) (kids : Kids) : prune F kids d = [] := if_pos gone

open Classical in
theorem prune_outside (stays : d ∉ F) (kids : Kids) : prune F kids d = (kids d).filter (· ∉ F) :=
  if_neg stays

theorem mem_prune : x ∈ prune F kids d ↔ d ∉ F ∧ x ∈ kids d ∧ x ∉ F := by
  by_cases gone : d ∈ F
  · simp [prune_inside gone, gone]
  · simp [prune_outside gone, gone]

theorem prune_prune (F G : Set Addr) (kids : Kids) : prune G (prune F kids) = prune (F ∪ G) kids := by
  funext d
  by_cases second : d ∈ G
  · rw [prune_inside second, prune_inside (.inr second)]
  · by_cases first : d ∈ F
    · rw [prune_outside second, prune_inside first, prune_inside (.inl first), List.filter_nil]
    · rw [prune_outside second, prune_outside first, prune_outside (by simp [first, second]),
        List.filter_filter]
      apply List.filter_congr
      intro x _
      by_cases inF : x ∈ F <;> by_cases inG : x ∈ G <;> simp [inF, inG]

theorem Below.mono (sub : ∀ d, ∀ c ∈ kids d, c ∈ kids' d) (below : Below kids a b) : Below kids' a b :=
  Relation.ReflTransGen.mono (fun d c => sub d c) _ _ below

/-- A set closed under children holds everything below its members. -/
theorem Below.closed (closed : ∀ d ∈ F, ∀ c ∈ kids d, c ∈ F) (member : a ∈ F) (below : Below kids a b) :
    b ∈ F := by
  induction below with
  | refl => exact member
  | tail _ last ih => exact closed _ ih _ last

theorem Below.unlisted (outside : Unlisted kids b) (below : Below kids a b) : a = b := by
  rcases Relation.ReflTransGen.cases_tail below with same | ⟨d, _, last⟩
  · exact same.symm
  · exact absurd last (outside d)

theorem Below.listed_or (below : Below kids a b) : a = b ∨ b ∈ listed kids := by
  rcases Relation.ReflTransGen.cases_tail below with same | ⟨d, _, last⟩
  · exact .inl same.symm
  · exact .inr ⟨d, last⟩

theorem Below.parent (forest : Forest s kids) (below : Below kids a b) (member : b ∈ kids d) :
    a = b ∨ Below kids a d := by
  rcases Relation.ReflTransGen.cases_tail below with same | ⟨e, above, last⟩
  · exact .inl same.symm
  · exact .inr (forest.owner last member ▸ above)

theorem Unlisted.prune (outside : Unlisted kids c) (F : Set Addr) : Unlisted (prune F kids) c :=
  fun e member => outside e (mem_prune.mp member).2.1

namespace Destroyed

theorem trans (first : Destroyed F s kids s') (second : Destroyed G s' (prune F kids) s'') :
    Destroyed (F ∪ G) s kids s'' := by
  refine ⟨?_, ?_, ?_, second.root.trans first.root, second.mounts.trans first.mounts⟩
  · intro c member
    by_cases inG : c ∈ G
    · exact second.dead c inG
    · have gone := first.dead c (member.resolve_right inG)
      simpa [gone] using second.core c inG
  · intro c outside
    exact (second.core c fun inG => outside (.inr inG)).trans (first.core c fun inF => outside (.inl inF))
  · rw [← prune_prune]
    exact second.forest

theorem nothing (forest : Forest s kids) : Destroyed ∅ s kids s := by
  have same : prune ∅ kids = kids := by
    funext d
    simp [prune]
  refine ⟨fun c member => absurd member (Set.notMem_empty c), fun _ _ => rfl, ?_, rfl, rfl⟩
  rwa [same]

theorem survivor (destroyed : Destroyed F s kids s') (outside : c ∉ F) (found : s.heap c = some n) :
    ∃ m, s'.heap c = some m ∧ m.core = n.core := by
  obtain ⟨m, new, core⟩ := part_backward (destroyed.core c outside).symm found
  exact ⟨m, new, core.symm⟩

theorem nameOf (destroyed : Destroyed F s kids s') (outside : c ∉ F) : s'.nameOf c = s.nameOf c :=
  nameOf_of_core (destroyed.core c outside)

end Destroyed

namespace Forest

theorem unlink_without (forest : Forest s kids) (host : s.heap d = some p)
    (only : ∀ e, c ∈ kids e → e = d) :
    ∃ s', s.unlink d c = .ok s' ∧ Forest s' (without kids c) ∧ Relinked s s' := by
  obtain ⟨s', run, after, relinked⟩ := forest.unlink host c
  have same : Function.update kids d ((kids d).erase c) = without kids c := by
    funext e
    by_cases self : e = d
    · subst self
      rw [Function.update_self, without, (forest.nodup e).erase_eq_filter]
      exact List.filter_congr fun x _ => by simp [bne, beq_eq_decide]
    · rw [Function.update_of_ne self, without, List.filter_eq_self.mpr]
      intro x member
      have : x ≠ c := fun h => self (only e (h ▸ member))
      simpa using this
  exact ⟨s', run, same ▸ after, relinked⟩

/-- Freeing an unlisted node without children. -/
theorem kfree (forest : Forest s kids) (outside : Unlisted kids c) (childless : kids c = []) :
    Forest { s with heap := Function.update s.heap c none } kids := by
  have record : ∀ {e n}, Function.update s.heap c none e = some n → e ≠ c ∧ s.heap e = some n := by
    intro e n found
    by_cases self : e = c
    · simp [self] at found
    · rw [Function.update_of_ne self] at found
      exact ⟨self, found⟩
  constructor
  · intro e n found
    apply (forest.chain e n (record found).2).congr
    intro x member
    have other : x ≠ c := fun same => outside e (same ▸ member)
    simp only [Vfs.nextOf, Function.update_of_ne other]
  · intro e gone
    by_cases self : e = c
    · rw [self, childless]
    · exact forest.dead e (by simpa only [Function.update_of_ne self] using gone)
  · exact fun e x n member found => forest.parent e x n member (record found).2
  · exact fun e n found => forest.sound e n (record found).2
  · exact fun e n found => forest.leaf e n (record found).2

end Forest

theorem listed_without (kids : Kids) (c : Addr) : listed (without kids c) ⊆ listed kids \ {c} := by
  rintro x ⟨d, member⟩
  obtain ⟨inside, other⟩ := mem_without.mp member
  exact ⟨⟨d, inside⟩, other⟩

theorem listed_prune (kids : Kids) (member : c ∈ F) : listed (prune F kids) ⊆ listed kids \ {c} := by
  rintro x ⟨d, inside⟩
  obtain ⟨_, old, survives⟩ := mem_prune.mp inside
  exact ⟨⟨d, old⟩, fun same => survives (Set.mem_singleton_iff.mp same ▸ member)⟩

def subtree (kids : Kids) (c : Addr) : Set Addr := {x | Below kids c x}

def subtrees (kids : Kids) (c : Addr) : Set Addr := {x | ∃ k ∈ kids c, Below kids k x}

theorem notMem_subtrees (outside : Unlisted kids c) : c ∉ subtrees kids c := by
  rintro ⟨k, member, below⟩
  exact outside c (below.unlisted outside ▸ member)

/-- After the first child's subtree is gone the other children are as before. -/
theorem prune_subtree_first (forest : Forest s kids) (outside : Unlisted kids c)
    (split : kids c = k :: rest) : prune (subtree kids k) kids c = rest := by
  have member : k ∈ kids c := split ▸ List.mem_cons_self
  have stays : c ∉ subtree kids k := fun below => outside c (Below.unlisted outside below ▸ member)
  have distinct := forest.nodup c
  rw [split] at distinct
  rw [prune_outside stays, split, List.filter_cons_of_neg]
  · apply List.filter_eq_self.mpr
    intro x later
    have other : x ∉ subtree kids k := by
      intro below
      have listed : x ∈ kids c := split ▸ List.mem_cons_of_mem k later
      rcases Below.parent forest below listed with same | above
      · exact (List.nodup_cons.mp distinct).1 (same ▸ later)
      · exact stays above
    simpa using other
  · simpa using show k ∈ subtree kids k from .refl

theorem subtrees_first (outside : Unlisted kids c) (split : kids c = k :: rest) :
    subtree kids k ∪ subtrees (prune (subtree kids k) kids) c = subtrees kids c := by
  have member : k ∈ kids c := split ▸ List.mem_cons_self
  have stays : c ∉ subtree kids k := fun below => outside c (Below.unlisted outside below ▸ member)
  have sub : ∀ d, ∀ x ∈ prune (subtree kids k) kids d, x ∈ kids d := fun d x h => (mem_prune.mp h).2.1
  ext x
  constructor
  · rintro (below | ⟨j, inside, below⟩)
    · exact ⟨k, member, below⟩
    · exact ⟨j, sub c j inside, below.mono sub⟩
  · rintro ⟨j, inside, below⟩
    refine Below.closed ?_ ?_ below
    · rintro d (above | ⟨i, first, above⟩) y child
      · exact .inl (above.tail child)
      · by_cases gone : d ∈ subtree kids k
        · exact .inl (Relation.ReflTransGen.tail gone child)
        · by_cases lost : y ∈ subtree kids k
          · exact .inl lost
          · exact .inr ⟨i, first, above.tail (mem_prune.mpr ⟨gone, child, lost⟩)⟩
    · by_cases lost : j ∈ subtree kids k
      · exact .inl lost
      · exact .inr ⟨j, mem_prune.mpr ⟨stays, inside, lost⟩, .refl⟩

theorem subtree_eq (kids : Kids) (c : Addr) : subtree kids c = insert c (subtrees (without kids c) c) := by
  have sub : ∀ d, ∀ x ∈ without kids c d, x ∈ kids d := fun d x h => (mem_without.mp h).1
  ext x
  constructor
  · intro below
    refine Below.closed ?_ (Set.mem_insert c _) below
    rintro d (rfl | ⟨j, first, above⟩) y child
    · by_cases same : y = d
      · exact .inl same
      · exact .inr ⟨y, mem_without.mpr ⟨child, same⟩, .refl⟩
    · by_cases same : y = c
      · exact .inl same
      · exact .inr ⟨j, first, above.tail (mem_without.mpr ⟨child, same⟩)⟩
  · rintro (rfl | ⟨j, first, above⟩)
    · exact .refl
    · exact .head (sub c j first) (above.mono sub)

theorem prune_subtree (outside : Unlisted (without kids c) c) :
    prune (subtree kids c) kids = prune (subtrees (without kids c) c) (without kids c) := by
  have stays := notMem_subtrees outside
  funext d
  rw [subtree_eq]
  by_cases inside : d ∈ subtrees (without kids c) c
  · rw [prune_inside (Set.mem_insert_of_mem c inside), prune_inside inside]
  · by_cases self : d = c
    · subst self
      rw [prune_inside (Set.mem_insert d _), prune_outside inside]
      refine (List.filter_eq_nil_iff.mpr fun x member => ?_).symm
      simpa using show x ∈ subtrees (without kids d) d from ⟨x, member, .refl⟩
    · have survives : d ∉ insert c (subtrees (without kids c) c) := by
        rintro (same | lost)
        · exact self same
        · exact inside lost
      rw [prune_outside survives, prune_outside inside, without, List.filter_filter]
      apply List.filter_congr
      intro x _
      by_cases same : x = c <;> simp [same, Set.mem_insert_iff]

namespace Forest

/-- Both halves of the recursion at once: a node's removal frees its subtree,
and the loop over its children frees theirs. -/
theorem removal (fuel : Nat) :
    (∀ s kids d c p, Forest s kids → s.heap d = some p → s.Live c → (∀ e, c ∈ kids e → e = d) →
      2 * (listed kids \ {c}).ncard + 2 ≤ fuel →
      ∃ s', s.vfsRemoveNode d c fuel = .ok s' ∧ Destroyed (subtree kids c) s kids s') ∧
    (∀ s kids c n, Forest s kids → s.heap c = some n → Unlisted kids c →
      2 * (listed kids).ncard + 1 ≤ fuel →
      ∃ s', s.removeChildren c n.children fuel = .ok s' ∧ Destroyed (subtrees kids c) s kids s') := by
  induction fuel with
  | zero =>
    constructor
    · intro s kids d c p _ _ _ _ enough
      omega
    · intro s kids c n _ _ _ enough
      omega
  | succ fuel ih =>
    constructor
    · intro s kids d c p forest host alive only enough
      obtain ⟨s₁, unlinked, forest₁, relinked⟩ := forest.unlink_without host only
      have outside : Unlisted (without kids c) c := fun e member => (mem_without.mp member).2 rfl
      obtain ⟨n₁, found₁⟩ := relinked.core.live_iff.mpr alive
      have shrunk := Set.ncard_le_ncard (listed_without kids c) (Set.toFinite _)
      obtain ⟨s₂, emptied, destroyed⟩ := ih.2 s₁ (without kids c) c n₁ forest₁ found₁ outside (by omega)
      have stays := notMem_subtrees outside
      obtain ⟨n₂, found₂, _⟩ := destroyed.survivor stays found₁
      have childless : prune (subtrees (without kids c) c) (without kids c) c = [] := by
        exact (congrFun (prune_subtree outside) c).symm.trans (prune_inside .refl kids)
      refine ⟨(s₂.store c n₂.clear).kfreeNode c, ?_, ?_⟩
      · simp only [Vfs.vfsRemoveNode, unlinked, bind, Except.bind, Vfs.load_eq found₁, emptied,
          Vfs.load_eq found₂, pure, Except.pure, Vfs.kfreeName_clear]
      · have freed := destroyed.forest.kfree (outside.prune _) childless
        refine ⟨?_, ?_, ?_, ?_, ?_⟩
        · intro x member
          rw [subtree_eq] at member
          by_cases self : x = c
          · simp [self]
          · rw [Vfs.kfreeNode_heap, Vfs.store_heap, Function.update_of_ne self, Function.update_of_ne self]
            exact destroyed.dead x (member.resolve_left self)
        · intro x survives
          rw [subtree_eq, Set.mem_insert_iff, not_or] at survives
          rw [Vfs.kfreeNode_heap, Vfs.store_heap, Function.update_of_ne survives.1,
            Function.update_of_ne survives.1, destroyed.core x survives.2, relinked.core x]
        · rw [prune_subtree outside]
          have heaps : ((s₂.store c n₂.clear).kfreeNode c).heap = Function.update s₂.heap c none := by
            simp
          exact freed.of_heap heaps
        · exact destroyed.root.trans relinked.root
        · exact destroyed.mounts.trans relinked.mounts
    · intro s kids c n forest found outside enough
      cases split : kids c with
      | nil =>
        have last : n.children = none := by rw [forest.children_eq found, split]; rfl
        have empty : subtrees kids c = ∅ := by
          ext x
          simp [subtrees, split]
        refine ⟨s, ?_, ?_⟩
        · simp only [Vfs.removeChildren, last, pure, Except.pure]
        · exact empty ▸ .nothing forest
      | cons k rest =>
        have member : k ∈ kids c := split ▸ List.mem_cons_self
        have first : n.children = some k := by rw [forest.children_eq found, split]; rfl
        obtain ⟨m, child⟩ := forest.live member
        have fewer : (listed kids \ {k}).ncard + 1 = (listed kids).ncard :=
          Set.ncard_sdiff_singleton_add_one (show k ∈ listed kids from ⟨c, member⟩) (Set.toFinite _)
        obtain ⟨s₁, removed, destroyed⟩ := ih.1 s kids c k n forest found ⟨m, child⟩
          (fun e other => forest.owner other member) (by omega)
        have others := prune_subtree_first forest outside split
        have stays : c ∉ subtree kids k := fun below => outside c (Below.unlisted outside below ▸ member)
        obtain ⟨n₁, found₁, _⟩ := destroyed.survivor stays found
        have shrunk := Set.ncard_le_ncard (listed_prune kids
          (show k ∈ subtree kids k from .refl)) (Set.toFinite _)
        obtain ⟨s₂, emptied, more⟩ := ih.2 s₁ _ c n₁ destroyed.forest found₁ (outside.prune _) (by omega)
        -- `next_child` was read before the removal and is still the next child
        have next : m.next = n₁.children := by
          have chain := forest.chain c n found
          rw [first, split] at chain
          obtain ⟨q, _, same, link, tail⟩ := chain.some_cons
          cases same
          rw [destroyed.forest.children_eq found₁, others, ← tail.head]
          exact Option.some.inj ((Vfs.nextOf_eq child).symm.trans link)
        refine ⟨s₂, ?_, ?_⟩
        · simp only [Vfs.removeChildren, first, Vfs.load_eq child, bind, Except.bind, removed, next, emptied]
        · exact subtrees_first outside split ▸ destroyed.trans more

/-- `vfs_remove_node` frees the subtree of a node that is in no list but the parent's. -/
theorem vfsRemoveNode (forest : Forest s kids) (host : s.heap d = some p) (alive : s.Live c)
    (only : ∀ e, c ∈ kids e → e = d) :
    ∃ s', s.vfsRemoveNode d c limit = .ok s' ∧ Destroyed (subtree kids c) s kids s' := by
  apply (removal limit).1 s kids d c p forest host alive only
  have bound := Set.ncard_le_card (listed kids \ {c})
  rw [Nat.card_fin] at bound
  unfold limit
  omega

end Forest
end Laomb.VFS
