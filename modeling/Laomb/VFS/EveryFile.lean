import Laomb.VFS.StaleBytes

/-! Properties that all files in the heap share, through creation, removal and writes. -/
namespace Laomb.VFS
open Word Vfs

/-- Every record is an old one with other links at most. -/
def Kept (s s' : Vfs) : Prop := ∀ a n, s'.heap a = some n → ∃ m, s.heap a = some m ∧ n.core = m.core

def EveryFile (P : Node → Prop) (s : Vfs) : Prop := ∀ a n, s.heap a = some n → n.type = .file → P n

variable {s s' s'' : Vfs} {a b d : Addr} {n m : Node} {P : Node → Prop} {name : CString} {type : NodeType}
  {err : Err} {new : Ptr}

namespace Kept

theorem of_core (same : SameCore s s') : Kept s s' := fun _ _ found => same.backward found

theorem refl (s : Vfs) : Kept s s := of_core (.refl s)

theorem trans (first : Kept s s') (second : Kept s' s'') : Kept s s'' := by
  intro a n found
  obtain ⟨m, middle, core⟩ := second a n found
  obtain ⟨k, old, core'⟩ := first a m middle
  exact ⟨k, old, core.trans core'⟩

/-- The record at `a` is replaced and then freed. -/
theorem freed (s : Vfs) (a : Addr) (n : Node) : Kept s (((s.store a n).kfreeName a n.clear).kfreeNode a) := by
  intro b k found
  rw [kfreeName_clear, kfreeNode_heap, store_heap, Function.update_idem] at found
  by_cases same : b = a
  · rw [same, Function.update_self] at found
    cases found
  · rw [Function.update_of_ne same] at found
    exact ⟨k, found, rfl⟩

end Kept

namespace EveryFile

theorem kept (all : EveryFile P s) (kept : Kept s s') (core : ∀ n m : Node, n.core = m.core → P m → P n) :
    EveryFile P s' := by
  intro a n found type
  obtain ⟨m, old, same⟩ := kept a n found
  exact core n m same (all a m old ((Node.core_type same).symm.trans type))

theorem store (all : EveryFile P s) (holds : n.type = .file → P n) : EveryFile P (s.store a n) := by
  intro b k found type
  by_cases same : b = a
  · rw [same, store_heap, Function.update_self] at found
    cases found
    exact holds type
  · rw [store_heap, Function.update_of_ne same] at found
    exact all b k found type

end EveryFile

/-! ## Removal -/

/-- Taking a node out of a list rewrites one link and frees nothing. -/
theorem unlink_core (run : s.unlink d a = .ok s') : SameCore s s' ∧ s'.log = s.log := by
  rw [unlink] at run
  obtain ⟨p, host, run⟩ := bind_ok run
  split at run
  · obtain ⟨n, _, run⟩ := bind_ok run
    cases run
    exact ⟨.store (load_ok.mp host) rfl, rfl⟩
  · obtain ⟨prev, _, run⟩ := bind_ok run
    cases prev with
    | none =>
      cases run
      exact ⟨.refl s, rfl⟩
    | some prev =>
      obtain ⟨n, _, run⟩ := bind_ok run
      obtain ⟨q, found, run⟩ := bind_ok run
      cases run
      exact ⟨.store (load_ok.mp found) rfl, rfl⟩

theorem removal_kept (fuel : Nat) :
    (∀ s d a s', s.vfsRemoveNode d a fuel = .ok s' → Kept s s') ∧
      ∀ s d c s', s.removeChildren d c fuel = .ok s' → Kept s s' := by
  induction fuel with
  | zero =>
    refine ⟨fun s d a s' run => ?_, fun s d c s' run => ?_⟩
    · rw [vfsRemoveNode] at run
      cases run
    · rw [removeChildren] at run
      cases run
  | succ fuel ih =>
    refine ⟨fun s d a s' run => ?_, fun s d c s' run => ?_⟩
    · rw [vfsRemoveNode] at run
      obtain ⟨s₁, unlinked, run⟩ := bind_ok run
      obtain ⟨n, _, run⟩ := bind_ok run
      obtain ⟨s₂, removed, run⟩ := bind_ok run
      obtain ⟨m, _, run⟩ := bind_ok run
      cases run
      exact (Kept.of_core (unlink_core unlinked).1).trans ((ih.2 _ _ _ _ removed).trans (.freed s₂ a m.clear))
    · cases c with
      | none =>
        rw [removeChildren] at run
        cases run
        exact .refl s
      | some c =>
        rw [removeChildren] at run
        obtain ⟨n, _, run⟩ := bind_ok run
        obtain ⟨s₁, removed, run⟩ := bind_ok run
        exact (ih.1 _ _ _ _ removed).trans (ih.2 _ _ _ _ run)

theorem ramfsRemove_kept (run : s.ramfsRemove d a = .ok (err, s')) : Kept s s' := by
  rw [ramfsRemove] at run
  obtain ⟨p, _, run⟩ := bind_ok run
  split at run
  · cases run
    exact .refl s
  · obtain ⟨n, _, run⟩ := bind_ok run
    obtain ⟨s₁, removed, run⟩ := bind_ok run
    have kept := (removal_kept limit).1 _ _ _ _ removed
    dsimp only at run
    split at run <;> cases run <;> exact kept

theorem remove_kept (run : s.remove (some a) = .ok (err, s')) : Kept s s' := by
  rw [remove] at run
  obtain ⟨n, _, run⟩ := bind_ok run
  split at run
  · cases run
    exact .refl s
  · obtain ⟨p, _, run⟩ := bind_ok run
    split at run
    · cases run
    · exact ramfsRemove_kept run

/-! ## Creation -/

/-- The record of a new node stands at the address `kmalloc` returns. -/
theorem ramfsCreate_kept (run : s.ramfsCreate d name type a = .ok (err, new, s')) :
    s' = s ∨ Kept (s.store a (newNode name type d)) s' := by
  rw [ramfsCreate] at run
  obtain ⟨p, _, run⟩ := bind_ok run
  split at run
  · cases run
    exact .inl rfl
  · obtain ⟨⟨made, s₁⟩, created, run⟩ := bind_ok run
    rw [vfsCreateNode] at created
    split at created
    · cases created
      cases run
    · obtain ⟨s₂, inserted, created⟩ := bind_ok created
      cases created
      obtain ⟨n, found, run⟩ := bind_ok run
      cases run
      have same := vfsInsertNode_core inserted
      obtain ⟨m, old, core⟩ := same.backward (load_ok.mp found)
      rw [store_heap, Function.update_self] at old
      cases old
      refine .inr (.of_core (same.trans (.store (load_ok.mp found) ?_)))
      have data : n.data = none := Node.core_data core
      rw [← data]

theorem create_everyFile {path : CString} (all : EveryFile P s)
    (core : ∀ n m : Node, n.core = m.core → P m → P n) (new : ∀ name d, P (newNode name .file d))
    (run : s.create path type a = .ok (err, s')) : EveryFile P s' := by
  rw [create] at run
  split at run
  · cases run
    exact all
  · obtain ⟨front, _, run⟩ := bind_ok run
    obtain ⟨host, _, run⟩ := bind_ok run
    split at run
    · cases run
      exact all
    · obtain ⟨p, _, run⟩ := bind_ok run
      split at run
      · cases run
      · obtain ⟨⟨err', made, s₁⟩, created, run⟩ := bind_ok run
        cases run
        rcases ramfsCreate_kept created with rfl | kept
        · exact all
        · refine (all.store fun file => ?_).kept kept core
          have isFile : type = .file := file
          rw [isFile]
          exact new _ _

/-! ## Writes -/

/-- A write reaches one record, and only that of a file. -/
theorem write_cases {offset size : Nat} {source : List Byte} {junk : Nat → Byte}
    (run : s.write a offset size source junk = .ok (err, s')) :
    s' = s ∨ ∃ n m, s.heap a = some n ∧ n.type = .file ∧ n.written offset size source junk = .ok m ∧
      s' = s.store a m := by
  have whole := run
  rw [write] at run
  obtain ⟨n, loaded, run⟩ := bind_ok run
  have found := load_ok.mp loaded
  cases ops : n.ops with
  | none =>
    simp only [ops] at run
    cases run
    exact .inl rfl
  | some driver =>
    by_cases type : n.type = .file
    · rw [write_eq found type ops] at whole
      cases made : n.written offset size source junk with
      | error fault => simp [made, Except.map] at whole
      | ok m =>
        simp only [made, Except.map, Except.ok.injEq, Prod.mk.injEq] at whole
        exact .inr ⟨n, m, found, type, made, whole.2.symm⟩
    · simp only [ops, ramfsWrite, loaded, bind, Except.bind, ne_eq, type, not_false_eq_true, if_true] at run
      cases run
      exact .inl rfl

end Laomb.VFS
