import Laomb.VFS.Forest
import Mathlib.Data.List.Find

/-! What the list loops of `vfs.c` compute in a forest, and how inserting and
unlinking change it. -/
namespace Laomb.VFS
open LinkedList

/-- Only links between siblings differ. -/
structure Relinked (s s' : Vfs) : Prop where
  core : SameCore s s'
  root : s'.root = s.root
  mounts : s'.mounts = s.mounts
  log : s'.log = s.log

variable {s s' : Vfs} {kids : Kids} {a b c d e z : Addr} {n m p : Node} {q : Ptr} {l xs ys : List Addr}
  {text : CString} {fuel : Nat}

theorem Relinked.refl (s : Vfs) : Relinked s s := ⟨.refl s, rfl, rfl, rfl⟩

theorem Relinked.store (found : s.heap a = some m) (core : n.core = m.core) :
    Relinked s (s.store a n) := ⟨.store found core, rfl, rfl, rfl⟩

namespace Vfs

theorem nextOf_eq (found : s.heap a = some n) : s.nextOf a = some n.next := by
  simp only [nextOf, found, Option.map_some]

theorem nextOf_some (link : s.nextOf a = some q) : ∃ n, s.heap a = some n ∧ n.next = q :=
  Option.map_eq_some_iff.mp link

theorem nextOf_store_children (found : s.heap d = some p) (q : Ptr) (c : Addr) :
    (s.store d { p with children := q }).nextOf c = s.nextOf c := by
  by_cases same : c = d
  · subst same
    simp only [nextOf, store_heap, Function.update_self, Option.map_some, found]
  · simp only [nextOf, store_heap, Function.update_of_ne same]

theorem nextOf_store_self (a : Addr) (n : Node) : (s.store a n).nextOf a = some n.next := by
  simp only [nextOf, store_heap, Function.update_self, Option.map_some]

theorem nextOf_store_ne (other : c ≠ a) (n : Node) : (s.store a n).nextOf c = s.nextOf c := by
  simp only [nextOf, store_heap, Function.update_of_ne other]

theorem lastSibling_chain (chain : Chain s.nextOf (some a) (xs ++ [z])) (enough : xs.length < fuel) :
    s.lastSibling fuel a = .ok z := by
  induction xs generalizing a fuel with
  | nil =>
    obtain ⟨fuel, rfl⟩ := Nat.exists_eq_succ_of_ne_zero (Nat.ne_of_gt enough)
    obtain ⟨q, rest, split, link, tail⟩ := chain.some_cons
    cases split
    obtain ⟨n, found, next⟩ := nextOf_some link
    cases tail
    simp only [lastSibling, load_eq found, next, bind, Except.bind, pure, Except.pure]
  | cons x xs ih =>
    obtain ⟨fuel, rfl⟩ := Nat.exists_eq_succ_of_ne_zero (Nat.ne_of_gt (Nat.zero_lt_of_lt enough))
    obtain ⟨q, rest, split, link, tail⟩ := chain.some_cons
    cases split
    obtain ⟨n, found, next⟩ := nextOf_some link
    obtain ⟨y, head⟩ : ∃ y, q = some y := by
      rw [tail.head]
      cases xs <;> exact ⟨_, rfl⟩
    subst head
    have more := ih tail (by simpa using enough)
    simp only [lastSibling, load_eq found, next, bind, Except.bind, more]

theorem findPrev_chain (chain : Chain s.nextOf q (xs ++ b :: c :: ys)) (enough : xs.length < fuel) :
    s.findPrev c fuel q = .ok (some b) := by
  induction xs generalizing q fuel with
  | nil =>
    obtain ⟨fuel, rfl⟩ := Nat.exists_eq_succ_of_ne_zero (Nat.ne_of_gt enough)
    have link : s.nextOf b = some (some c) :=
      Chain.consecutive (show Chain s.nextOf q ([] ++ b :: c :: ys) from chain)
    obtain ⟨n, found, next⟩ := nextOf_some link
    have start := chain.head
    subst start
    simp only [List.nil_append, List.head?_cons, findPrev, load_eq found, next, bind, Except.bind,
      pure, Except.pure, if_true]
  | cons x xs ih =>
    obtain ⟨fuel, rfl⟩ := Nat.exists_eq_succ_of_ne_zero (Nat.ne_of_gt (Nat.zero_lt_of_lt enough))
    have distinct := chain.nodup
    cases chain with
    | cons link tail =>
      obtain ⟨n, found, next⟩ := nextOf_some link
      have more := ih tail (by simpa using enough)
      have notYet : n.next ≠ some c := by
        rw [next, tail.head]
        intro same
        have split := (List.nodup_cons.mp distinct).2
        cases xs with
        | nil =>
          cases Option.some.inj same
          simp at split
        | cons y xs =>
          cases Option.some.inj same
          simp at split
      rw [next] at notYet
      simp only [findPrev, load_eq found, bind, Except.bind, next, if_neg notYet, more]

theorem findPrev_absent (chain : Chain s.nextOf q l) (absent : c ∉ l) (enough : l.length < fuel) :
    s.findPrev c fuel q = .ok none := by
  induction chain generalizing fuel with
  | nil =>
    obtain ⟨fuel, rfl⟩ := Nat.exists_eq_succ_of_ne_zero (Nat.ne_of_gt (Nat.zero_lt_of_lt enough))
    rfl
  | @cons x q l link tail ih =>
    obtain ⟨fuel, rfl⟩ := Nat.exists_eq_succ_of_ne_zero (Nat.ne_of_gt (Nat.zero_lt_of_lt enough))
    obtain ⟨n, found, next⟩ := nextOf_some link
    have more := ih (fun member => absent (List.mem_cons_of_mem x member)) (by simpa using enough)
    have notYet : n.next ≠ some c := by
      rw [next, tail.head]
      intro same
      exact absent (List.mem_cons_of_mem x (List.mem_of_head? same))
    rw [next] at notYet
    simp only [findPrev, load_eq found, bind, Except.bind, next, if_neg notYet, more]

theorem searchFrom_chain (chain : Chain s.nextOf q l) (named : ∀ c ∈ l, ∃ text, s.nameOf c = some text)
    (enough : l.length < fuel) :
    s.searchFrom text fuel q = .ok (l.find? fun c => s.nameOf c = some text) := by
  induction chain generalizing fuel with
  | nil =>
    obtain ⟨fuel, rfl⟩ := Nat.exists_eq_succ_of_ne_zero (Nat.ne_of_gt (Nat.zero_lt_of_lt enough))
    rfl
  | @cons x q l link tail ih =>
    obtain ⟨fuel, rfl⟩ := Nat.exists_eq_succ_of_ne_zero (Nat.ne_of_gt (Nat.zero_lt_of_lt enough))
    obtain ⟨n, found, next⟩ := nextOf_some link
    obtain ⟨label, name⟩ := named x List.mem_cons_self
    have record : n.name = some label := by simpa only [nameOf, found, Option.bind_some] using name
    have more := ih (fun c member => named c (List.mem_cons_of_mem x member)) (by simpa using enough)
    by_cases hit : label = text
    · subst hit
      simp only [searchFrom, load_eq found, record, bind, Except.bind, if_true, pure, Except.pure,
        List.find?_cons, name, decide_true]
    · have miss : decide (s.nameOf x = some text) = false := by
        rw [name]
        simpa using hit
      simp only [searchFrom, load_eq found, record, bind, Except.bind, if_neg hit, next, more,
        List.find?_cons, miss]

/-- The first child of `d` with this name. -/
def child (s : Vfs) (kids : Kids) (d : Addr) (text : CString) : Ptr :=
  (kids d).find? fun c => s.nameOf c = some text

theorem child_some (found : s.child kids d text = some c) : c ∈ kids d ∧ s.nameOf c = some text :=
  ⟨List.mem_of_find?_eq_some found, by simpa using List.find?_some found⟩

theorem child_none (absent : s.child kids d text = none) : ∀ c ∈ kids d, s.nameOf c ≠ some text := by
  simpa [child] using absent

theorem search_live {r : Ptr} (run : s.vfsSearchNode d text = .ok r) : s.Live d := by
  rw [vfsSearchNode] at run
  cases found : s.heap d with
  | none => simp [load_dead found, bind, Except.bind] at run
  | some p => exact ⟨p, rfl.trans found⟩

end Vfs

namespace Forest

theorem search (forest : Forest s kids) (alive : s.Live d) :
    s.vfsSearchNode d text = .ok (s.child kids d text) := by
  obtain ⟨p, found⟩ := alive
  simp only [Vfs.vfsSearchNode, Vfs.load_eq found, bind, Except.bind]
  exact Vfs.searchFrom_chain (forest.chain d p found) (fun c member => forest.name (forest.live member))
    (forest.length_lt d)

theorem children_eq (forest : Forest s kids) (found : s.heap d = some p) :
    p.children = (kids d).head? := (forest.chain d p found).head

theorem relink_children (forest : Forest s kids) (host : s.heap d = some p) (chain : Chain s.nextOf q l)
    (parents : ∀ c ∈ l, ∀ n, s.heap c = some n → n.parent = some d)
    (folder : p.type ≠ .folder → l = []) :
    Forest (s.store d { p with children := q }) (Function.update kids d l) := by
  have same : SameCore s (s.store d { p with children := q }) := .store host rfl
  refine forest.relink (p := { p with children := q }) same (by simp) ?_ ?_ folder ?_ ?_
  · exact chain.congr fun c _ => Vfs.nextOf_store_children host q c
  · intro c member n new
    obtain ⟨m, old, core⟩ := same.backward new
    exact (Node.core_parent core).trans (parents c member m old)
  · intro e n m other new old
    rw [Vfs.store_heap, Function.update_of_ne other, old] at new
    exact Option.some.inj new ▸ rfl
  · exact fun e _ c _ => Vfs.nextOf_store_children host q c

theorem relink_next (forest : Forest s kids) (host : s.heap d = some p) (listed : b ∈ kids d)
    (cell : s.heap b = some m) (chain : Chain (s.store b { m with next := q }).nextOf p.children l)
    (parents : ∀ c ∈ l, ∀ n, s.heap c = some n → n.parent = some d)
    (folder : p.type ≠ .folder → l = []) :
    Forest (s.store b { m with next := q }) (Function.update kids d l) := by
  have same : SameCore s (s.store b { m with next := q }) := .store cell rfl
  have children : ∀ {e n n'}, (s.store b { m with next := q }).heap e = some n' → s.heap e = some n →
      n'.children = n.children := by
    intro e n n' new old
    by_cases self : e = b
    · subst self
      cases Option.some.inj (cell.symm.trans old)
      simp only [Vfs.store_heap, Function.update_self, Option.some.injEq] at new
      rw [← new]
    · simp only [Vfs.store_heap, Function.update_of_ne self, old, Option.some.injEq] at new
      rw [new]
  obtain ⟨p', host', core⟩ := same.forward host
  refine forest.relink same host' ?_ ?_ ?_ (fun e n m _ new old => children new old) ?_
  · rw [children host' host]
    exact chain
  · intro c member n new
    obtain ⟨m, old, core⟩ := same.backward new
    exact (Node.core_parent core).trans (parents c member m old)
  · rw [Node.core_type core]
    exact folder
  · intro e other c member
    refine Vfs.nextOf_store_ne ?_ _
    rintro rfl
    exact other (forest.owner member listed)

/-- `vfs_insert_node` puts an unlisted node at the end of the list. -/
theorem insert (forest : Forest s kids) (host : s.heap d = some p) (folder : p.type = .folder)
    (found : s.heap z = some n) (parent : n.parent = some d) (last : n.next = none)
    (unlisted : ∀ e, z ∉ kids e) :
    ∃ s', s.vfsInsertNode d z = .ok s' ∧ Forest s' (Function.update kids d (kids d ++ [z])) ∧
      Relinked s s' := by
  have chain := forest.chain d p host
  have distinct := forest.nodup d
  have bound := forest.length_lt d
  have parents : ∀ c ∈ kids d ++ [z], ∀ m, s.heap c = some m → m.parent = some d := by
    intro c member m old
    rcases List.mem_append.mp member with before | added
    · exact forest.parent d c m before old
    · cases List.mem_singleton.mp added
      cases Option.some.inj (old.symm.trans found)
      exact parent
  have isFolder : p.type ≠ .folder → kids d ++ [z] = [] := fun other => absurd folder other
  rcases List.eq_nil_or_concat' (kids d) with empty | ⟨xs, y, split⟩
  · have first : p.children = none := by rw [forest.children_eq host, empty]; rfl
    refine ⟨s.store d { p with children := some z }, ?_, ?_, .store host rfl⟩
    · simp only [Vfs.vfsInsertNode, Vfs.load_eq host, first, bind, Except.bind, pure, Except.pure]
    · refine forest.relink_children host ?_ parents isFolder
      rw [empty]
      exact .cons (Vfs.nextOf_eq found) (last ▸ .nil)
  · have listed : y ∈ kids d := by simp [split]
    have other : y ≠ z := fun same => unlisted d (same ▸ listed)
    obtain ⟨w, tail⟩ := forest.live listed
    obtain ⟨first, start⟩ : ∃ first, p.children = some first := by
      rw [forest.children_eq host, split]
      cases xs <;> exact ⟨_, rfl⟩
    rw [start, split] at chain
    rw [split] at distinct bound
    have walked : s.lastSibling limit first = .ok y :=
      Vfs.lastSibling_chain chain (by simp at bound; omega)
    refine ⟨s.store y { w with next := some z }, ?_, ?_, .store tail rfl⟩
    · simp only [Vfs.vfsInsertNode, Vfs.load_eq host, start, bind, Except.bind, pure, Except.pure, walked,
        Vfs.load_eq tail]
    · refine forest.relink_next host listed tail ?_ parents isFolder
      rw [start, split, List.append_assoc]
      refine chain.snoc ?_ (Vfs.nextOf_store_self y _) ?_
      · intro c member
        refine Vfs.nextOf_store_ne ?_ _
        rintro rfl
        exact List.disjoint_of_nodup_append distinct member List.mem_cons_self
      · rw [Vfs.nextOf_store_ne other.symm, Vfs.nextOf_eq found, last]

/-- Unlinking removes the node from the list of `d`, if it is there. -/
theorem unlink (forest : Forest s kids) (host : s.heap d = some p) (c : Addr) :
    ∃ s', s.unlink d c = .ok s' ∧ Forest s' (Function.update kids d ((kids d).erase c)) ∧
      Relinked s s' := by
  have chain := forest.chain d p host
  have distinct := forest.nodup d
  have bound := forest.length_lt d
  have parents : ∀ b ∈ (kids d).erase c, ∀ m, s.heap b = some m → m.parent = some d :=
    fun b member m old => forest.parent d b m (List.mem_of_mem_erase member) old
  have folder : p.type ≠ .folder → (kids d).erase c = [] := by
    intro other
    rw [forest.leaf d p host other]
    rfl
  by_cases first : p.children = some c
  · obtain ⟨n, found⟩ := forest.live (List.mem_of_head? ((forest.children_eq host).symm.trans first))
    refine ⟨s.store d { p with children := n.next }, ?_, ?_, .store host rfl⟩
    · simp only [Vfs.unlink, Vfs.load_eq host, if_pos first, Vfs.load_eq found, bind, Except.bind, pure,
        Except.pure]
    · refine forest.relink_children host ?_ parents folder
      rw [first] at chain
      obtain ⟨q, rest, split, link, tail⟩ := chain.some_cons
      rw [split, List.erase_cons_head]
      have next : n.next = q := Option.some.inj ((Vfs.nextOf_eq found).symm.trans link)
      exact next ▸ tail
  · by_cases member : c ∈ kids d
    · obtain ⟨n, found⟩ := forest.live member
      obtain ⟨xs, ys, split⟩ := List.append_of_mem member
      rcases List.eq_nil_or_concat' xs with rfl | ⟨ws, b, rfl⟩
      · exact absurd (by rw [forest.children_eq host, split]; rfl) first
      · rw [List.append_assoc, List.singleton_append] at split
        rw [split] at chain distinct bound
        have listed : b ∈ kids d := by simp [split]
        obtain ⟨m, cell⟩ := forest.live listed
        have walked : s.findPrev c limit p.children = .ok (some b) :=
          Vfs.findPrev_chain chain (by simp at bound; omega)
        refine ⟨s.store b { m with next := n.next }, ?_, ?_, .store cell rfl⟩
        · simp only [Vfs.unlink, Vfs.load_eq host, if_neg first, walked, Vfs.load_eq found,
            Vfs.load_eq cell, bind, Except.bind, pure, Except.pure]
        · refine forest.relink_next host listed cell ?_ parents folder
          have apart := List.nodup_append.mp distinct
          have erased : (kids d).erase c = ws ++ b :: ys := by
            have early : c ∉ ws ++ [b] := by
              intro inside
              have whole : ((ws ++ [b]) ++ c :: ys).Nodup := by simpa using distinct
              exact List.disjoint_of_nodup_append whole inside List.mem_cons_self
            have shape : kids d = (ws ++ [b]) ++ c :: ys := by simp [split]
            rw [shape, List.erase_append_right _ early, List.erase_cons_head, List.append_assoc,
              List.singleton_append]
          rw [erased]
          refine chain.unlink (Vfs.nextOf_eq found) ?_ (Vfs.nextOf_store_self b _)
          intro e inside
          refine Vfs.nextOf_store_ne ?_ _
          rintro rfl
          rcases List.mem_append.mp inside with left | right
          · exact apart.2.2 e left e List.mem_cons_self rfl
          · exact (List.nodup_cons.mp apart.2.1).1 (List.mem_cons_of_mem c right)
    · refine ⟨s, ?_, ?_, .refl s⟩
      · simp only [Vfs.unlink, Vfs.load_eq host, if_neg first, Vfs.findPrev_absent chain member bound,
          bind, Except.bind, pure, Except.pure]
      · rwa [List.erase_of_not_mem member, Function.update_eq_self]

end Forest
end Laomb.VFS
