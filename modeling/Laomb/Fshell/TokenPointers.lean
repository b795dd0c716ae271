import Laomb.Fshell.Resolve
import Laomb.VFS.TokenWalk

/-! `resolve_path` keeps the pointers that `strtok` returns and reads the components through them when
the calls are over. They are still there. -/
namespace Laomb.Fshell
open VFS Libc

/-- One step of the token loop, with pointers for the components. -/
def pushPointer (m : Memory) (components : List Nat) (token : Nat) : List Nat :=
  if textAt m token = ['.'] then components
  else if textAt m token = ['.', '.'] then components.dropLast
  else components ++ [token]

def resolveTokens (delim : Nat) : (fuel : Nat) → (token : Option Nat) → (t : Tokenizer) →
    (components : List Nat) → Result (List Nat × Tokenizer)
  | _, none, t, components => pure (components, t)
  | 0, some _, _, _ => .error .diverges
  | fuel + 1, some token, t, components =>
    let (next, u) := Libc.strtok t none delim
    resolveTokens delim fuel next u (pushPointer t.memory components token)

/-- The components that `strcat` reads. -/
def collected : List Nat × Tokenizer → List CString
  | (components, t) => components.map (textAt t.memory)

/-- The pointers lead to these components, which lie before what is still to be cut up. -/
structure Collects (t : Tokenizer) (pointers : List Nat) (components : List CString) : Prop where
  texts : pointers.map (textAt t.memory) = components
  before : ∀ q ∈ pointers, ∃ text, TextAt t.memory q text ∧ ∀ p ∈ t.last, q + text.length < p

variable {t : Tokenizer} {place : Option Nat} {delim q fuel copy : Nat} {text path : CString}
  {token last : Option CString} {pointers : List Nat} {components : List CString}

theorem Collects.push (collects : Collects t pointers components) (here : TextAt t.memory q text)
    (behind : ∀ p ∈ t.last, q + text.length < p) :
    Collects t (pushPointer t.memory pointers q) (pushComponent components text) := by
  obtain ⟨rfl, before⟩ := collects
  unfold pushPointer pushComponent
  rw [here.textAt_eq]
  split
  · exact ⟨rfl, before⟩
  split
  · exact ⟨List.map_dropLast, fun q member => before q (List.dropLast_subset _ member)⟩
  · refine ⟨by rw [List.map_append, List.map_singleton, here.textAt_eq], fun q member => ?_⟩
    rcases List.mem_append.mp member with old | new
    · exact before q old
    · exact List.mem_singleton.mp new ▸ ⟨text, here, behind⟩

/-- The next call leaves them as they are. -/
theorem Collects.next (collects : Collects t pointers components) (delims : StringAt t.memory delim [0x2f])
    (remains : Option.Rel (Remains t.memory delim) t.last last) :
    Collects (Libc.strtok t none delim).2 pointers components := by
  obtain ⟨rfl, before⟩ := collects
  obtain ⟨frame, onward⟩ := @strtok_kept t none delim last delims remains
  have kept : ∀ q ∈ pointers, ∃ text, TextAt t.memory q text ∧
      TextAt (Libc.strtok t none delim).2.memory q text ∧
      ∀ p ∈ (Libc.strtok t none delim).2.last, q + text.length < p := by
    intro q member
    obtain ⟨text, here, behind⟩ := before q member
    refine ⟨text, here, here.congr fun i inside => frame _ fun p next => ?_, fun p' next => ?_⟩
    · exact Nat.lt_of_le_of_lt (Nat.add_le_add_left inside q) (behind p next)
    · obtain ⟨p, old, forward⟩ := onward p' next
      exact Nat.lt_of_lt_of_le (behind p old) forward
  constructor
  · refine List.map_congr_left fun q member => ?_
    obtain ⟨text, here, still, _⟩ := kept q member
    rw [here.textAt_eq, still.textAt_eq]
  · intro q member
    obtain ⟨text, _, still⟩ := kept q member
    exact ⟨text, still⟩

theorem resolveTokens_eq (mirrors : Mirrors t delim place token last)
    (collects : Collects t pointers components) :
    (resolveTokens delim fuel place t pointers).map collected = resolveLoop fuel token last components := by
  induction fuel generalizing place token last t pointers components with
  | zero =>
    cases mirrors.token with
    | none => exact congrArg Except.ok collects.texts
    | some here => rfl
  | succ fuel ih =>
    have again := @strtok_mirrors t none delim last mirrors.delims mirrors.last
    have behind := mirrors.behind
    cases mirrors.token with
    | none => exact congrArg Except.ok collects.texts
    | @some q text here =>
      exact ih again ((collects.push here (behind q rfl text rfl)).next mirrors.delims mirrors.last)

/-- The components of `resolve_path` are those of its model, whatever an earlier enumeration has left
behind. -/
theorem resolveTokens_path (remains : Remains t.memory delim copy path)
    (delims : StringAt t.memory delim [0x2f]) :
    (resolveTokens delim path.length (Libc.strtok t (some copy) delim).1 (Libc.strtok t (some copy) delim).2
        []).map collected =
      resolveLoop path.length (VFS.strtok (some path)).1 (VFS.strtok (some path)).2 [] :=
  resolveTokens_eq (@strtok_mirrors t (some copy) delim (some path) delims (.some remains))
    ⟨rfl, fun _ member => absurd member List.not_mem_nil⟩

end Laomb.Fshell
