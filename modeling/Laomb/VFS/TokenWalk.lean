import Laomb.Libc.Tokens
import Laomb.VFS.Walk

/-! The tokens of `vfs_traverse_path` in memory, cut out of its copy of the path. The walk finds what it
finds with the tokenizer by value. -/
namespace Laomb.VFS
open Fields Libc

def byte (c : Char) : Byte := BitVec.ofNat 8 c.toNat

/-- The characters at `p`. -/
def textAt (m : Memory) (p : Nat) : CString := (stringAt m p).map fun b => Char.ofNat b.toNat

/-- `text` is the string at `p`. -/
structure TextAt (m : Memory) (p : Nat) (text : CString) : Prop where
  string : StringAt m p (text.map byte)
  bytes : ∀ c ∈ text, c.toNat < 2 ^ 8

/-- A text that is still to be cut up, none of it where the delimiters are. -/
structure Remains (m : Memory) (delim p : Nat) (text : CString) : Prop where
  here : TextAt m p text
  apart : Libc.Apart p text.length delim 1

/-- A token in memory is the one by value, and so is what `last` points to, behind it. -/
structure Mirrors (t : Tokenizer) (delim : Nat) (place : Option Nat) (token last : Option CString) :
    Prop where
  behind : ∀ q ∈ place, ∀ text ∈ token, ∀ p ∈ t.last, q + text.length < p
  token : Option.Rel (TextAt t.memory) place token
  last : Option.Rel (Remains t.memory delim) t.last last
  delims : StringAt t.memory delim [0x2f]

variable {m : Memory} {t : Tokenizer} {str place : Option Nat} {delim p copy fuel : Nat} {c : Char}
  {text path : CString} {token last rest : Option CString} {s : Vfs} {current : Addr}

theorem byte_toNat (small : c.toNat < 2 ^ 8) : (byte c).toNat = c.toNat := by
  rw [byte, BitVec.toNat_ofNat, Nat.mod_eq_of_lt small]

theorem TextAt.textAt_eq (here : TextAt m p text) : textAt m p = text := by
  rw [textAt, here.string.stringAt_eq, List.map_map]
  refine (List.map_congr_left fun c member => ?_).trans (List.map_id text)
  rw [Function.comp_apply, byte_toNat (here.bytes c member), Char.ofNat_toNat]
  rfl

theorem isDelim_byte (small : c.toNat < 2 ^ 8) : isDelim [0x2f] (byte c) = decide (c = '/') := by
  refine decide_eq_decide.mpr (List.mem_singleton.trans ⟨fun same => ?_, fun same => by rw [same]; rfl⟩)
  have number := congrArg BitVec.toNat same
  rw [byte_toNat small] at number
  exact Char.toNat_inj.mp number

theorem skipped_byte (bytes : ∀ c ∈ text, c.toNat < 2 ^ 8) (skipped : ∀ c ∈ text, decide (c = '/')) :
    ∀ b ∈ text.map byte, isDelim [0x2f] b := by
  rintro b member
  obtain ⟨c, inside, rfl⟩ := List.mem_map.mp member
  rw [isDelim_byte (bytes c inside)]
  exact skipped c inside

theorem segment_byte (bytes : ∀ c ∈ text, c.toNat < 2 ^ 8) (token : Component text) :
    Segment (isDelim [0x2f]) (text.map byte) := by
  refine ⟨by simpa using token.1, fun b member => ?_⟩
  obtain ⟨c, inside, rfl⟩ := List.mem_map.mp member
  rw [isDelim_byte (bytes c inside)]
  exact token.2 c inside

theorem strtok_mirrors (delims : StringAt t.memory delim [0x2f])
    (remains : Option.Rel (Remains t.memory delim) (str.or t.last) rest) :
    Mirrors (Libc.strtok t str delim).2 delim (Libc.strtok t str delim).1 (strtok rest).1
      (strtok rest).2 := by
  generalize going : str.or t.last = q at remains
  cases remains with
  | none =>
    have run : Libc.strtok t str delim = (none, t) := by rw [Libc.strtok, going]
    have idle : t.last = none := (Option.or_eq_none_iff.mp going).2
    have done : Option.Rel (Remains t.memory delim) t.last none := by
      rw [idle]
      exact .none
    rw [run]
    exact ⟨by simp, .none, done, delims⟩
  | @some p text remains =>
    obtain ⟨⟨string, bytes⟩, apart⟩ := remains
    cases Fields.start (· = '/') text with
    | blank blank =>
      rw [Libc.strtok_blank going delims string (skipped_byte bytes blank), strtok_blank blank]
      exact ⟨by simp, .none, .none, delims⟩
    | @last front part skipped token =>
      obtain ⟨bytes₁, bytes₂⟩ := List.forall_mem_append.mp bytes
      rw [List.map_append] at string
      rw [Libc.strtok_last going delims string (skipped_byte bytes₁ skipped) (segment_byte bytes₂ token),
        strtok_last skipped token]
      exact ⟨by simp, .some ⟨string.suffix, bytes₂⟩, .none, delims⟩
    | @more front part rest c skipped token isSep =>
      obtain rfl : c = '/' := of_decide_eq_true isSep
      obtain ⟨bytes₁, later⟩ := List.forall_mem_append.mp bytes
      obtain ⟨bytes₂, later⟩ := List.forall_mem_append.mp later
      obtain ⟨_, bytes₃⟩ := List.forall_mem_cons.mp later
      rw [List.map_append, List.map_append, List.map_cons] at string
      rw [Libc.strtok_more going delims string (skipped_byte bytes₁ skipped) (segment_byte bytes₂ token) rfl,
        strtok_more skipped token]
      have tail : StringAt t.memory (p + (front.map byte).length)
          (part.map byte ++ byte '/' :: rest.map byte) := string.suffix
      obtain ⟨first, behind⟩ := tail.cut
      simp only [List.length_append, List.length_cons] at apart
      simp only [List.length_map] at first behind ⊢
      refine ⟨by simp, .some ⟨first, bytes₂⟩, .some ⟨⟨behind, bytes₃⟩, fun i inside j inside' => ?_⟩, ?_⟩
      · have other := apart (front.length + part.length + 1 + i) (by omega) j inside'
        omega
      · refine delims.congr fun j inside => Function.update_of_ne ?_ _ _
        have other := apart (front.length + part.length) (by omega) j inside
        omega

/-- A call changes nothing in front of where it goes on, and does not go back. -/
theorem strtok_kept (delims : StringAt t.memory delim [0x2f])
    (remains : Option.Rel (Remains t.memory delim) (str.or t.last) rest) :
    (∀ a, (∀ p ∈ str.or t.last, a < p) → (Libc.strtok t str delim).2.memory a = t.memory a) ∧
      ∀ p' ∈ (Libc.strtok t str delim).2.last, ∃ p ∈ str.or t.last, p ≤ p' := by
  have pending : ∃ stop found, Pending t.memory delim [0x2f] stop (str.or t.last) found := by
    generalize str.or t.last = q at remains
    cases remains with
    | none => exact ⟨0, [], .spent⟩
    | @some p text remains =>
      refine ⟨_, _, .more remains.here.string rfl ?_⟩
      rw [List.length_map]
      exact remains.apart
  obtain ⟨stop, found, pending⟩ := pending
  have finds := strtok_finds delims pending
  exact ⟨fun a before => finds.frame a fun p here => .inl (before p here), finds.onward⟩

theorem TextAt.congr {m' : Memory} (here : TextAt m p text)
    (same : ∀ i ≤ text.length, m' (p + i) = m (p + i)) : TextAt m' p text :=
  ⟨here.string.congr (by rwa [List.length_map]), here.bytes⟩

namespace Vfs

/-- The token loop of `vfs_traverse_path` with pointers into the copy. -/
def traverseTokens (s : Vfs) (delim : Nat) : (fuel : Nat) → (current : Addr) → (token : Option Nat) →
    (t : Tokenizer) → Result Ptr
  | _, current, none, _ => pure (some current)
  | 0, _, some _, _ => .error .diverges
  | fuel + 1, current, some token, t => do
    match ← s.vfsSearchNode (s.redirect current) (textAt t.memory token) with
    | none => pure none
    | some current =>
      let (token, t) := Libc.strtok t none delim
      traverseTokens s delim fuel current token t

theorem traverseTokens_eq (mirrors : Mirrors t delim place token last) :
    s.traverseTokens delim fuel current place t = s.traverseLoop fuel current token last := by
  induction fuel generalizing current place token last t with
  | zero => cases mirrors.token <;> rfl
  | succ fuel ih =>
    cases mirrors.token with
    | none => rfl
    | @some place token here =>
      simp only [traverseTokens, traverseLoop, here.textAt_eq]
      cases s.vfsSearchNode (s.redirect current) token with
      | error fault => rfl
      | ok found =>
        cases found with
        | none => rfl
        | some next => exact ih (@strtok_mirrors _ none _ _ mirrors.delims mirrors.last)

/-- Whatever an earlier enumeration has left behind. -/
theorem traverseTokens_path {root : Addr} (rooted : s.root = some root) (nonempty : path ≠ [])
    (remains : Remains t.memory delim copy path) (delims : StringAt t.memory delim [0x2f]) :
    s.traverseTokens delim path.length root (Libc.strtok t (some copy) delim).1
        (Libc.strtok t (some copy) delim).2 = s.vfsTraversePath path := by
  have mirrors := @strtok_mirrors t (some copy) delim (some path) delims (.some remains)
  simp only [vfsTraversePath, if_neg nonempty, rooted]
  exact traverseTokens_eq mirrors

end Vfs
end Laomb.VFS
