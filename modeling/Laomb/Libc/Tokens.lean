import Laomb.Base.FieldPlaces
import Laomb.Libc.Copy

/-! `strtok`, which remembers in a static pointer where it goes on and cuts the string in place. -/
namespace Laomb.Libc
open Terminated Fields

/-- The characters from `p` on, up to the NUL. -/
def charsFrom (m : Memory) (p : Nat) : (fuel : Nat) → List Byte
  | 0 => []
  | fuel + 1 => if m p = 0 then [] else m p :: charsFrom m (p + 1) fuel

/-- The string at `p`. -/
def stringAt (m : Memory) (p : Nat) : List Byte := charsFrom m p (2 ^ 32)

/-- `while (*a && *a != *p) a++`. -/
def acceptLoop (c : Byte) : (a : List Byte) → List Byte
  | [] => []
  | a :: rest => if a ≠ c then acceptLoop c rest else a :: rest

def strspn : (s accept : List Byte) → Nat
  | [], _ => 0
  | c :: s, accept => if acceptLoop c accept = [] then 0 else strspn s accept + 1

/-- `while (*a)`: whether it comes to `return`. -/
def breakLoop (c : Byte) : (a : List Byte) → Bool
  | [] => false
  | a :: rest => if c = a then true else breakLoop c rest

/-- The result less `s`, none for a null result. -/
def strpbrk : (s accept : List Byte) → Option Nat
  | [], _ => none
  | c :: s, accept => if breakLoop c accept then some 0 else (strpbrk s accept).map (· + 1)

/-- The memory, and the static `last`. -/
structure Tokenizer where
  memory : Memory
  last : Option Nat

def strtok (t : Tokenizer) (str : Option Nat) (delim : Nat) : Option Nat × Tokenizer :=
  match str.or t.last with
  | none => (none, t)
  | some str =>
    let str := str + strspn (stringAt t.memory str) (stringAt t.memory delim)
    if t.memory str = 0 then (none, { t with last := none })
    else
      match strpbrk (stringAt t.memory str) (stringAt t.memory delim) with
      | some tokenEnd => (some str,
          { memory := Function.update t.memory (str + tokenEnd) 0, last := some (str + tokenEnd + 1) })
      | none => (some str, { t with last := none })

/-- What `n` calls return, of which the first is given `str` and the others a null pointer. -/
def tokens (t : Tokenizer) (str : Option Nat) (delim : Nat) : (n : Nat) → List (Option Nat) × Tokenizer
  | 0 => ([], t)
  | n + 1 =>
    let (token, t) := strtok t str delim
    let (rest, t) := tokens t none delim n
    (token :: rest, t)

/-- `text` is the string at `p`, all of it in the address space. -/
structure StringAt (m : Memory) (p : Nat) (text : List Byte) : Prop where
  holds : Holds 0 (fun k => m (p + k)) text
  fits : p + text.length < 2 ^ 32

def isDelim (accept : List Byte) (c : Byte) : Bool := c ∈ accept

variable {m m' : Memory} {t t' : Tokenizer} {str : Option Nat} {delim s p n stop : Nat} {c : Byte}
  {text accept front part back rest : List Byte} {found : List (Nat × List Byte)}

theorem charsFrom_eq (holds : Holds 0 (fun k => m (p + k)) text) (room : text.length < n) :
    charsFrom m p n = text := by
  induction text generalizing p n with
  | nil =>
    have ended : m p = 0 := holds.ended
    obtain ⟨n, rfl⟩ := Nat.exists_eq_add_of_lt room
    rw [charsFrom, if_pos ended]
  | cons c rest ih =>
    obtain ⟨n, rfl⟩ := Nat.exists_eq_add_of_le' (Nat.lt_of_le_of_lt (Nat.zero_le _) room)
    have first : m p = c := holds.elements 0 (Nat.succ_pos _)
    have nonzero : c ≠ 0 := holds.nonzero c List.mem_cons_self
    have tail : Holds 0 (fun k => m (p + 1 + k)) rest :=
      holds.tail fun i _ => by rw [Nat.add_assoc, Nat.add_comm 1]
    rw [charsFrom, first, if_neg nonzero, ih tail (Nat.lt_of_succ_lt_succ room)]

theorem StringAt.stringAt_eq (string : StringAt m p text) : stringAt m p = text :=
  charsFrom_eq string.holds (Nat.lt_of_le_of_lt (Nat.le_add_left _ p) string.fits)

theorem StringAt.suffix (string : StringAt m p (front ++ back)) : StringAt m (p + front.length) back where
  holds := by
    have rest := string.holds.suffix
    simpa only [Nat.add_assoc] using rest
  fits := by
    have fits := string.fits
    rw [List.length_append] at fits
    omega

theorem StringAt.ne_zero (string : StringAt m p text) (some : text ≠ []) : m p ≠ 0 := by
  obtain ⟨c, rest, rfl⟩ := List.exists_cons_of_ne_nil some
  have first : m p = c := string.holds.elements 0 (Nat.succ_pos _)
  rw [first]
  exact string.holds.nonzero c List.mem_cons_self

theorem acceptLoop_nil : acceptLoop c accept = [] ↔ c ∉ accept := by
  induction accept with
  | nil => simp [acceptLoop]
  | cons a rest ih =>
    by_cases same : a = c
    · simp [acceptLoop, same]
    · have other : c ≠ a := fun h => same h.symm
      simp [acceptLoop, same, other, ih]

theorem breakLoop_iff : breakLoop c accept ↔ c ∈ accept := by
  induction accept with
  | nil => simp [breakLoop]
  | cons a rest ih =>
    by_cases same : c = a
    · simp [breakLoop, same]
    · simp [breakLoop, same, ih]

theorem strspn_skip (skipped : ∀ c ∈ front, isDelim accept c) (back : List Byte) :
    strspn (front ++ back) accept = front.length + strspn back accept := by
  induction front with
  | nil => rw [List.nil_append, List.length_nil, Nat.zero_add]
  | cons c front ih =>
    have inside : c ∈ accept := of_decide_eq_true (skipped c List.mem_cons_self)
    rw [List.cons_append, strspn, if_neg (mt acceptLoop_nil.mp (not_not.mpr inside)),
      ih fun x member => skipped x (List.mem_cons_of_mem c member), List.length_cons]
    omega

theorem strspn_stop (segment : Segment (isDelim accept) front) (back : List Byte) :
    strspn (front ++ back) accept = 0 := by
  obtain ⟨c, rest, rfl⟩ := List.exists_cons_of_ne_nil segment.1
  have outside : c ∉ accept := of_decide_eq_false (segment.2 c List.mem_cons_self)
  rw [List.cons_append, strspn, if_pos (acceptLoop_nil.mpr outside)]

theorem strpbrk_skip (segment : ∀ c ∈ front, isDelim accept c = false) (back : List Byte) :
    strpbrk (front ++ back) accept = (strpbrk back accept).map (front.length + ·) := by
  induction front with
  | nil => simp
  | cons c front ih =>
    have outside : c ∉ accept := of_decide_eq_false (segment c List.mem_cons_self)
    rw [List.cons_append, strpbrk, if_neg (mt breakLoop_iff.mp outside),
      ih fun x member => segment x (List.mem_cons_of_mem c member), Option.map_map]
    refine congrArg (Option.map · _) (funext fun k => ?_)
    simp only [Function.comp_apply, List.length_cons]
    omega

theorem strpbrk_none (segment : Segment (isDelim accept) front) : strpbrk front accept = none := by
  have all := strpbrk_skip segment.2 []
  rwa [List.append_nil] at all

theorem strpbrk_found (segment : Segment (isDelim accept) front) (isSep : isDelim accept c) :
    strpbrk (front ++ c :: back) accept = some front.length := by
  have inside : breakLoop c accept := breakLoop_iff.mpr (of_decide_eq_true isSep)
  rw [strpbrk_skip segment.2, strpbrk, if_pos inside]
  rfl

theorem StringAt.congr (string : StringAt m p text) (same : ∀ i ≤ text.length, m' (p + i) = m (p + i)) :
    StringAt m' p text :=
  ⟨string.holds.congr same, string.fits⟩

/-- A NUL in the place of a delimiter cuts the string in two. -/
theorem StringAt.cut (string : StringAt m p (part ++ c :: rest)) :
    StringAt (Function.update m (p + part.length) 0) p part ∧
      StringAt (Function.update m (p + part.length) 0) (p + part.length + 1) rest := by
  have fits := string.fits
  rw [List.length_append, List.length_cons] at fits
  have later : StringAt m (p + (part ++ [c]).length) rest := by
    refine StringAt.suffix ?_
    rwa [List.append_assoc]
  rw [List.length_append, List.length_singleton, ← Nat.add_assoc] at later
  refine ⟨⟨?_, by omega⟩, later.congr fun j inside => Function.update_of_ne (by omega) _ _⟩
  exact string.holds.front (fun i inside => Function.update_of_ne (by omega) _ _) (Function.update_self _ _ _)

/-- What the calls that go on from a pointer have still to find, in a string that ends at `stop`. -/
inductive Pending (m : Memory) (delim : Nat) (accept : List Byte) (stop : Nat) :
    Option Nat → List (Nat × List Byte) → Prop where
  | spent : Pending m delim accept stop none []
  | more {p : Nat} {text : List Byte} (string : StringAt m p text) (stops : p + text.length = stop)
      (apart : Apart p text.length delim accept.length) :
      Pending m delim accept stop (some p) (fieldsAt (isDelim accept) p text)

/-- Nothing is changed but what lies from the pointer on and before `stop`. -/
def Frame (m m' : Memory) (place : Option Nat) (stop : Nat) : Prop :=
  ∀ a, (∀ p ∈ place, a < p ∨ stop ≤ a) → m' a = m a

/-- One call finds the first field and leaves the others. -/
structure Finds (t : Tokenizer) (str : Option Nat) (delim : Nat) (accept : List Byte) (stop : Nat)
    (found : List (Nat × List Byte)) (token : Option Nat) (t' : Tokenizer) : Prop where
  token : token = found.head?.map Prod.fst
  delims : StringAt t'.memory delim accept
  pending : Pending t'.memory delim accept stop t'.last found.tail
  intact : ∀ f ∈ found.head?, Holds 0 (fun k => t'.memory (f.1 + k)) f.2 ∧ ∀ p ∈ t'.last, f.1 + f.2.length < p
  frame : Frame t.memory t'.memory (str.or t.last) stop
  onward : ∀ p' ∈ t'.last, ∃ p ∈ str.or t.last, p ≤ p'

section
variable (going : str.or t.last = some p) (delims : StringAt t.memory delim accept)
include going delims

theorem strtok_blank (string : StringAt t.memory p text) (blank : ∀ c ∈ text, isDelim accept c) :
    strtok t str delim = (none, { t with last := none }) := by
  have span := strspn_skip blank []
  rw [List.append_nil, strspn, Nat.add_zero] at span
  rw [strtok, going]
  simp only [string.stringAt_eq, delims.stringAt_eq, span]
  exact if_pos string.holds.ended

theorem strtok_last (string : StringAt t.memory p (front ++ part)) (skipped : ∀ c ∈ front, isDelim accept c)
    (segment : Segment (isDelim accept) part) :
    strtok t str delim = (some (p + front.length), { t with last := none }) := by
  have span := strspn_skip skipped part
  have stop := strspn_stop segment []
  rw [List.append_nil] at stop
  rw [stop, Nat.add_zero] at span
  have token := string.suffix
  rw [strtok, going]
  simp only [string.stringAt_eq, delims.stringAt_eq, span]
  rw [if_neg (token.ne_zero segment.1), token.stringAt_eq, strpbrk_none segment]

/-- The delimiter behind the token is overwritten, and `last` points behind it. -/
theorem strtok_more (string : StringAt t.memory p (front ++ (part ++ c :: rest)))
    (skipped : ∀ c ∈ front, isDelim accept c) (segment : Segment (isDelim accept) part)
    (isSep : isDelim accept c) :
    strtok t str delim = (some (p + front.length),
      { memory := Function.update t.memory (p + front.length + part.length) 0
        last := some (p + front.length + part.length + 1) }) := by
  have span := strspn_skip skipped (part ++ c :: rest)
  rw [strspn_stop segment, Nat.add_zero] at span
  have token := string.suffix
  rw [strtok, going]
  simp only [string.stringAt_eq, delims.stringAt_eq, span]
  rw [if_neg (token.ne_zero (by simp)), token.stringAt_eq, strpbrk_found segment isSep]

end

theorem strtok_finds (delims : StringAt t.memory delim accept)
    (pending : Pending t.memory delim accept stop (str.or t.last) found) :
    Finds t str delim accept stop found (strtok t str delim).1 (strtok t str delim).2 := by
  generalize going : str.or t.last = place at pending
  cases pending with
  | spent =>
    have run : strtok t str delim = (none, t) := by rw [strtok, going]
    have idle : t.last = none := (Option.or_eq_none_iff.mp going).2
    rw [run]
    have done : Pending t.memory delim accept stop t.last [] := by
      rw [idle]
      exact .spent
    exact ⟨rfl, delims, done, by simp, fun _ _ => rfl, by simp [idle]⟩
  | @more p text string stops apart =>
    cases start (isDelim accept) text with
    | blank blank =>
      rw [strtok_blank going delims string blank, fieldsAt_blank blank]
      exact ⟨rfl, delims, .spent, by simp, fun _ _ => rfl, by simp⟩
    | @last front part skipped segment =>
      rw [strtok_last going delims string skipped segment, fieldsAt_last skipped segment]
      exact ⟨rfl, delims, .spent, by simpa using string.suffix.holds, fun _ _ => rfl, by simp⟩
    | @more front part rest c skipped segment isSep =>
      have tail : StringAt t.memory (p + front.length) (part ++ c :: rest) := string.suffix
      obtain ⟨token, later⟩ := tail.cut
      have total : (front ++ (part ++ c :: rest)).length = front.length + part.length + 1 + rest.length := by
        simp only [List.length_append, List.length_cons]
        omega
      rw [total] at stops apart
      rw [strtok_more going delims string skipped segment isSep, fieldsAt_more skipped segment isSep]
      refine ⟨rfl, ?_, ?_, ?_, ?_, ?_⟩
      · refine delims.congr fun j inside => Function.update_of_ne ?_ _ _
        have other := apart (front.length + part.length) (by omega) j inside
        omega
      · refine .more later (by omega) fun i inside j inside' => ?_
        have other := apart (front.length + part.length + 1 + i) (by omega) j inside'
        omega
      · rintro f first
        obtain rfl : (p + front.length, part) = f := by simpa using first
        refine ⟨token.holds, fun q next => ?_⟩
        obtain rfl : p + front.length + part.length + 1 = q := by simpa using next
        exact Nat.lt_succ_self _
      · intro a outside
        have away := outside p going
        exact Function.update_of_ne (by omega) _ _
      · intro q next
        obtain rfl : p + front.length + part.length + 1 = q := by simpa using next
        exact ⟨p, going, by omega⟩

/-- What `n` calls return, with the strings that they have cut out still there at the end. -/
structure Enumerates (t : Tokenizer) (str : Option Nat) (stop : Nat) (found : List (Nat × List Byte))
    (n : Nat) (results : List (Option Nat)) (t' : Tokenizer) : Prop where
  results : results = (List.range n).map fun i => found[i]?.map Prod.fst
  intact : ∀ f ∈ found.take n, Holds 0 (fun k => t'.memory (f.1 + k)) f.2
  frame : Frame t.memory t'.memory (str.or t.last) stop

theorem tokens_enumerates (delims : StringAt t.memory delim accept)
    (pending : Pending t.memory delim accept stop (str.or t.last) found) (n : Nat) :
    Enumerates t str stop found n (tokens t str delim n).1 (tokens t str delim n).2 := by
  induction n generalizing t str found with
  | zero => exact ⟨rfl, fun f member => by simp at member, fun _ _ => rfl⟩
  | succ n ih =>
    have first := strtok_finds delims pending
    rw [tokens]
    generalize strtok t str delim = result at first
    obtain ⟨token, u⟩ := result
    dsimp only at first ⊢
    have onward : Pending u.memory delim accept stop (none.or u.last) found.tail := first.pending
    have rest := ih first.delims onward
    generalize tokens u none delim n = result at rest
    obtain ⟨more, v⟩ := result
    dsimp only at rest ⊢
    constructor
    · rw [List.range_succ_eq_map, List.map_cons, List.map_map, first.token, rest.results,
        List.head?_eq_getElem?]
      refine congrArg _ (List.map_congr_left fun i _ => ?_)
      rw [List.getElem?_tail]
      rfl
    · intro f member
      cases found with
      | nil => exact absurd member List.not_mem_nil
      | cons g found =>
        rcases List.mem_cons.mp member with rfl | later
        · -- the later calls go on behind what this one has cut out
          obtain ⟨here, behind⟩ := first.intact f rfl
          refine here.congr fun i inside => rest.frame _ fun p next => .inl ?_
          have beyond := behind p next
          omega
        · exact rest.intact f later
    · intro a outside
      refine (rest.frame a fun q next => ?_).trans (first.frame a outside)
      obtain ⟨p, going, low⟩ := first.onward q next
      exact (outside p going).imp_left fun before => Nat.lt_of_lt_of_le before low

/-- Calls on other strings that have been made before, each enumeration left at any point. The bytes
from `s` on, `len` of them and a NUL, and those from `delim` on are not in these strings. -/
inductive Abandoned (s len delim len' : Nat) : Tokenizer → Tokenizer → Prop where
  | start (t : Tokenizer) : Abandoned s len delim len' t t
  | left {t u : Tokenizer} {str other : Nat} {text accept : List Byte}
      (earlier : Abandoned s len delim len' t u) (string : StringAt u.memory str text)
      (delims : StringAt u.memory other accept) (apart : Apart str text.length other accept.length)
      (away : Apart str text.length s len) (away' : Apart str text.length delim len') (n : Nat) :
      Abandoned s len delim len' t (tokens u (some str) other n).2

theorem Frame.stringAt {str len : Nat} (frame : Frame m m' (some str) (str + len))
    (string : StringAt m s text)
    (away : Apart str len s text.length) : StringAt m' s text :=
  string.congr fun j inside => frame _ fun p here => by
    obtain rfl : str = p := Option.some.inj here
    by_contra between
    exact away (s + j - str) (by omega) j inside (by omega)

theorem Abandoned.kept (abandoned : Abandoned s text.length delim accept.length t t')
    (string : StringAt t.memory s text) (delims : StringAt t.memory delim accept) :
    StringAt t'.memory s text ∧ StringAt t'.memory delim accept := by
  induction abandoned with
  | start => exact ⟨string, delims⟩
  | @left u str other _ _ _ string' delims' apart away away' n ih =>
    obtain ⟨string, delims⟩ := ih
    have pending : Pending u.memory other _ _ ((some str).or u.last) _ := .more string' rfl apart
    have frame := (tokens_enumerates delims' pending n).frame
    exact ⟨frame.stringAt string away, frame.stringAt delims away'⟩

/-- The calls find exactly the fields, in order, and then nothing any more, wherever the enumerations
of other strings have been left. -/
theorem strtok_enumerates (string : StringAt t.memory s text) (delims : StringAt t.memory delim accept)
    (apart : Apart s text.length delim accept.length) :
    ∃ found, Listing (isDelim accept) s text found ∧ found.map Prod.snd = fields (isDelim accept) text ∧
      ∀ t', Abandoned s text.length delim accept.length t t' → ∀ n, Enumerates t' (some s)
        (s + text.length) found n (tokens t' (some s) delim n).1 (tokens t' (some s) delim n).2 := by
  refine ⟨_, fieldsAt_listing _ _ _, fieldsAt_snd _ _ _, fun t' abandoned n => ?_⟩
  obtain ⟨string, delims⟩ := abandoned.kept string delims
  exact tokens_enumerates delims (.more string rfl apart) n

/-- `/a//b` at 1, and `/` at 7. -/
def pathBytes : List Byte := [0, 0x2f, 0x61, 0x2f, 0x2f, 0x62, 0, 0x2f, 0]

def pathTokenizer : Tokenizer where
  memory a := pathBytes[a]?.getD 0
  last := some 3

theorem path_string : StringAt pathTokenizer.memory 1 [0x2f, 0x61, 0x2f, 0x2f, 0x62] where
  holds := { elements := by decide, nonzero := by decide, ended := rfl }
  fits := by decide

theorem slash_string : StringAt pathTokenizer.memory 7 [0x2f] where
  holds := { elements := by decide, nonzero := by decide, ended := rfl }
  fits := by decide

theorem path_apart : Apart 1 5 7 1 := fun i less j bound => by omega

theorem strtok_enumerates_path : ∃ found, Listing (isDelim [0x2f]) 1 [0x2f, 0x61, 0x2f, 0x2f, 0x62] found ∧
    found.map Prod.snd = fields (isDelim [0x2f]) [0x2f, 0x61, 0x2f, 0x2f, 0x62] ∧
    ∀ t', Abandoned 1 5 7 1 pathTokenizer t' → ∀ n, Enumerates t' (some 1) 6 found n
      (tokens t' (some 1) 7 n).1 (tokens t' (some 1) 7 n).2 :=
  strtok_enumerates path_string slash_string path_apart

example : (tokens pathTokenizer (some 1) 7 4).1 = [some 2, some 5, none, none] := by decide

end Laomb.Libc
