import Laomb.Base.Cancel
import Laomb.Fshell.PathCopies
import Mathlib.Data.List.DropRight

/-! `resolve_path` against a reference: the parts of the text between slashes, with
those that stand for nothing dropped and each ".." cancelling the part kept before it. -/
namespace Laomb.Fshell
open VFS Fields Cancel

variable {pwd full text : CString} {path : Option CString} {parts : List CString}

/-- Parts that a path may contain without going anywhere. -/
def isDot (part : CString) : Bool := part = [] || part = ['.']

def isDotDot (part : CString) : Bool := part = ['.', '.']

/-- Whitespace cut off at both ends. -/
def trimmed (text : CString) : CString := (text.dropWhile isspace).rdropWhile isspace

/-- All parts between slashes, empty ones among them, of the path that is meant. -/
def meantParts (pwd : CString) (path : Option CString) : List CString :=
  let text := trimmed (firstText pwd path)
  if text.head? = some '/' then text.splitOn '/' else pwd.splitOn '/' ++ text.splitOn '/'

/-- The parts that are kept, in order. -/
def keptParts (parts : List CString) : List CString := (settle isDot isDotDot [] parts).reverse

/-- The normal form of a path, seen from `pwd`. -/
def normalForm (pwd : CString) (path : Option CString) : CString :=
  '/' :: ['/'].intercalate (keptParts (meantParts pwd path))

/-- An absolute path in normal form: "/" alone, or no empty, "." or ".." part behind the slash. -/
def Canonical (path : CString) : Prop :=
  ∃ rest, path = '/' :: rest ∧
    (rest = [] ∨ ∀ part ∈ rest.splitOn '/', isDot part = false ∧ isDotDot part = false)

theorem Canonical.slash (canonical : Canonical full) : full.head? = some '/' := by
  obtain ⟨rest, rfl, _⟩ := canonical
  rfl

theorem Canonical.noTrailing (canonical : Canonical full) (last : full.getLast? = some '/') :
    full = ['/'] := by
  obtain ⟨rest, rfl, empty | plain⟩ := canonical
  · rw [empty]
  · rcases List.eq_nil_or_concat rest with rfl | ⟨front, c, rfl⟩
    · rfl
    · rw [List.concat_eq_append] at last plain
      have slash : c = '/' := by simpa [List.getLast?_cons] using last
      subst slash
      have split : (front ++ ['/']).splitOn '/' = front.splitOn '/' ++ [[]] :=
        List.splitOnP_append_cons front [] (by simp)
      have trailing := plain [] (by simp [split])
      exact absurd trailing.1 (by simp [isDot])

theorem trimWhitespace_eq (text : CString) : trimWhitespace text = trimmed text := by
  rw [trimWhitespace, trimmed, List.rdropWhile]
  split
  · rename_i blank
    rw [blank]
    rfl
  · rfl

theorem trimmed_slash (slash : text.head? = some '/') : (trimmed text).head? = some '/' := by
  obtain ⟨rest, rfl⟩ := List.head?_eq_some_iff.mp slash
  have front : ('/' :: rest).dropWhile isspace = '/' :: rest := List.dropWhile_cons_of_neg (by decide)
  rw [trimmed, front]
  obtain ⟨tail, whole⟩ := List.rdropWhile_prefix isspace (l := '/' :: rest)
  cases kept : ('/' :: rest).rdropWhile isspace with
  | nil =>
    have blank := List.rdropWhile_eq_nil_iff.mp kept '/' List.mem_cons_self
    exact absurd blank (by decide)
  | cons c front =>
    rw [kept, List.cons_append] at whole
    rw [(List.cons.inj whole).1]
    rfl

theorem joinComponents_eq (parts : List CString) : joinComponents parts = ['/'].intercalate parts := by
  induction parts with
  | nil => rfl
  | cons c parts ih =>
    cases parts with
    | nil => simp [joinComponents]
    | cons d parts =>
      rw [joinComponents, ih, List.intercalate_cons_cons]
      · simp
      · exact List.cons_ne_nil d parts

theorem components_eq (text : CString) : components text = (text.splitOn '/').filter (!·.isEmpty) := by
  rw [components, fields, List.splitOn]
  rfl

/-- The loop over the tokens keeps what the reference keeps of them. -/
theorem pushComponent_foldl (parts tokens : List CString) (named : ∀ token ∈ tokens, token ≠ []) :
    tokens.foldl pushComponent parts = (settle isDot isDotDot parts.reverse tokens).reverse := by
  induction tokens generalizing parts with
  | nil => exact (List.reverse_reverse parts).symm
  | cons token tokens ih =>
    have step : (pushComponent parts token).reverse = push isDot isDotDot parts.reverse token := by
      have nonempty := named token List.mem_cons_self
      simp only [pushComponent, push, isDot, isDotDot, nonempty, decide_false, Bool.false_or,
        decide_eq_true_eq]
      split
      · rfl
      · split
        · exact List.tail_reverse.symm
        · simp
    rw [List.foldl_cons, ih _ fun t member => named t (List.mem_cons_of_mem _ member), step]
    rfl

theorem normalParts_eq (text : CString) : normalParts text = keptParts (text.splitOn '/') := by
  have named : ∀ token ∈ components text, token ≠ [] :=
    fun token member => (components_good text token member).1
  rw [normalParts, pushComponent_foldl [] _ named, components_eq, keptParts, List.reverse_nil]
  rw [settle_filter fun part empty => by simp_all [isDot]]

/-- What `resolve_path` leaves is the normal form. -/
theorem normalPath_eq (pwd : CString) (path : Option CString) :
    normalPath pwd path = normalForm pwd path := by
  rw [normalPath, normalForm, joinComponents_eq, normalParts_eq]
  congr 3
  unfold absoluteText meantParts
  simp only [trimWhitespace_eq]
  split
  · rfl
  · exact List.splitOnP_append_cons pwd _ (by simp)

theorem keptParts_plain {part : CString} (member : part ∈ keptParts parts) :
    part ∈ parts ∧ isDot part = false ∧ isDotDot part = false := by
  rcases mem_settle (List.mem_reverse.mp member) with old | kept
  · exact absurd old List.not_mem_nil
  · exact kept

/-- Parts without slashes that stand for themselves join to a path in normal form. -/
theorem canonical_join (plain : ∀ part ∈ parts, '/' ∉ part ∧ isDot part = false ∧ isDotDot part = false) :
    Canonical ('/' :: ['/'].intercalate parts) := by
  refine ⟨_, rfl, ?_⟩
  by_cases empty : parts = []
  · exact .inl (by rw [empty]; rfl)
  · right
    rw [List.splitOn_intercalate '/' (fun part member => (plain part member).1) empty]
    exact fun part member => (plain part member).2

theorem splitOn_noSlash {part : CString} (member : part ∈ text.splitOn '/') : '/' ∉ part := by
  intro slash
  by_cases empty : part = []
  · simp [empty] at slash
  · have component : part ∈ components text := by
      rw [components_eq]
      exact List.mem_filter.mpr ⟨member, by simpa using empty⟩
    exact (component_iff.mp (components_good text part component)).2 slash

theorem meantParts_noSlash {part : CString} (member : part ∈ meantParts pwd path) : '/' ∉ part := by
  unfold meantParts at member
  dsimp only at member
  split at member
  · exact splitOn_noSlash member
  · rcases List.mem_append.mp member with first | second
    · exact splitOn_noSlash first
    · exact splitOn_noSlash second

theorem normalForm_canonical (pwd : CString) (path : Option CString) : Canonical (normalForm pwd path) :=
  canonical_join fun _ member =>
    ⟨meantParts_noSlash (keptParts_plain member).1, (keptParts_plain member).2⟩

/-- All copies on the way fit where the two texts and a slash do. -/
theorem resolvePath_fits (slash : pwd.head? = some '/')
    (fits : pwd.length + 1 + (path.getD []).length < bufferSize) :
    resolvePath pwd path = .ok (normalPath pwd path) := by
  have first : (firstText pwd path).length < bufferSize := by
    unfold firstText
    split <;> omega
  have short := trimWhitespace_length (firstText pwd path)
  have absolute : ShortText pwd path := by
    unfold ShortText absoluteText
    split
    · omega
    · rename_i relative
      rw [List.length_append, List.length_cons]
      by_cases empty : path.getD [] = []
      · -- an empty path stands for pwd, which is absolute also when trimmed
        refine absurd ?_ relative
        rw [firstText, if_pos empty, trimWhitespace_eq]
        exact trimmed_slash slash
      · rw [firstText, if_neg empty] at short ⊢
        omega
  exact resolvePath_eq first absolute (Nat.lt_of_le_of_lt (normalPath_length slash) absolute)

/-- `resolve_path` writes the normal form of every path that fits, seen from every
working directory in normal form. -/
theorem resolvePath_normal (pwd : CString) (path : Option CString) (canonical : Canonical pwd)
    (fits : pwd.length + 1 + (path.getD []).length < bufferSize) :
    resolvePath pwd path = .ok (normalForm pwd path) ∧ Canonical (normalForm pwd path) ∧
      ((normalForm pwd path).getLast? = some '/' → normalForm pwd path = ['/']) := by
  have form := normalForm_canonical pwd path
  refine ⟨?_, form, form.noTrailing⟩
  rw [resolvePath_fits canonical.slash fits, normalPath_eq]

theorem resolvePath_normal_dots :
    resolvePath "/a/b".toList (some " ../c/./d/.. ".toList) = .ok "/a/c".toList ∧ Canonical "/a/c".toList := by
  have form : normalForm "/a/b".toList (some " ../c/./d/.. ".toList) = "/a/c".toList := by decide +kernel
  obtain ⟨resolved, canonical, _⟩ := resolvePath_normal "/a/b".toList (some " ../c/./d/.. ".toList)
    ⟨"a/b".toList, rfl, .inr (by decide)⟩ (by decide)
  rw [form] at resolved canonical
  exact ⟨resolved, canonical⟩

end Laomb.Fshell
