import Laomb.Base.Padding
import Laomb.FS.Lookup

/-! Names in the form of a directory: `get_short_name` writes their letters in capitals where
they belong, and none of the spaces around them. -/
namespace Laomb.FS
open Padding

variable {i : Nat} {junk junk' : Nat → Byte} {a b : List Byte}

/-- Bytes of a string without a dot. -/
def Plain (l : List Byte) : Prop := ∀ c ∈ l, c ≠ 0 ∧ c ≠ 0x2E

/-- A base and, behind a dot, an extension. -/
structure FileName where
  base : List Byte
  extension : Option (List Byte)
  base_pos : 0 < base.length
  base_short : base.length ≤ 8
  base_plain : Plain base
  extension_pos : ∀ e ∈ extension, 0 < e.length
  extension_short : ∀ e ∈ extension, e.length ≤ 3
  extension_plain : ∀ e ∈ extension, Plain e

namespace FileName

/-- The string. -/
def text (n : FileName) : List Byte := n.base ++ (n.extension.map (0x2E :: ·)).getD []

/-- The extension, which may be empty. -/
def ending (n : FileName) : List Byte := n.extension.getD []

theorem ending_short (n : FileName) : n.ending.length ≤ 3 := by
  rw [ending]
  cases held : n.extension with
  | none => exact Nat.zero_le _
  | some e => exact n.extension_short e held

/-- The form in a directory, eleven bytes. -/
def encoded (n : FileName) : List Byte :=
  (n.base.map toupper).rightpad 8 0x20 ++ (n.ending.map toupper).rightpad 3 0x20

/-- The bytes behind the base and behind the extension. -/
def Pad (n : FileName) (i : Nat) : Prop :=
  n.base.length ≤ i ∧ i < 8 ∨ 8 + n.ending.length ≤ i ∧ i < 11

/-- Different names, of which only spaces at the end of the base and of the extension make
the difference. -/
def OnlySpacesApart (n m : FileName) : Prop :=
  (trimmed 0x20 (n.base.map toupper), trimmed 0x20 (n.ending.map toupper)) =
    (trimmed 0x20 (m.base.map toupper), trimmed 0x20 (m.ending.map toupper)) ∧
  n.text.map toupper ≠ m.text.map toupper

/-! ## What is written -/

theorem findIdx?_text (n : FileName) :
    (n.text.findIdx? (· == 0x2E)).getD 11 = if n.extension = none then 11 else n.base.length := by
  have plain : n.base.findIdx? (· == 0x2E) = none := by
    rw [List.findIdx?_eq_none_iff]
    intro c member
    simpa using (n.base_plain c member).2
  rw [text, List.findIdx?_append, plain]
  cases n.extension with
  | none => rfl
  | some e => simp [List.findIdx?_cons]

theorem getElem_getShortName (junk : Nat → Byte) (n : FileName) (inside : i < 11) :
    (getShortName junk n.text)[i] =
      if i < 8 then (n.base[i]?).elim (junk i) toupper else (n.ending[i - 8]?).elim (junk i) toupper := by
  have short := n.base_short
  rw [getShortName, Vector.getElem_ofFn]
  simp only [findIdx?_text]
  by_cases front : i < 8
  · rw [if_pos front, if_pos front]
    cases held : n.extension with
    | none =>
      have bare : n.text = n.base := by rw [text, held]; exact List.append_nil _
      rw [if_pos rfl, if_pos inside, bare]
    | some e =>
      have dotted : n.text = n.base ++ 0x2E :: e := by rw [text, held]; rfl
      rw [if_neg (Option.some_ne_none e), dotted]
      by_cases within : i < n.base.length
      · rw [if_pos within, List.getElem?_append_left within]
      · rw [if_neg within, List.getElem?_eq_none (by omega), Option.elim_none]
  · rw [if_neg front, if_neg front, ending]
    cases held : n.extension with
    | none => rfl
    | some e =>
      have dotted : n.text = n.base ++ 0x2E :: e := by rw [text, held]; rfl
      have place : n.base.length + 1 + (i - 8) - n.base.length = (i - 8) + 1 := by omega
      rw [if_neg (Option.some_ne_none e), if_pos (show n.base.length ≠ 11 by omega), dotted,
        List.getElem?_append_right (by omega), place, List.getElem?_cons_succ, Option.getD_some]

theorem length_encoded (n : FileName) : n.encoded.length = 11 := by
  rw [encoded, List.length_append, length_rightpad, length_rightpad]
  · rw [List.length_map]
    exact n.ending_short
  · rw [List.length_map]
    exact n.base_short

theorem getElem?_encoded (n : FileName) (inside : i < 11) :
    n.encoded[i]? = some (if i < 8 then (n.base[i]?).elim 0x20 toupper
      else (n.ending[i - 8]?).elim 0x20 toupper) := by
  have eight : ((n.base.map toupper).rightpad 8 0x20).length = 8 :=
    length_rightpad (by rw [List.length_map]; exact n.base_short)
  rw [encoded]
  split
  · rename_i front
    rw [List.getElem?_append_left (by omega), getElem?_rightpad front, List.getElem?_map]
    cases n.base[i]? with
    | none => rfl
    | some c => rfl
  · rw [List.getElem?_append_right (by omega), eight, getElem?_rightpad (by omega), List.getElem?_map]
    cases n.ending[i - 8]? with
    | none => rfl
    | some c => rfl

/-- The bytes that the name does not reach are those of the memory. -/
theorem getShortName_eq_iff (junk : Nat → Byte) (n : FileName) :
    (getShortName junk n.text).toList = n.encoded ↔ ∀ i, n.Pad i → junk i = 0x20 := by
  have here : ∀ i (inside : i < 11), (getShortName junk n.text).toList[i]? = n.encoded[i]? ↔
      (n.Pad i → junk i = 0x20) := fun i inside => by
    have short := n.base_short
    rw [Vector.getElem?_toList, Vector.getElem?_eq_getElem inside, getElem_getShortName junk n inside,
      getElem?_encoded n inside, Option.some.injEq]
    split
    · by_cases within : i < n.base.length
      · rw [List.getElem?_eq_getElem within]
        refine iff_of_true rfl fun pad => ?_
        unfold Pad at pad
        omega
      · rw [List.getElem?_eq_none (by omega)]
        have pad : n.Pad i := .inl ⟨by omega, by assumption⟩
        exact (imp_iff_right pad).symm
    · by_cases within : i - 8 < n.ending.length
      · rw [List.getElem?_eq_getElem within]
        refine iff_of_true rfl fun pad => ?_
        unfold Pad at pad
        omega
      · rw [List.getElem?_eq_none (by omega)]
        have pad : n.Pad i := .inr ⟨by omega, inside⟩
        exact (imp_iff_right pad).symm
  constructor
  · intro same i pad
    have inside : i < 11 := by
      unfold Pad at pad
      omega
    exact (here i inside).mp (congrArg (·[i]?) same) pad
  · intro spaces
    refine List.ext_getElem? fun i => ?_
    by_cases inside : i < 11
    · exact (here i inside).mpr (spaces i)
    · rw [List.getElem?_eq_none (by simpa using inside),
        List.getElem?_eq_none (by rw [length_encoded]; omega)]

/-! ## What is compared -/

theorem encoded_eq_iff (n m : FileName) : n.encoded = m.encoded ↔
    (trimmed 0x20 (n.base.map toupper), trimmed 0x20 (n.ending.map toupper)) =
      (trimmed 0x20 (m.base.map toupper), trimmed 0x20 (m.ending.map toupper)) := by
  have base : ∀ n : FileName, (n.base.map toupper).length ≤ 8 := fun n => by
    rw [List.length_map]
    exact n.base_short
  have ending : ∀ n : FileName, (n.ending.map toupper).length ≤ 3 := fun n => by
    rw [List.length_map]
    exact n.ending_short
  have lengths : ((n.base.map toupper).rightpad 8 0x20).length =
      ((m.base.map toupper).rightpad 8 (0x20 : Byte)).length := by
    rw [length_rightpad (base n), length_rightpad (base m)]
  rw [Prod.mk.injEq, ← rightpad_eq_iff (base n) (base m), ← rightpad_eq_iff (ending n) (ending m),
    encoded, encoded]
  exact ⟨fun same => List.append_inj same lengths, fun both => congrArg₂ (· ++ ·) both.1 both.2⟩

end FileName

theorem toupper_dot : ∀ c : Byte, (toupper c == 0x2E) = (c == 0x2E) := by decide

/-- The case of the letters makes no difference. -/
theorem getShortName_congr (same : a.map toupper = b.map toupper) (junk : Nat → Byte) :
    getShortName junk a = getShortName junk b := by
  have index : ∀ l : List Byte, (l.map toupper).findIdx? (· == 0x2E) = l.findIdx? (· == 0x2E) := fun l => by
    rw [List.findIdx?_map]
    exact congrArg (l.findIdx? ·) (funext toupper_dot)
  have letter : ∀ (l : List Byte) (i : Nat) (d : Byte), (l[i]?).elim d toupper =
      ((l.map toupper)[i]?).getD d :=
    fun l i d => by
    rw [List.getElem?_map]
    cases l[i]? with
    | none => rfl
    | some c => rfl
  unfold getShortName
  rw [← index a, ← index b, same]
  simp only [letter, same]

/-- Two names get the right bytes and are found to be the same exactly when they are, if and
only if there are spaces already where they are needed, and no two names are taken that
differ in spaces alone. -/
theorem shortNames_iff (junk junk' : Nat → Byte) (n m : FileName) :
    ((getShortName junk n.text).toList = n.encoded ∧ (getShortName junk' m.text).toList = m.encoded ∧
      (getShortName junk n.text = getShortName junk' m.text ↔ n.text.map toupper = m.text.map toupper)) ↔
    (∀ i, n.Pad i → junk i = 0x20) ∧ (∀ i, m.Pad i → junk' i = 0x20) ∧ ¬ n.OnlySpacesApart m := by
  rw [n.getShortName_eq_iff junk, m.getShortName_eq_iff junk']
  refine and_congr_right fun left => and_congr_right fun right => ?_
  have first := (n.getShortName_eq_iff junk).mpr left
  have second := (m.getShortName_eq_iff junk').mpr right
  have compared : getShortName junk n.text = getShortName junk' m.text ↔ n.encoded = m.encoded := by
    rw [← first, ← second]
    exact Vector.toList_inj.symm
  have upper : n.text.map toupper = m.text.map toupper → n.encoded = m.encoded := fun same => by
    have spaces := getShortName_congr same fun _ => 0x20
    rw [← (n.getShortName_eq_iff fun _ => 0x20).mpr fun _ _ => rfl,
      ← (m.getShortName_eq_iff fun _ => 0x20).mpr fun _ _ => rfl, spaces]
  rw [compared, FileName.OnlySpacesApart, ← n.encoded_eq_iff m]
  constructor
  · rintro exactly ⟨same, differ⟩
    exact differ (exactly.mp same)
  · intro apart
    refine ⟨fun same => ?_, upper⟩
    by_contra differ
    exact apart ⟨same, differ⟩

/-- `D`, without an extension. -/
def letterD : FileName where
  base := [0x44]
  extension := none
  base_pos := by decide
  base_short := by decide
  base_plain := by
    intro c member
    rw [List.mem_singleton.mp member]
    decide
  extension_pos := fun e held => by cases held
  extension_short := fun e held => by cases held
  extension_plain := fun e held => by cases held

/-- In memory that holds zeros, it does not get the name of its entry in a directory. -/
theorem getShortName_unpadded : letterD.text = [0x44] ∧
    (getShortName (fun _ => 0) letterD.text).toList = [0x44, 0, 0, 0, 0, 0, 0, 0, 0, 0, 0] ∧
    letterD.encoded = [0x44, 0x20, 0x20, 0x20, 0x20, 0x20, 0x20, 0x20, 0x20, 0x20, 0x20] :=
  ⟨rfl, by decide, by decide⟩

end Laomb.FS
