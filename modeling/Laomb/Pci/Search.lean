import Laomb.Pci.Scan

/-! What `pci_get_device` finds, against the functions that a walk over the bridges would meet. -/
namespace Laomb.Pci
open VFS FirstHit

variable {cfg : Config} {q : Query} {r dev : PciDev} {bus device function fuel : Nat}

/-- The ids and the type asked for, as the header of a function has them. -/
def Query.Matches (q : Query) (cfg : Config) (bus device function : Nat) : Prop :=
  cfg.vendorId bus device function = q.vendorId.toNat ∧ cfg.deviceId bus device function = q.deviceId.toNat ∧
    (q.deviceType = -1 ∨ q.deviceType = cfg.type bus device function)

instance (q : Query) (cfg : Config) (bus device function : Nat) :
    Decidable (q.Matches cfg bus device function) :=
  inferInstanceAs (Decidable (_ ∧ _))

def Wanted (cfg : Config) (q : Query) : Prop :=
  ∃ bus device function, Relation.ReflTransGen cfg.Bridges 0 bus ∧ cfg.Present bus device function ∧
    q.Matches cfg bus device function

/-- `r` is the address of a function with the ids and the type asked for. -/
def Query.Names (q : Query) (cfg : Config) (r : PciDev) : Prop :=
  ∃ bus < 2 ^ 8, ∃ device < 2 ^ 5, ∃ function < 2 ^ 3,
    r = pciDev bus device function ∧ q.Matches cfg bus device function

def Complete (cfg : Config) (q : Query) (r : PciDev) : Prop :=
  (Wanted cfg q → r ≠ 0 ∧ q.Names cfg r) ∧ (¬ Wanted cfg q → r = 0)

/-- Some place of bus 0 or of a bus of the host bridge matches, and is not the zero address.
The upper bits of a function number beyond 7 go into the device number. -/
def Visible (cfg : Config) (q : Query) : Prop :=
  ∃ bus ∈ 0 :: hostBuses cfg, ∃ p ∈ places cfg bus,
    q.Matches cfg bus (p.1 ||| p.2 / 2 ^ 3) (p.2 % 2 ^ 3) ∧ (bus, p.1, p.2) ≠ (0, 0, 0)

theorem pciDev_spill (count : function < 2 ^ 5) :
    pciDev bus device function = pciDev bus (device ||| function / 2 ^ 3) (function % 2 ^ 3) := by
  have upper : BitVec.ofNat 32 (function / 2 ^ 3) = BitVec.ofNat 32 function >>> 3 := by
    apply BitVec.eq_of_toNat_eq
    simp only [BitVec.toNat_ofNat, BitVec.toNat_ushiftRight, Nat.shiftRight_eq_div_pow]
    omega
  have lower : BitVec.ofNat 32 (function % 2 ^ 3) = BitVec.ofNat 32 function &&& 0x7 := by
    apply BitVec.eq_of_toNat_eq
    have masked := Nat.and_two_pow_sub_one_eq_mod (function % 2 ^ 32) 3
    change function % 2 ^ 3 % 2 ^ 32 = function % 2 ^ 32 &&& 2 ^ 3 - 1
    omega
  simp only [pciDev, setPciDevFunctionNum, setPciDevDeviceNum, setBits, BitVec.ofNat_or, upper, lower]
  refine BitVec.eq_of_getLsbD_eq fun i inside => ?_
  interval_cases i <;> simp [Bool.or_assoc]

theorem pciDev_eq_zero (small : bus < 2 ^ 8) (slot : device < 2 ^ 5) (function_ : function < 2 ^ 3)
    (zero : pciDev bus device function = 0) : bus = 0 ∧ device = 0 ∧ function = 0 := by
  obtain ⟨busField, deviceField, functionField, _⟩ := pciDev_fields small slot function_ (r := 0) (by decide)
  rw [zero] at busField deviceField functionField
  have bus_ := congrArg BitVec.toNat busField
  have device_ := congrArg BitVec.toNat deviceField
  have number := congrArg BitVec.toNat functionField
  simp only [BitVec.toNat_ofNat] at bus_ device_ number
  refine ⟨?_, ?_, ?_⟩
  · exact (Nat.mod_eq_of_lt (by omega)).symm.trans bus_.symm
  · exact (Nat.mod_eq_of_lt (by omega)).symm.trans device_.symm
  · exact (Nat.mod_eq_of_lt (by omega)).symm.trans number.symm

/-- The answer at an address is the address itself, if the registers there match. -/
theorem answer_pciDev (small : bus < 2 ^ 8) (slot : device < 2 ^ 5) (number : function < 2 ^ 3) :
    (q.answer cfg (pciDev bus device function) = pciDev bus device function ∧
      q.Matches cfg bus device function) ∨
      q.answer cfg (pciDev bus device function) = 0 ∧ ¬ q.Matches cfg bus device function := by
  unfold Query.answer Query.Matches
  rw [pciRead_vendorId cfg small slot number, pciRead_deviceId cfg small slot number,
    getDeviceType_pciDev cfg small slot number]
  split
  · rename_i type
    split
    · rename_i ids
      exact Or.inl ⟨rfl, ids.2.symm, ids.1, type⟩
    · rename_i ids
      exact Or.inr ⟨rfl, fun ⟨vendor, identity, _⟩ => ids ⟨identity, vendor.symm⟩⟩
  · rename_i type
    exact Or.inr ⟨rfl, fun ⟨_, _, kind⟩ => type kind⟩

theorem mem_places {p : Nat × Nat} (member : p ∈ places cfg bus) : p.1 < 2 ^ 5 ∧ p.2 < 2 ^ 5 := by
  obtain ⟨device, inside, rest⟩ := List.mem_flatMap.mp member
  obtain ⟨function, number, rfl⟩ := List.mem_map.mp rest
  refine ⟨List.mem_range.mp inside, ?_⟩
  unfold functionsOf at number
  split at number
  · exact absurd number List.not_mem_nil
  · split at number
    · rw [List.mem_singleton] at number
      omega
    · exact List.mem_range.mp number

theorem hostBuses_lt (member : bus ∈ 0 :: hostBuses cfg) : bus < 2 ^ 8 := by
  rcases List.mem_cons.mp member with rfl | further
  · decide
  · have range := List.mem_range'_1.mp (List.takeWhile_subset _ further)
    exact Nat.lt_of_lt_of_le range.2 (by decide)

/-- A place answers with a match, unless it is the first of all, whose address is zero. -/
theorem place_answer {p : Nat × Nat} (start : bus ∈ 0 :: hostBuses cfg) (member : p ∈ places cfg bus) :
    q.answer cfg (pciDev bus p.1 p.2) ≠ 0 ↔
      q.Matches cfg bus (p.1 ||| p.2 / 2 ^ 3) (p.2 % 2 ^ 3) ∧ (bus, p.1, p.2) ≠ (0, 0, 0) := by
  have small := hostBuses_lt start
  obtain ⟨slot, number⟩ := mem_places member
  have device : p.1 ||| p.2 / 2 ^ 3 < 2 ^ 5 := Nat.or_lt_two_pow slot (by omega)
  have function : p.2 % 2 ^ 3 < 2 ^ 3 := Nat.mod_lt _ (by decide)
  rw [pciDev_spill number]
  have zero : pciDev bus (p.1 ||| p.2 / 2 ^ 3) (p.2 % 2 ^ 3) = 0 ↔ (bus, p.1, p.2) = (0, 0, 0) := by
    constructor
    · intro none
      obtain ⟨bus_, device_, function_⟩ := pciDev_eq_zero small device function none
      obtain ⟨first, upper⟩ := Nat.or_eq_zero_iff.mp device_
      simp only [Prod.mk.injEq]
      omega
    · intro same
      obtain ⟨rfl, rest⟩ := Prod.mk.inj same
      obtain ⟨first, second⟩ := Prod.mk.inj rest
      rw [first, second]
      rfl
  rcases answer_pciDev (q := q) small device function with ⟨found, matches_⟩ | ⟨missed, differs⟩
  · rw [found, ne_eq, zero]
    exact (and_iff_right matches_).symm
  · rw [missed]
    exact iff_of_false (fun nonzero => nonzero rfl) fun ⟨matches_, _⟩ => differs matches_

theorem pciGetDevice_found (done : pciGetDevice cfg q fuel = some r) (found : r ≠ 0) :
    ∃ bus ∈ 0 :: hostBuses cfg, ∃ p ∈ places cfg bus, q.answer cfg (pciDev bus p.1 p.2) = r := by
  rw [pciGetDevice_eq] at done
  obtain ⟨start, member, scan⟩ := firstHit_found done found
  obtain ⟨item, inside, value⟩ := search_found scan found
  obtain ⟨p, place, rfl⟩ := List.mem_map.mp inside
  exact ⟨start, member, p, place, value⟩

theorem pciGetDevice_missed (done : pciGetDevice cfg q fuel = some 0) :
    ∀ bus ∈ 0 :: hostBuses cfg, ∀ p ∈ places cfg bus, q.answer cfg (pciDev bus p.1 p.2) = 0 := by
  rw [pciGetDevice_eq] at done
  intro start member p place
  exact search_zero (firstHit_zero.mp done start member) _ (List.mem_map.mpr ⟨p, place, rfl⟩)

theorem pciGetDevice_visible (done : pciGetDevice cfg q fuel = some r) : r ≠ 0 ↔ Visible cfg q := by
  constructor
  · intro found
    obtain ⟨start, member, p, place, rfl⟩ := pciGetDevice_found done found
    exact ⟨start, member, p, place, (place_answer member place).mp found⟩
  · rintro ⟨start, member, p, place, seen⟩ rfl
    exact (place_answer member place).mpr seen (pciGetDevice_missed done start member p place)

theorem pciGetDevice_names (done : pciGetDevice cfg q fuel = some r) (found : r ≠ 0) : q.Names cfg r := by
  obtain ⟨start, member, p, place, value⟩ := pciGetDevice_found done found
  obtain ⟨slot, number⟩ := mem_places place
  have small := hostBuses_lt member
  have device : p.1 ||| p.2 / 2 ^ 3 < 2 ^ 5 := Nat.or_lt_two_pow slot (by omega)
  have function : p.2 % 2 ^ 3 < 2 ^ 3 := Nat.mod_lt _ (by decide)
  rw [pciDev_spill number] at value
  rcases answer_pciDev (q := q) small device function with ⟨address, matches_⟩ | ⟨missed, _⟩
  · exact ⟨start, small, _, device, _, function, value.symm.trans address, matches_⟩
  · exact absurd (value.symm.trans missed) found

/-- What is wanted is returned, if the scan of bus 0 and of the host bridge's buses sees it. -/
theorem pciGetDevice_finds_iff (done : pciGetDevice cfg q fuel = some r) :
    (Wanted cfg q → r ≠ 0 ∧ q.Names cfg r) ↔ (Wanted cfg q → Visible cfg q) := by
  constructor
  · intro hit wanted
    exact (pciGetDevice_visible done).mp (hit wanted).1
  · intro seen wanted
    have found := (pciGetDevice_visible done).mpr (seen wanted)
    exact ⟨found, pciGetDevice_names done found⟩

/-- Nothing else is returned, if what that scan sees is there. -/
theorem pciGetDevice_misses_iff (done : pciGetDevice cfg q fuel = some r) :
    (¬ Wanted cfg q → r = 0) ↔ (Visible cfg q → Wanted cfg q) := by
  constructor
  · intro miss visible
    by_contra absent
    exact (pciGetDevice_visible done).mpr visible (miss absent)
  · intro real absent
    by_contra found
    exact absent (real ((pciGetDevice_visible done).mp found))

/-- A search that returns meets its purpose exactly where the scan of bus 0 and of the
host bridge's buses sees a match if and only if there is one behind the bridges. -/
theorem pciGetDevice_complete_iff (done : pciGetDevice cfg q fuel = some r) :
    Complete cfg q r ↔ (Wanted cfg q ↔ Visible cfg q) := by
  rw [Complete, pciGetDevice_finds_iff done, pciGetDevice_misses_iff done]
  exact iff_def.symm

/-- The host bridge at 00:00.0, a bridge to bus 1 that also reads 1 as its programming
interface, and a network card behind it. -/
def behindBridge : Config := fun bus device function register =>
  if (bus, device, function) = (0, 0, 0) then
    [0x86, 0x80, 0x37, 0x12, 0, 0, 0, 0, 0, 0, 0x00, 0x06, 0, 0, 0].getD register 0
  else if (bus, device, function) = (0, 1, 0) then
    [0x86, 0x80, 0x4e, 0x24, 0, 0, 0, 0, 0, 1, 0x04, 0x06, 0, 0, 1,
      0, 0, 0, 0, 0, 0, 0, 0, 0, 0, 1].getD register 0
  else if (bus, device, function) = (1, 0, 0) then
    [0xEC, 0x10, 0x39, 0x81, 0, 0, 0, 0, 0, 0, 0x00, 0x02, 0, 0, 0].getD register 0
  else 0xFF

/-- The bridge itself is found: it is present and bus 0 shows it. -/
theorem behindBridge_bridge : pciGetDevice behindBridge ⟨0x8086, 0x244e, -1⟩ 2 = some (pciDev 0 1 0) ∧
    Complete behindBridge ⟨0x8086, 0x244e, -1⟩ (pciDev 0 1 0) := by
  have done : pciGetDevice behindBridge ⟨0x8086, 0x244e, -1⟩ 2 = some (pciDev 0 1 0) := by decide +kernel
  have wanted : Wanted behindBridge ⟨0x8086, 0x244e, -1⟩ :=
    ⟨0, 1, 0, .refl, by decide +kernel, by decide +kernel⟩
  have visible : Visible behindBridge ⟨0x8086, 0x244e, -1⟩ :=
    ⟨0, List.mem_cons_self, (1, 0), by decide +kernel, by decide +kernel, by decide +kernel⟩
  exact ⟨done, (pciGetDevice_complete_iff done).mpr (iff_of_true wanted visible)⟩

theorem behindBridge_card : pciGetDevice behindBridge ⟨0x10EC, 0x8139, -1⟩ 2 = some 0 ∧
    ¬ Complete behindBridge ⟨0x10EC, 0x8139, -1⟩ 0 := by
  constructor
  · decide +kernel
  · intro complete
    have bridge : behindBridge.Bridges 0 1 := ⟨1, 0, by decide +kernel, by decide +kernel, by decide +kernel⟩
    have card : Wanted behindBridge ⟨0x10EC, 0x8139, -1⟩ :=
      ⟨1, 0, 0, .single bridge, by decide +kernel, by decide +kernel⟩
    exact (complete.1 card).1 rfl

end Laomb.Pci
