import Mathlib.Tactic.IntervalCases
import Laomb.Base.FirstHit
import Laomb.Pci.Config

/-! The nested scan of `pci.c`. The nesting of `pci_scan_bus` has no bound of its own:
`fuel` is the depth the stack has room for, and `none` is a scan that went past it. -/
namespace Laomb.Pci
open VFS FirstHit

structure Query where
  vendorId : BitVec 16
  deviceId : BitVec 16
  deviceType : Int

def devicePerBus : Nat := 32
def functionPerDevice : Nat := 32

/-- What `pci_scan_function` returns after its nested scan. -/
def Query.answer (cfg : Config) (q : Query) (dev : PciDev) : PciDev :=
  if q.deviceType = -1 ∨ q.deviceType = getDeviceType cfg dev then
    if pciRead cfg dev pciDeviceId = q.deviceId.toNat ∧
      q.vendorId.toNat = pciRead cfg dev pciVendorId then dev
    else 0
  else 0

def pciScanFunction (cfg : Config) (q : Query) (pciScanBus : Nat → Option PciDev)
    (bus device function : Nat) : Option PciDev := do
  let dev := pciDev bus device function
  if getDeviceType cfg dev = pciTypeBridge then
    discard (pciScanBus (getSecondaryBus cfg dev))
  return q.answer cfg dev

def pciScanDevice (cfg : Config) (q : Query) (pciScanBus : Nat → Option PciDev)
    (bus device : Nat) : Option PciDev := do
  let dev := setPciDevDeviceNum (setPciDevBusNum 0 bus) device
  if pciRead cfg dev pciVendorId = pciNone then
    return 0
  let t ← pciScanFunction cfg q pciScanBus bus device 0
  if t ≠ 0 then
    return t
  if pciReachEnd cfg dev then
    return 0
  firstHit (fun function =>
    if pciRead cfg dev pciVendorId ≠ pciNone then pciScanFunction cfg q pciScanBus bus device function
    else some 0) (List.range' 1 (functionPerDevice - 1))

def pciScanBus (cfg : Config) (q : Query) : Nat → Nat → Option PciDev
  | 0, _ => none
  | fuel + 1, bus => firstHit (pciScanDevice cfg q (pciScanBus cfg q fuel) bus) (List.range devicePerBus)

/-- The functions of the host bridge that `pci_get_device` takes for further buses. -/
def hostBuses (cfg : Config) : List Nat :=
  (List.range' 1 (functionPerDevice - 1)).takeWhile fun function =>
    pciRead cfg (setPciDevFunctionNum 0 function) pciVendorId ≠ pciNone

def pciGetDevice (cfg : Config) (q : Query) (fuel : Nat) : Option PciDev := do
  let t ← pciScanBus cfg q fuel 0
  if t ≠ 0 then
    return t
  firstHit (pciScanBus cfg q fuel) (hostBuses cfg)

/-- The function numbers that the scan of a device goes through while it finds nothing. -/
def functionsOf (cfg : Config) (bus device : Nat) : List Nat :=
  if pciRead cfg (pciDev bus device 0) pciVendorId = pciNone then []
  else if pciReachEnd cfg (pciDev bus device 0) then [0]
  else List.range functionPerDevice

def places (cfg : Config) (bus : Nat) : List (Nat × Nat) :=
  (List.range devicePerBus).flatMap fun device => (functionsOf cfg bus device).map (device, ·)

/-- The nested scan and the answer of each place on a bus. -/
def items (cfg : Config) (q : Query) (bus : Nat) : List (Option Nat × PciDev) :=
  (places cfg bus).map fun p =>
    (if getDeviceType cfg (pciDev bus p.1 p.2) = pciTypeBridge then
        some (getSecondaryBus cfg (pciDev bus p.1 p.2)) else none,
      q.answer cfg (pciDev bus p.1 p.2))

/-- The scan of `bus` starts a scan of `next`. -/
def Leads (cfg : Config) (bus next : Nat) : Prop :=
  ∃ p ∈ places cfg bus, getDeviceType cfg (pciDev bus p.1 p.2) = pciTypeBridge ∧
    getSecondaryBus cfg (pciDev bus p.1 p.2) = next

variable {cfg : Config} {q : Query} {bus device function fuel : Nat}

theorem pciDev_first (bus device : Nat) :
    pciDev bus device 0 = setPciDevDeviceNum (setPciDevBusNum 0 bus) device := by
  refine BitVec.eq_of_getLsbD_eq fun i inside => ?_
  interval_cases i <;> simp [pciDev, setPciDevFunctionNum, setPciDevDeviceNum, setPciDevBusNum, setBits]

theorem pciScanFunction_eq (scan : Nat → Option PciDev) : pciScanFunction cfg q scan bus device function =
    (if getDeviceType cfg (pciDev bus device function) = pciTypeBridge then
        some (getSecondaryBus cfg (pciDev bus device function)) else none).elim
      (some (q.answer cfg (pciDev bus device function)))
      fun next => (scan next).map fun _ => q.answer cfg (pciDev bus device function) := by
  unfold pciScanFunction
  by_cases bridge : getDeviceType cfg (pciDev bus device function) = pciTypeBridge
  · simp only [if_pos bridge, Option.elim_some]
    cases scan (getSecondaryBus cfg (pciDev bus device function)) <;> rfl
  · simp only [if_neg bridge]
    rfl

theorem pciScanDevice_eq (scan : Nat → Option PciDev) : pciScanDevice cfg q scan bus device =
    firstHit (pciScanFunction cfg q scan bus device) (functionsOf cfg bus device) := by
  unfold pciScanDevice functionsOf
  rw [← pciDev_first]
  by_cases absent : pciRead cfg (pciDev bus device 0) pciVendorId = pciNone
  · simp only [if_pos absent]
    rfl
  · simp only [ne_eq, not_false_eq_true, if_true, absent]
    by_cases last : pciReachEnd cfg (pciDev bus device 0)
    · simp only [last, if_true]
      rfl
    · simp only [last, Bool.false_eq_true, if_false]
      rfl

theorem pciScanBus_eq : ∀ fuel bus, pciScanBus cfg q fuel bus = search (items cfg q) fuel bus
  | 0, _ => rfl
  | fuel + 1, bus => by
    have inner : pciScanBus cfg q fuel = search (items cfg q) fuel := funext (pciScanBus_eq fuel)
    have device : pciScanDevice cfg q (pciScanBus cfg q fuel) bus = fun device =>
        firstHit (pciScanFunction cfg q (pciScanBus cfg q fuel) bus device) (functionsOf cfg bus device) :=
      funext fun _ => pciScanDevice_eq _
    calc pciScanBus cfg q (fuel + 1) bus
      _ = firstHit (fun device => firstHit (pciScanFunction cfg q (pciScanBus cfg q fuel) bus device)
            (functionsOf cfg bus device)) (List.range devicePerBus) := by
        rw [pciScanBus, device]
      _ = firstHit (fun p => pciScanFunction cfg q (pciScanBus cfg q fuel) bus p.1 p.2) (places cfg bus) :=
        firstHit_flatMap _ _ _
      _ = search (items cfg q) (fuel + 1) bus := by
        rw [search, items, firstHit_map]
        simp only [pciScanFunction_eq, inner]

theorem pciGetDevice_eq :
    pciGetDevice cfg q fuel = firstHit (search (items cfg q) fuel) (0 :: hostBuses cfg) := by
  have scan : pciScanBus cfg q fuel = search (items cfg q) fuel := funext (pciScanBus_eq fuel)
  rw [pciGetDevice, scan]
  rfl

theorem getSecondaryBus_lt (dev : PciDev) : getSecondaryBus cfg dev < 2 ^ 8 := BitVec.isLt _

theorem enters_items : Enters (items cfg q) = Leads cfg := by
  funext bus next
  apply propext
  constructor
  · rintro ⟨t, member⟩
    obtain ⟨p, inside, split⟩ := List.mem_map.mp member
    by_cases bridge : getDeviceType cfg (pciDev bus p.1 p.2) = pciTypeBridge
    · rw [if_pos bridge] at split
      exact ⟨p, inside, bridge, Option.some.inj (Prod.mk.inj split).1⟩
    · rw [if_neg bridge] at split
      cases (Prod.mk.inj split).1
  · rintro ⟨p, inside, bridge, rfl⟩
    exact ⟨_, List.mem_map.mpr ⟨p, inside, by rw [if_pos bridge]⟩⟩

theorem reaches_finite (cfg : Config) (bus : Nat) :
    {next | Relation.ReflTransGen (Leads cfg) bus next}.Finite := by
  apply ((Set.finite_lt_nat (2 ^ 8)).insert bus).subset
  intro next path
  cases path with
  | refl => exact Set.mem_insert bus _
  | tail _ last =>
    obtain ⟨p, _, _, rfl⟩ := last
    exact Set.mem_insert_of_mem bus (getSecondaryBus_lt _)

/-- No class of a device reads as a negative number, so this query goes through every place. -/
def Query.none : Query := { vendorId := 0, deviceId := 0, deviceType := -2 }

theorem answer_none (cfg : Config) (dev : PciDev) : Query.answer cfg Query.none dev = 0 :=
  if_neg (by simp only [Query.none]; omega)

theorem items_none : ∀ item ∈ items cfg Query.none bus, item.2 = 0 := by
  intro item member
  obtain ⟨p, _, rfl⟩ := List.mem_map.mp member
  exact answer_none cfg (pciDev bus p.1 p.2)

theorem pciGetDevice_none (done : pciGetDevice cfg Query.none fuel = some t) :
    ∀ bus ∈ 0 :: hostBuses cfg, Acc (Function.swap (Leads cfg)) bus := by
  have misses : ∀ bus ∈ 0 :: hostBuses cfg, ∀ u, search (items cfg Query.none) fuel bus = some u → u = 0 :=
    fun bus _ u found => search_miss (fun _ => items_none) found
  rw [pciGetDevice_eq] at done
  have nothing : t = 0 := firstHit_miss misses done
  subst nothing
  intro bus member
  rw [← enters_items]
  exact grounded_of_search (fun _ => items_none) (firstHit_zero.mp done bus member)

/-- Every search returns if and only if no bus in reach leads back to itself by the
register that `get_secondary_bus` reads. -/
theorem pciGetDevice_returns_iff (cfg : Config) :
    (∀ q, ∃ fuel t, pciGetDevice cfg q fuel = some t) ↔
      ∀ start ∈ 0 :: hostBuses cfg, ∀ bus, Relation.ReflTransGen (Leads cfg) start bus →
        ¬ Relation.TransGen (Leads cfg) bus bus := by
  constructor
  · intro returns start member
    obtain ⟨fuel, t, done⟩ := returns Query.none
    exact (acc_iff_no_cycle (reaches_finite cfg start)).mp (pciGetDevice_none done start member)
  · intro acyclic q
    have each : ∀ start ∈ 0 :: hostBuses cfg, ∃ fuel t, search (items cfg q) fuel start = some t := by
      intro start member
      apply search_returns
      rw [enters_items]
      exact (acc_iff_no_cycle (reaches_finite cfg start)).mpr (acyclic start member)
    obtain ⟨fuel, done⟩ := search_common (0 :: hostBuses cfg) each
    obtain ⟨t, found⟩ := firstHit_returns done
    exact ⟨fuel, t, pciGetDevice_eq.trans found⟩

/-- A function that answers: function 0 of a device, or any function of a device whose
function 0 has the multi-function bit set. -/
def Config.Present (cfg : Config) (bus device function : Nat) : Prop :=
  device < 2 ^ 5 ∧ function < 2 ^ 3 ∧ cfg.vendorId bus device function ≠ pciNone ∧
    (function ≠ 0 → cfg.vendorId bus device 0 ≠ pciNone ∧ (cfg bus device 0 pciHeaderType).getLsbD 7)

instance (cfg : Config) (bus device function : Nat) : Decidable (cfg.Present bus device function) :=
  inferInstanceAs (Decidable (_ ∧ _))

/-- A bridge on `bus` whose header names `next` as its secondary bus. -/
def Config.Bridges (cfg : Config) (bus next : Nat) : Prop :=
  ∃ device function, cfg.Present bus device function ∧ cfg.type bus device function = pciTypeBridge ∧
    (cfg bus device function 0x19).toNat = next

/-- A host bridge, and beside it a bridge to the empty bus 1. -/
def oneBridge : Config := fun bus device function register =>
  if (bus, device, function) = (0, 0, 0) then
    [0x86, 0x80, 0x37, 0x12, 0, 0, 0, 0, 0, 0, 0x00, 0x06, 0, 0, 0].getD register 0
  else if (bus, device, function) = (0, 1, 0) then
    [0x86, 0x80, 0x4e, 0x24, 0, 0, 0, 0, 0, 0, 0x04, 0x06, 0, 0, 1,
      0, 0, 0, 0, 0, 0, 0, 0, 0, 0, 1].getD register 0
  else 0xFF

theorem oneBridge_host : functionsOf oneBridge 0 0 = [0] ∧
    getDeviceType oneBridge (pciDev 0 0 0) ≠ pciTypeBridge ∧
    Query.answer oneBridge ⟨0x10EC, 0x8139, -1⟩ (pciDev 0 0 0) = 0 := by decide

theorem oneBridge_bridge : functionsOf oneBridge 0 1 = List.range functionPerDevice ∧
    getDeviceType oneBridge (pciDev 0 1 0) = pciTypeBridge ∧
    getSecondaryBus oneBridge (pciDev 0 1 0) = 0 := by decide

theorem oneBridge_loops (fuel : Nat) : pciScanBus oneBridge ⟨0x10EC, 0x8139, -1⟩ fuel 0 = none := by
  induction fuel with
  | zero => rfl
  | succ fuel ih =>
    obtain ⟨first, plain, differs⟩ := oneBridge_host
    obtain ⟨all, bridge, back⟩ := oneBridge_bridge
    have missed : pciScanDevice oneBridge ⟨0x10EC, 0x8139, -1⟩
        (pciScanBus oneBridge ⟨0x10EC, 0x8139, -1⟩ fuel) 0 0 = some 0 := by
      simp only [pciScanDevice_eq, first, firstHit, pciScanFunction_eq, if_neg plain, differs,
        Option.elim_none]
      rfl
    have stuck : pciScanDevice oneBridge ⟨0x10EC, 0x8139, -1⟩
        (pciScanBus oneBridge ⟨0x10EC, 0x8139, -1⟩ fuel) 0 1 = none := by
      rw [pciScanDevice_eq, all, functionPerDevice, List.range_eq_range', List.range'_succ, firstHit,
        pciScanFunction_eq, if_pos bridge, back, Option.elim_some, ih]
      rfl
    rw [pciScanBus, devicePerBus, List.range_eq_range', List.range'_succ, firstHit_cons 0 missed,
      if_neg (not_not.mpr rfl), List.range'_succ, firstHit, stuck]
    rfl

theorem oneBridge_bridges {next : Nat} (bridge : oneBridge.Bridges bus next) : bus = 0 ∧ next = 1 := by
  obtain ⟨device, function, _, type, secondary⟩ := bridge
  simp only [Config.type, oneBridge] at type secondary
  by_cases host : (bus, device, function) = (0, 0, 0)
  · simp only [if_pos host] at type
    exact absurd type (by decide)
  · by_cases first : (bus, device, function) = (0, 1, 0)
    · simp only [if_neg host, if_pos first] at secondary
      exact ⟨(Prod.mk.inj first).1, secondary.symm⟩
    · simp only [if_neg host, if_neg first] at type
      exact absurd type (by decide)

/-- Bus 1 is empty, so no header leads back, but the register read holds the bus 0. -/
theorem oneBridge_endless : (∀ bus, ¬ Relation.TransGen oneBridge.Bridges bus bus) ∧
    ∀ fuel, pciGetDevice oneBridge ⟨0x10EC, 0x8139, -1⟩ fuel = none := by
  constructor
  · intro bus cycle
    obtain ⟨next, first, _⟩ := Relation.TransGen.head'_iff.mp cycle
    obtain ⟨last, _, final⟩ := Relation.TransGen.tail'_iff.mp cycle
    have start := (oneBridge_bridges first).1
    have stop := (oneBridge_bridges final).2
    omega
  · intro fuel
    rw [pciGetDevice, oneBridge_loops]
    rfl

end Laomb.Pci
