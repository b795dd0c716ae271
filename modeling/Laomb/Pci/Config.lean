import Laomb.VFS.Node

/-! `pci.h` and the register access of `pci.c`: device addresses as 32-bit words,
and reads of the configuration space through the two ports. -/
namespace Laomb.Pci
open VFS

abbrev PciDev := BitVec 32

/-- The bytes of the configuration space, by bus, device, function and register. -/
abbrev Config := (bus device function register : Nat) → Byte

/-- A `SET_PCI_DEV_` macro, which does not mask the value it puts in. -/
def setBits (mask : PciDev) (shift : Nat) (bits : PciDev) (val : Nat) : PciDev :=
  (bits &&& ~~~mask) ||| (BitVec.ofNat 32 val <<< shift)

def setPciDevEnable : PciDev → Nat → PciDev := setBits (1 <<< 31) 31

def setPciDevBusNum : PciDev → Nat → PciDev := setBits (0xFF <<< 16) 16

def setPciDevDeviceNum : PciDev → Nat → PciDev := setBits (0x1F <<< 11) 11

def setPciDevFunctionNum : PciDev → Nat → PciDev := setBits (0x7 <<< 8) 8

def setPciDevFieldNum : PciDev → Nat → PciDev := setBits (0x3F <<< 2) 2

def pciVendorId : Nat := 0x00
def pciDeviceId : Nat := 0x02
def pciSubclass : Nat := 0x0a
def pciClass : Nat := 0x0b
def pciHeaderType : Nat := 0x0e
/-- `PCI_SECONDARY_BUS`: the register that others call the programming interface. -/
def pciSecondaryBus : Nat := 0x09

def pciTypeBridge : Nat := 0x0604
def pciNone : Nat := 0xFFFF

/-- `pci_size_map` after `pci_init`. -/
def pciSizeMap (field : Nat) : Nat :=
  if field ∈ [0x00, 0x02, 0x04, 0x06] then 2
  else if field ∈ [0x0a, 0x0b, 0x0c, 0x0d, 0x0e, 0x0f, 0x3C, 0x09] then 1
  else if field ∈ [0x10, 0x14, 0x18, 0x1C, 0x20, 0x24] then 4
  else 0

/-- The byte at `PCI_CONFIG_DATA + offset` after `address` went to `PCI_CONFIG_ADDRESS`. -/
def Config.port (cfg : Config) (address : PciDev) (offset : Nat) : Nat :=
  (cfg ((address >>> 16) &&& 0xFF).toNat ((address >>> 11) &&& 0x1F).toNat ((address >>> 8) &&& 0x7).toNat
    ((address &&& 0xFC).toNat + offset)).toNat

def pciRead (cfg : Config) (dev : PciDev) (field : Nat) : Nat :=
  let dev := setPciDevFieldNum dev ((field &&& 0xFC) >>> 2)
  let dev := setPciDevEnable dev 1
  match pciSizeMap field with
  | 1 => cfg.port dev (field &&& 3)
  | 2 => cfg.port dev (field &&& 2) + cfg.port dev ((field &&& 2) + 1) * 2 ^ 8
  | 4 => cfg.port dev 0 + cfg.port dev 1 * 2 ^ 8 + cfg.port dev 2 * 2 ^ 16 + cfg.port dev 3 * 2 ^ 24
  | _ => 0xffff

def getDeviceType (cfg : Config) (dev : PciDev) : Nat :=
  pciRead cfg dev pciClass <<< 8 ||| pciRead cfg dev pciSubclass

def getSecondaryBus (cfg : Config) (dev : PciDev) : Nat := pciRead cfg dev pciSecondaryBus

def pciReachEnd (cfg : Config) (dev : PciDev) : Bool := pciRead cfg dev pciHeaderType == 0

/-- The address that `pci_scan_function` puts together. -/
def pciDev (bus device function : Nat) : PciDev :=
  setPciDevFunctionNum (setPciDevDeviceNum (setPciDevBusNum 0 bus) device) function

/-- The four registers of a function at its place in the configuration space. -/
def Config.vendorId (cfg : Config) (bus device function : Nat) : Nat :=
  (cfg bus device function 0).toNat + (cfg bus device function 1).toNat * 2 ^ 8

def Config.deviceId (cfg : Config) (bus device function : Nat) : Nat :=
  (cfg bus device function 2).toNat + (cfg bus device function 3).toNat * 2 ^ 8

def Config.type (cfg : Config) (bus device function : Nat) : Nat :=
  (cfg bus device function 0x0b).toNat <<< 8 ||| (cfg bus device function 0x0a).toNat

variable {b d f : Nat}

/-- A field of `w` bits takes the value that is put in, and the other bits stay. -/
theorem getLsbD_setBits {mask bits : PciDev} {shift w v i : Nat} (small : v < 2 ^ w) (word : i < 32)
    (covers : mask.getLsbD i = decide (shift ≤ i ∧ i < shift + w)) :
    (setBits mask shift bits v).getLsbD i =
      if shift ≤ i ∧ i < shift + w then v.testBit (i - shift) else bits.getLsbD i := by
  rw [setBits, BitVec.getLsbD_or, BitVec.getLsbD_and, BitVec.getLsbD_not, covers, BitVec.getLsbD_shiftLeft,
    BitVec.getLsbD_ofNat]
  by_cases inside : shift ≤ i ∧ i < shift + w
  · simp [inside, word, Nat.not_lt.mpr inside.1, show i - shift < 32 by omega]
  · rw [if_neg inside]
    by_cases below : i < shift
    · simp [inside, word, below]
    · have clear : v.testBit (i - shift) = false :=
        Nat.testBit_lt_two_pow (small.trans_le (Nat.pow_le_pow_right (by decide) (by omega)))
      simp [inside, word, clear]

/-- Masked to its width, a field is the value that its bits make. -/
theorem field_eq {address mask : PciDev} {shift w v : Nat} (small : v < 2 ^ w)
    (covers : ∀ i < 32, mask.getLsbD i = decide (i < w))
    (bits : ∀ i < w, address.getLsbD (shift + i) = v.testBit i) :
    (address >>> shift) &&& mask = BitVec.ofNat 32 v := by
  refine BitVec.eq_of_getLsbD_eq fun i inside => ?_
  rw [BitVec.getLsbD_and, BitVec.getLsbD_ushiftRight, covers i inside, BitVec.getLsbD_ofNat]
  by_cases low : i < w
  · simp [low, inside, bits i low]
  · have clear : v.testBit i = false :=
      Nat.testBit_lt_two_pow (small.trans_le (Nat.pow_le_pow_right (by decide) (Nat.le_of_not_lt low)))
    simp [low, clear]

/-- The bits of an address, field by field. -/
theorem getLsbD_address {r i : Nat} (bus : b < 2 ^ 8) (device : d < 2 ^ 5) (function : f < 2 ^ 3)
    (field : r < 2 ^ 6) (word : i < 32) :
    (setPciDevEnable (setPciDevFieldNum (pciDev b d f) r) 1).getLsbD i =
      if 31 ≤ i ∧ i < 31 + 1 then (1 : Nat).testBit (i - 31)
      else if 2 ≤ i ∧ i < 2 + 6 then r.testBit (i - 2)
      else if 8 ≤ i ∧ i < 8 + 3 then f.testBit (i - 8)
      else if 11 ≤ i ∧ i < 11 + 5 then d.testBit (i - 11)
      else if 16 ≤ i ∧ i < 16 + 8 then b.testBit (i - 16)
      else false := by
  have enable : ∀ i < 32, ((1 <<< 31 : Nat) : PciDev).getLsbD i = decide (31 ≤ i ∧ i < 31 + 1) := by decide
  have register : ∀ i < 32, ((0x3F <<< 2 : Nat) : PciDev).getLsbD i = decide (2 ≤ i ∧ i < 2 + 6) := by decide
  have functionNum : ∀ i < 32, ((0x7 <<< 8 : Nat) : PciDev).getLsbD i =
      decide (8 ≤ i ∧ i < 8 + 3) := by decide
  have deviceNum : ∀ i < 32, ((0x1F <<< 11 : Nat) : PciDev).getLsbD i =
      decide (11 ≤ i ∧ i < 11 + 5) := by decide
  have busNum : ∀ i < 32, ((0xFF <<< 16 : Nat) : PciDev).getLsbD i = decide (16 ≤ i ∧ i < 16 + 8) := by decide
  rw [setPciDevEnable, getLsbD_setBits (by decide) word (enable i word)]
  rw [setPciDevFieldNum, getLsbD_setBits field word (register i word)]
  rw [pciDev, setPciDevFunctionNum, getLsbD_setBits function word (functionNum i word)]
  rw [setPciDevDeviceNum, getLsbD_setBits device word (deviceNum i word)]
  rw [setPciDevBusNum, getLsbD_setBits bus word (busNum i word), show (0 : PciDev).getLsbD i = false from
    BitVec.getLsbD_zero]

/-- The fields of an address come out of the port as they went in. -/
theorem pciDev_fields {r : Nat} (bus : b < 2 ^ 8) (device : d < 2 ^ 5) (function : f < 2 ^ 3)
    (field : r < 2 ^ 6) :
    (setPciDevEnable (setPciDevFieldNum (pciDev b d f) r) 1 >>> 16) &&& 0xFF = BitVec.ofNat 32 b ∧
    (setPciDevEnable (setPciDevFieldNum (pciDev b d f) r) 1 >>> 11) &&& 0x1F = BitVec.ofNat 32 d ∧
    (setPciDevEnable (setPciDevFieldNum (pciDev b d f) r) 1 >>> 8) &&& 0x7 = BitVec.ofNat 32 f ∧
    setPciDevEnable (setPciDevFieldNum (pciDev b d f) r) 1 &&& (0xFC : PciDev) = BitVec.ofNat 32 r <<< 2 := by
  have address {i : Nat} (word : i < 32) := getLsbD_address bus device function field word
  refine ⟨?_, ?_, ?_, ?_⟩
  · refine field_eq bus (by decide) fun i inside => ?_
    rw [address (by omega), if_neg (by omega), if_neg (by omega), if_neg (by omega), if_neg (by omega),
      if_pos (by omega), Nat.add_sub_cancel_left]
  · refine field_eq device (by decide) fun i inside => ?_
    rw [address (by omega), if_neg (by omega), if_neg (by omega), if_neg (by omega), if_pos (by omega),
      Nat.add_sub_cancel_left]
  · refine field_eq function (by decide) fun i inside => ?_
    rw [address (by omega), if_neg (by omega), if_neg (by omega), if_pos (by omega), Nat.add_sub_cancel_left]
  · have covers : ∀ i < 32, (0xFC : PciDev).getLsbD i = decide (2 ≤ i ∧ i < 2 + 6) := by decide
    refine BitVec.eq_of_getLsbD_eq fun i inside => ?_
    rw [BitVec.getLsbD_and, covers i inside, BitVec.getLsbD_shiftLeft, BitVec.getLsbD_ofNat]
    by_cases within : 2 ≤ i ∧ i < 2 + 6
    · rw [address inside, if_neg (by omega), if_pos within]
      simp [within, inside, Nat.not_lt.mpr within.1, show i - 2 < 32 by omega]
    · by_cases below : i < 2
      · simp [within, below]
      · have clear : r.testBit (i - 2) = false :=
          Nat.testBit_lt_two_pow (field.trans_le (Nat.pow_le_pow_right (by decide) (by omega)))
        simp [within, clear]

theorem port_pciDev (cfg : Config) {r : Nat} (bus : b < 2 ^ 8) (device : d < 2 ^ 5) (function : f < 2 ^ 3)
    (field : r < 2 ^ 6) (offset : Nat) :
    cfg.port (setPciDevEnable (setPciDevFieldNum (pciDev b d f) r) 1) offset =
      (cfg b d f (r * 4 + offset)).toNat := by
  obtain ⟨busField, deviceField, functionField, register⟩ := pciDev_fields bus device function field
  rw [Config.port, busField, deviceField, functionField, register, BitVec.toNat_shiftLeft]
  simp only [BitVec.toNat_ofNat, Nat.shiftLeft_eq]
  congr 2
  all_goals omega

theorem pciRead_vendorId (cfg : Config) (bus : b < 2 ^ 8) (device : d < 2 ^ 5) (function : f < 2 ^ 3) :
    pciRead cfg (pciDev b d f) pciVendorId = cfg.vendorId b d f := by
  have port := port_pciDev cfg bus device function (r := 0) (by decide)
  exact congrArg₂ (fun low high => low + high * 2 ^ 8) (port 0) (port 1)

theorem pciRead_deviceId (cfg : Config) (bus : b < 2 ^ 8) (device : d < 2 ^ 5) (function : f < 2 ^ 3) :
    pciRead cfg (pciDev b d f) pciDeviceId = cfg.deviceId b d f := by
  have port := port_pciDev cfg bus device function (r := 0) (by decide)
  exact congrArg₂ (fun low high => low + high * 2 ^ 8) (port 2) (port 3)

theorem getDeviceType_pciDev (cfg : Config) (bus : b < 2 ^ 8) (device : d < 2 ^ 5) (function : f < 2 ^ 3) :
    getDeviceType cfg (pciDev b d f) = cfg.type b d f := by
  have port := port_pciDev cfg bus device function (r := 2) (by decide)
  exact congrArg₂ (fun class_ subclass => class_ <<< 8 ||| subclass) (port 3) (port 2)

theorem getSecondaryBus_pciDev (cfg : Config) (bus : b < 2 ^ 8) (device : d < 2 ^ 5) (function : f < 2 ^ 3) :
    getSecondaryBus cfg (pciDev b d f) = (cfg b d f 0x09).toNat :=
  port_pciDev cfg bus device function (r := 2) (by decide) 1

theorem pciRead_headerType (cfg : Config) (bus : b < 2 ^ 8) (device : d < 2 ^ 5) (function : f < 2 ^ 3) :
    pciRead cfg (pciDev b d f) pciHeaderType = (cfg b d f 0x0e).toNat :=
  port_pciDev cfg bus device function (r := 3) (by decide) 2

end Laomb.Pci
