import Mathlib.Algebra.GroupWithZero.Nat
import Mathlib.Data.Fin.VecNotation
import Mathlib.Data.Fintype.Basic
import Mathlib.Order.Fin.Basic
import Mathlib.Tactic.FinCases
import Laomb.Base.Loop
import Laomb.Base.Sampling

/-! `get_rtc_timestamp`, which reads the six registers of the clock one after another. The year is
read first and the seconds last, and the clock may tick between any two reads. -/
namespace Laomb.Io
open Loop Sampling

/-- The number that two decimal digits stand for. -/
def digits (b : BitVec 8) : Nat := b.toNat / 16 * 10 + b.toNat % 16

/-- The registers from year to seconds. -/
def registers : Fin 6 → BitVec 8 := ![0x09, 0x08, 0x07, 0x04, 0x02, 0x00]

/-- What `inb(CMOS_DATA)` reads at a moment with a register selected. The time does not go back. -/
structure Rtc where
  data : Nat → BitVec 8 → BitVec 8
  forward : Monotone fun t => toLex fun i => digits (data t (registers i))

/-- Year, month, day, hours, minutes and seconds at a moment. -/
def Rtc.time (rtc : Rtc) (t : Nat) (i : Fin 6) : Nat := digits (rtc.data t (registers i))

/-- A read of the data port takes the clock to the next moment. -/
def readRtcRegister (rtc : Rtc) (t : Nat) (reg : BitVec 8) : BitVec 8 × Nat := (rtc.data t reg, t + 1)

def isUpdating (rtc : Rtc) (t : Nat) : Bool × Nat := (rtc.data t 0x0A &&& 0x80 ≠ 0, t + 1)

def bcdToBinary (value : BitVec 8) : BitVec 8 := (value &&& 0x0F) + value / 16 * 10

/-- `while (is_updating())`. -/
def waitStep (rtc : Rtc) (t : Nat) : Nat ⊕ Nat :=
  let (updating, t) := isUpdating rtc t
  if updating then .inl t else .inr t

def getRegister (rtc : Rtc) (fuel : Nat) (reg : BitVec 8) (t : Nat) : Option (BitVec 8 × Nat) := do
  let t ← loop (waitStep rtc) fuel t
  let (value, t) := readRtcRegister rtc t reg
  some (bcdToBinary value, t)

def getSeconds (rtc : Rtc) (fuel : Nat) : Nat → Option (BitVec 8 × Nat) := getRegister rtc fuel 0x00

def getMinutes (rtc : Rtc) (fuel : Nat) : Nat → Option (BitVec 8 × Nat) := getRegister rtc fuel 0x02

def getHours (rtc : Rtc) (fuel : Nat) : Nat → Option (BitVec 8 × Nat) := getRegister rtc fuel 0x04

def getDayOfMonth (rtc : Rtc) (fuel : Nat) : Nat → Option (BitVec 8 × Nat) := getRegister rtc fuel 0x07

def getMonth (rtc : Rtc) (fuel : Nat) : Nat → Option (BitVec 8 × Nat) := getRegister rtc fuel 0x08

def getYear (rtc : Rtc) (fuel : Nat) : Nat → Option (BitVec 8 × Nat) := getRegister rtc fuel 0x09

/-- The timestamp, and the moment after the last read. -/
def getRtcTimestamp (rtc : Rtc) (fuel t : Nat) : Option (BitVec 64 × Nat) := do
  let timestamp : BitVec 64 := 0
  let (year, t) ← getYear rtc fuel t
  let timestamp := timestamp ||| BitVec.ofNat 64 (year.toNat + 2000) <<< 40
  let (month, t) ← getMonth rtc fuel t
  let timestamp := timestamp ||| month.setWidth 64 <<< 32
  let (day, t) ← getDayOfMonth rtc fuel t
  let timestamp := timestamp ||| day.setWidth 64 <<< 24
  let (hours, t) ← getHours rtc fuel t
  let timestamp := timestamp ||| hours.setWidth 64 <<< 16
  let (minutes, t) ← getMinutes rtc fuel t
  let timestamp := timestamp ||| minutes.setWidth 64 <<< 8
  let (seconds, t) ← getSeconds rtc fuel t
  let timestamp := timestamp ||| seconds.setWidth 64
  some (timestamp, t)

/-- The timestamp of a time. -/
def pack (time : Fin 6 → Nat) : Nat :=
  (time 0 + 2000) * 2 ^ 40 + time 1 * 2 ^ 32 + time 2 * 2 ^ 24 + time 3 * 2 ^ 16 + time 4 * 2 ^ 8 + time 5

structure Call where
  start : Nat
  finish : Nat
  timestamp : BitVec 64
deriving DecidableEq

/-- Calls one after another, with some time before each of them. -/
def calls (rtc : Rtc) (fuel : Nat) : (t : Nat) → (idle : List Nat) → Option (List Call)
  | _, [] => some []
  | t, wait :: idle => do
    let start := t + wait
    let (timestamp, finish) ← getRtcTimestamp rtc fuel start
    let rest ← calls rtc fuel finish idle
    some (⟨start, finish, timestamp⟩ :: rest)

/-- When the call that begins at `t` reads its registers, counted from the year on. -/
def readTime (rtc : Rtc) (fuel t : Nat) : Nat → Option Nat
  | 0 => loop (waitStep rtc) fuel t
  | i + 1 => do
    let t ← readTime rtc fuel t i
    loop (waitStep rtc) fuel (t + 1)

def ReadsAt (rtc : Rtc) (fuel t : Nat) (moments : Fin 6 → Nat) : Prop :=
  ∀ i : Fin 6, readTime rtc fuel t i = some (moments i)

variable {rtc : Rtc} {fuel t finish : Nat} {timestamp : BitVec 64} {moments : Fin 6 → Nat} {cs : List Call}

theorem bcdToBinary_digits : ∀ value, (bcdToBinary value).toNat = digits value := by decide

theorem digits_lt : ∀ value, digits value < 2 ^ 8 := by decide

theorem time_lt (rtc : Rtc) (t : Nat) (i : Fin 6) : rtc.time t i < 2 ^ 8 := digits_lt _

theorem wait_lt {s : Nat} (done : loop (waitStep rtc) fuel t = some s) : t < s := by
  induction fuel generalizing t with
  | zero => cases done
  | succ fuel ih =>
    by_cases updating : (isUpdating rtc t).1
    · have again : waitStep rtc t = .inl (t + 1) := if_pos updating
      rw [loop_inl again] at done
      exact Nat.lt_of_succ_lt (ih done)
    · have stop : waitStep rtc t = .inr (t + 1) := if_neg updating
      rw [loop_inr stop] at done
      cases done
      exact Nat.lt_succ_self t

theorem getRegister_some {reg value : BitVec 8} {s : Nat}
    (done : getRegister rtc fuel reg t = some (value, s)) :
    ∃ moment, loop (waitStep rtc) fuel t = some moment ∧ value = bcdToBinary (rtc.data moment reg) ∧
      s = moment + 1 := by
  obtain ⟨moment, ready, rest⟩ := Option.bind_eq_some_iff.mp done
  cases rest
  exact ⟨moment, ready, rfl, rfl⟩

/-- A byte put under what is in the bits above it. -/
theorem or_byte (x k : Nat) {b : Nat} (small : b < 2 ^ 8) :
    x <<< (k + 8) ||| b <<< k = (x * 2 ^ 8 + b) <<< k := by
  have low : b <<< k < 2 ^ (k + 8) := by
    rw [Nat.shiftLeft_eq, Nat.pow_add, Nat.mul_comm]
    exact Nat.mul_lt_mul_of_pos_left small (Nat.two_pow_pos k)
  rw [← Nat.shiftLeft_add_eq_or_of_lt low]
  simp only [Nat.shiftLeft_eq, Nat.pow_add, Nat.add_mul, Nat.mul_assoc, Nat.mul_comm (2 ^ k)]

theorem shifted_toNat {x w k : Nat} (small : x < 2 ^ w) (fits : w + k ≤ 64) :
    (BitVec.ofNat 64 x <<< k).toNat = x <<< k := by
  have inside : x <<< k < 2 ^ 64 := by
    rw [Nat.shiftLeft_eq]
    calc x * 2 ^ k < 2 ^ w * 2 ^ k := Nat.mul_lt_mul_of_pos_right small (Nat.two_pow_pos k)
      _ = 2 ^ (w + k) := (Nat.pow_add 2 w k).symm
      _ ≤ 2 ^ 64 := Nat.pow_le_pow_right (by decide) fits
  have word : x < 2 ^ 64 := Nat.lt_of_lt_of_le small (Nat.pow_le_pow_right (by decide) (by omega))
  rw [BitVec.toNat_shiftLeft, BitVec.toNat_ofNat, Nat.mod_eq_of_lt word, Nat.mod_eq_of_lt inside]

theorem byte_toNat (b : BitVec 8) {k : Nat} (fits : 8 + k ≤ 64) :
    (b.setWidth 64 <<< k).toNat = b.toNat <<< k := by
  rw [← BitVec.ofNat_toNat]
  exact shifted_toNat b.isLt fits

theorem timestamp_toNat (year month day hours minutes seconds : BitVec 8) :
    ((0 : BitVec 64) ||| BitVec.ofNat 64 (year.toNat + 2000) <<< 40 ||| month.setWidth 64 <<< 32 |||
      day.setWidth 64 <<< 24 ||| hours.setWidth 64 <<< 16 ||| minutes.setWidth 64 <<< 8 |||
      seconds.setWidth 64).toNat =
    (year.toNat + 2000) * 2 ^ 40 + month.toNat * 2 ^ 32 + day.toNat * 2 ^ 24 + hours.toNat * 2 ^ 16 +
      minutes.toNat * 2 ^ 8 + seconds.toNat := by
  have last : seconds.setWidth 64 = seconds.setWidth 64 <<< 0 := (BitVec.shiftLeft_zero _).symm
  have century : year.toNat + 2000 < 2 ^ 12 := by
    have bound := year.isLt
    omega
  rw [BitVec.ofNat_eq_ofNat, BitVec.zero_or, last]
  simp only [BitVec.toNat_or]
  rw [shifted_toNat century (by decide), byte_toNat _ (by decide), byte_toNat _ (by decide),
    byte_toNat _ (by decide), byte_toNat _ (by decide), byte_toNat _ (by decide), or_byte _ 32 month.isLt,
    or_byte _ 24 day.isLt, or_byte _ 16 hours.isLt, or_byte _ 8 minutes.isLt, or_byte _ 0 seconds.isLt,
    Nat.shiftLeft_zero]
  omega

theorem readTime_succ {i m : Nat} (before : readTime rtc fuel t i = some m) :
    readTime rtc fuel t (i + 1) = loop (waitStep rtc) fuel (m + 1) := by
  rw [readTime, before]
  rfl

theorem getRtcTimestamp_some (done : getRtcTimestamp rtc fuel t = some (timestamp, finish)) :
    ∃ moments, ReadsAt rtc fuel t moments ∧ finish = moments 5 + 1 ∧
      timestamp.toNat = pack (sampled rtc.time moments) := by
  obtain ⟨⟨year, t₀⟩, first, done⟩ := Option.bind_eq_some_iff.mp done
  obtain ⟨⟨month, t₁⟩, second, done⟩ := Option.bind_eq_some_iff.mp done
  obtain ⟨⟨day, t₂⟩, third, done⟩ := Option.bind_eq_some_iff.mp done
  obtain ⟨⟨hours, t₃⟩, fourth, done⟩ := Option.bind_eq_some_iff.mp done
  obtain ⟨⟨minutes, t₄⟩, fifth, done⟩ := Option.bind_eq_some_iff.mp done
  obtain ⟨⟨seconds, t₅⟩, sixth, done⟩ := Option.bind_eq_some_iff.mp done
  obtain ⟨m₀, read₀, rfl, rfl⟩ := getRegister_some first
  obtain ⟨m₁, read₁, rfl, rfl⟩ := getRegister_some second
  obtain ⟨m₂, read₂, rfl, rfl⟩ := getRegister_some third
  obtain ⟨m₃, read₃, rfl, rfl⟩ := getRegister_some fourth
  obtain ⟨m₄, read₄, rfl, rfl⟩ := getRegister_some fifth
  obtain ⟨m₅, read₅, rfl, rfl⟩ := getRegister_some sixth
  have at₀ : readTime rtc fuel t 0 = some m₀ := read₀
  have at₁ : readTime rtc fuel t 1 = some m₁ := (readTime_succ at₀).trans read₁
  have at₂ : readTime rtc fuel t 2 = some m₂ := (readTime_succ at₁).trans read₂
  have at₃ : readTime rtc fuel t 3 = some m₃ := (readTime_succ at₂).trans read₃
  have at₄ : readTime rtc fuel t 4 = some m₄ := (readTime_succ at₃).trans read₄
  have at₅ : readTime rtc fuel t 5 = some m₅ := (readTime_succ at₄).trans read₅
  obtain ⟨stamp, ended⟩ := Prod.mk.inj (Option.some.inj done)
  refine ⟨![m₀, m₁, m₂, m₃, m₄, m₅], ?_, ended.symm, ?_⟩
  · intro i
    fin_cases i
    exacts [at₀, at₁, at₂, at₃, at₄, at₅]
  · rw [← stamp, timestamp_toNat]
    simp only [bcdToBinary_digits]
    rfl

theorem ReadsAt.order (reads : ReadsAt rtc fuel t moments) : t ≤ moments 0 ∧ Monotone moments := by
  constructor
  · exact (wait_lt (reads 0)).le
  · refine Fin.monotone_iff_le_succ.mpr fun i => ?_
    have before : readTime rtc fuel t i = some (moments i.castSucc) := reads i.castSucc
    have next := reads i.succ
    rw [Fin.val_succ, readTime_succ before] at next
    exact (Nat.lt_of_succ_lt (wait_lt next)).le

/-- Timestamps are in the order of the times that they stand for. -/
theorem pack_lt {x y : Fin 6 → Nat} (smallX : ∀ i, x i < 2 ^ 8) (less : toLex x < toLex y) :
    pack x < pack y := by
  obtain ⟨i, same, less⟩ := less
  have zero := smallX 0
  have one := smallX 1
  have two := smallX 2
  have three := smallX 3
  have four := smallX 4
  have five := smallX 5
  have before : ∀ j < i, x j = y j := same
  have here : x i < y i := less
  unfold pack
  match i with
  | 0 => omega
  | 1 =>
    have year := before 0 (by decide)
    omega
  | 2 =>
    have year := before 0 (by decide)
    have month := before 1 (by decide)
    omega
  | 3 =>
    have year := before 0 (by decide)
    have month := before 1 (by decide)
    have day := before 2 (by decide)
    omega
  | 4 =>
    have year := before 0 (by decide)
    have month := before 1 (by decide)
    have day := before 2 (by decide)
    have hours := before 3 (by decide)
    omega
  | 5 =>
    have year := before 0 (by decide)
    have month := before 1 (by decide)
    have day := before 2 (by decide)
    have hours := before 3 (by decide)
    have minutes := before 4 (by decide)
    omega

theorem pack_le {x y : Fin 6 → Nat} (smallX : ∀ i, x i < 2 ^ 8) (order : toLex x ≤ toLex y) :
    pack x ≤ pack y := by
  rcases order.eq_or_lt with same | below
  · rw [toLex_inj.mp same]
  · exact (pack_lt smallX below).le

theorem pack_le_iff {x y : Fin 6 → Nat} (smallX : ∀ i, x i < 2 ^ 8) (smallY : ∀ i, y i < 2 ^ 8) :
    pack x ≤ pack y ↔ toLex x ≤ toLex y := by
  refine ⟨fun order => ?_, pack_le smallX⟩
  by_contra beyond
  exact absurd (pack_lt smallY (not_le.mp beyond)) (not_lt.mpr order)

/-- The timestamp is between those of the times at the start and at the end of the call. -/
structure Between (rtc : Rtc) (c : Call) : Prop where
  lower : pack (rtc.time c.start) ≤ c.timestamp.toNat
  upper : c.timestamp.toNat ≤ pack (rtc.time c.finish)

/-- No register is read lower than it was at the start of the call, unless one that is read before it
is read higher. -/
def CarriesSeen (rtc : Rtc) (fuel : Nat) (c : Call) : Prop :=
  ∀ moments, ReadsAt rtc fuel c.start moments → Untorn rtc.time moments c.start

theorem sampled_lt (rtc : Rtc) (moments : Fin 6 → Nat) (i : Fin 6) :
    sampled rtc.time moments i < 2 ^ 8 := time_lt rtc _ i

/-- What is read is never later than the end of the call. -/
theorem timestamp_le_finish (done : getRtcTimestamp rtc fuel t = some (timestamp, finish)) :
    timestamp.toNat ≤ pack (rtc.time finish) := by
  obtain ⟨moments, reads, rfl, stamp⟩ := getRtcTimestamp_some done
  have after : ∀ i, moments i ≤ moments 5 + 1 := fun i =>
    (reads.order.2 (Fin.le_last i)).trans (Nat.le_succ _)
  rw [stamp]
  exact pack_le (sampled_lt rtc moments) (sampled_le rtc.forward reads.order.2 after)

theorem start_lt_finish (done : getRtcTimestamp rtc fuel t = some (timestamp, finish)) : t < finish := by
  obtain ⟨moments, reads, rfl, _⟩ := getRtcTimestamp_some done
  have order := reads.order.2 (Fin.zero_le 5)
  exact Nat.lt_succ_of_le (reads.order.1.trans order)

theorem start_le_timestamp_iff (done : getRtcTimestamp rtc fuel t = some (timestamp, finish)) :
    pack (rtc.time t) ≤ timestamp.toNat ↔ CarriesSeen rtc fuel ⟨t, finish, timestamp⟩ := by
  obtain ⟨moments, reads, rfl, stamp⟩ := getRtcTimestamp_some done
  rw [stamp, pack_le_iff (time_lt rtc t) (sampled_lt rtc moments), le_sampled_iff]
  refine ⟨fun untorn moments' reads' => ?_, fun seen => seen moments reads⟩
  have same : moments' = moments := funext fun i => Option.some.inj ((reads' i).symm.trans (reads i))
  exact same ▸ untorn

theorem between_iff (done : getRtcTimestamp rtc fuel t = some (timestamp, finish)) :
    Between rtc ⟨t, finish, timestamp⟩ ↔ CarriesSeen rtc fuel ⟨t, finish, timestamp⟩ := by
  rw [← start_le_timestamp_iff done]
  exact ⟨fun between => between.lower, fun lower => ⟨lower, timestamp_le_finish done⟩⟩

/-- Each call has returned what it has, and none has begun before the one before it was over. -/
theorem calls_each {idle : List Nat} (done : calls rtc fuel t idle = some cs) :
    (∀ c ∈ cs, t ≤ c.start ∧ getRtcTimestamp rtc fuel c.start = some (c.timestamp, c.finish)) ∧
      cs.Pairwise fun c d => c.finish ≤ d.start := by
  induction idle generalizing t cs with
  | nil =>
    cases done
    exact ⟨fun c member => absurd member List.not_mem_nil, .nil⟩
  | cons wait idle ih =>
    obtain ⟨⟨timestamp, finish⟩, first, done⟩ := Option.bind_eq_some_iff.mp done
    obtain ⟨rest, later, done⟩ := Option.bind_eq_some_iff.mp done
    cases done
    obtain ⟨each, order⟩ := ih later
    have past := start_lt_finish first
    constructor
    · intro c member
      rcases List.mem_cons.mp member with rfl | inside
      · exact ⟨Nat.le_add_right t wait, first⟩
      · obtain ⟨begun, returned⟩ := each c inside
        exact ⟨by omega, returned⟩
    · exact .cons (fun d member => (each d member).1) order

/-- All timestamps are between the times at the start and at the end of their calls, and they do not
decrease, if and only if no call takes a register that a carry has set back together with one that
the carry has not yet reached. -/
theorem timestamps_ordered_iff {idle : List Nat} (done : calls rtc fuel t idle = some cs) :
    ((∀ c ∈ cs, Between rtc c) ∧ cs.Pairwise fun c d => c.timestamp ≤ d.timestamp) ↔
      ∀ c ∈ cs, CarriesSeen rtc fuel c := by
  obtain ⟨each, order⟩ := calls_each done
  have all : (∀ c ∈ cs, Between rtc c) ↔ ∀ c ∈ cs, CarriesSeen rtc fuel c :=
    forall₂_congr fun c member => between_iff (each c member).2
  rw [← all, and_iff_left_of_imp]
  intro between
  refine List.Pairwise.imp_of_mem (fun {c d} first second apart => ?_) order
  have forward : pack (rtc.time c.finish) ≤ pack (rtc.time d.start) :=
    pack_le (time_lt rtc c.finish) (rtc.forward apart)
  exact (between c first).upper.trans (forward.trans (between d second).lower)

/-- One o'clock comes with the read of the minutes in the second of two calls. -/
def oneData (t : Nat) (reg : BitVec 8) : BitVec 8 :=
  if reg = 0x04 then if t < 20 then 0x12 else 0x13
  else if reg = 0x02 ∨ reg = 0x00 then if t < 20 then 0x59 else 0x00
  else 0x01

theorem oneData_time (t : Nat) : (fun i => digits (oneData t (registers i))) =
    if t < 20 then ![1, 1, 1, 12, 59, 59] else ![1, 1, 1, 13, 0, 0] := by
  unfold oneData
  by_cases early : t < 20
  · simp only [if_pos early]
    decide
  · simp only [if_neg early]
    decide

theorem oneData_order : toLex (![1, 1, 1, 12, 59, 59] : Fin 6 → Nat) < toLex ![1, 1, 1, 13, 0, 0] := by
  have same : ∀ j : Fin 6, j < 3 → (![1, 1, 1, 12, 59, 59] : Fin 6 → Nat) j = ![1, 1, 1, 13, 0, 0] j := by
    decide
  have less : (![1, 1, 1, 12, 59, 59] : Fin 6 → Nat) 3 < ![1, 1, 1, 13, 0, 0] 3 := by decide
  exact ⟨3, same, less⟩

def oneClock : Rtc where
  data := oneData
  forward s t order := by
    simp only [oneData_time]
    by_cases early : t < 20
    · rw [if_pos early, if_pos (by omega)]
    · rw [if_neg early]
      by_cases first : s < 20
      · rw [if_pos first]
        exact oneData_order.le
      · rw [if_neg first]

def oneCalls : List Call := [⟨0, 12, 0x7d101010c3b3b⟩, ⟨12, 24, 0x7d101010c0000⟩]

theorem oneClock_calls : calls oneClock 1 0 [0, 0] = some oneCalls := by decide

/-- The second call begins later, and reads the hours after the carry. -/
def laterCalls : List Call := [⟨0, 12, 0x7d101010c3b3b⟩, ⟨16, 28, 0x7d101010d0000⟩]

theorem oneClock_waits (t : Nat) : loop (waitStep oneClock) 1 t = some (t + 1) := by
  have status : oneData t 0x0A = 0x01 := by simp [oneData]
  have idle : ¬ (isUpdating oneClock t).1 = true := by
    change ¬ decide (oneData t 0x0A &&& 0x80 ≠ 0) = true
    rw [status]
    decide
  exact loop_inr (if_neg idle)

theorem oneClock_reads (t i : Nat) : readTime oneClock 1 t i = some (t + 1 + 2 * i) := by
  induction i with
  | zero => exact oneClock_waits t
  | succ i ih =>
    rw [readTime, ih]
    exact (oneClock_waits _).trans (congrArg some (by omega))

theorem timestamps_ordered_later :
    (∀ c ∈ laterCalls, Between oneClock c) ∧ laterCalls.Pairwise fun c d => c.timestamp ≤ d.timestamp := by
  have done : calls oneClock 1 0 [0, 4] = some laterCalls := by decide
  refine (timestamps_ordered_iff done).mpr fun c member moments reads => ?_
  have there : moments = fun i : Fin 6 => c.start + 1 + 2 * i.val :=
    funext fun i => Option.some.inj ((reads i).symm.trans (oneClock_reads c.start i))
  subst there
  rcases List.mem_pair.mp member with rfl | rfl
  · unfold Untorn
    decide
  · unfold Untorn
    decide

/-- 12:59:59 is followed by 12:00:00. -/
theorem timestamps_go_back : ¬ ∀ (rtc : Rtc) (fuel t : Nat) (idle : List Nat) (cs : List Call),
    calls rtc fuel t idle = some cs →
      (∀ c ∈ cs, Between rtc c) ∧ cs.Pairwise fun c d => c.timestamp ≤ d.timestamp := by
  intro all
  obtain ⟨_, order⟩ := all oneClock 1 0 [0, 0] _ oneClock_calls
  have next := List.rel_of_pairwise_cons order (List.mem_singleton.mpr rfl)
  exact absurd next (by decide)

end Laomb.Io
