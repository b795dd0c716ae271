import Laomb.Base.Steps
import Laomb.FS.Search

/-! Lookups in the file allocation table of which some cannot read the disk. A failed read
leaves the bytes of the cache as they were, and the position moves all the same. -/
namespace Laomb.FS
open Word Steps

variable {content : Content} {read : Reader} {g g' : FatData} {c : Nat}

/-- A call of `fat_next_cluster`, and what the drive does for it. -/
structure TableCall where
  cluster : Nat
  read : Reader

/-- The sector of a cluster's entry is one of those that the cache is said to hold. -/
def FatData.Hits (g : FatData) (c : Nat) : Prop :=
  g.fatCashePosition ≤ c * 4 / 512 ∧ c * 4 / 512 < u32 (g.fatCashePosition + 5)

namespace TableCall

variable {call : TableCall} {calls : List TableCall}

def exec (g : FatData) (call : TableCall) : FatData := (g.fatNextCluster call.read call.cluster).1

/-- The cluster is one of the table, and a read that does not fail gives what is on disk. -/
structure Proper (content : Content) (v : Layout) (call : TableCall) : Prop where
  small : call.cluster < 2 ^ 28
  inside : call.cluster * 4 / 512 < v.sectorsPerFat
  honest : call.read (v.boot.reservedSectors + call.cluster * 4 / 512) 5 = none ∨
    call.read (v.boot.reservedSectors + call.cluster * 4 / 512) 5 =
      some (sectors content (v.boot.reservedSectors + call.cluster * 4 / 512) 5)

/-- The read that a miss needs succeeds. -/
def Loads (g : FatData) (call : TableCall) : Prop :=
  (call.read (g.boot.reservedSectors + call.cluster * 4 / 512) 5).isSome

/-- A call that finds its sector, or reads it, returns the entry. -/
def Answers (content : Content) (g : FatData) (call : TableCall) : Prop :=
  g.Hits call.cluster ∨ Loads g call →
    (g.fatNextCluster call.read call.cluster).2 = entryOf content g.toLayout call.cluster

/-- The call hits, or its read succeeds, or the bytes that a failure leaves in the cache are
those of the sectors it asked for. -/
def Harmless (content : Content) (g : FatData) (call : TableCall) : Prop :=
  g.Hits call.cluster ∨ Loads g call ∨
    g.fatCashe = sectors content (g.boot.reservedSectors + call.cluster * 4 / 512) 5

end TableCall

/-! ## One call -/

theorem FatData.Hits.fatNextCluster (hits : g.Hits c) (small : c < 2 ^ 28) (read : Reader) :
    g.fatNextCluster read c =
      (g, le32 (bytesOf g.fatCashe) (sub32 (c * 4) (u32 (g.fatCashePosition * 512)))) := by
  have index : u32 (c * 4) = c * 4 := u32_of_lt (by omega)
  have held : ¬(c * 4 / 512 < g.fatCashePosition ∨ u32 (g.fatCashePosition + 5) ≤ c * 4 / 512) :=
    not_or.mpr ⟨Nat.not_lt.mpr hits.1, Nat.not_le.mpr hits.2⟩
  simp only [FatData.fatNextCluster, index, if_neg held]

/-- A miss whose read fails moves the position and nothing else. -/
theorem fatNextCluster_fails (missed : ¬ g.Hits c) (small : c < 2 ^ 28)
    (room : g.boot.reservedSectors < 2 ^ 16)
    (failed : read (g.boot.reservedSectors + c * 4 / 512) 5 = none) :
    (g.fatNextCluster read c).1 = g.withCache g.fatCashe (c * 4 / 512) := by
  have index : u32 (c * 4) = c * 4 := u32_of_lt (by omega)
  have outside : c * 4 / 512 < g.fatCashePosition ∨ u32 (g.fatCashePosition + 5) ≤ c * 4 / 512 := by
    by_contra held
    obtain ⟨low, high⟩ := not_or.mp held
    exact missed ⟨Nat.not_lt.mp low, Nat.not_le.mp high⟩
  have kept : g.readFat read (c * 4 / 512) = g := by
    rw [FatData.readFat, u32_of_lt (by omega), failed]
  simp only [FatData.fatNextCluster, index, if_pos outside, kept, FatData.withCache]

namespace TableCall

variable {call : TableCall} {calls : List TableCall}

theorem exec_toLayout (g : FatData) (call : TableCall) : (exec g call).toLayout = g.toLayout := by
  unfold exec FatData.fatNextCluster FatData.readFat
  dsimp only
  split
  · cases call.read (u32 (g.boot.reservedSectors + u32 (call.cluster * 4) / 512)) 5 with
    | none => rfl
    | some => rfl
  · rfl

/-- A hit or a successful read keeps the cache coherent and gives the entry. -/
theorem spec (cached : Cached content g) (proper : Proper content g.toLayout call)
    (room : g.boot.reservedSectors < 2 ^ 16) (served : g.Hits call.cluster ∨ Loads g call) :
    Cached content (exec g call) ∧
      (g.fatNextCluster call.read call.cluster).2 = entryOf content g.toLayout call.cluster := by
  have small := proper.small
  have bound : g.boot.reservedSectors + call.cluster * 4 / 512 < 2 ^ 32 := by omega
  -- A hit does not look at the reader, so that any reader will do for it.
  obtain ⟨read, reads, same⟩ : ∃ read, Reads read content
      (g.boot.reservedSectors + call.cluster * 4 / 512) 5 ∧
        g.fatNextCluster call.read call.cluster = g.fatNextCluster read call.cluster := by
    rcases served with hits | loads
    · refine ⟨fun n count => some (sectors content n count), ⟨bound, rfl⟩, ?_⟩
      rw [hits.fatNextCluster small, hits.fatNextCluster small]
    · refine ⟨call.read, ⟨bound, ?_⟩, rfl⟩
      rcases proper.honest with failed | done
      · rw [Loads, failed] at loads
        cases loads
      · exact done
  obtain ⟨cashe, position, step, coherent⟩ := fatNextCluster_spec cached small reads
  rw [exec, same, step]
  exact ⟨coherent, rfl⟩

theorem keeps_iff (cached : Cached content g) (proper : Proper content g.toLayout call)
    (room : g.boot.reservedSectors < 2 ^ 16) :
    Cached content (exec g call) ∧ Answers content g call ↔ Harmless content g call := by
  by_cases served : g.Hits call.cluster ∨ Loads g call
  · have right := spec cached proper room served
    have harmless : Harmless content g call := served.imp_right .inl
    exact iff_of_true ⟨right.1, fun _ => right.2⟩ harmless
  · obtain ⟨missed, failed⟩ := not_or.mp served
    have none : call.read (g.boot.reservedSectors + call.cluster * 4 / 512) 5 = none :=
      Option.not_isSome_iff_eq_none.mp failed
    have small := proper.small
    have moved : exec g call = g.withCache g.fatCashe (call.cluster * 4 / 512) :=
      fatNextCluster_fails missed small room none
    rw [moved]
    constructor
    · rintro ⟨empty | ⟨_, holds⟩, _⟩
      · rw [withCache_fatCashePosition] at empty
        omega
      · exact .inr (.inr holds)
    · rintro (hits | loads | stale)
      · exact absurd hits missed
      · exact absurd loads failed
      · refine ⟨.inr ⟨?_, stale⟩, fun hit => absurd hit served⟩
        rw [withCache_fatCashePosition]
        omega

end TableCall

/-! ## Runs of calls -/

/-- The position is the sentinel, at which every call misses. -/
theorem fatInit_cached (initialised : fatInit read = some g) : Cached content g :=
  .inl (Session.fatInit_some initialised).2.1

theorem fatInit_boot (initialised : fatInit read = some g) :
    g.boot.reservedSectors < 2 ^ 16 ∧ g.fatCashe = Vector.replicate _ 0 := by
  obtain ⟨bytes, buffer, _, _, rfl⟩ := fatInit_eq initialised
  have low := (bytesOf bytes 14).isLt
  have high := (bytesOf bytes 15).isLt
  refine ⟨?_, rfl⟩
  change (bytesOf bytes 14).toNat + (bytesOf bytes 15).toNat * 2 ^ 8 < 2 ^ 16
  omega

/-- From `fat_init` on, the cache stays coherent and every call that hits or reads returns
the entry on disk, exactly as long as every call is harmless. -/
theorem run_coherent_iff (initialised : fatInit read = some g) {calls : List TableCall}
    (proper : ∀ call ∈ calls, call.Proper content g.toLayout) :
    (Cached content g ∧ Throughout TableCall.exec
        (fun g call => Cached content (TableCall.exec g call) ∧ call.Answers content g) g calls) ↔
      Throughout TableCall.exec (fun g call => call.Harmless content g) g calls := by
  have room := (fatInit_boot initialised).1
  rw [and_iff_right (fatInit_cached initialised)]
  refine throughout_iff (I := fun g' => Cached content g' ∧ g'.toLayout = g.toLayout) ?_ ?_
    ⟨fatInit_cached initialised, rfl⟩
  · rintro g' ⟨cached, layout⟩ call member
    exact TableCall.keeps_iff cached (layout ▸ proper call member) (by rw [layout]; exact room)
  · rintro g' ⟨cached, layout⟩ call member harmless
    have kept := (TableCall.keeps_iff cached (layout ▸ proper call member)
      (by rw [layout]; exact room)).mpr harmless
    exact ⟨kept.1, (call.exec_toLayout g').trans layout⟩

/-- Two lookups of the second cluster; the disk can be read for both. -/
theorem run_coherent_marked : ∃ g, fatInit markedRead = some g ∧ Cached markedVolume g ∧
    Throughout TableCall.exec
      (fun g call => Cached markedVolume (TableCall.exec g call) ∧ call.Answers markedVolume g) g
      [⟨2, markedRead⟩, ⟨2, markedRead⟩] := by
  obtain ⟨g, initialised, layout⟩ := marked_init
  have read : markedRead 1 5 = some (sectors markedVolume 1 5) := (markedRead_reads (by decide) 5).2
  have loads : ∀ g : FatData, g.toLayout = ⟨⟨1, 1, 1, 0, 0, 0, 1, 2⟩, 2, 1⟩ →
      TableCall.Loads g ⟨2, markedRead⟩ := by
    intro g layout
    rw [TableCall.Loads, layout]
    exact Option.isSome_iff_exists.mpr ⟨_, read⟩
  refine ⟨g, initialised, (run_coherent_iff initialised fun call member => ?_).mpr ⟨?_, ?_, trivial⟩⟩
  · have same : call = ⟨2, markedRead⟩ := by simpa using member
    subst same
    rw [layout]
    exact ⟨by decide, by decide, .inr read⟩
  · exact .inr (.inl (loads g layout))
  · exact .inr (.inl (loads _ ((TableCall.exec_toLayout g _).trans layout)))

theorem bytesOf_replicate_zero (n i : Nat) : bytesOf (Vector.replicate n (0 : Byte)) i = 0 := by
  rw [bytesOf, Vector.getElem?_replicate]
  split
  · rfl
  · rfl

/-- The first lookup after `fat_init` cannot read the disk; the second finds its sector in the
cache, and the entry there is that of no disk. -/
theorem failedRead_poisons : ∃ g, fatInit markedRead = some g ∧
    (∀ call ∈ [TableCall.mk 2 (fun _ _ => none), ⟨2, markedRead⟩], call.Proper markedVolume g.toLayout) ∧
    ¬ Throughout TableCall.exec
      (fun g call => Cached markedVolume (TableCall.exec g call) ∧ call.Answers markedVolume g) g
      [⟨2, fun _ _ => none⟩, ⟨2, markedRead⟩] := by
  obtain ⟨g, initialised, layout⟩ := marked_init
  obtain ⟨room, cleared⟩ := fatInit_boot initialised
  refine ⟨g, initialised, ?_, ?_⟩
  · intro call member
    constructor
    · rcases List.mem_pair.mp member with rfl | rfl
      · decide
      · decide
    · rw [layout]
      rcases List.mem_pair.mp member with rfl | rfl
      · decide
      · decide
    · rw [layout]
      rcases List.mem_pair.mp member with rfl | rfl
      · exact .inl rfl
      · exact .inr (markedRead_reads (n := 1) (by decide) 5).2
  · rintro ⟨_, ⟨_, answers⟩, _⟩
    have missed : ¬ g.Hits 2 := by
      rintro ⟨low, _⟩
      rw [(Session.fatInit_some initialised).2.1] at low
      omega
    have moved : TableCall.exec g ⟨2, fun _ _ => none⟩ = g.withCache g.fatCashe 0 :=
      fatNextCluster_fails missed (by decide) room rfl
    rw [moved] at answers
    have hits : (g.withCache g.fatCashe 0).Hits 2 := by
      constructor
      · exact Nat.zero_le _
      · rw [withCache_fatCashePosition]
        decide
    have wrong := answers (.inl hits)
    rw [hits.fatNextCluster (by decide), withCache_fatCashe, cleared, withCache_toLayout, layout] at wrong
    have zero : ∀ i, le32 (bytesOf (Vector.replicate (5 * 512) 0)) i = 0 := fun i => by
      simp only [le32, le16, bytesOf_replicate_zero]
      rfl
    have entry : entryOf markedVolume ⟨⟨1, 1, 1, 0, 0, 0, 1, 2⟩, 2, 1⟩ 2 = 0x0FFFFFFF := by decide +kernel
    rw [entry] at wrong
    cases (zero _).symm.trans wrong

end Laomb.FS
