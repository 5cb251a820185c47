import CCore.Bio.Refine
import CCore.Fat.ByteArray

/-!
# Reading around the cache (`fat32_read_uncached`)

`fat32_read_uncached` is `fat32_read` with `sd_read_sector` in the place of
`disk_read`.  Both are `readVia` of the transfer they use, and both come down to
`fat32Read` on a flat disk: the one the cache stands for, or the device.
-/
namespace CCore.Fat

open Bytes Fs Loop List Option Nat Bio

/-- The bytes of a sector. -/
abbrev Sector := Nat → UInt8

/-- An array of sectors as a disk. -/
def flat (array : Nat → Sector) : Disk := fun a => array (a / 512) (a % 512)

def bufferOf (sectors : List Sector) : Nat → UInt8 := fun i =>
  sectors.getD (i / 512) (fun _ => 0) (i % 512)

section Via
variable {S : Type} (transfer : S → Nat → Nat → Option (List Sector × S)) (fat : FatSb)

def nextClusterVia (s : S) (cluster : Nat) : Option (Nat × S) := do
  let (sectors, s) ← transfer s (fat.fatSecOfClus cluster 1) 1
  some (word (bufferOf sectors) (fat.fatOffsetOfClus cluster), s)

def moveCursorVia (oldClusNum oldSecNum : Nat) (nfd : Fd) (s : S) : Option (Fd × S) :=
  let newClusNum := u32 (nfd.pos / fat.clusterSize)
  let newSecNum := u32 (nfd.pos / fat.sectorSize)
  if newClusNum ≠ oldClusNum then do
    let (next, s) ← nextClusterVia transfer fat s nfd.curClusNum
    some ({ nfd with
      curClusNum := next
      curSec := u32 (fat.firstSecOfClus next + nfd.pos % fat.clusterSize / fat.sectorSize) }, s)
  else some ({ nfd with curSec := u32 (nfd.curSec + (newSecNum + 2 ^ 32 - oldSecNum)) }, s)

/-- One turn of the loop, with the state of the block layer. -/
def readBlockVia (realCount oldClusNum oldSecNum : Nat) (turn : Reading × S) :
    Option (Reading × S) := do
  let posOffsetInBuf := turn.1.nfd.pos % fat.sectorSize
  let readsize := min (fat.bufSize - posOffsetInBuf) (realCount - turn.1.ncount)
  let (sectors, s) ← transfer turn.2 turn.1.nfd.curSec fat.readMaxSec
  let (nfd, s) ← moveCursorVia transfer fat oldClusNum oldSecNum
    { turn.1.nfd with pos := turn.1.nfd.pos + readsize } s
  some ({ nfd := nfd
          ncount := turn.1.ncount + readsize
          bytes := turn.1.bytes ++
            (List.range readsize).map fun i => bufferOf sectors (posOffsetInBuf + i) }, s)

def readVia (s : S) (nfd : Fd) (count : Nat) : Option ((Int × List UInt8 × Fd) × S) :=
  if nfd.flags &&& oDirectory ≠ 0 ∨ nfd.flags &&& oWronly ≠ 0 then some ((-einval, [], nfd), s)
  else if nfd.length < nfd.pos then some ((-efault, [], nfd), s)
  else
    let realCount := u32 (min count (nfd.length - nfd.pos))
    let oldClusNum := u32 (nfd.pos / fat.clusterSize)
    let oldSecNum := u32 (nfd.pos / fat.sectorSize)
    (whileLoop (fun turn => turn.1.ncount < realCount)
      (readBlockVia transfer fat realCount oldClusNum oldSecNum) realCount
      (⟨nfd, 0, []⟩, s)).map fun turn => ((realCount, turn.1.bytes, turn.1.nfd), turn.2)

end Via

variable {n : Nat}

/-- `fat32_read`, through the cache. -/
def fat32ReadCached (fat : FatSb) (c : Bio.Cache n Sector) (nfd : Fd) (count : Nat) :
    Option ((Int × List UInt8 × Fd) × Bio.Cache n Sector) :=
  readVia Bio.diskRead fat c nfd count

/-- `sd_read_sector`. -/
def sdReadSector (c : Bio.Cache n Sector) (sector count : Nat) :
    Option (List Sector × Bio.Cache n Sector) :=
  some ((Bio.sectorsFrom sector count).map c.device, c)

def fat32ReadUncached (fat : FatSb) (c : Bio.Cache n Sector) (nfd : Fd) (count : Nat) :
    Option ((Int × List UInt8 × Fd) × Bio.Cache n Sector) :=
  readVia sdReadSector fat c nfd count

/-- What the cache stands for: the valid buffer of a sector, or the device. -/
def logical (c : Bio.Cache n Sector) (sector : Nat) : Sector :=
  match Bio.lookup c 0 sector with
  | some b => if (c.bufs b).valid then (c.bufs b).data else c.device sector
  | none => c.device sector

section Refine
variable (vol : Volume) {S : Type} {transfer : S → Nat → Nat → Option (List Sector × S)}
  {array : Nat → Sector} {inv : S → Prop}

theorem bufferOf_map (sec count i : Nat) (inside : i < 512 * count) :
    bufferOf ((Bio.sectorsFrom sec count).map array) i = diskRead (flat array) sec i := by
  have turn : i / 512 < count := by omega
  have address : (512 * u32 (sec + i / 512) + i % 512) / 512 = u32 (sec + i / 512) := by omega
  have offset : (512 * u32 (sec + i / 512) + i % 512) % 512 = i % 512 := by omega
  unfold bufferOf diskRead flat Bio.sectorsFrom
  rw [address, offset, List.map_map, getD_eq_getElem _ _ (by simpa using turn)]
  simp

variable (answers : ∀ s sec count, inv s → ∃ s',
  transfer s sec count = some ((Bio.sectorsFrom sec count).map array, s') ∧ inv s')

include answers

theorem nextClusterVia_eq {s : S} (holds : inv s) (cluster : Nat) :
    ∃ s', nextClusterVia transfer vol.fat s cluster =
      some (nextCluster vol.fat (flat array) cluster, s') ∧ inv s' := by
  obtain ⟨s', run, kept⟩ := answers s (vol.fat.fatSecOfClus cluster 1) 1 holds
  refine ⟨s', ?_, kept⟩
  have offset : vol.fat.fatOffsetOfClus cluster + 4 ≤ 512 := by
    rw [FatSb.fatOffsetOfClus, u32, vol.bytsPerSec]
    omega
  rw [nextClusterVia, nextCluster, run]
  refine congrArg some (Prod.ext (word_congr ?_) rfl)
  intro k small
  exact bufferOf_map _ _ _ (by omega)

theorem moveCursorVia_eq {s : S} (holds : inv s) (oldClusNum oldSecNum : Nat) (nfd : Fd) :
    ∃ s', moveCursorVia transfer vol.fat oldClusNum oldSecNum nfd s =
      some (moveCursor vol.fat (flat array) oldClusNum oldSecNum nfd, s') ∧ inv s' := by
  unfold moveCursorVia moveCursor
  by_cases crossed : u32 (nfd.pos / vol.fat.clusterSize) ≠ oldClusNum
  · obtain ⟨s', run, kept⟩ := nextClusterVia_eq vol answers holds nfd.curClusNum
    refine ⟨s', ?_, kept⟩
    rw [if_pos crossed, if_pos crossed, run]
    rfl
  · refine ⟨s, ?_, holds⟩
    rw [if_neg crossed, if_neg crossed]

theorem readBlockVia_eq {s : S} (holds : inv s) (realCount oldClusNum oldSecNum : Nat)
    (reading : Reading) :
    ∃ s', readBlockVia transfer vol.fat realCount oldClusNum oldSecNum (reading, s) =
      some (readBlock vol.fat (flat array) realCount oldClusNum oldSecNum reading, s') ∧ inv s' := by
  obtain ⟨s₁, run₁, holds₁⟩ := answers s reading.nfd.curSec vol.fat.readMaxSec holds
  obtain ⟨s₂, run₂, holds₂⟩ := moveCursorVia_eq vol answers holds₁ oldClusNum oldSecNum
    { reading.nfd with
      pos := reading.nfd.pos + min (vol.fat.bufSize - reading.nfd.pos % vol.fat.sectorSize)
        (realCount - reading.ncount) }
  refine ⟨s₂, ?_, holds₂⟩
  have size : vol.fat.bufSize = 512 * vol.fat.readMaxSec := by
    have whole := vol.buf_eq
    rw [vol.readMaxSec_eq]
    exact whole
  rw [readBlockVia, readBlock, run₁]
  dsimp only [bind, Option.bind]
  rw [run₂]
  refine congrArg some (Prod.ext ?_ rfl)
  have copied : (List.range (min (vol.fat.bufSize - reading.nfd.pos % vol.fat.sectorSize)
      (realCount - reading.ncount))).map (fun i =>
        bufferOf ((Bio.sectorsFrom reading.nfd.curSec vol.fat.readMaxSec).map array)
          (reading.nfd.pos % vol.fat.sectorSize + i)) =
      (List.range (min (vol.fat.bufSize - reading.nfd.pos % vol.fat.sectorSize)
        (realCount - reading.ncount))).map (fun i =>
          diskRead (flat array) reading.nfd.curSec (reading.nfd.pos % vol.fat.sectorSize + i)) := by
    refine map_congr_left ?_
    intro i mem
    have small := mem_range.mp mem
    exact bufferOf_map _ _ _ (by omega)
  rw [copied]

theorem readLoopVia_eq (realCount oldClusNum oldSecNum fuel : Nat) {s : S} (holds : inv s)
    (reading : Reading) : ∃ s', whileLoop (fun turn => turn.1.ncount < realCount)
      (readBlockVia transfer vol.fat realCount oldClusNum oldSecNum) fuel (reading, s) =
    (whileLoop (fun r => r.ncount < realCount)
      (fun r => some (readBlock vol.fat (flat array) realCount oldClusNum oldSecNum r)) fuel
      reading).map (fun r => (r, s')) ∧ inv s' := by
  induction fuel generalizing s reading with
  | zero =>
    refine ⟨s, ?_, holds⟩
    unfold whileLoop
    by_cases more : reading.ncount < realCount
    · simp [more]
    · simp [more]
  | succ fuel ih =>
    unfold whileLoop
    by_cases more : reading.ncount < realCount
    · obtain ⟨s₁, run, holds₁⟩ :=
        readBlockVia_eq vol answers holds realCount oldClusNum oldSecNum reading
      obtain ⟨s₂, rest, holds₂⟩ := ih holds₁
        (readBlock vol.fat (flat array) realCount oldClusNum oldSecNum reading)
      refine ⟨s₂, ?_, holds₂⟩
      simp only [more, decide_true, if_true, run, bind_some]
      exact rest
    · exact ⟨s, by simp [more], holds⟩

theorem readVia_eq {s : S} (holds : inv s) (nfd : Fd) (count : Nat) :
    ∃ s', readVia transfer vol.fat s nfd count =
      (fat32Read vol.fat (flat array) nfd count).map (fun result => (result, s')) ∧ inv s' := by
  unfold readVia fat32Read
  by_cases denied : nfd.flags &&& oDirectory ≠ 0 ∨ nfd.flags &&& oWronly ≠ 0
  · exact ⟨s, by rw [if_pos denied, if_pos denied]; rfl, holds⟩
  rw [if_neg denied, if_neg denied]
  by_cases beyond : nfd.length < nfd.pos
  · exact ⟨s, by rw [if_pos beyond, if_pos beyond]; rfl, holds⟩
  rw [if_neg beyond, if_neg beyond]
  obtain ⟨s', loop, holds'⟩ := readLoopVia_eq vol answers
    (u32 (min count (nfd.length - nfd.pos))) (u32 (nfd.pos / vol.fat.clusterSize))
    (u32 (nfd.pos / vol.fat.sectorSize)) (u32 (min count (nfd.length - nfd.pos))) holds ⟨nfd, 0, []⟩
  refine ⟨s', ?_, holds'⟩
  dsimp only
  rw [loop, Option.map_map, Option.map_map]
  rfl

end Refine

variable {c : Bio.Cache n Sector} {array : Nat → Sector}

theorem logical_eq (idle : Bio.Idle c) (holds : Bio.Holds c array) : logical c = array := by
  funext sector
  unfold logical
  cases found : Bio.lookup c 0 sector with
  | none =>
    refine holds.clean_device sector ?_
    intro b hashed same
    exact absurd same (idle.lookup_none found hashed (holds.dev_zero b hashed))
  | some b =>
    obtain ⟨chained, dev, sectorno⟩ := lookup_some found
    have hashed := ((idle.chained b _).mp chained).1
    dsimp only
    by_cases valid : (c.bufs b).valid = true
    · rw [if_pos valid, holds.valid_data b hashed valid, sectorno]
    · rw [if_neg valid]
      refine holds.clean_device sector ?_
      intro b' hashed' same
      have only := idle.unique b' b hashed' hashed
        ((holds.dev_zero b' hashed').trans dev.symm) (same.trans sectorno.symm)
      by_contra dirty
      exact valid (only ▸ (holds.dirty_valid b' (by simpa using dirty)).2)

theorem fat32ReadCached_eq (vol : Volume) (pos : 0 < n) (idle : Bio.Idle c)
    (holds : Bio.Holds c array) (nfd : Fd) (count : Nat) :
    ∃ c', fat32ReadCached vol.fat c nfd count =
      (fat32Read vol.fat (flat array) nfd count).map (fun result => (result, c')) := by
  have answers : ∀ c sec count, Bio.Idle c ∧ Bio.Holds c array → ∃ c' : Bio.Cache n Sector,
      Bio.diskRead c sec count = some ((Bio.sectorsFrom sec count).map array, c') ∧
        Bio.Idle c' ∧ Bio.Holds c' array := by
    intro c sec count now
    exact readSectors_refines (Bio.sectorsFrom sec count) now.1 now.2 pos
  obtain ⟨c', run, _⟩ := readVia_eq vol answers ⟨idle, holds⟩ nfd count
  exact ⟨c', run⟩

theorem fat32ReadUncached_eq (vol : Volume) (c : Bio.Cache n Sector) (nfd : Fd) (count : Nat) :
    ∃ c', fat32ReadUncached vol.fat c nfd count =
      (fat32Read vol.fat (flat c.device) nfd count).map (fun result => (result, c')) := by
  have answers : ∀ s sec count, s = c → ∃ s',
      sdReadSector s sec count = some ((Bio.sectorsFrom sec count).map c.device, s') ∧ s' = c := by
    intro s sec count same
    rw [same]
    exact ⟨c, rfl, rfl⟩
  obtain ⟨c', run, _⟩ := readVia_eq vol answers rfl nfd count
  exact ⟨c', run⟩

/-- From every cache that the block layer can leave behind, the two calls agree for every
descriptor and count if the device has what the cache stands for. -/
theorem reads_agree_of_clean {n : Nat} (pos : 0 < n) (blank : Sector) (device : Nat → Sector)
    (ops : List (Bio.Op Sector)) (outs : List (List Sector)) (c : Bio.Cache n Sector)
    (reached : Bio.serve (Bio.binit n blank device) ops = some (outs, c))
    (clean : logical c = c.device) (vol : Volume) (nfd : Fd) (count : Nat) :
    (fat32ReadCached vol.fat c nfd count).map Prod.fst =
      (fat32ReadUncached vol.fat c nfd count).map Prod.fst := by
  obtain ⟨idle, holds⟩ := serve_stands ops (idle_binit blank device)
    (holds_binit blank device) pos reached
  rw [logical_eq idle holds] at clean
  rw [clean] at holds
  obtain ⟨c₁, cached⟩ := fat32ReadCached_eq vol pos idle holds nfd count
  obtain ⟨c₂, uncached⟩ := fat32ReadUncached_eq vol c nfd count
  rw [cached, uncached, Option.map_map, Option.map_map]
  rfl

/-- The sectors of `smallDisk`. -/
def smallSectors : Nat → Sector := fun sector i => smallDisk (512 * sector + i)

/-- Without the `bsync` the first byte comes back new through the cache and old
around it. -/
theorem uncached_read_stale :
    ((Bio.serve (Bio.binit 2 (fun _ => 0) smallSectors) [.write 9 [fun _ => 77]]).bind fun run =>
        fat32ReadCached smallVolume.fat run.2 (smallFile 0) 1).map (fun result => result.1.2.1) =
      some [77] ∧
    ((Bio.serve (Bio.binit 2 (fun _ => 0) smallSectors) [.write 9 [fun _ => 77]]).bind fun run =>
        fat32ReadUncached smallVolume.fat run.2 (smallFile 0) 1).map (fun result => result.1.2.1) =
      some [9] := by
  decide +kernel

end CCore.Fat
