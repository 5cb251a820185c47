import CCore.Fat.Geometry
import CCore.Lib.Bytes
import Mathlib.Data.List.Nodup
import Mathlib.Data.Nat.Bitwise

/-!
# The file allocation table (`next_cluster`, `write_fat_table`, `search_empty_cluster`)

The disk is the array of sectors that the buffer cache stands for, as a
function from byte addresses to bytes.  Each accessor of the source reads a
sector into a buffer, changes the buffer and writes it back; on a volume they
come down to words at fixed addresses, and the rest of the development uses
only those equations.
-/
namespace CCore.Fat

open Bytes List

abbrev Disk := Nat → UInt8

/-- The buffer that `disk_read` fills from sector `sec` on. -/
def diskRead (d : Disk) (sec : Nat) : Nat → UInt8 := fun i =>
  d (512 * u32 (sec + i / 512) + i % 512)

def putSector (d : Disk) (sec : Nat) (bytes : Nat → UInt8) : Disk := fun a =>
  if a / 512 = sec then bytes (a % 512) else d a

def diskWrite (d : Disk) (buffer : Nat → UInt8) (sec count : Nat) : Disk :=
  (List.range count).foldl
    (fun d i => putSector d (u32 (sec + i)) fun o => buffer (512 * i + o)) d

/-- `M_FAT32_EOC`. -/
def mEoc : Nat := 0x0fffffff

def fatMask : Nat := 0x0fffffff

def nextCluster (fat : FatSb) (d : Disk) (cluster : Nat) : Nat :=
  word (diskRead d (fat.fatSecOfClus cluster 1)) (fat.fatOffsetOfClus cluster)

/-- One of the two updates of `write_fat_table`. -/
def writeFatEntry (fat : FatSb) (d : Disk) (cluster fatNum value : Nat) : Disk :=
  diskWrite d
    (putWord (diskRead d (fat.fatSecOfClus cluster fatNum)) (fat.fatOffsetOfClus cluster) value)
    (fat.fatSecOfClus cluster fatNum) 1

def writeFatTable (fat : FatSb) (d : Disk) (oldClus newClus : Nat) : Disk :=
  let opClus := if oldClus ≠ 0 then oldClus else newClus
  let value := if oldClus ≠ 0 then fatMask &&& newClus else mEoc
  writeFatEntry fat (writeFatEntry fat d opClus 1 value) opClus 2 value

/-- Are the four bytes at byte `4 * index` of the table zero? -/
def entryIsEmpty (fat : FatSb) (d : Disk) (index : Nat) : Bool :=
  let sec := u32 (fat.firstDataSec + (2 ^ 32 - u32 (2 * fat.bpb.fatSz)) + index * 4 / fat.sectorSize)
  (List.range 4).all fun i => diskRead d sec (i + index * 4 % fat.sectorSize) == 0

/-- The scan of `search_empty_cluster`; nothing in the source bounds it. -/
def scanTable (fat : FatSb) (d : Disk) : Nat → Nat → Option Nat
  | 0, _ => none
  | fuel + 1, index => if entryIsEmpty fat d index then some index else scanTable fat d fuel (index + 1)

/-- The byte index `j` is a `uint32_t`: after `2 ^ 30` entries it has wrapped
around and the scan has failed for good. -/
def searchEmptyCluster (fat : FatSb) (d : Disk) : Option (Nat × Disk) :=
  (scanTable fat d (2 ^ 30) 0).map fun c => (c, writeFatTable fat d 0 c)

variable {d : Disk} {c k value : Nat}

theorem diskRead_eq {sec i : Nat} (fits : sec + i / 512 < 2 ^ 32) :
    diskRead d sec i = d (512 * sec + i) := by
  rw [diskRead, u32, Nat.mod_eq_of_lt fits]
  exact congrArg d (by omega)

theorem diskWrite_eq {buffer : Nat → UInt8} {sec count : Nat} (fits : sec + count ≤ 2 ^ 32) :
    diskWrite d buffer sec count = blit d (512 * sec) (512 * count) buffer := by
  induction count with
  | zero =>
    funext a
    have empty : ¬ (512 * sec ≤ a ∧ a < 512 * sec + 512 * 0) := by omega
    simp only [blit, if_neg empty]
    rfl
  | succ count ih =>
    have before := ih (by omega)
    unfold diskWrite at before ⊢
    rw [range_succ, foldl_append, before]
    funext a
    have sector : u32 (sec + count) = sec + count := by
      unfold u32
      omega
    simp only [foldl_cons, foldl_nil, putSector, sector, blit]
    rcases Nat.lt_or_ge a (512 * sec) with below | above
    · have other : a / 512 ≠ sec + count := by omega
      rw [if_neg other, if_neg (by omega), if_neg (by omega)]
    · rcases Nat.lt_or_ge a (512 * sec + 512 * count) with old | fresh
      · have room : a < 512 * sec + 512 * (count + 1) := by omega
        have other : a / 512 ≠ sec + count := by omega
        rw [if_neg other, if_pos ⟨above, old⟩, if_pos ⟨above, room⟩]
      · rcases Nat.lt_or_ge a (512 * sec + 512 * (count + 1)) with here | beyond
        · have same : a / 512 = sec + count := by omega
          have offset : 512 * count + a % 512 = a - 512 * sec := by omega
          rw [if_pos same, if_pos ⟨above, here⟩, offset]
        · have other : a / 512 ≠ sec + count := by omega
          rw [if_neg other, if_neg (by omega), if_neg (by omega)]

/-! ## Entries of the table on a volume -/

namespace Volume

variable (vol : Volume)

def entryAddr (k c : Nat) : Nat := 512 * (vol.fatStart + vol.fat.bpb.fatSz * k) + 4 * c

def entry (d : Disk) (c : Nat) : Nat := word d (vol.entryAddr 0 c)

/-- The first byte of the data area. -/
def dataStart : Nat := 512 * vol.fat.firstDataSec

theorem dataStart_eq : vol.dataStart = 512 * (vol.fatStart + 2 * vol.fat.bpb.fatSz) := by
  rw [dataStart, fatStart, vol.firstDataSec]

theorem entryAddr_zero (c : Nat) : vol.entryAddr 0 c = 512 * vol.fatStart + 4 * c := by
  simp [entryAddr]

theorem entryAddr_one (c : Nat) :
    vol.entryAddr 1 c = 512 * vol.fatStart + 512 * vol.fat.bpb.fatSz + 4 * c := by
  simp [entryAddr, Nat.mul_add]

theorem entryAddr_bound (inTable : c < vol.fat.dataClusCnt + 2) :
    4 * c + 4 ≤ 512 * vol.fat.bpb.fatSz := by
  have fit := vol.entries_fit
  omega

theorem entryAddr_lt_dataStart (second : k ≤ 1)
    (inTable : c < vol.fat.dataClusCnt + 2) : vol.entryAddr k c + 4 ≤ vol.dataStart := by
  have bound := vol.entryAddr_bound inTable
  rw [vol.dataStart_eq]
  have cases : k = 0 ∨ k = 1 := by omega
  rcases cases with rfl | rfl
  · rw [entryAddr_zero]
    omega
  · rw [entryAddr_one]
    omega

theorem fatSec_addr (second : k ≤ 1) (inTable : c < vol.fat.dataClusCnt + 2) :
    vol.fat.fatSecOfClus c (k + 1) < 2 ^ 32 ∧ vol.fat.fatOffsetOfClus c + 4 ≤ 512 ∧
      512 * vol.fat.fatSecOfClus c (k + 1) + vol.fat.fatOffsetOfClus c = vol.entryAddr k c := by
  have bound := vol.entryAddr_lt_dataStart second inTable
  have range := vol.in_range'
  have clusters := vol.clusters_le
  have start : vol.dataStart = 512 * vol.fat.firstDataSec := rfl
  have addr : vol.entryAddr k c = 512 * vol.fat.copyStart k + 4 * c := rfl
  obtain ⟨sector, offset⟩ := FatSb.fatSecOfClus_eq vol.bytsPerSec (c := c) (k := k) (by omega)
    (by omega)
  rw [sector, offset]
  omega

theorem nextCluster_eq (inTable : c < vol.fat.dataClusCnt + 2) :
    nextCluster vol.fat d c = vol.entry d c := by
  obtain ⟨small, offset, addr⟩ := vol.fatSec_addr (k := 0) (by omega) inTable
  rw [Nat.zero_add] at small addr
  unfold nextCluster entry
  apply word_congr
  intro i inside
  rw [diskRead_eq (by omega)]
  exact congrArg d (by omega)

theorem writeFatEntry_eq (second : k ≤ 1) (inTable : c < vol.fat.dataClusCnt + 2) :
    writeFatEntry vol.fat d c (k + 1) value = putWord d (vol.entryAddr k c) value := by
  obtain ⟨small, offset, addr⟩ := vol.fatSec_addr second inTable
  rw [writeFatEntry, diskWrite_eq (by omega)]
  funext a
  simp only [blit, putWord]
  by_cases inSector : 512 * vol.fat.fatSecOfClus c (k + 1) ≤ a ∧
      a < 512 * vol.fat.fatSecOfClus c (k + 1) + 512 * 1
  · rw [if_pos inSector]
    by_cases inEntry : vol.entryAddr k c ≤ a ∧ a < vol.entryAddr k c + 4
    · have inBuffer : vol.fat.fatOffsetOfClus c ≤ a - 512 * vol.fat.fatSecOfClus c (k + 1) ∧
          a - 512 * vol.fat.fatSecOfClus c (k + 1) < vol.fat.fatOffsetOfClus c + 4 := by omega
      have shift : a - 512 * vol.fat.fatSecOfClus c (k + 1) - vol.fat.fatOffsetOfClus c =
          a - vol.entryAddr k c := by omega
      rw [if_pos inBuffer, if_pos inEntry, shift]
    · have outBuffer : ¬ (vol.fat.fatOffsetOfClus c ≤ a - 512 * vol.fat.fatSecOfClus c (k + 1) ∧
          a - 512 * vol.fat.fatSecOfClus c (k + 1) < vol.fat.fatOffsetOfClus c + 4) := by omega
      rw [if_neg outBuffer, if_neg inEntry, diskRead_eq (by omega)]
      exact congrArg d (by omega)
  · have outEntry : ¬ (vol.entryAddr k c ≤ a ∧ a < vol.entryAddr k c + 4) := by omega
    rw [if_neg inSector, if_neg outEntry]

/-- Both copies of an entry are set. -/
def setEntry (d : Disk) (c value : Nat) : Disk :=
  putWord (putWord d (vol.entryAddr 0 c) value) (vol.entryAddr 1 c) value

theorem writeFatTable_mark (inTable : c < vol.fat.dataClusCnt + 2) :
    writeFatTable vol.fat d 0 c = vol.setEntry d c mEoc := by
  simp only [writeFatTable, setEntry, ne_eq, not_true_eq_false, if_false]
  rw [vol.writeFatEntry_eq (k := 0) (by omega) inTable,
    vol.writeFatEntry_eq (k := 1) (by omega) inTable]

theorem writeFatTable_link {next : Nat} (valid : vol.Valid c)
    (validNext : vol.Valid next) : writeFatTable vol.fat d c next = vol.setEntry d c next := by
  have clusters := vol.clusters_le
  have masked : fatMask &&& next = next := by
    have mask : fatMask = 2 ^ 28 - 1 := rfl
    rw [mask, Nat.and_comm, Nat.and_two_pow_sub_one_eq_mod]
    have upper := validNext.2
    omega
  have nonzero : c ≠ 0 := by
    have lower := valid.1
    omega
  simp only [writeFatTable, setEntry, ne_eq, nonzero, not_false_eq_true, if_true, masked]
  rw [vol.writeFatEntry_eq (k := 0) (by omega) valid.2,
    vol.writeFatEntry_eq (k := 1) (by omega) valid.2]

theorem setEntry_of_data {a : Nat} (inTable : c < vol.fat.dataClusCnt + 2)
    (data : vol.dataStart ≤ a) : vol.setEntry d c value a = d a := by
  have first := vol.entryAddr_lt_dataStart (k := 0) (by omega) inTable
  have second := vol.entryAddr_lt_dataStart (k := 1) (by omega) inTable
  rw [setEntry, putWord_of_outside (by omega), putWord_of_outside (by omega)]

theorem setEntry_of_reserved {a : Nat} (reserved : a < 512 * vol.fatStart) :
    vol.setEntry d c value a = d a := by
  have first := vol.entryAddr_zero c
  have second := vol.entryAddr_one c
  rw [setEntry, putWord_of_outside (by omega), putWord_of_outside (by omega)]

theorem entry_setEntry_self (inTable : c < vol.fat.dataClusCnt + 2)
    (small : value < 2 ^ 32) : vol.entry (vol.setEntry d c value) c = value := by
  have bound := vol.entryAddr_bound inTable
  have first := vol.entryAddr_zero c
  have second := vol.entryAddr_one c
  rw [entry, setEntry, word_putWord_of_disjoint (by omega), word_putWord_self small]

theorem entry_setEntry_other {x v : Nat} (inTable : x < vol.fat.dataClusCnt + 2) (other : x ≠ c) :
    vol.entry (vol.setEntry d c v) x = vol.entry d x := by
  have bound := vol.entryAddr_bound inTable
  have first := vol.entryAddr_zero c
  have second := vol.entryAddr_one c
  have other' := vol.entryAddr_zero x
  unfold entry setEntry
  rw [word_putWord_of_disjoint (by omega), word_putWord_of_disjoint (by omega)]

theorem entry_congr {d' : Disk} (inTable : c < vol.fat.dataClusCnt + 2)
    (same : ∀ a, a < vol.dataStart → d' a = d a) : vol.entry d' c = vol.entry d c := by
  have bound := vol.entryAddr_lt_dataStart (k := 0) (by omega) inTable
  unfold entry
  apply word_congr
  intro k inside
  apply same
  omega

theorem entryIsEmpty_eq (inTable : c < vol.fat.dataClusCnt + 2) :
    entryIsEmpty vol.fat d c = true ↔ vol.entry d c = 0 := by
  have bound := vol.entryAddr_lt_dataStart (k := 0) (by omega) inTable
  have range := vol.in_range'
  have start := vol.firstDataSec
  have data : vol.dataStart = 512 * vol.fat.firstDataSec := rfl
  have addr := vol.entryAddr_zero c
  have fatStart : vol.fatStart = vol.fat.bpb.rsvdSecCnt + vol.fat.bpb.hiddSec := rfl
  have sector : u32 (vol.fat.firstDataSec + (2 ^ 32 - u32 (2 * vol.fat.bpb.fatSz)) +
      c * 4 / 512) = vol.fatStart + c * 4 / 512 := by
    unfold u32
    omega
  rw [entryIsEmpty, entry, word_eq_zero_iff]
  simp only [vol.sectorSize_eq, sector, all_eq_true, mem_range, beq_iff_eq]
  constructor
  · intro empty k inside
    have zero := empty k inside
    rw [diskRead_eq (by omega)] at zero
    rw [← zero]
    exact congrArg d (by omega)
  · intro empty k inside
    rw [diskRead_eq (by omega), ← empty k inside]
    exact congrArg d (by omega)

end Volume
end CCore.Fat
