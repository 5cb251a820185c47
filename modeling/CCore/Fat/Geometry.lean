import Mathlib.Tactic.IntervalCases
import Mathlib.Tactic.Ring

/-!
# Volume geometry (`include/fs/fat32.h` and `fat32_init`)

All quantities are `uint32_t` in the source; `u32` marks the places where the
code's arithmetic wraps.
-/
namespace CCore.Fat

def u32 (n : Nat) : Nat := n % 2 ^ 32

structure Bpb where
  bytsPerSec : Nat
  secPerClus : Nat
  rsvdSecCnt : Nat
  fatCnt : Nat
  hiddSec : Nat
  totSec : Nat
  fatSz : Nat
  rootClus : Nat
  deriving DecidableEq, Repr

/-- The geometry fields of `fat_t`. -/
structure FatSb where
  firstDataSec : Nat
  dataSecCnt : Nat
  dataClusCnt : Nat
  bytsPerClus : Nat
  bpb : Bpb
  deriving DecidableEq, Repr

/-- What `fat32_init` derives from the BPB. -/
def fat32Init (bpb : Bpb) : FatSb :=
  let firstDataSec := u32 (bpb.rsvdSecCnt + bpb.hiddSec + bpb.fatCnt * bpb.fatSz)
  let dataSecCnt := u32 (bpb.totSec + (2 ^ 32 - firstDataSec))
  { firstDataSec := firstDataSec
    dataSecCnt := dataSecCnt
    dataClusCnt := dataSecCnt / bpb.secPerClus
    bytsPerClus := bpb.secPerClus * bpb.bytsPerSec
    bpb := bpb }

namespace FatSb

def sectorSize (fat : FatSb) : Nat := fat.bpb.bytsPerSec

def clusterSize (fat : FatSb) : Nat := fat.bytsPerClus

/-- `BUFSIZE`: a page or a cluster, whichever is smaller. -/
def bufSize (fat : FatSb) : Nat := min 4096 fat.clusterSize

def readMaxSec (fat : FatSb) : Nat := fat.bufSize / fat.sectorSize

def firstSecOfClus (fat : FatSb) (cluster : Nat) : Nat :=
  u32 (u32 (cluster + (2 ^ 32 - 2)) * fat.bpb.secPerClus + fat.firstDataSec)

def fatSecOfClus (fat : FatSb) (cluster fatNum : Nat) : Nat :=
  u32 (fat.bpb.rsvdSecCnt + fat.bpb.hiddSec + u32 (cluster * 4) / fat.bpb.bytsPerSec +
    fat.bpb.fatSz * (fatNum - 1))

def fatOffsetOfClus (fat : FatSb) (cluster : Nat) : Nat :=
  u32 (cluster * 4) % fat.bpb.bytsPerSec

def clusOfSec (fat : FatSb) (sector : Nat) : Nat :=
  u32 (u32 (sector + (2 ^ 32 - fat.firstDataSec)) / fat.bpb.secPerClus + 2)

def Cluster (fat : FatSb) (c : Nat) : Prop := 2 ≤ c ∧ c < fat.dataClusCnt + 2

/-- The first sector of the table number `k + 1`. -/
def copyStart (fat : FatSb) (k : Nat) : Nat :=
  fat.bpb.rsvdSecCnt + fat.bpb.hiddSec + fat.bpb.fatSz * k

/-- Two tables with an entry for every cluster, and a data area on the disk. -/
structure Areas (fat : FatSb) : Prop where
  bytsPerSec : fat.bpb.bytsPerSec = 512
  positive : 0 < fat.bpb.secPerClus
  firstDataSec : fat.firstDataSec = fat.bpb.rsvdSecCnt + fat.bpb.hiddSec + 2 * fat.bpb.fatSz
  entries_fit : 4 * (fat.dataClusCnt + 2) ≤ 512 * fat.bpb.fatSz
  clusters_le : fat.dataClusCnt + 2 ≤ 2 ^ 30
  in_range : fat.firstDataSec + fat.dataClusCnt * fat.bpb.secPerClus ≤ 2 ^ 32

variable {fat : FatSb} {bpb : Bpb} {c k : Nat}

theorem fatSecOfClus_eq (size : fat.bpb.bytsPerSec = 512) (small : 4 * c < 2 ^ 32)
    (inside : fat.copyStart k + 4 * c / 512 < 2 ^ 32) :
    fat.fatSecOfClus c (k + 1) = fat.copyStart k + 4 * c / 512 ∧
      fat.fatOffsetOfClus c = 4 * c % 512 := by
  unfold copyStart at *
  unfold fatSecOfClus fatOffsetOfClus u32
  rw [size, Nat.add_sub_cancel]
  omega

theorem last_le (valid : fat.Cluster c) : (c - 2) * fat.bpb.secPerClus + fat.bpb.secPerClus ≤
    fat.dataClusCnt * fat.bpb.secPerClus := by
  obtain ⟨lower, upper⟩ := valid
  rw [← Nat.succ_mul]
  exact Nat.mul_le_mul_right _ (by omega)

theorem Areas.firstSec (areas : fat.Areas) (valid : fat.Cluster c) :
    fat.firstSecOfClus c = fat.firstDataSec + (c - 2) * fat.bpb.secPerClus := by
  have last := last_le valid
  have positive := areas.positive
  have range := areas.in_range
  have clusters := areas.clusters_le
  obtain ⟨lower, upper⟩ := valid
  have index : u32 (c + (2 ^ 32 - 2)) = c - 2 := by
    unfold u32
    omega
  rw [firstSecOfClus, index, Nat.add_comm]
  exact Nat.mod_eq_of_lt (by omega)

theorem Areas.clusOfSec (areas : fat.Areas) (valid : fat.Cluster c)
    (inside : k < fat.bpb.secPerClus) : fat.clusOfSec (fat.firstSecOfClus c + k) = c := by
  have last := last_le valid
  have range := areas.in_range
  have clusters := areas.clusters_le
  obtain ⟨lower, upper⟩ := id valid
  have sector : u32 (fat.firstDataSec + (c - 2) * fat.bpb.secPerClus + k +
      (2 ^ 32 - fat.firstDataSec)) = fat.bpb.secPerClus * (c - 2) + k := by
    have swapped := Nat.mul_comm fat.bpb.secPerClus (c - 2)
    unfold u32
    omega
  unfold FatSb.clusOfSec
  rw [areas.firstSec valid, sector, Nat.mul_add_div areas.positive, Nat.div_eq_of_lt inside]
  unfold u32
  omega

theorem Areas.entry (areas : fat.Areas) (valid : fat.Cluster c) (second : k ≤ 1) :
    fat.fatSecOfClus c (k + 1) = fat.copyStart k + 4 * c / 512 ∧
      fat.fatOffsetOfClus c = 4 * c % 512 ∧ 4 * c / 512 < fat.bpb.fatSz ∧
      fat.copyStart k + fat.bpb.fatSz ≤ fat.firstDataSec := by
  obtain ⟨size, -, start, entries, clusters, range⟩ := areas
  obtain ⟨-, upper⟩ := valid
  have table : fat.bpb.fatSz * k ≤ fat.bpb.fatSz * 1 := Nat.mul_le_mul_left _ second
  have copies : fat.copyStart k + fat.bpb.fatSz ≤ fat.firstDataSec := by
    unfold copyStart
    omega
  obtain ⟨sector, offset⟩ := fatSecOfClus_eq (k := k) size (c := c) (by omega) (by omega)
  exact ⟨sector, offset, by omega, copies⟩

/-- What `fat32_init` computes when the tables and the data area lie on the disk. -/
theorem init_exact
    (tables : bpb.rsvdSecCnt + bpb.hiddSec + bpb.fatCnt * bpb.fatSz ≤ bpb.totSec)
    (total : bpb.totSec < 2 ^ 32) : (fat32Init bpb).firstDataSec =
      bpb.rsvdSecCnt + bpb.hiddSec + bpb.fatCnt * bpb.fatSz ∧
    (fat32Init bpb).firstDataSec + (fat32Init bpb).dataClusCnt * bpb.secPerClus ≤ bpb.totSec := by
  have start : (fat32Init bpb).firstDataSec =
      bpb.rsvdSecCnt + bpb.hiddSec + bpb.fatCnt * bpb.fatSz := Nat.mod_eq_of_lt (by omega)
  have sectors : (fat32Init bpb).dataSecCnt = bpb.totSec - (fat32Init bpb).firstDataSec := by
    show (bpb.totSec + (2 ^ 32 - (fat32Init bpb).firstDataSec)) % 2 ^ 32 = _
    omega
  have whole : (fat32Init bpb).dataClusCnt * bpb.secPerClus ≤ (fat32Init bpb).dataSecCnt :=
    Nat.div_mul_le_self _ _
  omega

end FatSb

/-! ## The areas of the disk -/

structure Admissible (bpb : Bpb) : Prop where
  bytsPerSec : bpb.bytsPerSec = 512
  secPerClus : ∃ k, bpb.secPerClus = 2 ^ k
  fatCnt : bpb.fatCnt = 2
  tables : bpb.rsvdSecCnt + bpb.hiddSec + bpb.fatCnt * bpb.fatSz ≤ bpb.totSec
  totSec : bpb.totSec < 2 ^ 32
  entries_fit : 4 * ((fat32Init bpb).dataClusCnt + 2) ≤ 512 * bpb.fatSz

structure GeometryRight (fat : FatSb) : Prop where
  back : ∀ c, fat.Cluster c → ∀ k < fat.bpb.secPerClus,
    fat.clusOfSec (fat.firstSecOfClus c + k) = c
  apart : ∀ c c', fat.Cluster c → fat.Cluster c' → ∀ k < fat.bpb.secPerClus,
    ∀ k' < fat.bpb.secPerClus, fat.firstSecOfClus c + k = fat.firstSecOfClus c' + k' → c = c'
  beyond : ∀ c, fat.Cluster c → ∀ k ≤ 1, fat.copyStart k + fat.bpb.fatSz ≤ fat.firstSecOfClus c
  injective : ∀ c c', fat.Cluster c → fat.Cluster c' → ∀ k ≤ 1, ∀ k' ≤ 1,
    fat.fatSecOfClus c (k + 1) = fat.fatSecOfClus c' (k' + 1) →
    fat.fatOffsetOfClus c = fat.fatOffsetOfClus c' → c = c' ∧ k = k'
  inside : ∀ c, fat.Cluster c → ∀ k ≤ 1, fat.copyStart k ≤ fat.fatSecOfClus c (k + 1) ∧
    fat.fatSecOfClus c (k + 1) < fat.copyStart k + fat.bpb.fatSz ∧
    fat.fatOffsetOfClus c + 4 ≤ 512
  /-- The largest value of every `uint32_t` expression before it is reduced. -/
  exact : fat.copyStart 2 < 2 ^ 32 ∧ fat.firstDataSec ≤ fat.bpb.totSec ∧ ∀ c, fat.Cluster c →
    c * 4 < 2 ^ 32 ∧ fat.firstDataSec + (c - 2) * fat.bpb.secPerClus + fat.bpb.secPerClus ≤ 2 ^ 32

theorem FatSb.Areas.right {fat : FatSb} (areas : fat.Areas)
    (on : fat.firstDataSec ≤ fat.bpb.totSec) (total : fat.bpb.totSec < 2 ^ 32) :
    GeometryRight fat := by
  refine ⟨?_, ?_, ?_, ?_, ?_, ?_, on, ?_⟩
  · exact fun c valid k inside => areas.clusOfSec valid inside
  · intro c c' valid valid' k inside k' inside' same
    rw [← areas.clusOfSec valid inside, same, areas.clusOfSec valid' inside']
  · intro c valid k second
    have copy := areas.entry valid second
    rw [areas.firstSec valid]
    omega
  · intro c c' valid valid' k second k' second' sector offset
    obtain ⟨sec, off, inside, -⟩ := areas.entry valid second
    obtain ⟨sec', off', inside', -⟩ := areas.entry valid' second'
    rw [sec, sec'] at sector
    rw [off, off'] at offset
    interval_cases k <;> interval_cases k' <;> simp only [FatSb.copyStart] at sector <;> omega
  · intro c valid k second
    obtain ⟨sec, off, inside, -⟩ := areas.entry valid second
    rw [sec, off]
    omega
  · have start := areas.firstDataSec
    unfold FatSb.copyStart
    omega
  · intro c valid
    have last := FatSb.last_le valid
    have range := areas.in_range
    have clusters := areas.clusters_le
    have upper := valid.2
    omega

/-- On a disk with two tables the geometry is right up to the number of clusters
from which on `cluster << 2` wraps. -/
theorem geometry_right_iff {bpb : Bpb} (admissible : Admissible bpb) :
    GeometryRight (fat32Init bpb) ↔ (fat32Init bpb).dataClusCnt + 2 ≤ 2 ^ 30 := by
  obtain ⟨size, ⟨k, power⟩, two, tables, total, entries⟩ := admissible
  obtain ⟨start, range⟩ := FatSb.init_exact tables total
  rw [two] at start
  constructor
  · intro right
    by_contra many
    have wrapped := right.exact.2.2 (2 ^ 30) ⟨by decide, by omega⟩
    omega
  · intro few
    have areas : (fat32Init bpb).Areas :=
      ⟨size, power ▸ Nat.two_pow_pos k, start, entries, few, range.trans total.le⟩
    exact areas.right ((Nat.le_add_right _ _).trans range) total

/-- Eight reserved sectors, two tables of one sector, 20 clusters of two sectors. -/
theorem small_geometry_right : GeometryRight (fat32Init ⟨512, 2, 8, 2, 0, 50, 1, 2⟩) :=
  (geometry_right_iff ⟨rfl, ⟨1, rfl⟩, rfl, by decide, by decide, by decide⟩).mpr (by decide)

/-- With `2 ^ 30 + 2` clusters of one sector, two clusters have the same entry. -/
theorem many_clusters_share_entry : ∃ bpb, Admissible bpb ∧ (fat32Init bpb).Cluster 2 ∧
    (fat32Init bpb).Cluster (2 ^ 30 + 2) ∧
    (fat32Init bpb).fatSecOfClus 2 1 = (fat32Init bpb).fatSecOfClus (2 ^ 30 + 2) 1 ∧
    (fat32Init bpb).fatOffsetOfClus 2 = (fat32Init bpb).fatOffsetOfClus (2 ^ 30 + 2) := by
  refine ⟨⟨512, 1, 0, 2, 0, 2 ^ 30 + 2 ^ 24 + 4, 2 ^ 23 + 1, 2⟩, ⟨rfl, ⟨0, rfl⟩, rfl, ?_, ?_, ?_⟩,
    ⟨?_, ?_⟩, ⟨?_, ?_⟩, ?_, ?_⟩
  all_goals decide

/-- A mounted volume: 512-byte sectors, a power of two of sectors per cluster,
two FATs that hold an entry for every cluster.  The data area ends a megabyte
below sector `2 ^ 32`, so that no transfer of the code wraps around. -/
structure Volume where
  fat : FatSb
  logSecPerClus : Nat
  logSecPerClus_le : logSecPerClus ≤ 7
  secPerClus : fat.bpb.secPerClus = 2 ^ logSecPerClus
  bytsPerSec : fat.bpb.bytsPerSec = 512
  bytsPerClus : fat.bytsPerClus = fat.bpb.secPerClus * fat.bpb.bytsPerSec
  firstDataSec : fat.firstDataSec = fat.bpb.rsvdSecCnt + fat.bpb.hiddSec + 2 * fat.bpb.fatSz
  entries_fit : 4 * (fat.dataClusCnt + 2) ≤ 512 * fat.bpb.fatSz
  clusters_le : fat.dataClusCnt + 2 ≤ 0x0ffffff7
  in_range : fat.firstDataSec + fat.dataClusCnt * fat.bpb.secPerClus + 2048 ≤ 2 ^ 32

namespace Volume

variable (vol : Volume)

/-- Sectors per cluster. -/
def spc : Nat := vol.fat.bpb.secPerClus

/-- Bytes per cluster. -/
def cs : Nat := vol.fat.clusterSize

/-- Bytes per transfer. -/
def buf : Nat := vol.fat.bufSize

/-- The first sector of the first FAT. -/
def fatStart : Nat := vol.fat.bpb.rsvdSecCnt + vol.fat.bpb.hiddSec

def Valid (c : Nat) : Prop := 2 ≤ c ∧ c < vol.fat.dataClusCnt + 2

instance (c : Nat) : Decidable (vol.Valid c) :=
  inferInstanceAs (Decidable (_ ∧ _))

/-- The first sector of a cluster, as an exact number. -/
def first (c : Nat) : Nat := vol.fat.firstDataSec + (c - 2) * vol.spc

theorem spc_cases : vol.spc = 1 ∨ vol.spc = 2 ∨ vol.spc = 4 ∨ vol.spc = 8 ∨ vol.spc = 16 ∨
    vol.spc = 32 ∨ vol.spc = 64 ∨ vol.spc = 128 := by
  have bound := vol.logSecPerClus_le
  have power := vol.secPerClus
  rw [spc, power]
  interval_cases vol.logSecPerClus <;> simp

theorem spc_pos : 0 < vol.spc := by
  rcases vol.spc_cases with h | h | h | h | h | h | h | h <;> omega

theorem spc_le : vol.spc ≤ 128 := by
  rcases vol.spc_cases with h | h | h | h | h | h | h | h <;> omega

theorem cs_eq : vol.cs = 512 * vol.spc := by
  rw [cs, spc, FatSb.clusterSize, vol.bytsPerClus, vol.bytsPerSec, Nat.mul_comm]

theorem sectorSize_eq : vol.fat.sectorSize = 512 := vol.bytsPerSec

theorem buf_eq : vol.buf = 512 * min 8 vol.spc := by
  have cs := vol.cs_eq
  unfold buf FatSb.bufSize
  unfold Volume.cs at cs
  rw [cs]
  omega

theorem readMaxSec_eq : vol.fat.readMaxSec = min 8 vol.spc := by
  have bufs := vol.buf_eq
  unfold buf at bufs
  rw [FatSb.readMaxSec, bufs, vol.sectorSize_eq]
  omega

theorem areas : vol.fat.Areas where
  bytsPerSec := vol.bytsPerSec
  positive := vol.spc_pos
  firstDataSec := vol.firstDataSec
  entries_fit := vol.entries_fit
  clusters_le := vol.clusters_le.trans (by decide)
  in_range := (Nat.le_add_right _ _).trans vol.in_range

theorem first_le {c : Nat} (valid : vol.Valid c) : vol.fat.firstDataSec ≤ vol.first c ∧
    vol.first c + vol.spc ≤ vol.fat.firstDataSec + vol.fat.dataClusCnt * vol.spc := by
  have last : _ ≤ _ * vol.spc := FatSb.last_le valid
  unfold first
  unfold spc at *
  omega

theorem in_range' : vol.fat.firstDataSec + vol.fat.dataClusCnt * vol.spc + 2048 ≤ 2 ^ 32 :=
  vol.in_range

theorem firstSecOfClus_eq {c : Nat} (valid : vol.Valid c) :
    vol.fat.firstSecOfClus c = vol.first c :=
  vol.areas.firstSec valid

theorem first_add_lt {c c' i i' : Nat} (valid : vol.Valid c) (valid' : vol.Valid c')
    (inside : i < vol.spc) (inside' : i' < vol.spc)
    (same : vol.first c + i = vol.first c' + i') : c = c' ∧ i = i' := by
  have clusters : c = c' := by
    rw [← vol.areas.clusOfSec valid inside, ← vol.areas.clusOfSec valid' inside',
      vol.firstSecOfClus_eq valid, same, vol.firstSecOfClus_eq valid']
  subst clusters
  omega

end Volume
end CCore.Fat
