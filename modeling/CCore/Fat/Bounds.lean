import CCore.Fat.Allocate

/-!
# Bounds of the allocators (`fat32_init`, `search_empty_cluster`, `find_entry_clus`)

`fat32_init` accepts any number of tables, but the code below it is written for
two: `search_empty_cluster` scans from two tables below the data area on,
`find_entry_clus` from one table below it, and an update sets the tables number one
and two.  Neither scan has a bound or a way to report that nothing is free.
-/
namespace CCore.Fat

open Bytes List Option Nat

/-- A geometry that `fat32_init` is given: any number of tables of any size, as long
as they and the data area lie on the disk. -/
structure Mounted (bpb : Bpb) : Prop where
  bytsPerSec : bpb.bytsPerSec = 512
  secPerClus : ∃ k, k ≤ 7 ∧ bpb.secPerClus = 2 ^ k
  fatCnt : 1 ≤ bpb.fatCnt
  tables : bpb.rsvdSecCnt + bpb.hiddSec + bpb.fatCnt * bpb.fatSz ≤ bpb.totSec
  totSec : bpb.totSec + 2048 ≤ 2 ^ 32
  clusters_le : (fat32Init bpb).dataClusCnt + 2 ≤ 0x0ffffff7

namespace FatSb

variable (fat : FatSb)

def tableStart : Nat := fat.bpb.rsvdSecCnt + fat.bpb.hiddSec

def HasEntry (c : Nat) : Prop :=
  2 ≤ c ∧ c < fat.dataClusCnt + 2 ∧ c < 128 * fat.bpb.fatSz

instance (c : Nat) : Decidable (fat.HasEntry c) :=
  inferInstanceAs (Decidable (_ ∧ _ ∧ _))

variable {fat} in
theorem HasEntry.table {c : Nat} (inside : fat.HasEntry c) : 0 < fat.bpb.fatSz := by
  have entry := inside.2.2
  omega

/-- The entry of `c` in the first table. -/
def tableEntry (d : Disk) (c : Nat) : Nat := word d (512 * fat.tableStart + 4 * c)

def FreeCluster (d : Disk) (c : Nat) : Prop := fat.HasEntry c ∧ fat.tableEntry d c = 0

instance (d : Disk) (c : Nat) : Decidable (fat.FreeCluster d c) :=
  inferInstanceAs (Decidable (_ ∧ _))

/-- A sector of one of the tables. -/
def InTables (sec : Nat) : Prop := fat.tableStart ≤ sec ∧ sec < fat.firstDataSec

def tableSectors (c : Nat) : List Nat := [fat.fatSecOfClus c 1, fat.fatSecOfClus c 2]

/-- The entry of `c` in table number `k`, counted from zero. -/
def copyEntry (d : Disk) (k c : Nat) : Nat :=
  word d (512 * (fat.tableStart + k * fat.bpb.fatSz) + 4 * c)

/-- `c` has the first entry of table number `k` that is zero. -/
def FirstZero (d : Disk) (k c : Nat) : Prop :=
  fat.copyEntry d k c = 0 ∧ ∀ i, i < c → fat.copyEntry d k i ≠ 0

instance (d : Disk) (k c : Nat) : Decidable (fat.FirstZero d k c) :=
  inferInstanceAs (Decidable (_ ∧ ∀ i, i < c → _))

end FatSb

/-- What an allocator has to do: return a free cluster of the volume, and change
sectors of the tables only. -/
structure AllocationBounded (fat : FatSb) (d : Disk) : Prop where
  search : ∃ c d', searchEmptyCluster fat d = some (c, d') ∧ fat.FreeCluster d c ∧
    ∀ a, ¬ fat.InTables (a / 512) → d' a = d a
  find : ∃ c, findEntryClus fat d = some c ∧ fat.FreeCluster d c
  sectors : ∀ c, fat.HasEntry c → ∀ sec ∈ fat.tableSectors c, fat.InTables sec
  link : ∀ old c, fat.HasEntry old → fat.HasEntry c → ∀ a, ¬ fat.InTables (a / 512) →
    writeFatTable fat d old c a = d a
  mark : ∀ old c, old = 0 ∨ fat.HasEntry old → fat.HasEntry c → ∀ a,
    ¬ fat.InTables (a / 512) → writeFatTableP fat d old c a = d a

/-- There are two tables at least, and the first zero entries of the last two tables are those
of clusters that are free. -/
structure Allocatable (fat : FatSb) (d : Disk) : Prop where
  two : 2 ≤ fat.bpb.fatCnt
  beforeLast : ∃ c, fat.FreeCluster d c ∧ fat.FirstZero d (fat.bpb.fatCnt - 2) c
  last : ∃ c, fat.FreeCluster d c ∧ fat.FirstZero d (fat.bpb.fatCnt - 1) c

variable {c a : Nat}

theorem writeFatEntry_other {fat : FatSb} {d : Disk} {n value : Nat}
    (other : a / 512 ≠ fat.fatSecOfClus c n) : writeFatEntry fat d c n value a = d a := by
  have wrapped : u32 (fat.fatSecOfClus c n) = fat.fatSecOfClus c n :=
    mod_mod _ _
  simp [writeFatEntry, diskWrite, putSector, wrapped, other]

variable {old new : Nat}

section Sectors
variable {fat : FatSb} {d : Disk}

theorem writeFatTable_other (other : a / 512 ∉ fat.tableSectors (if old ≠ 0 then old else new)) :
    writeFatTable fat d old new a = d a := by
  simp only [FatSb.tableSectors, mem_cons, not_mem_nil, or_false, not_or] at other
  rw [writeFatTable, writeFatEntry_other other.2, writeFatEntry_other other.1]

theorem writeFatTableP_other (otherOld : old ≠ 0 → a / 512 ∉ fat.tableSectors old)
    (otherNew : a / 512 ∉ fat.tableSectors new) : writeFatTableP fat d old new a = d a := by
  simp only [FatSb.tableSectors, mem_cons, not_mem_nil, or_false, not_or]
    at otherOld otherNew
  rw [writeFatTableP, writeFatEntry_other otherNew.2, writeFatEntry_other otherNew.1]
  by_cases linked : old ≠ 0
  · rw [if_pos linked, writeFatEntry_other (otherOld linked).2,
      writeFatEntry_other (otherOld linked).1]
  · rw [if_neg linked]

theorem scanTable_first {fuel index : Nat} (found : scanTable fat d fuel index = some c) :
    entryIsEmpty fat d c = true ∧ ∀ i, index ≤ i → i < c → ¬ entryIsEmpty fat d i = true := by
  induction fuel generalizing index with
  | zero => cases found
  | succ fuel ih =>
    unfold scanTable at found
    by_cases here : entryIsEmpty fat d index = true
    · rw [if_pos here] at found
      cases found
      exact ⟨here, fun i lower upper => absurd upper (by omega)⟩
    · rw [if_neg here] at found
      obtain ⟨empty, before⟩ := ih found
      refine ⟨empty, ?_⟩
      intro i lower upper
      rcases Nat.eq_or_lt_of_le lower with same | later
      · rwa [← same]
      · exact before i later upper

end Sectors

/-! ## The last two tables as a volume -/

variable {k : Nat}

namespace Mounted

variable {bpb : Bpb} {d : Disk}

section
variable (mounted : Mounted bpb)
include mounted

theorem init_exact : (fat32Init bpb).firstDataSec =
      (fat32Init bpb).tableStart + bpb.fatCnt * bpb.fatSz ∧
    (fat32Init bpb).firstDataSec + (fat32Init bpb).dataClusCnt * bpb.secPerClus ≤ bpb.totSec :=
  FatSb.init_exact mounted.tables (Nat.lt_of_lt_of_le (by omega) mounted.totSec)

theorem clusters_in_range :
    (fat32Init bpb).firstDataSec + (fat32Init bpb).dataClusCnt + 2048 ≤ 2 ^ 32 := by
  have data := mounted.init_exact.2
  have total := mounted.totSec
  obtain ⟨k, _, power⟩ := mounted.secPerClus
  have positive : 0 < bpb.secPerClus := by
    rw [power]
    exact Nat.two_pow_pos k
  have clusters := Nat.le_mul_of_pos_right (fat32Init bpb).dataClusCnt positive
  omega

theorem sector_eq (inside : (fat32Init bpb).HasEntry c)
    (second : k ≤ 1) : (fat32Init bpb).fatSecOfClus c (k + 1) =
    (fat32Init bpb).tableStart + 4 * c / 512 + bpb.fatSz * k := by
  have clusters := mounted.clusters_le
  have range := mounted.clusters_in_range
  have upper := inside.2.1
  have below : (fat32Init bpb).tableStart + bpb.fatSz * k ≤ (fat32Init bpb).firstDataSec := by
    rw [mounted.init_exact.1, Nat.mul_comm]
    exact Nat.add_le_add_left (Nat.mul_le_mul_right _ (second.trans mounted.fatCnt)) _
  have start : (fat32Init bpb).copyStart k = (fat32Init bpb).tableStart + bpb.fatSz * k := rfl
  rw [(FatSb.fatSecOfClus_eq mounted.bytsPerSec (by omega) (by omega)).1, start]
  omega

theorem sectors_inside (two : 2 ≤ bpb.fatCnt) (inside : (fat32Init bpb).HasEntry c) :
    ∀ sec ∈ (fat32Init bpb).tableSectors c, (fat32Init bpb).InTables sec := by
  have start := mounted.init_exact.1
  have entry : c < 128 * bpb.fatSz := inside.2.2
  have both := Nat.mul_le_mul_right bpb.fatSz two
  have first := mounted.sector_eq inside (Nat.zero_le 1)
  have second : (fat32Init bpb).fatSecOfClus c 2 = _ := mounted.sector_eq inside (Nat.le_refl 1)
  rw [Nat.zero_add] at first
  intro sec mem
  simp only [FatSb.tableSectors, mem_cons, not_mem_nil, or_false] at mem
  unfold FatSb.InTables
  rcases mem with rfl | rfl
  · omega
  · omega

theorem two_of_sectors_inside (inside : (fat32Init bpb).HasEntry c)
    (tables : ∀ sec ∈ (fat32Init bpb).tableSectors c, (fat32Init bpb).InTables sec) :
    2 ≤ bpb.fatCnt := by
  have start := mounted.init_exact.1
  have second : (fat32Init bpb).fatSecOfClus c 2 = _ := mounted.sector_eq inside (Nat.le_refl 1)
  have below := (tables ((fat32Init bpb).fatSecOfClus c 2) (by simp [FatSb.tableSectors])).2
  by_contra single
  have one : bpb.fatCnt = 1 := by
    have some := mounted.fatCnt
    omega
  rw [one] at start
  omega

end

/-- The last two tables and the clusters that have an entry in them.  The scans read
no other field of the geometry. -/
def lastTwo (mounted : Mounted bpb) (two : 2 ≤ bpb.fatCnt) (table : 0 < bpb.fatSz) : Volume where
  fat :=
    { fat32Init bpb with
      dataClusCnt := min (fat32Init bpb).dataClusCnt (128 * bpb.fatSz - 2)
      bpb := { bpb with rsvdSecCnt := bpb.rsvdSecCnt + (bpb.fatCnt - 2) * bpb.fatSz } }
  logSecPerClus := Nat.log2 bpb.secPerClus
  logSecPerClus_le := by
    obtain ⟨k, le, power⟩ := mounted.secPerClus
    rw [power, log2_two_pow]
    exact le
  secPerClus := by
    obtain ⟨k, _, power⟩ := mounted.secPerClus
    rw [power, log2_two_pow]
  bytsPerSec := mounted.bytsPerSec
  bytsPerClus := rfl
  firstDataSec := by
    have split : bpb.fatCnt * bpb.fatSz = (bpb.fatCnt - 2) * bpb.fatSz + 2 * bpb.fatSz := by
      rw [← Nat.add_mul, Nat.sub_add_cancel two]
    show (fat32Init bpb).firstDataSec =
      bpb.rsvdSecCnt + (bpb.fatCnt - 2) * bpb.fatSz + bpb.hiddSec + 2 * bpb.fatSz
    rw [mounted.init_exact.1, split]
    show bpb.rsvdSecCnt + bpb.hiddSec + _ = _
    omega
  entries_fit := by
    show 4 * (min (fat32Init bpb).dataClusCnt (128 * bpb.fatSz - 2) + 2) ≤ 512 * bpb.fatSz
    omega
  clusters_le := by
    have clusters := mounted.clusters_le
    show min (fat32Init bpb).dataClusCnt (128 * bpb.fatSz - 2) + 2 ≤ 0x0ffffff7
    omega
  in_range := by
    have data := mounted.init_exact.2
    have total := mounted.totSec
    have fewer := Nat.mul_le_mul_right bpb.secPerClus
      (Nat.min_le_left (fat32Init bpb).dataClusCnt (128 * bpb.fatSz - 2))
    show (fat32Init bpb).firstDataSec +
      min (fat32Init bpb).dataClusCnt (128 * bpb.fatSz - 2) * bpb.secPerClus + 2048 ≤ 2 ^ 32
    omega

section LastTwo
variable (mounted : Mounted bpb) (two : 2 ≤ bpb.fatCnt) (table : 0 < bpb.fatSz)

theorem lastTwo_valid_iff (c : Nat) :
    (mounted.lastTwo two table).Valid c ↔ (fat32Init bpb).HasEntry c := by
  show 2 ≤ c ∧ c < min (fat32Init bpb).dataClusCnt (128 * bpb.fatSz - 2) + 2 ↔
    2 ≤ c ∧ c < (fat32Init bpb).dataClusCnt + 2 ∧ c < 128 * bpb.fatSz
  omega

theorem lastTwo_scanTable (fuel index : Nat) :
    scanTable (mounted.lastTwo two table).fat d fuel index =
      scanTable (fat32Init bpb) d fuel index := by
  induction fuel generalizing index with
  | zero => rfl
  | succ fuel ih =>
    rw [scanTable, ih]
    rfl

theorem lastTwo_findEntryFrom (fuel nowSec cluserNum : Nat) :
    findEntryFrom (mounted.lastTwo two table).fat d fuel nowSec cluserNum =
      findEntryFrom (fat32Init bpb) d fuel nowSec cluserNum := by
  induction fuel generalizing nowSec cluserNum with
  | zero => rfl
  | succ fuel ih =>
    simp only [findEntryFrom, ih]
    rfl

theorem lastTwo_findEntryClus :
    findEntryClus (mounted.lastTwo two table).fat d = findEntryClus (fat32Init bpb) d :=
  mounted.lastTwo_findEntryFrom two table _ _ _

theorem lastTwo_fatStart : (mounted.lastTwo two table).fatStart =
    (fat32Init bpb).tableStart + (bpb.fatCnt - 2) * bpb.fatSz := by
  show bpb.rsvdSecCnt + (bpb.fatCnt - 2) * bpb.fatSz + bpb.hiddSec =
    bpb.rsvdSecCnt + bpb.hiddSec + (bpb.fatCnt - 2) * bpb.fatSz
  omega

theorem lastTwo_copy (k : Nat) : word d ((mounted.lastTwo two table).entryAddr k c) =
    (fat32Init bpb).copyEntry d (bpb.fatCnt - 2 + k) c := by
  have start := mounted.lastTwo_fatStart two table
  have size : (fat32Init bpb).bpb.fatSz = bpb.fatSz := rfl
  have same : (mounted.lastTwo two table).fat.bpb.fatSz = bpb.fatSz := rfl
  rw [Volume.entryAddr, FatSb.copyEntry, start, same, size, Nat.add_mul, Nat.mul_comm k,
    ← Nat.add_assoc]

include mounted two table in
theorem lastTwo_scan_iff (inside : (fat32Init bpb).HasEntry c) :
    scanTable (fat32Init bpb) d (2 ^ 30) 0 = some c ↔
      (fat32Init bpb).FirstZero d (bpb.fatCnt - 2) c := by
  have upper := ((mounted.lastTwo_valid_iff two table c).mpr inside).2
  have clusters := (mounted.lastTwo two table).clusters_le
  have entry : ∀ i, (mounted.lastTwo two table).entry d i =
      (fat32Init bpb).copyEntry d (bpb.fatCnt - 2) i :=
    fun i => mounted.lastTwo_copy two table 0
  have empty : ∀ i, i ≤ c → (entryIsEmpty (fat32Init bpb) d i = true ↔
      (fat32Init bpb).copyEntry d (bpb.fatCnt - 2) i = 0) := by
    intro i le
    rw [← entry]
    exact (mounted.lastTwo two table).entryIsEmpty_eq (by omega)
  constructor
  · intro found
    obtain ⟨zero, before⟩ := scanTable_first found
    refine ⟨(empty c le_rfl).mp zero, ?_⟩
    intro i below
    rw [Ne, ← empty i below.le]
    exact before i (Nat.zero_le i) below
  · rintro ⟨zero, before⟩
    rw [← mounted.lastTwo_scanTable two table]
    refine Owns.scanTable_finds upper ((entry c).trans zero) ?_ (Nat.zero_le c) (by omega)
    intro i _ below
    rw [entry]
    exact before i below

include mounted two table in
theorem lastTwo_find_iff (inside : (fat32Init bpb).HasEntry c) :
    findEntryClus (fat32Init bpb) d = some c ↔ (fat32Init bpb).FirstZero d (bpb.fatCnt - 1) c := by
  have upper := ((mounted.lastTwo_valid_iff two table c).mpr inside).2
  have number : bpb.fatCnt - 2 + 1 = bpb.fatCnt - 1 := by omega
  rw [← mounted.lastTwo_findEntryClus two table, findEntryClus_iff upper]
  simp only [mounted.lastTwo_copy two table, number, FatSb.FirstZero]

end LastTwo

section
variable (mounted : Mounted bpb)
include mounted

theorem allocationBounded
    (allocatable : Allocatable (fat32Init bpb) d) : AllocationBounded (fat32Init bpb) d := by
  have inside : ∀ c, (fat32Init bpb).HasEntry c → ∀ a, ¬ (fat32Init bpb).InTables (a / 512) →
      a / 512 ∉ (fat32Init bpb).tableSectors c :=
    fun c has a outside mem => outside (mounted.sectors_inside allocatable.two has _ mem)
  constructor
  · obtain ⟨c, free, first⟩ := allocatable.beforeLast
    have table : 0 < bpb.fatSz := free.1.table
    refine ⟨c, writeFatTable (fat32Init bpb) d 0 c, ?_, free, ?_⟩
    · rw [searchEmptyCluster, (mounted.lastTwo_scan_iff allocatable.two table free.1).mpr first]
      rfl
    · intro a outside
      exact writeFatTable_other (inside c free.1 a outside)
  · obtain ⟨c, free, first⟩ := allocatable.last
    exact ⟨c, (mounted.lastTwo_find_iff allocatable.two free.1.table free.1).mpr first, free⟩
  · exact fun c has => mounted.sectors_inside allocatable.two has
  · intro old new hasOld _ a outside
    have nonzero : old ≠ 0 := by
      have lower := hasOld.1
      omega
    apply writeFatTable_other
    rw [if_pos nonzero]
    exact inside old hasOld a outside
  · intro old new linked hasNew a outside
    apply writeFatTableP_other
    · intro nonzero
      exact inside old (linked.resolve_left nonzero) a outside
    · exact inside new hasNew a outside

theorem allocatable
    (bounded : AllocationBounded (fat32Init bpb) d) : Allocatable (fat32Init bpb) d := by
  obtain ⟨c, d', searched, free, _⟩ := bounded.search
  obtain ⟨last, found, freeLast⟩ := bounded.find
  have two := mounted.two_of_sectors_inside free.1 (bounded.sectors c free.1)
  obtain ⟨_, scanned, same⟩ := map_eq_some_iff.mp searched
  cases same
  exact ⟨two, ⟨_, free, (mounted.lastTwo_scan_iff two free.1.table free.1).mp scanned⟩,
    ⟨last, freeLast, (mounted.lastTwo_find_iff two freeLast.1.table freeLast.1).mp found⟩⟩

end
end Mounted

/-- Both allocators return a free cluster of the volume, and updates stay inside the
tables, exactly when there are two tables and the first zero entries of the last two of them
are those of free clusters. -/
theorem allocationBounded_iff (bpb : Bpb) (mounted : Mounted bpb) (d : Disk) :
    AllocationBounded (fat32Init bpb) d ↔ Allocatable (fat32Init bpb) d :=
  ⟨mounted.allocatable, mounted.allocationBounded⟩

def tinyBpb (fatCnt : Nat) : Bpb where
  bytsPerSec := 512
  secPerClus := 1
  rsvdSecCnt := 1
  fatCnt := fatCnt
  hiddSec := 0
  totSec := 9 + fatCnt
  fatSz := 1
  rootClus := 2

def tinyDisk (entries : List Nat) : Disk := fun a =>
  UInt8.ofNat (entries.getD (a % 512 / 4) 0 / 256 ^ (a % 4))

theorem tiny_mounted (fatCnt : Nat) (some : 1 ≤ fatCnt) (few : fatCnt ≤ 4) :
    Mounted (tinyBpb fatCnt) := by
  have clusters : (fat32Init (tinyBpb fatCnt)).dataClusCnt = 8 := by
    show (9 + fatCnt + (2 ^ 32 - (1 + 0 + fatCnt * 1) % 2 ^ 32)) % 2 ^ 32 / 1 = 8
    omega
  refine ⟨rfl, ⟨0, by decide, rfl⟩, some, ?_, ?_, ?_⟩
  · show 1 + 0 + fatCnt * 1 ≤ 9 + fatCnt
    omega
  · show 9 + fatCnt + 2048 ≤ 2 ^ 32
    omega
  · rw [clusters]
    decide

theorem allocationBounded_threeTables :
    Allocatable (fat32Init (tinyBpb 3)) (tinyDisk [mEoc, mEoc, mEoc, mEoc, 0, mEoc]) ∧
      AllocationBounded (fat32Init (tinyBpb 3)) (tinyDisk [mEoc, mEoc, mEoc, mEoc, 0, mEoc]) := by
  have allocatable : Allocatable (fat32Init (tinyBpb 3))
      (tinyDisk [mEoc, mEoc, mEoc, mEoc, 0, mEoc]) :=
    ⟨by decide, ⟨4, by decide +kernel⟩, ⟨4, by decide +kernel⟩⟩
  exact ⟨allocatable, (allocationBounded_iff (tinyBpb 3) (tiny_mounted 3 (by decide) (by decide))
    _).mpr allocatable⟩

/-- On a full volume `search_empty_cluster` returns the number after the last
cluster; with one table an update of cluster 4 writes a sector of the data area. -/
theorem allocation_leaves_volume :
    (∃ d', searchEmptyCluster (fat32Init (tinyBpb 2)) (tinyDisk (List.replicate 10 mEoc)) =
      some (10, d')) ∧ (fat32Init (tinyBpb 2)).dataClusCnt + 2 = 10 ∧
    ¬ AllocationBounded (fat32Init (tinyBpb 2)) (tinyDisk (List.replicate 10 mEoc)) ∧
    (fat32Init (tinyBpb 1)).FreeCluster (tinyDisk [mEoc, mEoc, mEoc, mEoc, 0]) 4 ∧
    (fat32Init (tinyBpb 1)).fatSecOfClus 4 2 = (fat32Init (tinyBpb 1)).firstDataSec ∧
    ¬ AllocationBounded (fat32Init (tinyBpb 1)) (tinyDisk [mEoc, mEoc, mEoc, mEoc, 0]) := by
  have scanned : scanTable (fat32Init (tinyBpb 2)) (tinyDisk (List.replicate 10 mEoc)) (2 ^ 30) 0 =
      some 10 := by decide +kernel
  have searched : searchEmptyCluster (fat32Init (tinyBpb 2)) (tinyDisk (List.replicate 10 mEoc)) =
      some (10, writeFatTable (fat32Init (tinyBpb 2)) (tinyDisk (List.replicate 10 mEoc)) 0 10) := by
    rw [searchEmptyCluster, scanned]
    rfl
  have second : (fat32Init (tinyBpb 1)).HasEntry 4 := by decide
  refine ⟨⟨_, searched⟩, by decide, ?_, by decide +kernel, by decide, ?_⟩
  · intro bounded
    obtain ⟨c, d', returned, free, _⟩ := bounded.search
    rw [searched] at returned
    cases returned
    exact absurd free.1 (by decide)
  · intro bounded
    exact absurd ((tiny_mounted 1 (by decide) (by decide)).two_of_sectors_inside second
      (bounded.sectors 4 second)) (by decide)

end CCore.Fat
