import CCore.Fat.ByteArray
import CCore.Lib.Run

/-!
# Allocation of clusters (`find_entry_clus`, `write_fat_table_p`)

Files and directories get their clusters in two ways: `search_empty_cluster` scans
the first table sector by sector and `write_fat_table` links the cluster in, while
`find_entry_clus` scans the second table in transfers of `BUFSIZE` bytes and
`write_fat_table_p` marks and links the cluster.  On a volume whose tables agree
both find the least free cluster, and every allocation makes one chain longer by
one cluster or starts a chain of its own.
-/
namespace CCore.Fat

open Bytes Chase Run List Option

/-- `CLUSER_END`. -/
def cluserEnd : Nat := 0x0fffffff

/-- The loop of `find_entry_clus`, one transfer a turn; nothing in the source bounds
it. -/
def findEntryFrom (fat : FatSb) (d : Disk) : Nat → Nat → Nat → Option Nat
  | 0, _, _ => none
  | fuel + 1, nowSec, cluserNum =>
    match (List.range (fat.bufSize / 4)).find? fun i => word (diskRead d nowSec) (4 * i) == 0 with
    | some i => some (cluserNum + i)
    | none => findEntryFrom fat d fuel (u32 (nowSec + fat.readMaxSec)) (cluserNum + fat.bufSize / 4)

/-- A transfer holds 128 entries at least, so that `cluser_num` has wrapped around
after `2 ^ 25` turns. -/
def findEntryClus (fat : FatSb) (d : Disk) : Option Nat :=
  findEntryFrom fat d (2 ^ 25) (u32 (fat.firstDataSec + (2 ^ 32 - fat.bpb.fatSz))) 0

def writeFatTableP (fat : FatSb) (d : Disk) (oldClus newClus : Nat) : Disk :=
  let linked := if oldClus ≠ 0 then
      writeFatEntry fat (writeFatEntry fat d oldClus 1 (u32 newClus)) oldClus 2 (u32 newClus)
    else d
  writeFatEntry fat (writeFatEntry fat linked newClus 1 cluserEnd) newClus 2 cluserEnd

/-- Which allocator is called, and the last cluster of the chain to be made longer. -/
inductive AllocAct where
  | search (target : Option Nat)
  | find (target : Option Nat)
  deriving DecidableEq

def AllocAct.target : AllocAct → Option Nat
  | .search target | .find target => target

/-- The cluster and the disk after the step; `none` when the scan does not end. -/
def allocate (fat : FatSb) (d : Disk) : AllocAct → Option (Nat × Disk)
  | .search none => searchEmptyCluster fat d
  | .search (some t) => (searchEmptyCluster fat d).map fun (c, d) => (c, writeFatTable fat d t c)
  | .find none => (findEntryClus fat d).map fun c => (c, writeFatTableP fat d 0 c)
  | .find (some t) => (findEntryClus fat d).map fun c => (c, writeFatTableP fat d t c)

def allocStep (fat : FatSb) (d : Disk) (act : AllocAct) : Option Disk :=
  (allocate fat d act).map Prod.snd

/-- The mark of a cluster that must not be used. -/
def badClus : Nat := 0x0ffffff7

/-- The cluster that the entry of `c` leads to. -/
def chainNext (vol : Volume) (d : Disk) (c : Nat) : Option Nat :=
  if vol.Valid (vol.entry d c) then some (vol.entry d c) else none

/-- The chain of the clusters after `c`, up to an end mark. -/
structure ClusterChain (vol : Volume) (d : Disk) (c : Nat) (path : List Nat) : Prop where
  valid : vol.Valid c
  trail : Trail (chainNext vol d) c path
  ends : IsEoc (vol.entry d ((c :: path).getLast (cons_ne_nil c path)))

/-- Both copies of the table are equal. -/
def Mirror (vol : Volume) (d : Disk) : Prop :=
  ∀ i, i < 512 * vol.fat.bpb.fatSz →
    d (512 * (vol.fatStart + vol.fat.bpb.fatSz) + i) = d (512 * vol.fatStart + i)

/-- Both tables are equal, and every cluster that is neither free nor bad is on a
chain that ends.  A trail passes no cluster twice, and two chains that share a
cluster would have two clusters that lead to the same one. -/
structure SoundTable (vol : Volume) (d : Disk) : Prop where
  mirror : Mirror vol d
  reserved : vol.entry d 0 ≠ 0 ∧ vol.entry d 1 ≠ 0
  terminated : ∀ c, vol.Valid c → vol.entry d c ≠ 0 → vol.entry d c ≠ badClus →
    ∃ path, ClusterChain vol d c path
  disjoint : ∀ c c' n, vol.Valid c → vol.Valid c' → chainNext vol d c = some n →
    chainNext vol d c' = some n → c = c'

/-- `c` is the least free cluster, which both allocators find; it becomes the end of
the chain of `target`, or a chain of its own, and nothing else changes. -/
structure Extended (vol : Volume) (d d' : Disk) (target : Option Nat) (c : Nat) : Prop where
  free : c ∈ vol.frees d
  least : ∀ x ∈ vol.frees d, c ≤ x
  searched : (searchEmptyCluster vol.fat d).map Prod.fst = some c
  found : findEntryClus vol.fat d = some c
  frees : vol.frees d' = (vol.frees d).filter fun x => decide (x ≠ c)
  single : ClusterChain vol d' c []
  chains : ∀ x path, ClusterChain vol d x path → ClusterChain vol d' x
    (if target = some ((x :: path).getLast (cons_ne_nil x path)) then path ++ [c] else path)
  outside : ∀ a, a < 512 * vol.fatStart ∨ vol.dataStart ≤ a → d' a = d a

/-- A cluster is free, and the target is the last cluster of some chain. -/
def AllocAct.Possible (vol : Volume) (d : Disk) (act : AllocAct) : Prop :=
  vol.frees d ≠ [] ∧ ∀ t, act.target = some t → vol.Valid t ∧ IsEoc (vol.entry d t)

section Tables
variable {vol : Volume} {d : Disk} {c value : Nat}

theorem Mirror.setEntry (mirror : Mirror vol d) (inTable : c < vol.fat.dataClusCnt + 2) :
    Mirror vol (vol.setEntry d c value) := by
  have bound := vol.entryAddr_bound inTable
  have first := vol.entryAddr_zero c
  have second := vol.entryAddr_one c
  intro i inside
  rw [Volume.setEntry, first, second]
  by_cases here : 4 * c ≤ i ∧ i < 4 * c + 4
  · have lower : putWord d (512 * vol.fatStart + 4 * c) value (512 * vol.fatStart + i) =
        UInt8.ofNat (value / 256 ^ (i - 4 * c)) := by
      rw [putWord, if_pos (by omega)]
      congr 3
      omega
    rw [putWord_of_outside (x := 512 * vol.fatStart + i) (by omega), lower, putWord,
      if_pos (by omega)]
    congr 3
    omega
  · rw [putWord_of_outside (by omega), putWord_of_outside (by omega),
      putWord_of_outside (by omega), putWord_of_outside (by omega)]
    exact mirror i inside

theorem Mirror.entry (mirror : Mirror vol d) (inTable : c < vol.fat.dataClusCnt + 2) :
    word d (vol.entryAddr 1 c) = vol.entry d c := by
  have bound := vol.entryAddr_bound inTable
  unfold Volume.entry
  apply word_congr
  intro k small
  have same := mirror (4 * c + k) (by omega)
  rw [vol.entryAddr_one, vol.entryAddr_zero]
  rw [Nat.mul_add] at same
  simpa [Nat.add_assoc] using same

theorem writeFatTableP_eq {old : Nat} (validOld : old = 0 ∨ vol.Valid old)
    (valid : vol.Valid c) : writeFatTableP vol.fat d old c =
    vol.setEntry (if old = 0 then d else vol.setEntry d old c) c mEoc := by
  have clusters := vol.clusters_le
  have upper := valid.2
  have small : u32 c = c := Nat.mod_eq_of_lt (by omega)
  simp only [writeFatTableP, small]
  rw [vol.writeFatEntry_eq (k := 0) (by omega) valid.2,
    vol.writeFatEntry_eq (k := 1) (by omega) valid.2]
  rcases validOld with rfl | validOld
  · simp [Volume.setEntry, cluserEnd, mEoc]
  · have lower := validOld.1
    have nonzero : old ≠ 0 := by omega
    rw [if_pos nonzero, if_neg nonzero, vol.writeFatEntry_eq (k := 0) (by omega) validOld.2,
      vol.writeFatEntry_eq (k := 1) (by omega) validOld.2]
    rfl

end Tables

variable {vol : Volume} {d : Disk} {c : Nat}

theorem bufSize_div : vol.fat.bufSize / 4 = 128 * vol.fat.readMaxSec ∧ 0 < vol.fat.readMaxSec := by
  have size := vol.buf_eq
  have sectors := vol.readMaxSec_eq
  have positive := vol.spc_pos
  unfold Volume.buf at size
  omega

theorem transfer_entry {turn i : Nat}
    (inTable : turn * (vol.fat.bufSize / 4) + i < vol.fat.dataClusCnt + 2) :
    word (diskRead d (vol.fatStart + vol.fat.bpb.fatSz + turn * vol.fat.readMaxSec)) (4 * i) =
      word d (vol.entryAddr 1 (turn * (vol.fat.bufSize / 4) + i)) := by
  have size := (@bufSize_div vol).1
  have bound := vol.entryAddr_lt_dataStart (k := 1) (by omega) inTable
  have range := vol.in_range'
  have start : vol.dataStart = 512 * vol.fat.firstDataSec := rfl
  have addr := vol.entryAddr_one (turn * (vol.fat.bufSize / 4) + i)
  have scaled : 4 * (turn * (vol.fat.bufSize / 4)) = 512 * (turn * vol.fat.readMaxSec) := by
    rw [size]
    ring
  apply word_congr
  intro k small
  rw [diskRead_eq (by omega)]
  exact congrArg d (by omega)

theorem transfer_next {turn : Nat} (upper : c < vol.fat.dataClusCnt + 2)
    (reaches : (turn + 1) * (vol.fat.bufSize / 4) ≤ c) :
    u32 (vol.fatStart + vol.fat.bpb.fatSz + turn * vol.fat.readMaxSec + vol.fat.readMaxSec) =
      vol.fatStart + vol.fat.bpb.fatSz + (turn + 1) * vol.fat.readMaxSec := by
  rw [Nat.add_mul, Nat.one_mul] at reaches ⊢
  rw [Nat.add_assoc]
  have range := vol.in_range'
  have size := (@bufSize_div vol).1
  have bound := vol.entryAddr_lt_dataStart (k := 1) (by omega) upper
  have addr := vol.entryAddr_one c
  have start : vol.dataStart = 512 * vol.fat.firstDataSec := rfl
  have scaled : 4 * (turn * (vol.fat.bufSize / 4)) = 512 * (turn * vol.fat.readMaxSec) := by
    rw [size]
    ring
  unfold u32
  omega

theorem findEntryFrom_finds (upper : c < vol.fat.dataClusCnt + 2)
    (zero : word d (vol.entryAddr 1 c) = 0) (busy : ∀ i, i < c → word d (vol.entryAddr 1 i) ≠ 0)
    {fuel turn : Nat}
    (reaches : turn * (vol.fat.bufSize / 4) ≤ c)
    (enough : c < (turn + fuel) * (vol.fat.bufSize / 4)) :
    findEntryFrom vol.fat d fuel (vol.fatStart + vol.fat.bpb.fatSz + turn * vol.fat.readMaxSec)
      (turn * (vol.fat.bufSize / 4)) = some c := by
  induction fuel generalizing turn with
  | zero =>
    rw [Nat.add_zero] at enough
    omega
  | succ fuel ih =>
    have entry : ∀ i, turn * (vol.fat.bufSize / 4) + i ≤ c →
        word (diskRead d (vol.fatStart + vol.fat.bpb.fatSz + turn * vol.fat.readMaxSec)) (4 * i) =
          word d (vol.entryAddr 1 (turn * (vol.fat.bufSize / 4) + i)) :=
      fun i le => transfer_entry (by omega)
    unfold findEntryFrom
    by_cases here : c < (turn + 1) * (vol.fat.bufSize / 4)
    · -- the free entry is in this transfer, and no earlier one of it is zero
      have inside : c - turn * (vol.fat.bufSize / 4) < vol.fat.bufSize / 4 := by
        rw [Nat.add_mul, Nat.one_mul] at here
        omega
      have hit : ((List.range (vol.fat.bufSize / 4)).find? fun i =>
          word (diskRead d (vol.fatStart + vol.fat.bpb.fatSz + turn * vol.fat.readMaxSec))
            (4 * i) == 0) = some (c - turn * (vol.fat.bufSize / 4)) := by
        rw [List.find?_range_eq_some]
        refine ⟨?_, mem_range.mpr inside, ?_⟩
        · rw [entry _ (by omega), Nat.add_sub_cancel' reaches, zero]
          rfl
        · intro j before
          rw [entry j (by omega)]
          simpa using busy _ (by omega)
      rw [hit]
      exact congrArg some (Nat.add_sub_cancel' reaches)
    · rw [Nat.add_mul, Nat.one_mul, Nat.not_lt] at here
      have miss : ((List.range (vol.fat.bufSize / 4)).find? fun i =>
          word (diskRead d (vol.fatStart + vol.fat.bpb.fatSz + turn * vol.fat.readMaxSec))
            (4 * i) == 0) = none := by
        rw [List.find?_eq_none]
        intro i mem
        have below := mem_range.mp mem
        rw [entry i (by omega)]
        simpa using busy _ (by omega)
      rw [miss]
      have further := @ih (turn + 1) (by rw [Nat.add_mul, Nat.one_mul]; exact here)
        (by rwa [Nat.add_right_comm, Nat.add_assoc])
      rw [transfer_next upper (by rw [Nat.add_mul, Nat.one_mul]; exact here)]
      rw [Nat.add_mul, Nat.one_mul] at further
      simpa [Nat.add_mul] using further

theorem findEntryFrom_ge {fat : FatSb} {fuel nowSec start : Nat}
    (found : findEntryFrom fat d fuel nowSec start = some c) : start ≤ c := by
  induction fuel generalizing nowSec start with
  | zero => cases found
  | succ fuel ih =>
    unfold findEntryFrom at found
    split at found
    · cases found
      omega
    · have later := ih found
      omega

/-- A result in the table is an entry that is zero. -/
theorem findEntryFrom_zero (upper : c < vol.fat.dataClusCnt + 2) {fuel turn : Nat}
    (found : findEntryFrom vol.fat d fuel
      (vol.fatStart + vol.fat.bpb.fatSz + turn * vol.fat.readMaxSec) (turn * (vol.fat.bufSize / 4)) =
        some c) : word d (vol.entryAddr 1 c) = 0 := by
  induction fuel generalizing turn with
  | zero => cases found
  | succ fuel ih =>
    unfold findEntryFrom at found
    split at found
    case h_1 i hit =>
      cases found
      rw [← transfer_entry upper]
      simpa using find?_some hit
    case h_2 =>
      have next : turn * (vol.fat.bufSize / 4) + vol.fat.bufSize / 4 =
          (turn + 1) * (vol.fat.bufSize / 4) := by rw [Nat.add_mul, Nat.one_mul]
      have later := findEntryFrom_ge found
      rw [next] at found later
      rw [transfer_next upper later] at found
      exact ih found

theorem findEntryClus_eq (vol : Volume) (d : Disk) : findEntryClus vol.fat d =
    findEntryFrom vol.fat d (2 ^ 25) (vol.fatStart + vol.fat.bpb.fatSz + 0 * vol.fat.readMaxSec)
      (0 * (vol.fat.bufSize / 4)) := by
  have range := vol.in_range'
  have start := vol.firstDataSec
  have fatStart : vol.fatStart = vol.fat.bpb.rsvdSecCnt + vol.fat.bpb.hiddSec := rfl
  have first : u32 (vol.fat.firstDataSec + (2 ^ 32 - vol.fat.bpb.fatSz)) =
      vol.fatStart + vol.fat.bpb.fatSz + 0 * vol.fat.readMaxSec := by
    unfold u32
    omega
  rw [findEntryClus, first, Nat.zero_mul (vol.fat.bufSize / 4)]

/-- The scan of the second table gives its first entry that is zero, if that is in the table. -/
theorem findEntryClus_iff (upper : c < vol.fat.dataClusCnt + 2) : findEntryClus vol.fat d = some c ↔
    word d (vol.entryAddr 1 c) = 0 ∧ ∀ i, i < c → word d (vol.entryAddr 1 i) ≠ 0 := by
  have clusters := vol.clusters_le
  have size := @bufSize_div vol
  have finds : ∀ c, c < vol.fat.dataClusCnt + 2 → word d (vol.entryAddr 1 c) = 0 →
      (∀ i, i < c → word d (vol.entryAddr 1 i) ≠ 0) → findEntryClus vol.fat d = some c := by
    intro c upper zero busy
    rw [findEntryClus_eq]
    exact findEntryFrom_finds upper zero busy (by omega) (by omega)
  constructor
  · intro found
    refine ⟨findEntryFrom_zero upper ((findEntryClus_eq vol d).symm.trans found), ?_⟩
    intro i below zero
    -- the first zero entry before `c` would have been returned
    have some : ∃ i, word d (vol.entryAddr 1 i) = 0 := ⟨i, zero⟩
    have before := Nat.find_min' some zero
    have other := finds _ (by omega) (Nat.find_spec some) (fun j less => Nat.find_min some less)
    have same := Option.some.inj (found.symm.trans other)
    omega
  · rintro ⟨zero, busy⟩
    exact finds c upper zero busy

theorem findEntryClus_finds (mirror : Mirror vol d) (valid : vol.Valid c)
    (zero : vol.entry d c = 0) (busy : ∀ i, i < c → vol.entry d i ≠ 0) :
    findEntryClus vol.fat d = some c := by
  have upper := valid.2
  refine (findEntryClus_iff upper).mpr ⟨by rw [mirror.entry upper]; exact zero, ?_⟩
  intro i below
  rw [mirror.entry (by omega)]
  exact busy i below

/-! ## One allocation -/

structure Linked (vol : Volume) (d d' : Disk) (target : Option Nat) (c : Nat) : Prop where
  entry : ∀ x, x < vol.fat.dataClusCnt + 2 → vol.entry d' x =
    if x = c then mEoc else if target = some x then c else vol.entry d x
  mirror : Mirror vol d → Mirror vol d'
  outside : ∀ a, a < 512 * vol.fatStart ∨ vol.dataStart ≤ a → d' a = d a

variable {t n y : Nat}

section Steps
variable {d' : Disk} {x : Nat} {target : Option Nat} {path : List Nat}

theorem setEntry_outside {value a : Nat} (inTable : c < vol.fat.dataClusCnt + 2)
    (outside : a < 512 * vol.fatStart ∨ vol.dataStart ≤ a) : vol.setEntry d c value a = d a := by
  rcases outside with low | high
  · exact vol.setEntry_of_reserved low
  · exact vol.setEntry_of_data inTable high

theorem entry_setEntry {value : Nat} (inTable : c < vol.fat.dataClusCnt + 2)
    (small : value < 2 ^ 32) (inTableX : x < vol.fat.dataClusCnt + 2) :
    vol.entry (vol.setEntry d c value) x = if x = c then value else vol.entry d x := by
  split
  case isTrue same => rw [same, vol.entry_setEntry_self inTable small]
  case isFalse other => rw [vol.entry_setEntry_other inTableX other]

theorem linked_mark (valid : vol.Valid c) : Linked vol d (vol.setEntry d c mEoc) none c where
  entry := fun x inTable => by
    rw [entry_setEntry valid.2 (by decide) inTable]
    simp
  mirror := fun mirror => mirror.setEntry valid.2
  outside := fun _ outside => setEntry_outside valid.2 outside

theorem linked_both (valid : vol.Valid c) (validT : vol.Valid t) (other : t ≠ c) :
    Linked vol d (vol.setEntry (vol.setEntry d c mEoc) t c) (some t) c ∧
      Linked vol d (vol.setEntry (vol.setEntry d t c) c mEoc) (some t) c := by
  have clusters := vol.clusters_le
  have upper := valid.2
  constructor
  · refine ⟨?_, fun mirror => (mirror.setEntry valid.2).setEntry validT.2, ?_⟩
    · intro x inTable
      rw [entry_setEntry validT.2 (by omega) inTable, entry_setEntry valid.2 (by decide) inTable]
      by_cases atT : x = t
      · simp [atT, other]
      · simp [atT, Ne.symm atT]
    · intro a outside
      rw [setEntry_outside validT.2 outside, setEntry_outside valid.2 outside]
  · refine ⟨?_, fun mirror => (mirror.setEntry validT.2).setEntry valid.2, ?_⟩
    · intro x inTable
      rw [entry_setEntry valid.2 (by decide) inTable, entry_setEntry validT.2 (by omega) inTable]
      simp [eq_comm]
    · intro a outside
      rw [setEntry_outside valid.2 outside, setEntry_outside validT.2 outside]

/-! ### Chains before the allocation -/

theorem chainNext_some (hop : chainNext vol d x = some n) : vol.entry d x = n ∧ vol.Valid n := by
  unfold chainNext at hop
  split at hop
  · cases hop
    exact ⟨rfl, by assumption⟩
  · cases hop

theorem not_valid_of_eoc {e : Nat} (eoc : IsEoc e) : ¬ vol.Valid e := by
  intro valid
  have clusters := vol.clusters_le
  have lower := eoc.1
  have upper := valid.2
  omega

theorem chainNext_of_eoc (eoc : IsEoc (vol.entry d x)) : chainNext vol d x = none := by
  rw [chainNext, if_neg (not_valid_of_eoc eoc)]

theorem ClusterChain.valid_mem (chain : ClusterChain vol d x path)
    (mem : y ∈ x :: path) : vol.Valid y := by
  obtain ⟨valid, trail, -⟩ := chain
  induction path generalizing x with
  | nil => exact mem_singleton.mp mem ▸ valid
  | cons w rest ih =>
    rcases mem_cons.mp mem with rfl | mem
    · exact valid
    · exact ih mem (chainNext_some trail.1).2 trail.2

theorem ClusterChain.entry_ne_zero (chain : ClusterChain vol d x path)
    (mem : y ∈ x :: path) : vol.entry d y ≠ 0 := by
  intro zero
  have stops : chainNext vol d y = none := by
    rw [chainNext, zero, if_neg]
    exact fun valid => absurd valid.1 (by omega)
  have last := last_of_stops chain.trail mem stops
  have ends := chain.ends.1
  rw [last, zero] at ends
  omega

theorem SoundTable.next_ne_zero (sound : SoundTable vol d) (valid : vol.Valid x)
    (hop : chainNext vol d x = some n) : vol.entry d n ≠ 0 := by
  obtain ⟨entry, validN⟩ := chainNext_some hop
  have clusters := vol.clusters_le
  have lower := validN.1
  have upper := validN.2
  obtain ⟨path, chain⟩ := sound.terminated x valid (by omega) (by unfold badClus; omega)
  cases path with
  | nil => exact absurd (hop.symm.trans chain.trail) (by simp)
  | cons w rest =>
    obtain rfl : n = w := Option.some.inj (hop.symm.trans chain.trail.1)
    exact chain.entry_ne_zero (by simp)

/-! ### Chains after it -/

section
variable (linked : Linked vol d d' target c)
include linked

theorem Linked.next_new (valid : vol.Valid c) :
    chainNext vol d' c = none ∧ IsEoc (vol.entry d' c) := by
  have entry : vol.entry d' c = mEoc := by rw [linked.entry c valid.2, if_pos rfl]
  have eoc : IsEoc (vol.entry d' c) := by
    rw [entry]
    exact ⟨by decide, by decide⟩
  exact ⟨chainNext_of_eoc eoc, eoc⟩

theorem Linked.next_target (valid : vol.Valid c)
    (isTarget : target = some t) (validT : vol.Valid t) (other : t ≠ c) :
    chainNext vol d' t = some c := by
  have entry : vol.entry d' t = c := by rw [linked.entry t validT.2, if_neg other, if_pos isTarget]
  rw [chainNext, entry, if_pos valid]

theorem Linked.next_other (validX : vol.Valid x) (notNew : x ≠ c) (notTarget : target ≠ some x) :
    vol.entry d' x = vol.entry d x ∧ chainNext vol d' x = chainNext vol d x := by
  have entry : vol.entry d' x = vol.entry d x := by
    rw [linked.entry x validX.2, if_neg notNew, if_neg notTarget]
  exact ⟨entry, by rw [chainNext, chainNext, entry]⟩

theorem Linked.chain (valid : vol.Valid c)
    (free : vol.entry d c = 0) (last : ∀ t, target = some t → IsEoc (vol.entry d t))
    (chain : ClusterChain vol d x path) : ClusterChain vol d' x
    (if target = some ((x :: path).getLast (cons_ne_nil x path)) then path ++ [c]
      else path) := by
  have apart : ∀ y ∈ x :: path, y ≠ c := by
    rintro y mem rfl
    exact chain.entry_ne_zero mem free
  have lastMem : (x :: path).getLast (cons_ne_nil x path) ∈ x :: path := getLast_mem _
  split
  case isTrue isTarget =>
    -- every cluster but the last has a successor, so it is not the target
    have grown : Trail (chainNext vol d') x (path ++ [c]) := by
      refine trail_snoc chain.trail ?_ ?_ (linked.next_new valid).1
      · intro y mem hops
        refine (linked.next_other (chain.valid_mem mem) (apart y mem) ?_).2
        exact fun same => hops (chainNext_of_eoc (last y same))
      · exact linked.next_target valid isTarget (chain.valid_mem lastMem) (apart _ lastMem)
    refine ⟨chain.valid, grown, ?_⟩
    have atEnd : (x :: (path ++ [c])).getLast (cons_ne_nil x _) = c := by simp
    rw [atEnd]
    exact (linked.next_new valid).2
  case isFalse elsewhere =>
    have untouched : ∀ y ∈ x :: path, target ≠ some y := by
      intro y mem same
      have stops := chainNext_of_eoc (last y same)
      rw [last_of_stops chain.trail mem stops] at elsewhere
      exact elsewhere same
    refine ⟨chain.valid, trail_congr chain.trail fun y mem =>
      (linked.next_other (chain.valid_mem mem) (apart y mem) (untouched y mem)).2, ?_⟩
    rw [(linked.next_other (chain.valid_mem lastMem) (apart _ lastMem) (untouched _ lastMem)).1]
    exact chain.ends

theorem Linked.frees (valid : vol.Valid c)
    (last : ∀ t, target = some t → vol.Valid t ∧ IsEoc (vol.entry d t)) :
    vol.frees d' = (vol.frees d).filter fun x => decide (x ≠ c) := by
  unfold Volume.frees
  rw [List.filter_filter]
  apply filter_congr
  intro x mem
  have bounds := mem_range'_1.mp mem
  rw [linked.entry x (by omega)]
  by_cases same : x = c
  · simp [same, mEoc]
  · by_cases isTarget : target = some x
    · have eoc := (last x isTarget).2.1
      have lower := valid.1
      have busy : vol.entry d x ≠ 0 := by omega
      have nonzero : c ≠ 0 := by omega
      simp [same, isTarget, busy, nonzero]
    · simp [same, isTarget]

theorem Linked.sound (sound : SoundTable vol d) (valid : vol.Valid c) (free : vol.entry d c = 0)
    (last : ∀ t, target = some t → vol.Valid t ∧ IsEoc (vol.entry d t)) : SoundTable vol d' where
  mirror := linked.mirror sound.mirror
  reserved := by
    have lower := valid.1
    have notTarget : ∀ i, i < 2 → target ≠ some i := by
      intro i small same
      have lowerT := (last i same).1.1
      omega
    rw [linked.entry 0 (by omega), linked.entry 1 (by omega), if_neg (by omega),
      if_neg (notTarget 0 (by omega)), if_neg (by omega), if_neg (notTarget 1 (by omega))]
    exact sound.reserved
  terminated := by
    intro x validX busy good
    rcases eq_or_ne x c with rfl | same
    · exact ⟨[], valid, (linked.next_new valid).1, (linked.next_new valid).2⟩
    have before : vol.entry d x ≠ 0 ∧ vol.entry d x ≠ badClus := by
      by_cases isTarget : target = some x
      · have eoc := (last x isTarget).2.1
        unfold badClus
        omega
      · have entry := (linked.next_other validX same isTarget).1
        exact ⟨entry ▸ busy, entry ▸ good⟩
    obtain ⟨path, chain⟩ := sound.terminated x validX before.1 before.2
    exact ⟨_, linked.chain valid free (fun t isTarget => (last t isTarget).2) chain⟩
  disjoint := by
    intro x y n validX validY hopX hopY
    have notNew : ∀ z, chainNext vol d' z = some n → z ≠ c := by
      rintro z hop rfl
      exact absurd ((linked.next_new valid).1.symm.trans hop) (by simp)
    -- only the target leads to the new cluster
    have onlyTarget : ∀ z, vol.Valid z → chainNext vol d' z = some c → target = some z := by
      intro z validZ hop
      by_contra notTarget
      have zNotC : z ≠ c := by
        rintro rfl
        exact absurd ((linked.next_new valid).1.symm.trans hop) (by simp)
      rw [(linked.next_other validZ zNotC notTarget).2] at hop
      exact sound.next_ne_zero validZ hop free
    have toNew : ∀ z, vol.Valid z → target = some z → chainNext vol d' z = some n → n = c := by
      intro z validZ isTarget hop
      have entry := linked.next_target valid isTarget validZ (notNew z hop)
      exact Option.some.inj (hop.symm.trans entry)
    by_cases atX : target = some x
    · obtain rfl := toNew x validX atX hopX
      exact Option.some.inj (atX.symm.trans (onlyTarget y validY hopY))
    · by_cases atY : target = some y
      · obtain rfl := toNew y validY atY hopY
        exact absurd (onlyTarget x validX hopX) atX
      · rw [(linked.next_other validX (notNew x hopX) atX).2] at hopX
        rw [(linked.next_other validY (notNew y hopY) atY).2] at hopY
        exact sound.disjoint x y n validX validY hopX hopY

end

theorem SoundTable.scans (sound : SoundTable vol d) {rest : List Nat}
    (head : vol.frees d = c :: rest) :
    searchEmptyCluster vol.fat d = some (c, vol.setEntry d c mEoc) ∧
      findEntryClus vol.fat d = some c := by
  have owns : Owns vol d [] (vol.frees d) :=
    ⟨⟨by simp, nodup_nil, by simp⟩, rfl, sound.reserved⟩
  obtain ⟨valid, zero⟩ := mem_frees.mp (show c ∈ vol.frees d by simp [head])
  have busy : ∀ i, i < c → vol.entry d i ≠ 0 := by
    intro i below isZero
    rcases Nat.lt_or_ge i 2 with low | high
    · have cases : i = 0 ∨ i = 1 := by omega
      rcases cases with rfl | rfl
      · exact sound.reserved.1 isZero
      · exact sound.reserved.2 isZero
    · have upper := valid.2
      have mem : i ∈ vol.frees d := mem_frees.mpr ⟨⟨high, by omega⟩, isZero⟩
      have sorted := frees_pairwise vol d
      rw [head] at mem sorted
      rcases mem_cons.mp mem with same | mem
      · omega
      · have later := rel_of_pairwise_cons sorted mem
        omega
  exact ⟨owns.search head, findEntryClus_finds sound.mirror valid zero busy⟩

theorem SoundTable.step (sound : SoundTable vol d) (act : AllocAct) (possible : act.Possible vol d) :
    ∃ d', allocStep vol.fat d act = some d' ∧ SoundTable vol d' ∧
      ∃ c, allocate vol.fat d act = some (c, d') ∧ Extended vol d d' act.target c := by
  obtain ⟨some, last⟩ := possible
  obtain ⟨c, rest, head⟩ := exists_cons_of_ne_nil some
  obtain ⟨searched, found⟩ := sound.scans head
  obtain ⟨valid, free⟩ := mem_frees.mp (show c ∈ vol.frees d by simp [head])
  have apart : ∀ t, act.target = .some t → t ≠ c := by
    rintro t isTarget rfl
    have eoc := (last t isTarget).2.1
    omega
  have result : ∃ d', allocate vol.fat d act = .some (c, d') ∧ Linked vol d d' act.target c := by
    cases act with
    | search target =>
      cases target with
      | none => exact ⟨_, searched, linked_mark valid⟩
      | some t =>
        have validT := (last t rfl).1
        refine ⟨_, ?_, (linked_both valid validT (apart t rfl)).1⟩
        rw [allocate, searched, map_some]
        dsimp only
        rw [vol.writeFatTable_link validT valid]
    | find target =>
      cases target with
      | none =>
        refine ⟨_, ?_, linked_mark valid⟩
        rw [allocate, found, map_some, writeFatTableP_eq (.inl rfl) valid, if_pos rfl]
      | some t =>
        have validT := (last t rfl).1
        have nonzero : t ≠ 0 := by
          have lower := validT.1
          omega
        refine ⟨_, ?_, (linked_both valid validT (apart t rfl)).2⟩
        rw [allocate, found, map_some, writeFatTableP_eq (.inr validT) valid, if_neg nonzero]
  obtain ⟨d', run, linked⟩ := result
  refine ⟨d', by rw [allocStep, run]; rfl, linked.sound sound valid free last, c, run, ?_⟩
  have sorted := frees_pairwise vol d
  refine ⟨by simp [head], ?_, by rw [searched]; rfl, found, linked.frees valid last,
    ⟨valid, (linked.next_new valid).1, (linked.next_new valid).2⟩, ?_, linked.outside⟩
  · intro x mem
    rw [head] at mem sorted
    rcases mem_cons.mp mem with rfl | mem
    · exact le_rfl
    · exact (rel_of_pairwise_cons sorted mem).le
  · exact fun x path chain => linked.chain valid free (fun t isTarget => (last t isTarget).2) chain

end Steps

/-- As long as a cluster is free and the targets are last clusters of chains, every
sequence of allocations returns, keeps the tables sound, and each step extends one
chain by the least free cluster. -/
theorem allocation_along (vol : Volume) (d : Disk) (sound : SoundTable vol d) (acts : List AllocAct)
    (possible : StepsMeet (allocStep vol.fat) (fun d act => act.Possible vol d) d acts) :
    (∃ final, runActs (allocStep vol.fat) d acts = some final) ∧
      HoldsAlong (allocStep vol.fat) (SoundTable vol) d acts ∧
      StepsGive (allocStep vol.fat) (fun d act d' =>
        ∃ c, allocate vol.fat d act = some (c, d') ∧ Extended vol d d' act.target c) d acts := by
  have keeps : ∀ d act next, SoundTable vol d → act.Possible vol d →
      allocStep vol.fat d act = some next → SoundTable vol next ∧
        ∃ c, allocate vol.fat d act = some (c, next) ∧ Extended vol d next act.target c := by
    intro d act next sound possible run
    obtain ⟨d', other, soundNext, extended⟩ := sound.step act possible
    exact Option.some.inj (other.symm.trans run) ▸ ⟨soundNext, extended⟩
  refine ⟨?_, ?_, ?_⟩
  · exact runActs_returns _ _ (SoundTable vol) (fun d act sound possible => by
        obtain ⟨d', run, soundNext, _⟩ := sound.step act possible
        exact ⟨d', run, soundNext⟩) d acts sound possible
  · exact holdsAlong_of_stepsMeet _ _ (SoundTable vol) (SoundTable vol) (fun _ sound => sound)
      (fun d act next sound possible run => (keeps d act next sound possible run).1) d acts sound
      possible
  · exact stepsGive_of_stepsMeet _ _ (SoundTable vol) _ keeps d acts sound possible

theorem small_sound : SoundTable smallVolume smallDisk where
  mirror := by
    intro i inside
    have address : (1024 + i) % 512 = (512 + i) % 512 ∧ (1024 + i) % 4 = (512 + i) % 4 := by omega
    have inSecond : 512 ≤ 1024 + i ∧ 1024 + i < 1536 := by
      simp only [smallVolume] at inside
      omega
    have inFirst : 512 ≤ 512 + i ∧ 512 + i < 1536 := by omega
    show smallDisk (1024 + i) = smallDisk (512 + i)
    unfold smallDisk
    rw [if_pos inSecond, if_pos inFirst, address.1, address.2]
  reserved := by decide +kernel
  terminated := by
    intro c valid busy _
    have lower := valid.1
    have upper : c < 10 := valid.2
    have path : (c = 2 ∨ c = 3 ∨ c = 6) ∨ c = 5 := by
      by_contra other
      have free : c ∈ smallVolume.frees smallDisk := by
        rw [small_frees]
        simp only [mem_cons, not_mem_nil, or_false]
        omega
      exact busy (mem_frees.mp free).2
    rcases path with single | rfl
    · refine ⟨[], valid, ?_, ?_⟩ <;> rcases single with rfl | rfl | rfl <;>
        simp only [IsEoc, Trail] <;> decide +kernel
    · refine ⟨[3], valid, ?_, ?_⟩ <;> simp only [IsEoc, Trail] <;> decide +kernel
  disjoint := by
    intro c c' n valid valid' hop hop'
    have lead : ∀ x, smallVolume.Valid x → (chainNext smallVolume smallDisk x).isSome → x = 5 := by
      have checked : ∀ x < 10, 2 ≤ x → (chainNext smallVolume smallDisk x).isSome → x = 5 := by
        decide +kernel
      exact fun x valid => checked x valid.2 valid.1
    rw [lead c valid (by simp [hop]), lead c' valid' (by simp [hop'])]

theorem allocation_along_small : SoundTable smallVolume smallDisk ∧
    HoldsAlong (allocStep smallVolume.fat) (SoundTable smallVolume) smallDisk
      [.find none, .search (some 3)] := by
  refine ⟨small_sound, (allocation_along smallVolume smallDisk small_sound _ ?_).2.1⟩
  refine ⟨⟨by rw [small_frees]; simp, by simp [AllocAct.target]⟩, ?_⟩
  intro next run
  have evaluated : (allocStep smallVolume.fat smallDisk (.find none)).map (fun d =>
      decide (smallVolume.frees d ≠ [] ∧ smallVolume.entry d 3 = mEoc)) = some true := by
    decide +kernel
  rw [run, map_some, some.injEq, decide_eq_true_eq] at evaluated
  refine ⟨⟨evaluated.1, ?_⟩, fun _ _ => trivial⟩
  intro t isTarget
  obtain rfl : 3 = t := Option.some.inj isTarget
  rw [evaluated.2]
  exact ⟨by decide, by decide, by decide⟩

end CCore.Fat
