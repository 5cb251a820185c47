import CCore.Fat.Loops

/-!
# Whole calls of `fat32_read` and `fat32_write`

`OpenFile` is a descriptor of a regular file whose cursor designates its
position.  `fat32Read_spec` and `fat32Write_spec` say what one call returns and
leaves behind, right or wrong, in terms of `track` and `address`.
-/
namespace CCore.Fat

open Bytes Fs Loop List Option Nat

def Designates (vol : Volume) (chain : List Nat) (nfd : Fd) : Prop :=
  nfd.pos / vol.cs < chain.length → nfd.curClusNum = chain.getD (nfd.pos / vol.cs) 0 ∧
      nfd.curSec = vol.first (chain.getD (nfd.pos / vol.cs) 0) + nfd.pos % vol.cs / 512

structure OpenFile (vol : Volume) (d : Disk) (eoc : Nat) (chain : List Nat) (nfd : Fd) : Prop where
  chainOn : ChainOn vol d eoc chain
  covers : nfd.length ≤ vol.cs * chain.length
  length_lt : nfd.length < 2 ^ 32
  first : nfd.firstClusNum = chain.getD 0 0
  pos_le : nfd.pos ≤ nfd.length
  cursor : Designates vol chain nfd
  regular : nfd.flags &&& oDirectory = 0

/-- The end-of-chain marks of the format; the code itself writes the last one. -/
def IsEoc (eoc : Nat) : Prop := 0x0ffffff8 ≤ eoc ∧ eoc ≤ 0x0fffffff

section Chains
variable {vol : Volume} {d : Disk} {chain chain' : List Nat} {eoc : Nat}

/-- The sectors that a mark would have as a cluster number are those of no
cluster, even with the wrap-around of `first_sec_of_clus`. -/
theorem firstSec_mark (mark : IsEoc eoc) {c o : Nat} (valid : vol.Valid c) (small : o < vol.spc) :
    u32 (vol.fat.firstSecOfClus eoc + o) ≠ vol.first c + o := by
  have range := vol.in_range'
  have limit := vol.clusters_le
  have cases := vol.spc_cases
  have upper := valid.2
  obtain ⟨low, high⟩ := mark
  have index : u32 (eoc + (2 ^ 32 - 2)) = eoc - 2 := by
    unfold u32
    omega
  have sector : vol.fat.firstSecOfClus eoc = u32 ((eoc - 2) * vol.spc + vol.fat.firstDataSec) := by
    rw [FatSb.firstSecOfClus, Volume.spc, index]
  rw [sector]
  unfold Volume.first at *
  unfold u32
  generalize vol.spc = k at *
  rcases cases with rfl | rfl | rfl | rfl | rfl | rfl | rfl | rfl <;> omega

theorem getD_default {i e x : Nat} (inside : i < chain.length) :
    chain.getD i e = chain.getD i x := by
  rw [getD_eq_getElem _ _ inside, getD_eq_getElem _ _ inside]

theorem clusters_of_nodup (valid : ∀ c ∈ chain, vol.Valid c) (nodup : chain.Nodup) (e : Nat) :
    vol.Clusters (fun i => chain.getD i e) chain.length := by
  constructor
  · intro i inside
    exact valid _ (getD_mem inside)
  · intro i j inside inside' same
    rw [getD_eq_getElem _ _ inside, getD_eq_getElem _ _ inside'] at same
    exact (List.Nodup.getElem_inj_iff nodup).mp same

def walk (fat : FatSb) (d : Disk) (first : Nat) : Nat → Nat := fun i => (nextCluster fat d)^[i] first

theorem nextCluster_walk (fat : FatSb) (d : Disk) (first i : Nat) :
    nextCluster fat d (walk fat d first i) = walk fat d first (i + 1) := by
  unfold walk
  rw [Function.iterate_succ_apply']

theorem ChainOn.walk_eq (on : ChainOn vol d eoc chain) (nonempty : 0 < chain.length) {i : Nat}
    (inside : i ≤ chain.length) : walk vol.fat d (chain.getD 0 0) i = chain.getD i eoc := by
  induction i with
  | zero => exact getD_default nonempty
  | succ i ih =>
    have valid := on.valid_getD (e := eoc) (i := i) (by omega)
    rw [← nextCluster_walk, ih (by omega), vol.nextCluster_eq valid.2,
      getD_default (x := 0) (by omega), on.linked i (by omega)]

theorem ChainOn.unique (on : ChainOn vol d eoc chain) (on' : ChainOn vol d eoc chain')
    (mark : IsEoc eoc) (nonempty : 0 < chain.length) (nonempty' : 0 < chain'.length)
    (first : chain.getD 0 0 = chain'.getD 0 0) : chain = chain' := by
  have limit := vol.clusters_le
  have agree : ∀ i, i ≤ chain.length → i ≤ chain'.length →
      chain.getD i eoc = chain'.getD i eoc := by
    intro i inside inside'
    rw [← on.walk_eq nonempty inside, ← on'.walk_eq nonempty' inside', first]
  have lengths : chain.length = chain'.length := by
    rcases Nat.lt_trichotomy chain.length chain'.length with shorter | same | longer
    · have value := agree chain.length le_rfl (by omega)
      rw [getD_eq_default _ _ le_rfl] at value
      have upper := (on'.valid_getD (e := eoc) shorter).2
      unfold IsEoc at mark
      omega
    · exact same
    · have value := agree chain'.length (by omega) le_rfl
      rw [getD_eq_default chain' _ le_rfl] at value
      have upper := (on.valid_getD (e := eoc) longer).2
      unfold IsEoc at mark
      omega
  apply ext_getElem lengths
  intro i inside inside'
  have value := agree i (by omega) (by omega)
  rwa [getD_eq_getElem _ _ inside, getD_eq_getElem _ _ inside'] at value

end Chains

variable {e : Nat → Nat} {q : Nat}

namespace Volume

variable (vol : Volume)

def contents (d : Disk) (chain : List Nat) (length : Nat) : List UInt8 :=
  (List.range length).map fun q => d (vol.place (fun i => chain.getD i 0) q)

variable {vol}

theorem place_bounds (valid : vol.Valid (e (q / vol.cs))) : vol.dataStart ≤ vol.place e q ∧
    vol.place e q / 512 = vol.first (e (q / vol.cs)) + q % vol.cs / 512 := by
  have bounds := vol.first_le valid
  unfold place dataStart
  omega

theorem place_inj {len q' : Nat} (clusters : vol.Clusters e len) (inside : q / vol.cs < len)
    (inside' : q' / vol.cs < len) (same : vol.place e q = vol.place e q') : q = q' := by
  have valid := clusters.valid _ inside
  have valid' := clusters.valid _ inside'
  have sector := (place_bounds valid).2
  have sector' := (place_bounds valid').2
  rw [same, sector'] at sector
  obtain ⟨cluster, _⟩ := vol.first_add_lt valid' valid (vol.sector_lt q') (vol.sector_lt q) sector
  have index := clusters.inj _ _ inside' inside cluster
  have floor := div_add_mod q vol.cs
  have floor' := div_add_mod q' vol.cs
  unfold place at same
  rw [index] at same floor'
  omega

theorem length_contents (d : Disk) (chain : List Nat) (length : Nat) :
    (vol.contents d chain length).length = length := by
  rw [contents, length_map, length_range]

theorem getElem_contents {d : Disk} {chain : List Nat} {length : Nat}
    (inside : q < (vol.contents d chain length).length) :
    (vol.contents d chain length)[q] = d (vol.place (fun i => chain.getD i 0) q) := by
  simp [contents]

end Volume

section Read
variable {vol : Volume} {d : Disk} {chain : List Nat} {eoc : Nat} {nfd : Fd}

def readCount (nfd : Fd) (count : Nat) : Nat := min count (nfd.length - nfd.pos)

section
variable (file : OpenFile vol d eoc chain nfd)
include file

theorem OpenFile.stop_le (count : Nat) : nfd.pos + readCount nfd count ≤ nfd.length := by
  have inside := file.pos_le
  unfold readCount
  omega

theorem OpenFile.fits (count : Nat) : nfd.pos + readCount nfd count ≤ vol.cs * chain.length :=
  (file.stop_le count).trans file.covers

theorem fat32Read_eq (readable : nfd.flags &&& oWronly = 0) (count : Nat) :
    fat32Read vol.fat d nfd count = (whileLoop (fun s => s.ncount < readCount nfd count)
        (fun s => some (readBlock vol.fat d (readCount nfd count) (u32 (nfd.pos / vol.cs))
          (u32 (nfd.pos / 512)) s)) (readCount nfd count) ⟨nfd, 0, []⟩).map
        fun s => ((readCount nfd count : Int), s.bytes, s.nfd) := by
  have inside := file.pos_le
  have small := file.length_lt
  have exact : u32 (min count (nfd.length - nfd.pos)) = readCount nfd count := by
    unfold readCount
    exact mod_eq_of_lt (by omega)
  have size : vol.fat.clusterSize = vol.cs := rfl
  rw [fat32Read, if_neg (by simp [file.regular, readable]), if_neg (by omega)]
  simp only [exact, size, vol.sectorSize_eq]

theorem fat32Read_none
    (readable : nfd.flags &&& oWronly = 0) {count : Nat} (none : readCount nfd count = 0) :
    fat32Read vol.fat d nfd count = some (0, [], nfd) := by
  rw [fat32Read_eq file readable, none]
  simp [whileLoop]

theorem OpenFile.follows (n : Nat) (inside : nfd.pos / vol.cs < chain.length)
    (same : e (nfd.pos / vol.cs) = chain.getD (nfd.pos / vol.cs) 0) :
    Follows vol e nfd.pos n 0 nfd := by
  obtain ⟨cluster, sector⟩ := file.cursor inside
  constructor
  · exact (vol.mark_zero).symm
  · rw [cluster, ← same]
    rfl
  · rw [sector, ← same]
    rfl

theorem fat32Read_spec
    (readable : nfd.flags &&& oWronly = 0) {count : Nat} (some' : readCount nfd count ≠ 0) :
    ∃ nfd', fat32Read vol.fat d nfd count = some ((readCount nfd count : Int),
          (List.range (readCount nfd count)).map fun i =>
            vol.delivered (walk vol.fat d nfd.firstClusNum) d nfd.pos (readCount nfd count)
              (nfd.pos + i), nfd') ∧
      Follows vol (walk vol.fat d nfd.firstClusNum) nfd.pos (readCount nfd count)
        (vol.rounds nfd.pos (readCount nfd count)) nfd' ∧ Moved nfd nfd' := by
  have stop := file.stop_le count
  have small := file.length_lt
  have inside : nfd.pos / vol.cs < chain.length :=
    Nat.div_lt_of_lt_mul (by have bound := file.fits count; omega)
  have cluster : walk vol.fat d nfd.firstClusNum (nfd.pos / vol.cs) =
      chain.getD (nfd.pos / vol.cs) 0 := by
    rw [file.first, file.chainOn.walk_eq (zero_lt_of_lt inside) inside.le]
    exact getD_default inside
  obtain ⟨s, ran, last⟩ := readLoop_spec (d := d) (n := readCount nfd count) (by omega)
    (nextCluster_walk vol.fat d nfd.firstClusNum) (file.follows _ inside cluster)
  refine ⟨s.nfd, ?_, last.follows, last.moved⟩
  rw [fat32Read_eq file readable, ran, map_some, last.bytes, vol.mark_rounds,
    Nat.add_sub_cancel_left]

end
end Read

/-! ## One call of `fat32_write` -/

/-- A file that a call can write `n` bytes to.  It has a cluster at its position
unless it is empty, the free clusters suffice, and its directory entry is in the
data area, in no cluster of the file and in no free one. -/
structure Writable (vol : Volume) (d : Disk) (chain free : List Nat) (nfd : Fd) (n : Nat) :
    Prop where
  file : OpenFile vol d mEoc chain nfd
  owns : Owns vol d chain free
  started : nfd.pos / vol.cs < chain.length ∨ chain = []
  room : vol.endIndex nfd.pos n < (chain ++ free).length
  dirSector : vol.fat.firstDataSec ≤ nfd.dirPos.sec ∧ nfd.dirPos.sec < 2 ^ 32
  dirApart : ∀ c ∈ chain ++ free, ∀ i, i < vol.spc → vol.first c + i ≠ nfd.dirPos.sec

def chainAfter (vol : Volume) (chain : List Nat) (nfd : Fd) (n : Nat) : Nat :=
  max chain.length (vol.endIndex nfd.pos n + 1)

def lengthAfter (nfd : Fd) (n : Nat) : Nat :=
  if nfd.length < u32 (nfd.pos + n) then u32 (nfd.pos + n) else nfd.length

structure WriteResult (vol : Volume) (d : Disk) (chain free : List Nat) (nfd : Fd)
    (data : List UInt8) (d' : Disk) (nfd' : Fd) : Prop where
  follows : Follows vol (clusterOf (chain ++ free)) nfd.pos data.length
    (vol.rounds nfd.pos data.length) nfd'
  moved : Moved { nfd with
    firstClusNum := (chain ++ free).getD 0 0, length := lengthAfter nfd data.length } nfd'
  owns : Owns vol d' ((chain ++ free).take (chainAfter vol chain nfd data.length))
    ((chain ++ free).drop (chainAfter vol chain nfd data.length))
  frame : TableFrame vol d d' ((chain ++ free).take (chainAfter vol chain nfd data.length))
  written : ∀ a, vol.dataStart ≤ a → a / 512 ≠ nfd.dirPos.sec →
    WrittenTo vol (clusterOf (chain ++ free)) d d' nfd.pos data (nfd.pos + data.length) a

section Write
variable {vol : Volume} {d : Disk} {chain free : List Nat} {nfd : Fd} {data : List UInt8} {n : Nat}

section
variable (file : Writable vol d chain free nfd n)
include file

theorem Writable.clusters (e : Nat) :
    vol.Clusters (fun i => (chain ++ free).getD i e) (chain ++ free).length :=
  clusters_of_nodup (fun _ mem => file.owns.valid_append mem) file.owns.nodup_append e

theorem Writable.pos_of_empty (empty : chain = []) : nfd.pos = 0 ∧ nfd.firstClusNum = 0 := by
  have covers := file.file.covers
  have inside := file.file.pos_le
  have first := file.file.first
  rw [empty, length_nil, Nat.mul_zero] at covers
  rw [empty] at first
  exact ⟨by omega, first⟩

theorem Writable.first_ne_zero (nonempty : chain ≠ []) : nfd.firstClusNum ≠ 0 := by
  have positive := length_pos_of_ne_nil nonempty
  have lower := (file.file.chainOn.valid_getD (e := 0) positive).1
  rw [file.file.first]
  omega

end

theorem firstCluster_spec (file : Writable vol d chain free nfd data.length) :
    ∃ d₁ nfd₁, firstCluster vol.fat d nfd = some (d₁, nfd₁) ∧ nfd₁.pos = nfd.pos ∧
      Moved { nfd with firstClusNum := (chain ++ free).getD 0 0 } nfd₁ ∧
      Follows vol (clusterOf (chain ++ free)) nfd.pos data.length 0 nfd₁ ∧
      Owns vol d₁ ((chain ++ free).take (max chain.length (nfd.pos / vol.cs + 1)))
        ((chain ++ free).drop (max chain.length (nfd.pos / vol.cs + 1))) ∧ SameData vol d d₁ ∧
      TableFrame vol d d₁ ((chain ++ free).take (max chain.length (nfd.pos / vol.cs + 1))) := by
  by_cases empty : chain = []
  · obtain ⟨zero, first⟩ := file.pos_of_empty empty
    have room := file.room
    subst empty
    obtain ⟨c, rest, head⟩ : ∃ c rest, free = c :: rest := by
      cases free with
      | nil => simp at room
      | cons c rest => exact ⟨c, rest, rfl⟩
    subst head
    have valid : vol.Valid c := file.owns.valid_free mem_cons_self
    have index : nfd.pos / vol.cs = 0 := by rw [zero, Nat.zero_div]
    rw [firstCluster, if_pos first, file.owns.search rfl, map_some, index]
    refine ⟨_, _, rfl, rfl, rfl, ?_, file.owns.begin rfl, ?_, ?_⟩
    · constructor
      · exact vol.mark_zero.symm
      · show c = (c :: rest).getD (nfd.pos / vol.cs) mEoc
        rw [index]
        rfl
      · show vol.fat.firstSecOfClus c =
          vol.first ((c :: rest).getD (nfd.pos / vol.cs) mEoc) + nfd.pos % vol.cs / 512
        rw [index, zero, vol.firstSecOfClus_eq valid]
        simp
    · intro a above
      exact vol.setEntry_of_data valid.2 above
    · apply TableFrame.setEntry
      exact mem_cons_self
  · have inside : nfd.pos / vol.cs < chain.length := by
      rcases file.started with inside | absurd
      · exact inside
      · exact (empty absurd).elim
    have size : max chain.length (nfd.pos / vol.cs + 1) = chain.length := by omega
    have same : ∀ i e, i < chain.length → (chain ++ free).getD i e = chain.getD i 0 := by
      intro i e bound
      rw [getD_append _ _ _ _ bound]
      exact getD_default bound
    rw [firstCluster, if_neg (file.first_ne_zero empty), size, take_left, drop_left]
    refine ⟨d, nfd, rfl, rfl, ?_, ?_, file.owns, fun _ _ => rfl, TableFrame.refl vol d _⟩
    · rw [same 0 0 (length_pos_of_ne_nil empty), ← file.file.first]
      exact Moved.refl nfd
    · exact file.file.follows _ inside (same _ _ inside)

theorem updateDentry_outside {finalLength a : Nat} {firstFlag : Bool}
    (small : nfd.dirPos.sec < 2 ^ 32) (outside : a / 512 ≠ nfd.dirPos.sec) :
    updateDentry d nfd finalLength firstFlag a = d a := by
  rw [updateDentry, diskWrite_eq (by omega)]
  apply blit_outside
  omega

theorem finish_spec {s : Writing} (low : vol.fat.firstDataSec ≤ s.nfd.dirPos.sec)
    (small : s.nfd.dirPos.sec < 2 ^ 32) (finalLength count : Nat) (firstFlag : Bool) :
    ∃ d', (if s.nfd.length < finalLength then
          ((count : Int), updateDentry s.disk s.nfd finalLength firstFlag,
            withLength s.nfd finalLength) else ((count : Int), s.disk, s.nfd)) =
        ((count : Int), d', withLength s.nfd
          (if s.nfd.length < finalLength then finalLength else s.nfd.length)) ∧
      SameTables vol s.disk d' ∧ ∀ a, a / 512 ≠ s.nfd.dirPos.sec → d' a = s.disk a := by
  by_cases longer : s.nfd.length < finalLength
  · refine ⟨updateDentry s.disk s.nfd finalLength firstFlag, ?_, ?_, ?_⟩
    · rw [if_pos longer, if_pos longer]
    · intro a below
      apply updateDentry_outside small
      unfold Volume.dataStart at below
      omega
    · intro a outside
      exact updateDentry_outside small outside
  · refine ⟨s.disk, ?_, fun _ _ => rfl, fun _ _ => rfl⟩
    rw [if_neg longer, if_neg longer]
    rfl

theorem fat32Write_spec (file : Writable vol d chain free nfd data.length)
    (nonempty : data.length ≠ 0) (short : data.length < 2 ^ 32) :
    ∃ d' nfd', fat32Write vol.fat d nfd data = some ((data.length : Int), d', nfd') ∧
      WriteResult vol d chain free nfd data d' nfd' := by
  obtain ⟨d₁, nfd₁, opened, position, moved, follows, owns, sameData, frame⟩ :=
    firstCluster_spec file
  have inside := file.file.pos_le
  have lengthSmall := file.file.length_lt
  have within : chain.length ≤ (chain ++ free).length := by simp
  have start : WriteAt vol (chain ++ free) chain.length d₁ nfd₁ data 0 ⟨d₁, nfd₁, 0, 0⟩ := by
    constructor
    · rwa [position]
    · exact Moved.refl nfd₁
    · rw [vol.mark_zero, Nat.sub_self]
    · rw [vol.mark_zero, Nat.sub_self]
    · rwa [position]
    · exact TableFrame.refl vol d₁ _
    · intro a _
      right
      refine ⟨?_, rfl⟩
      intro q lower upper
      rw [vol.mark_zero] at upper
      omega
  obtain ⟨s, ran, last⟩ := writeLoop_spec (by omega) short (file.clusters mEoc) within
    (position ▸ file.room) start
  have sameFile := moved.trans last.moved
  have dirPos : s.nfd.dirPos = nfd.dirPos := by rw [sameFile]
  have oldLength : s.nfd.length = nfd.length := by rw [sameFile]
  obtain ⟨low, small⟩ := file.dirSector
  rw [← dirPos] at low small
  obtain ⟨d', finished, tables, outside⟩ := finish_spec low small
    (u32 (nfd.pos + data.length)) data.length (nfd.firstClusNum = 0)
  have size : vol.fat.clusterSize = vol.cs := rfl
  have chainEnd : max chain.length ((vol.track (clusterOf (chain ++ free)) nfd₁.pos data.length
      (vol.rounds nfd₁.pos data.length)).1 + 1) = chainAfter vol chain nfd data.length := by
    rw [vol.track_rounds_index, position]
    rfl
  have ownsLast := last.owns
  have frameLast := last.frame
  rw [chainEnd] at ownsLast frameLast
  rw [oldLength] at finished
  refine ⟨d', withLength s.nfd (lengthAfter nfd data.length), ?_, ?_⟩
  · rw [fat32Write, if_neg (by simp [file.file.regular, oRdonly]), if_neg nonempty]
    rw [position] at ran
    simp only [opened, bind_some, size, vol.sectorSize_eq, ran, map_some]
    rw [oldLength, finished]
    rfl
  · constructor
    · have final := last.follows
      rw [position] at final
      exact ⟨final.position, final.cluster, final.sector⟩
    · exact congrArg (withLength · (lengthAfter nfd data.length)) sameFile
    · exact ownsLast.congr tables
    · apply (frame.trans frameLast _).trans (TableFrame.of_sameTables tables _)
      · intro c mem
        exact mem
      · intro c mem
        apply take_subset_take_left _ _ mem
        have order := vol.track_index_mono (clusterOf (chain ++ free)) nfd.pos data.length
          (Nat.zero_le (vol.rounds nfd.pos data.length))
        rw [vol.track_rounds_index] at order
        have first : (vol.track (clusterOf (chain ++ free)) nfd.pos data.length 0).1 =
            nfd.pos / vol.cs := rfl
        unfold chainAfter
        omega
    · intro a above apart
      have bytes := last.written a above
      rw [vol.mark_rounds, position] at bytes
      unfold WrittenTo at bytes ⊢
      rw [outside a (dirPos ▸ apart)]
      rwa [sameData a above] at bytes

end Write
end CCore.Fat
