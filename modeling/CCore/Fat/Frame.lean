import CCore.Fat.ByteArray

/-!
# What a write may touch

`FrameRight` says that `fat32_write` changes only sectors of its own file, of
the tables and of its directory entry, so that every other file keeps its chain
and its contents.  The tables are always updated rightly; the sectors of the data
area that change are those of the transfers, so the property holds exactly when
these lie in the file.
-/
namespace CCore.Fat

open Fs List Option Volume Nat

/-- The sector that the call transfers byte `q` to: the start of its round, in
the closed form of `startSec`, and the sectors of the round before it. -/
def Volume.transferSec (vol : Volume) (e : Nat → Nat) (pos q : Nat) : Nat :=
  vol.startSec e pos ((q - sectorBase pos) / vol.buf) + (q - sectorBase pos) % vol.buf / 512

def Volume.InClusters (vol : Volume) (chain : List Nat) (sec : Nat) : Prop :=
  ∃ c ∈ chain, ∃ i, i < vol.spc ∧ sec = vol.first c + i

instance (vol : Volume) (chain : List Nat) (sec : Nat) : Decidable (vol.InClusters chain sec) :=
  inferInstanceAs (Decidable (∃ c ∈ chain, _))

def SectorFrame (vol : Volume) (d d' : Disk) (chain : List Nat) (dirSec : Nat) : Prop :=
  ∀ sec o, o < 512 → d' (512 * sec + o) ≠ d (512 * sec + o) →
    vol.fatStart ≤ sec ∧ sec < vol.fat.firstDataSec ∨ sec = dirSec ∨ vol.InClusters chain sec

/-- A file that shares no cluster with the chain, and whose clusters do not hold
the directory entry, is as before. -/
def OthersKept (vol : Volume) (d d' : Disk) (chain : List Nat) (dirSec : Nat) : Prop :=
  ∀ eoc other length, ChainOn vol d eoc other → length ≤ vol.cs * other.length →
    (∀ c ∈ other, c ∉ chain) → ¬ vol.InClusters other dirSec →
    ChainOn vol d' eoc other ∧ vol.contents d' other length = vol.contents d other length

def FrameRight (vol : Volume) (d : Disk) (nfd : Fd) (data : List UInt8) : Prop :=
  ∃ d' nfd' chain', fat32Write vol.fat d nfd data = some ((data.length : Int), d', nfd') ∧
    ChainOn vol d' mEoc chain' ∧ nfd'.firstClusNum = chain'.getD 0 0 ∧
    SectorFrame vol d d' chain' nfd.dirPos.sec ∧ OthersKept vol d d' chain' nfd.dirPos.sec

variable {vol : Volume} {d d' : Disk} {chain free : List Nat} {nfd nfd' : Fd}
  {data : List UInt8} {n : Nat}

theorem othersKept_of_frame {dirSec : Nat} (valid : ∀ c ∈ chain, vol.Valid c)
    (table : TableFrame vol d d' chain) (sectors : SectorFrame vol d d' chain dirSec) :
    OthersKept vol d d' chain dirSec := by
  intro eoc other length on covers apart dirApart
  constructor
  · refine ⟨on.valid, on.nodup, ?_⟩
    intro i inside
    rw [table.others _ (on.valid_getD inside).2 (apart _ (getD_mem inside))]
    exact on.linked i inside
  · unfold Volume.contents
    apply map_congr_left
    intro q mem
    have bound := mem_range.mp mem
    have inside : q / vol.cs < other.length := Nat.div_lt_of_lt_mul (by omega)
    have mine : other.getD (q / vol.cs) 0 ∈ other := getD_mem inside
    have validHere := on.valid _ mine
    obtain ⟨low, sector⟩ := place_bounds (e := fun i => other.getD i 0) validHere
    have small := vol.sector_lt q
    by_contra differs
    -- the sector of the byte would have to be one that the call may touch
    have split : vol.place (fun i => other.getD i 0) q =
        512 * (vol.place (fun i => other.getD i 0) q / 512) +
          vol.place (fun i => other.getD i 0) q % 512 := by omega
    rw [split] at differs
    rcases sectors _ _ (mod_lt _ (by omega)) differs with
      ⟨_, high⟩ | dir | ⟨c, memC, i, small', same⟩
    · unfold Volume.dataStart at low
      omega
    · exact dirApart ⟨_, mine, _, small, by rw [← dir, sector]⟩
    · rw [sector] at same
      have clusters := (vol.first_add_lt validHere (valid c memC) small small' same).1
      exact apart _ mine (clusters ▸ memC)

theorem address_sector {e : Nat → Nat} {pos q : Nat} (valid : vol.Valid (e (pos / vol.cs)))
    (lower : pos ≤ q) (upper : q < pos + n) :
    vol.address e pos n q / 512 = vol.transferSec e pos q := by
  rw [address_eq lower, vol.track_eq valid (vol.round_lt lower upper)]
  unfold Volume.transferSec
  omega

theorem Writable.transferSec_bounds (file : Writable vol d chain free nfd n) {q : Nat}
    (lower : nfd.pos ≤ q) (upper : q < nfd.pos + n) :
    vol.Valid (clusterOf (chain ++ free) (nfd.pos / vol.cs)) ∧
      vol.fat.firstDataSec ≤ vol.transferSec (clusterOf (chain ++ free)) nfd.pos q := by
  have clusters := file.clusters mEoc
  have more := vol.round_lt lower upper
  have order := vol.track_index_mono (clusterOf (chain ++ free)) nfd.pos n more.le
  rw [vol.track_rounds_index, vol.track_index_eq _ more] at order
  have near := Nat.lt_of_le_of_lt order file.room
  have bounds := (vol.startSec_bounds clusters near).1
  refine ⟨clusters.valid _ (index_lt file.fits (q := nfd.pos) (by omega)), ?_⟩
  exact Nat.le_trans bounds (Nat.le_add_right _ _)

theorem WriteResult.sectorFrame (file : Writable vol d chain free nfd data.length)
    (result : WriteResult vol d chain free nfd data d' nfd') {own : List Nat}
    (inside : ∀ q, nfd.pos ≤ q → q < nfd.pos + data.length →
      vol.InClusters own (vol.transferSec (clusterOf (chain ++ free)) nfd.pos q) ∨
        vol.transferSec (clusterOf (chain ++ free)) nfd.pos q = nfd.dirPos.sec) :
    SectorFrame vol d d' own nfd.dirPos.sec := by
  intro sec o small differs
  have start : vol.dataStart = 512 * vol.fat.firstDataSec := rfl
  rcases Nat.lt_or_ge sec vol.fat.firstDataSec with table | data'
  · left
    refine ⟨?_, table⟩
    by_contra reserved
    exact differs (result.frame.reserved _ (by omega))
  · by_cases dir : sec = nfd.dirPos.sec
    · exact .inr (.inl dir)
    · have sector : (512 * sec + o) / 512 = sec := by omega
      rcases result.written (512 * sec + o) (by omega) (by omega) with
        ⟨q, lower, upper, address, _⟩ | ⟨_, same⟩
      · have valid := (file.transferSec_bounds lower upper).1
        have hit := address_sector valid lower upper
        rw [address, sector] at hit
        rcases inside q lower upper with own' | dir'
        · exact .inr (.inr (hit ▸ own'))
        · exact absurd (hit.trans dir') dir
      · exact absurd same differs

end CCore.Fat
