import CCore.Fat.Aligned
import CCore.Fat.Calls

/-!
# A regular file as a byte array

What a byte array would do is `ReadsRight` and `WritesRight`: a read delivers a
slice of the contents and a write splices its data in.  The calls of the code do
so for every contents of the volume exactly when their transfers are aligned.
-/
namespace CCore.Fat

open Fs List Option Volume Nat Writable

/-- `data` in the place of the bytes from `pos` on; the result may be longer. -/
def splice (old : List UInt8) (pos : Nat) (data : List UInt8) : List UInt8 :=
  old.take pos ++ (data ++ old.drop (pos + data.length))

/-- The read returns the number of bytes left, up to `count`, and delivers them. -/
def ReadsRight (vol : Volume) (d : Disk) (chain : List Nat) (nfd : Fd) (count : Nat) : Prop :=
  ∃ nfd', fat32Read vol.fat d nfd count = some ((readCount nfd count : Int),
      ((vol.contents d chain nfd.length).drop nfd.pos).take (readCount nfd count), nfd')

/-- The write returns `count`; the file then has a chain that holds the old
contents with the data spliced in. -/
def WritesRight (vol : Volume) (d : Disk) (chain : List Nat) (nfd : Fd) (data : List UInt8) :
    Prop :=
  ∃ d' nfd' chain', fat32Write vol.fat d nfd data = some ((data.length : Int), d', nfd') ∧
    ChainOn vol d' mEoc chain' ∧ nfd'.firstClusNum = chain'.getD 0 0 ∧
    nfd'.length = max nfd.length (nfd.pos + data.length) ∧ nfd'.length ≤ vol.cs * chain'.length ∧
    vol.contents d' chain' nfd'.length = splice (vol.contents d chain nfd.length) nfd.pos data

variable {vol : Volume} {d d' : Disk} {chain : List Nat} {eoc : Nat} {nfd : Fd}

theorem OpenFile.congr (file : OpenFile vol d eoc chain nfd) (same : SameTables vol d d') :
    OpenFile vol d' eoc chain nfd :=
  { file with chainOn := file.chainOn.congr same }

theorem contents_slice {pos n length : Nat} (inside : pos + n ≤ length) :
    ((vol.contents d chain length).drop pos).take n =
      (List.range n).map fun i => d (vol.place (fun i => chain.getD i 0) (pos + i)) := by
  have size := vol.length_contents d chain length
  apply ext_getElem
  · rw [List.length_take, length_drop, size, length_map, length_range]
    omega
  · intro i _ _
    rw [getElem_take, getElem_drop, getElem_contents, getElem_map, getElem_range]

theorem aligned_zero {e : Nat → Nat} (pos : Nat) : vol.Aligned e pos 0 := by
  constructor
  · right
    left
    unfold sectorBase
    omega
  · intro q lower upper
    omega

theorem delivered_eq (file : OpenFile vol d eoc chain nfd) {n q : Nat}
    (fits : nfd.pos + n ≤ vol.cs * chain.length) (lower : nfd.pos ≤ q) (upper : q < nfd.pos + n)
    (near : nfd.pos / vol.cs + ((q - sectorBase nfd.pos) / vol.buf - vol.stay nfd.pos) ≤
      chain.length) (below : vol.startSec (fun i => chain.getD i eoc) nfd.pos
        ((q - sectorBase nfd.pos) / vol.buf) + (q - sectorBase nfd.pos) % vol.buf / 512 < 2 ^ 32) :
    vol.delivered (walk vol.fat d nfd.firstClusNum) d nfd.pos n q =
      d (vol.address (fun i => chain.getD i eoc) nfd.pos n q) := by
  have inside : nfd.pos / vol.cs < chain.length := index_lt fits (q := nfd.pos) (by omega)
  have more := vol.round_lt lower upper
  have walked : ∀ i, i ≤ chain.length → walk vol.fat d nfd.firstClusNum i = chain.getD i eoc := by
    intro i bound
    rw [file.first, file.chainOn.walk_eq (zero_lt_of_lt inside) bound]
  have valid : vol.Valid (chain.getD (nfd.pos / vol.cs) eoc) := file.chainOn.valid_getD inside
  have validWalk : vol.Valid (walk vol.fat d nfd.firstClusNum (nfd.pos / vol.cs)) := by
    rwa [walked _ inside.le]
  have sector : vol.startSec (walk vol.fat d nfd.firstClusNum) nfd.pos
      ((q - sectorBase nfd.pos) / vol.buf) =
      vol.startSec (fun i => chain.getD i eoc) nfd.pos ((q - sectorBase nfd.pos) / vol.buf) :=
    startSec_congr (walked _ inside.le) (walked _ near)
  unfold Volume.delivered Volume.address
  rw [vol.track_eq validWalk more, vol.track_eq (e := fun i => chain.getD i eoc) valid more,
    sector, diskRead_eq below]

theorem readsRight_iff_delivered (file : OpenFile vol d eoc chain nfd)
    (readable : nfd.flags &&& oWronly = 0) {count : Nat} (some' : readCount nfd count ≠ 0) :
    ReadsRight vol d chain nfd count ↔ ∀ q, nfd.pos ≤ q → q < nfd.pos + readCount nfd count →
      vol.delivered (walk vol.fat d nfd.firstClusNum) d nfd.pos (readCount nfd count) q =
        d (vol.place (fun i => chain.getD i 0) q) := by
  obtain ⟨nfd', ran, _⟩ := fat32Read_spec file readable some'
  rw [ReadsRight, contents_slice (file.stop_le count), ran]
  constructor
  · rintro ⟨nfd'', same⟩ q lower upper
    have bytes := congrArg (fun r => r.2.1) (Option.some.inj same)
    have value := map_inj_left.mp bytes (q - nfd.pos) (mem_range.mpr (by omega))
    have position : nfd.pos + (q - nfd.pos) = q := by omega
    rwa [position] at value
  · intro right
    refine ⟨nfd', ?_⟩
    have bytes : ∀ i ∈ List.range (readCount nfd count),
        vol.delivered (walk vol.fat d nfd.firstClusNum) d nfd.pos (readCount nfd count)
          (nfd.pos + i) = d (vol.place (fun i => chain.getD i 0) (nfd.pos + i)) := by
      intro i mem
      have bound := mem_range.mp mem
      exact right _ (by omega) (by omega)
    rw [map_congr_left bytes]

theorem place_default {q : Nat} (inside : q / vol.cs < chain.length) :
    vol.place (fun i => chain.getD i eoc) q = vol.place (fun i => chain.getD i 0) q := by
  have cluster : chain.getD (q / vol.cs) eoc = chain.getD (q / vol.cs) 0 := getD_default inside
  simp only [Volume.place, cluster]

theorem fat32Read_first (file : OpenFile vol d eoc chain nfd)
    (readable : nfd.flags &&& oWronly = 0) {count : Nat} (some' : readCount nfd count ≠ 0) :
    ∃ value rest nfd', rest.length + 1 = readCount nfd count ∧ Moved nfd nfd' ∧
      fat32Read vol.fat d nfd count =
        some (value, d (vol.place (fun i => chain.getD i 0) nfd.pos) :: rest, nfd') := by
  obtain ⟨nfd', ran, _, moved⟩ := fat32Read_spec file readable some'
  have inside : nfd.pos / vol.cs < chain.length :=
    index_lt (file.fits count) (q := nfd.pos) (by omega)
  have offset : nfd.pos - sectorBase nfd.pos = nfd.pos % 512 := by
    unfold sectorBase
    omega
  have short : nfd.pos % 512 < vol.buf := by
    have width := vol.width_pos
    have buffer := vol.buf_width
    omega
  have valid : vol.Valid (chain.getD (nfd.pos / vol.cs) 0) := file.chainOn.valid_getD inside
  have cluster : walk vol.fat d nfd.firstClusNum (nfd.pos / vol.cs) =
      chain.getD (nfd.pos / vol.cs) 0 := by
    rw [file.first, file.chainOn.walk_eq (zero_lt_of_lt inside) inside.le]
    exact getD_default inside
  have sector : vol.first (chain.getD (nfd.pos / vol.cs) 0) + nfd.pos % vol.cs / 512 +
      nfd.pos % 512 / 512 < 2 ^ 32 := by
    have bounds := (vol.first_le valid).2
    have range := vol.in_range'
    have within := vol.sector_lt nfd.pos
    omega
  have byte : vol.delivered (walk vol.fat d nfd.firstClusNum) d nfd.pos (readCount nfd count)
      nfd.pos = d (vol.place (fun i => chain.getD i 0) nfd.pos) := by
    have remainder := vol.mod_cs_mod nfd.pos
    unfold Volume.delivered Volume.place
    rw [offset, div_eq_of_lt short, mod_eq_of_lt short, Volume.track, cluster, diskRead_eq sector]
    refine congrArg d ?_
    beta_reduce
    omega
  obtain ⟨n, size⟩ := exists_eq_succ_of_ne_zero some'
  rw [size, range_succ_eq_map, List.map_cons, List.map_map, ← size, Nat.add_zero, byte] at ran
  exact ⟨_, _, nfd', by rw [length_map, length_range, size], moved, ran⟩

theorem readsRight_iff (mark : IsEoc eoc) (file : OpenFile vol d eoc chain nfd)
    (readable : nfd.flags &&& oWronly = 0) (count : Nat) :
    (∀ d', SameTables vol d d' → ReadsRight vol d' chain nfd count) ↔
      vol.Aligned (fun i => chain.getD i 0) nfd.pos (readCount nfd count) := by
  by_cases none : readCount nfd count = 0
  · rw [none]
    refine iff_of_true ?_ (aligned_zero nfd.pos)
    intro d' same
    refine ⟨nfd, ?_⟩
    rw [fat32Read_none (file.congr same) readable none, none, take_zero]
    rfl
  · have fits := file.fits count
    have clusters := clusters_of_nodup file.chainOn.valid file.chainOn.nodup eoc
    have ends : ∀ c o, vol.Valid c → o < vol.spc →
        u32 (vol.fat.firstSecOfClus (chain.getD chain.length eoc) + o) ≠ vol.first c + o := by
      intro c o valid small
      rw [getD_eq_default _ _ le_rfl]
      exact firstSec_mark mark valid small
    rw [← aligned_congr (e := fun i => chain.getD i eoc) (fun i inside => getD_default inside)
      fits, ← address_eq_place_iff clusters fits ends]
    constructor
    · -- a disk that has something else at the place of `q` than at its address
      intro right q lower upper near below
      by_contra missed
      have inside : q / vol.cs < chain.length := index_lt fits upper
      have valid := clusters.valid _ inside
      have low := (place_bounds (e := fun i => chain.getD i eoc) valid).1
      have same : SameTables vol d (Function.update d (vol.place (fun i => chain.getD i eoc) q)
          (d (vol.address (fun i => chain.getD i eoc) nfd.pos (readCount nfd count) q) + 1)) := by
        intro a reserved
        exact Function.update_of_ne (by omega) _ _
      have byte := (readsRight_iff_delivered (file.congr same) readable none).mp (right _ same)
        q lower upper
      rw [delivered_eq (file.congr same) fits lower upper near below, ← place_default inside,
        Function.update_self, Function.update_of_ne missed] at byte
      exact absurd byte (by simp)
    · intro reached d' same
      rw [readsRight_iff_delivered (file.congr same) readable none]
      intro q lower upper
      have aligned := (address_eq_place_iff clusters fits ends).mp reached
      have near := aligned.1.index_lt fits (vol.round_lt lower upper)
      have bounds := (vol.startSec_bounds clusters near).2
      have offset := mod_lt (q - sectorBase nfd.pos) vol.buf_pos
      have buffer := vol.buf_width
      have inside : q / vol.cs < chain.length := index_lt fits upper
      rw [delivered_eq (file.congr same) fits lower upper (by omega) (by omega),
        reached q lower upper (by omega) (by omega), place_default inside]

section Write
variable {free : List Nat} {nfd' : Fd} {data : List UInt8} {n : Nat}

theorem Writable.congr (file : Writable vol d chain free nfd n) (same : SameTables vol d d') :
    Writable vol d' chain free nfd n :=
  { file with file := file.file.congr same, owns := file.owns.congr same }

theorem Writable.fits (file : Writable vol d chain free nfd n) :
    nfd.pos + n ≤ vol.cs * (chain ++ free).length := by
  have near := vol.div_le_endIndex nfd.pos n
  have room := file.room
  have floor := lt_mul_div_succ (nfd.pos + n) vol.cs_pos
  have bound : vol.cs * ((nfd.pos + n) / vol.cs + 1) ≤ vol.cs * (chain ++ free).length :=
    Nat.mul_le_mul_left _ (by omega)
  omega

theorem clusterOf_ends (vol : Volume) (E : List Nat) (c o : Nat) (valid : vol.Valid c)
    (small : o < vol.spc) :
    u32 (vol.fat.firstSecOfClus (clusterOf E E.length) + o) ≠ vol.first c + o := by
  have default : clusterOf E E.length = mEoc := getD_eq_default _ _ le_rfl
  rw [default]
  exact firstSec_mark (by unfold IsEoc mEoc; omega) valid small

theorem Writable.place_apart (file : Writable vol d chain free nfd n) {q : Nat}
    (inside : q / vol.cs < (chain ++ free).length) :
    vol.dataStart ≤ vol.place (clusterOf (chain ++ free)) q ∧
      vol.place (clusterOf (chain ++ free)) q / 512 ≠ nfd.dirPos.sec := by
  have valid := (file.clusters mEoc).valid _ inside
  obtain ⟨low, sector⟩ := place_bounds (e := clusterOf (chain ++ free)) valid
  refine ⟨low, ?_⟩
  rw [sector]
  exact file.dirApart _ (getD_mem inside) _ (vol.sector_lt q)

theorem splice_eq {old : List UInt8} {pos : Nat} (inside : pos ≤ old.length) :
    splice old pos data = (List.range (max old.length (pos + data.length))).map fun q =>
      if pos ≤ q ∧ q < pos + data.length then data.getD (q - pos) 0 else old.getD q 0 := by
  have front : (old.take pos).length = pos := by
    rw [List.length_take]
    omega
  unfold splice
  apply ext_getElem
  · simp only [length_append, front, length_drop, length_map, length_range]
    omega
  · intro q bound bound'
    rw [getElem_map, getElem_range]
    simp only [length_append, front, length_drop] at bound
    rcases Nat.lt_or_ge q pos with before | behind
    · rw [if_neg (by omega), getElem_append_left (by omega),
        getElem_take, getD_eq_getElem _ _ (by omega)]
    · rcases Nat.lt_or_ge q (pos + data.length) with within | after
      · rw [if_pos ⟨behind, within⟩, getElem_append_right (by omega),
          getElem_append_left (by omega), getD_eq_getElem _ _ (by omega)]
        simp [front]
      · rw [if_neg (by omega), getElem_append_right (by omega),
          getElem_append_right (by omega), getElem_drop, getD_eq_getElem _ _ (by omega)]
        congr 1
        omega

theorem place_take {E : List Nat} {m q : Nat} (inside : q / vol.cs < m) (within : m ≤ E.length) :
    vol.place (fun i => (E.take m).getD i 0) q = vol.place (clusterOf E) q := by
  have cluster : (E.take m).getD (q / vol.cs) 0 = E.getD (q / vol.cs) mEoc := by
    rw [getD_take inside within]
    exact getD_default (by omega)
  simp only [Volume.place, cluster]

theorem WriteResult.byte (file : Writable vol d chain free nfd data.length)
    (result : WriteResult vol d chain free nfd data d' nfd')
    (reached : ∀ q, nfd.pos ≤ q → q < nfd.pos + data.length →
      vol.address (clusterOf (chain ++ free)) nfd.pos data.length q =
        vol.place (clusterOf (chain ++ free)) q)
    {q : Nat} (inside : q / vol.cs < (chain ++ free).length) :
    d' (vol.place (clusterOf (chain ++ free)) q) =
      if nfd.pos ≤ q ∧ q < nfd.pos + data.length then data.getD (q - nfd.pos) 0
        else d (vol.place (clusterOf (chain ++ free)) q) := by
  obtain ⟨low, apart⟩ := file.place_apart inside
  have clusters := file.clusters mEoc
  rcases result.written _ low apart with ⟨q', lower, upper, address, value⟩ | ⟨missed, value⟩
  · rw [reached q' lower upper] at address
    have same := place_inj clusters (index_lt file.fits upper) inside address
    rw [← same, if_pos ⟨lower, upper⟩]
    rw [← same] at value
    exact value
  · have outside : ¬ (nfd.pos ≤ q ∧ q < nfd.pos + data.length) := by
      rintro ⟨lower, upper⟩
      exact missed q lower upper (reached q lower upper)
    rw [if_neg outside, value]

theorem fat32Write_none (regular : nfd.flags &&& oDirectory = 0) (empty : data.length = 0) :
    fat32Write vol.fat d nfd data = some (0, d, nfd) := by
  rw [fat32Write, if_neg (by simp [regular, oRdonly]), if_pos empty]

theorem fat32Write_diverges (regular : nfd.flags &&& oDirectory = 0)
    (long : 2 ^ 32 ≤ data.length) : fat32Write vol.fat d nfd data = none := by
  rw [fat32Write, if_neg (by simp [regular, oRdonly]), if_neg (by omega)]
  dsimp only
  cases firstCluster vol.fat d nfd with
  | none => rfl
  | some start =>
    rw [bind_some, writeLoop_diverges long (Nat.two_pow_pos 32)]
    rfl

theorem lengthAfter_lt (small : nfd.length < 2 ^ 32) : lengthAfter nfd n < 2 ^ 32 := by
  unfold lengthAfter u32
  split <;> omega

theorem lengthAfter_eq (small : nfd.pos + n < 2 ^ 32) :
    lengthAfter nfd n = max nfd.length (nfd.pos + n) := by
  have exact : u32 (nfd.pos + n) = nfd.pos + n := mod_eq_of_lt small
  rw [lengthAfter, exact]
  split <;> omega

theorem Writable.covers_after (file : Writable vol d chain free nfd n) :
    chainAfter vol chain nfd n ≤ (chain ++ free).length ∧
      max nfd.length (nfd.pos + n) ≤ vol.cs * chainAfter vol chain nfd n := by
  have room := file.room
  have near := vol.div_le_endIndex nfd.pos n
  have floor := lt_mul_div_succ (nfd.pos + n) vol.cs_pos
  have covers := file.file.covers
  have longer : vol.cs * chain.length ≤ vol.cs * chainAfter vol chain nfd n :=
    Nat.mul_le_mul_left _ (Nat.le_max_left _ _)
  have further : vol.cs * ((nfd.pos + n) / vol.cs + 1) ≤ vol.cs * chainAfter vol chain nfd n :=
    Nat.mul_le_mul_left _ (by unfold chainAfter; omega)
  constructor
  · unfold chainAfter
    rw [length_append] at *
    omega
  · omega

theorem chainAfter_pos (vol : Volume) (chain : List Nat) (nfd : Fd) (n : Nat) :
    0 < chainAfter vol chain nfd n :=
  Nat.lt_of_lt_of_le (succ_pos _) (Nat.le_max_right _ _)

theorem Writable.length_take (file : Writable vol d chain free nfd n) :
    ((chain ++ free).take (chainAfter vol chain nfd n)).length = chainAfter vol chain nfd n := by
  have within := file.covers_after.1
  rw [List.length_take]
  omega

section
variable (file : Writable vol d chain free nfd data.length)
include file

theorem WriteResult.first (result : WriteResult vol d chain free nfd data d' nfd') :
    nfd'.firstClusNum = ((chain ++ free).take (chainAfter vol chain nfd data.length)).getD 0 0 := by
  rw [result.moved, getD_take (chainAfter_pos vol chain nfd data.length) file.covers_after.1]

theorem WriteResult.chain_unique
    (result : WriteResult vol d chain free nfd data d' nfd') {chain' : List Nat}
    (on : ChainOn vol d' mEoc chain') (head : nfd'.firstClusNum = chain'.getD 0 0) :
    chain' = (chain ++ free).take (chainAfter vol chain nfd data.length) := by
  have positive := chainAfter_pos vol chain nfd data.length
  have taken := file.length_take
  have first := result.first file
  have nonempty : 0 < chain'.length := by
    apply Nat.pos_of_ne_zero
    intro empty
    have lower := (result.owns.chainOn.valid_getD (e := 0) (by rwa [taken])).1
    rw [length_eq_zero_iff.mp empty, first] at head
    have zero : ((chain ++ free).take (chainAfter vol chain nfd data.length)).getD 0 0 = 0 := head
    omega
  exact on.unique result.owns.chainOn (by unfold IsEoc mEoc; omega) nonempty (by omega)
    (by rw [← head, first])

theorem writesRight_iff_bytes (small : nfd.pos + data.length < 2 ^ 32)
    (ran : fat32Write vol.fat d nfd data = some ((data.length : Int), d', nfd'))
    (result : WriteResult vol d chain free nfd data d' nfd') :
    WritesRight vol d chain nfd data ↔ ∀ q, q < max nfd.length (nfd.pos + data.length) →
      d' (vol.place (clusterOf (chain ++ free)) q) =
        if nfd.pos ≤ q ∧ q < nfd.pos + data.length then data.getD (q - nfd.pos) 0
          else d (vol.place (clusterOf (chain ++ free)) q) := by
  obtain ⟨within, covers⟩ := file.covers_after
  have inside := file.file.pos_le
  have length : nfd'.length = max nfd.length (nfd.pos + data.length) := by
    rw [result.moved]
    exact lengthAfter_eq small
  have old : ∀ q, q < nfd.length →
      (vol.contents d chain nfd.length).getD q 0 = d (vol.place (clusterOf (chain ++ free)) q) := by
    intro q bound
    have index : q / vol.cs < chain.length :=
      Nat.div_lt_of_lt_mul (Nat.lt_of_lt_of_le bound file.file.covers)
    have cluster : chain.getD (q / vol.cs) 0 = (chain ++ free).getD (q / vol.cs) mEoc := by
      rw [getD_append _ _ _ _ index]
      exact getD_default index
    rw [getD_eq_getElem _ _ (by rwa [vol.length_contents]), getElem_contents]
    simp only [Volume.place, cluster]
  -- the contents after the call, byte by byte
  have bytes : vol.contents d' ((chain ++ free).take (chainAfter vol chain nfd data.length))
      nfd'.length = splice (vol.contents d chain nfd.length) nfd.pos data ↔
      ∀ q, q < max nfd.length (nfd.pos + data.length) →
        d' (vol.place (clusterOf (chain ++ free)) q) =
          if nfd.pos ≤ q ∧ q < nfd.pos + data.length then data.getD (q - nfd.pos) 0
            else d (vol.place (clusterOf (chain ++ free)) q) := by
    rw [splice_eq (by rwa [vol.length_contents]), vol.length_contents, length]
    unfold Volume.contents
    rw [map_inj_left]
    apply forall_congr'
    intro q
    rw [mem_range]
    apply imp_congr_right
    intro bound
    have index : q / vol.cs < chainAfter vol chain nfd data.length :=
      Nat.div_lt_of_lt_mul (by omega)
    rw [place_take index within]
    by_cases new : nfd.pos ≤ q ∧ q < nfd.pos + data.length
    · rw [if_pos new, if_pos new]
    · rw [if_neg new, if_neg new]
      rw [← old q (by omega)]
      rfl
  rw [← bytes]
  constructor
  · rintro ⟨d'', nfd'', chain', ran', on, head, _, _, same⟩
    rw [ran] at ran'
    obtain ⟨rfl, rfl⟩ : d' = d'' ∧ nfd' = nfd'' := by simpa using ran'
    rwa [result.chain_unique file on head] at same
  · intro same
    exact ⟨d', nfd', _, ran, result.owns.chainOn, result.first file, length,
      by rw [file.length_take]; omega, same⟩

end

theorem address_of_writesRight {q : Nat} (file : Writable vol d chain free nfd n)
    (small : nfd.pos + n < 2 ^ 32)
    (right : ∀ d' data, SameTables vol d d' → data.length = n → WritesRight vol d' chain nfd data)
    (lower : nfd.pos ≤ q) (upper : q < nfd.pos + n) :
    vol.address (clusterOf (chain ++ free)) nfd.pos n q =
      vol.place (clusterOf (chain ++ free)) q := by
  let zeros : Disk := fun a => if a < vol.dataStart then d a else 0
  let data : List UInt8 := (List.range n).map fun i => if nfd.pos + i = q then 2 else 1
  have same : SameTables vol d zeros := by
    intro a below
    exact if_pos below
  have length : data.length = n := by rw [length_map, length_range]
  have value : ∀ i, nfd.pos ≤ i → i < nfd.pos + n →
      data.getD (i - nfd.pos) 0 = if i = q then 2 else 1 := by
    intro i above below
    have position : nfd.pos + (i - nfd.pos) = i := by omega
    rw [getD_eq_getElem _ _ (by omega), getElem_map, getElem_range, position]
  have onZeros : Writable vol zeros chain free nfd data.length := length ▸ file.congr same
  obtain ⟨d', nfd', ran, result⟩ := fat32Write_spec onZeros (by omega) (by omega)
  have bytes := (writesRight_iff_bytes onZeros (by omega) ran result).mp
    (right zeros data same length) q (by omega)
  obtain ⟨low, apart⟩ := onZeros.place_apart (index_lt file.fits upper)
  rw [if_pos ⟨lower, by omega⟩, value q lower upper, if_pos rfl] at bytes
  rcases result.written _ low apart with ⟨q', lower', upper', address, byte⟩ | ⟨_, byte⟩
  · rw [length] at upper' address
    rw [value q' lower' upper', bytes] at byte
    by_cases hit : q' = q
    · rw [← hit]
      rw [← hit] at address
      exact address
    · rw [if_neg hit] at byte
      exact absurd byte (by decide)
  · have zero : zeros (vol.place (clusterOf (chain ++ free)) q) = 0 := if_neg (by omega)
    rw [bytes, zero] at byte
    exact absurd byte (by decide)

theorem writesRight_iff (file : Writable vol d chain free nfd n) :
    (∀ d' data, SameTables vol d d' → data.length = n → WritesRight vol d' chain nfd data) ↔
      nfd.pos + n < 2 ^ 32 ∧ vol.Aligned (fun i => (chain ++ free).getD i 0) nfd.pos n := by
  have regular := file.file.regular
  have lengthSmall := file.file.length_lt
  have inside := file.file.pos_le
  have clusters := file.clusters mEoc
  have exact := address_eq_place_iff clusters file.fits (clusterOf_ends vol (chain ++ free))
  rw [← aligned_congr (e := clusterOf (chain ++ free))
    (fun i bound => getD_default bound) file.fits]
  rcases eq_or_ne n 0 with rfl | none
  · refine iff_of_true ?_ ⟨by omega, aligned_zero nfd.pos⟩
    intro d' data same empty
    have nothing : data = [] := length_eq_zero_iff.mp empty
    refine ⟨d', nfd, chain, ?_, file.file.chainOn.congr same, file.file.first, ?_,
      file.file.covers, ?_⟩
    · rw [fat32Write_none regular empty, empty]
      rfl
    · omega
    · rw [nothing]
      rw [splice, nil_append, length_nil, Nat.add_zero, take_append_drop]
  · constructor
    · intro right
      have small : nfd.pos + n < 2 ^ 32 := by
        by_contra large
        have length : (List.replicate n (0 : UInt8)).length = n := length_replicate
        obtain ⟨d', nfd', _, ran, _, _, grown, _⟩ := right d (List.replicate n 0)
          (fun _ _ => rfl) length
        rcases Nat.lt_or_ge n (2 ^ 32) with short | long
        · have file' : Writable vol d chain free nfd (List.replicate n (0 : UInt8)).length :=
            length.symm ▸ file
          obtain ⟨d'', nfd'', ran', result⟩ := fat32Write_spec file' (by omega) (by omega)
          rw [ran] at ran'
          obtain ⟨rfl, rfl⟩ : d' = d'' ∧ nfd' = nfd'' := by simpa using ran'
          have bound := lengthAfter_lt (n := (List.replicate n (0 : UInt8)).length) lengthSmall
          have after : nfd'.length = lengthAfter nfd (List.replicate n (0 : UInt8)).length := by
            rw [result.moved]
          omega
        · rw [fat32Write_diverges regular (by omega)] at ran
          exact absurd ran (by simp)
      refine ⟨small, exact.mp ?_⟩
      intro q lower upper _ _
      exact address_of_writesRight file small right lower upper
    · rintro ⟨small, aligned⟩ d' data same rfl
      have file' := file.congr same
      obtain ⟨d'', nfd', ran, result⟩ := fat32Write_spec file' none (by omega)
      rw [writesRight_iff_bytes file' small ran result]
      intro q bound
      have covers := file.covers_after
      have index : q / vol.cs < (chain ++ free).length := by
        have size : vol.cs * chainAfter vol chain nfd data.length ≤
            vol.cs * (chain ++ free).length := Nat.mul_le_mul_left _ covers.1
        exact Nat.div_lt_of_lt_mul (by omega)
      apply result.byte file' _ index
      intro q' lower upper
      have near := aligned.1.index_lt file.fits (vol.round_lt lower upper)
      have bounds := (vol.startSec_bounds clusters near).2
      have offset := mod_lt (q' - sectorBase nfd.pos) vol.buf_pos
      have buffer := vol.buf_width
      exact exact.mpr aligned q' lower upper (by omega) (by omega)

end Write

def smallVolume : Volume where
  fat :=
    { firstDataSec := 3, dataSecCnt := 16, dataClusCnt := 8, bytsPerClus := 1024
      bpb :=
        { bytsPerSec := 512, secPerClus := 2, rsvdSecCnt := 1, fatCnt := 2, hiddSec := 0
          totSec := 19, fatSz := 1, rootClus := 2 } }
  logSecPerClus := 1
  logSecPerClus_le := by decide
  secPerClus := rfl
  bytsPerSec := rfl
  bytsPerClus := rfl
  firstDataSec := rfl
  entries_fit := by decide
  clusters_le := by decide
  in_range := by decide

/-- The directory is in cluster 2, a file in clusters 5 and 3, another one in
cluster 6; every byte of the data area is the number of its sector. -/
def smallDisk : Disk := fun a =>
  if 512 ≤ a ∧ a < 1536 then
    UInt8.ofNat ([mEoc, mEoc, mEoc, mEoc, 0, 3, mEoc, 0, 0, 0].getD (a % 512 / 4) 0 /
      256 ^ (a % 4))
  else UInt8.ofNat (a / 512)

def smallFile (pos : Nat) : Fd where
  name := "data"
  dev := .default
  firstClusNum := 5
  mode := 0
  flags := 0
  pos := pos
  curSec := 9 + pos / 512
  curClusNum := 5
  length := 2048
  dirPos := ⟨0, 32, 3⟩
  fdNum := 3
  used := .used
  redirected := false
  redirectedFdIndex := ⟨0, by decide⟩
  pipNum := 0
  isPipeRead := false
  isPipeWrite := false
  sockNum := 0
  mmapUsed := false
  nlink := 1

theorem small_frees : smallVolume.frees smallDisk = [4, 7, 8, 9] := by decide +kernel

theorem small_chain : ChainOn smallVolume smallDisk mEoc [5, 3] := by
  constructor
  · decide
  · decide
  · decide +kernel

theorem smallFile_open (pos : Nat) (inside : pos < 1024) :
    OpenFile smallVolume smallDisk mEoc [5, 3] (smallFile pos) := by
  have size : smallVolume.cs = 1024 := rfl
  constructor
  · exact small_chain
  · show 2048 ≤ smallVolume.cs * 2
    omega
  · show 2048 < 2 ^ 32
    omega
  · rfl
  · show pos ≤ 2048
    omega
  · intro _
    have zero : pos / smallVolume.cs = 0 := div_eq_of_lt (by omega)
    have rest : pos % smallVolume.cs = pos := mod_eq_of_lt (by omega)
    show 5 = [5, 3].getD (pos / smallVolume.cs) 0 ∧
      9 + pos / 512 = smallVolume.first ([5, 3].getD (pos / smallVolume.cs) 0) +
        pos % smallVolume.cs / 512
    rw [zero, rest]
    exact ⟨rfl, rfl⟩
  · exact zero_and _

theorem smallFile_writable (pos n : Nat) (inside : pos < 1024)
    (room : smallVolume.endIndex pos n < 6) :
    Writable smallVolume smallDisk [5, 3] [4, 7, 8, 9] (smallFile pos) n := by
  constructor
  · exact smallFile_open pos inside
  · exact ⟨small_chain, small_frees, by decide +kernel⟩
  · left
    show pos / 1024 < 2
    omega
  · exact room
  · show 3 ≤ 3 ∧ 3 < 2 ^ 32
    omega
  · show ∀ c ∈ [5, 3, 4, 7, 8, 9], ∀ i, i < smallVolume.spc → smallVolume.first c + i ≠ 3
    decide

end CCore.Fat
