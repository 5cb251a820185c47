import CCore.Fat.Listing

/-!
# Listing a directory call by call

The descriptor stands for a slot of the directory.  A call begins with a transfer at the sector
of that slot, which need not be where the transfers of a cluster begin; such a call stays
right up to the end of the cluster.
-/
namespace CCore.Fat

open Run List Option Nat

/-- The descriptor is at entry `t`. -/
structure FdAt (vol : Volume) (chain : List Nat) (t : Nat) (nfd : Fs.Fd) : Prop where
  inside : t < vol.perClus * chain.length
  pos : nfd.pos = 32 * t
  clus : nfd.curClusNum = chain.getD (t / vol.perClus) 0
  sec : nfd.curSec = vol.first (chain.getD (t / vol.perClus) 0) + t % vol.perClus / 16

/-- The sector of entry `t` is one where the transfers of its cluster begin. -/
def TransferStarts (vol : Volume) (t : Nat) : Prop := t % vol.perClus / 16 % min 8 vol.spc = 0

instance (vol : Volume) (t : Nat) : Decidable (TransferStarts vol t) :=
  inferInstanceAs (Decidable (_ = _))

structure Near (vol : Volume) (d : Disk) (chain : List Nat) (start t : Nat) (cur : Cursor) :
    Prop where
  later : start ≤ t
  cluster : t / vol.perClus = start / vol.perClus
  clus : cur.clus = chain.getD (start / vol.perClus) 0
  sec : cur.sec = vol.first cur.clus + start % vol.perClus / 16 +
    min 8 vol.spc * ((start % 16 + (t - start)) / vol.perBuf)
  entry : cur.entry = 32 * ((start % 16 + (t - start)) % vol.perBuf)
  buf : ∀ i, i < vol.buf → cur.buf i = d (512 * cur.sec + i)

structure StopsAt (vol : Volume) (chain : List Nat) (start t : Nat) (cur : Cursor) : Prop where
  clus : cur.clus = chain.getD (t / vol.perClus) 0
  sec : cur.sec + cur.entry / 512 =
    vol.first (chain.getD (t / vol.perClus) 0) + t % vol.perClus / 16
  entry : cur.entry = 32 * ((start % 16 + (t - start)) % vol.perBuf)

section Start
variable {vol : Volume} {d : Disk} {chain : List Nat} {start t eoc : Nat} {cur : Cursor}

theorem sector_split (vol : Volume) (t : Nat) : t % vol.perClus = 16 *
    (t % vol.perClus / 16) + t % 16 := by
  have inner : t % vol.perClus % 16 = t % 16 := by
    rw [Volume.perClus, mod_mul_right_mod]
  omega

section
variable (here : Near vol d chain start t cur)
include here

theorem Near.offset :
    512 * cur.sec + cur.entry = 512 * vol.first cur.clus + 32 * (t % vol.perClus) := by
  have split := sector_split vol start
  have transfers := div_add_mod (start % 16 + (t - start)) vol.perBuf
  have product : vol.perBuf * ((start % 16 + (t - start)) / vol.perBuf) =
      16 * (min 8 vol.spc * ((start % 16 + (t - start)) / vol.perBuf)) := Nat.mul_assoc 16 _ _
  have whole := div_add_mod t vol.perClus
  have whole' := div_add_mod start vol.perClus
  have later := here.later
  have sector := here.sec
  have entry := here.entry
  rw [here.cluster] at whole
  omega

theorem Near.entry_le : cur.entry + 32 ≤ vol.buf := by
  have small := mod_lt (start % 16 + (t - start)) vol.perBuf_pos
  have size := vol.buf_eq_slots
  have entry := here.entry
  omega

theorem Near.stops : StopsAt vol chain start t cur := by
  have offset := here.offset
  have clus := here.clus
  rw [← here.cluster] at clus
  refine ⟨clus, ?_, here.entry⟩
  rw [← clus]
  omega

end

theorem Near.walks (on : ChainOn vol d eoc chain)
    (inside : start < vol.perClus * chain.length) :
    Walks vol d chain (vol.perClus * (start / vol.perClus + 1)) (Near vol d chain start) := by
  constructor
  · intro t cur here
    have offset := here.offset
    have last := here.entry_le
    have clus := here.clus
    rw [← here.cluster] at clus
    funext k
    have small := k.isLt
    show cur.buf (cur.entry + k) = d (vol.slotAddr chain t k)
    rw [here.buf _ (by omega), vol.slotAddr_eq chain t small, ← clus]
    exact congrArg d (by omega)
  · intro t cur here more
    have later := here.later
    have valid : vol.Valid cur.clus := by
      rw [here.clus]
      exact on.valid_getD (index_lt_length inside)
    have cluster := vol.first_le valid
    have range := vol.in_range'
    have size : vol.fat.bufSize = 32 * vol.perBuf := vol.buf_eq_slots
    have width : vol.perClus = 16 * vol.spc := rfl
    have same : (t + 1) / vol.perClus = start / vol.perClus := by
      apply Nat.le_antisymm
      · exact le_of_lt_succ (Nat.div_lt_of_lt_mul more)
      · exact Nat.div_le_div_right (by omega)
    have inCluster := mod_lt (t + 1) vol.perClus_pos
    have shift : start % 16 + (t + 1 - start) = start % 16 + (t - start) + 1 := by omega
    have offset := here.offset
    have entry := here.entry
    have sector := here.sec
    have whole := div_add_mod t vol.perClus
    have whole' := div_add_mod (t + 1) vol.perClus
    rw [here.cluster] at whole
    rw [same] at whole'
    unfold nextEntry
    rcases Volume.succ_div_mod (start % 16 + (t - start)) vol.perBuf_pos with
      ⟨inner, quotient, remainder⟩ | ⟨outer, quotient, remainder⟩
    · rw [if_neg (by omega)]
      refine ⟨by omega, same, here.clus, ?_, ?_, here.buf⟩
      · rw [shift, quotient]
        exact here.sec
      · rw [shift, remainder]
        show cur.entry + 32 = _
        omega
    · have advance : u32 (cur.sec + vol.fat.readMaxSec) = cur.sec + min 8 vol.spc := by
        rw [vol.readMaxSec_eq]
        unfold u32
        omega
      have stays : ¬ u32 (cur.sec + min 8 vol.spc + (2 ^ 32 - vol.fat.firstSecOfClus cur.clus)) ≥
          vol.fat.bpb.secPerClus := by
        have spc : vol.fat.bpb.secPerClus = vol.spc := rfl
        have transfer : vol.perBuf = 16 * min 8 vol.spc := rfl
        rw [vol.firstSecOfClus_eq valid, spc]
        unfold u32
        omega
      rw [if_pos (by omega), advance, if_neg stays]
      refine ⟨by omega, same, here.clus, ?_, ?_, ?_⟩
      · rw [shift, quotient, Nat.mul_add, Nat.mul_one]
        show cur.sec + min 8 vol.spc = vol.first cur.clus + _ + _
        omega
      · rw [shift, remainder]
      · intro i inside'
        exact read_eq (by omega) inside'

theorem At.stops {cur' : Cursor} (starts : TransferStarts vol start) (later : start ≤ t)
    (there : At vol d chain t cur') : StopsAt vol chain start t cur' := by
  have split := vol.transfer_split t
  have sectors := sector_split vol start
  have product : vol.perBuf * (t % vol.perClus / vol.perBuf) =
      16 * (min 8 vol.spc * (t % vol.perClus / vol.perBuf)) := Nat.mul_assoc 16 _ _
  have sector := there.sec
  have entry := there.entry
  have first : start % vol.perBuf = start % 16 := by
    have inner : start % vol.perClus % vol.perBuf = start % vol.perBuf := by
      rw [vol.perClus_split, mod_mul_right_mod]
    have width : vol.perBuf = 16 * min 8 vol.spc := rfl
    have whole := div_add_mod (start % vol.perClus / 16) (min 8 vol.spc)
    rw [starts, Nat.add_zero] at whole
    have base : start % vol.perClus =
        start % 16 + vol.perBuf * (start % vol.perClus / 16 / min 8 vol.spc) := by
      rw [width, Nat.mul_assoc, whole]
      omega
    have small : start % 16 < vol.perBuf := by
      have positive := vol.spc_pos
      omega
    rw [← inner, base, add_mul_mod_self_left, mod_eq_of_lt small]
  refine ⟨there.clus, ?_, ?_⟩
  · rw [← there.clus]
    omega
  · rw [entry, ← first]
    have moved : (start % vol.perBuf + (t - start)) % vol.perBuf = t % vol.perBuf := by
      rw [mod_add_mod]
      congr 1
      omega
    rw [moved]

/-- The cursor with which a call begins. -/
def firstCursor (d : Disk) (nfd : Fs.Fd) : Cursor :=
  ⟨diskRead d nfd.curSec, nfd.pos % 512, nfd.curClusNum, nfd.curSec⟩

theorem FdAt.near {nfd : Fs.Fd} (here : FdAt vol chain start nfd)
    (on : ChainOn vol d eoc chain) : Near vol d chain start start (firstCursor d nfd) := by
  have valid : vol.Valid (chain.getD (start / vol.perClus) 0) :=
    on.valid_getD (index_lt_length here.inside)
  have cluster := vol.first_le valid
  have range := vol.in_range'
  have sector := here.sec
  have width : vol.perClus = 16 * vol.spc := rfl
  have inCluster := mod_lt start vol.perClus_pos
  have transfer : vol.perBuf = 16 * min 8 vol.spc := rfl
  have zeroth : (start % 16 + (start - start)) / vol.perBuf = 0 := by
    apply div_eq_of_lt
    omega
  have remainder : (start % 16 + (start - start)) % vol.perBuf = start % 16 := by
    rw [Nat.sub_self, Nat.add_zero]
    apply mod_eq_of_lt
    omega
  refine ⟨Nat.le_refl _, rfl, here.clus, ?_, ?_, ?_⟩
  · rw [zeroth, Nat.mul_zero, Nat.add_zero]
    show nfd.curSec = vol.first nfd.curClusNum + _
    rw [here.clus]
    exact here.sec
  · rw [remainder]
    show nfd.pos % 512 = _
    rw [here.pos]
    omega
  · intro i inside
    exact read_eq (by omega) inside

theorem FdAt.at {nfd : Fs.Fd} (here : FdAt vol chain start nfd)
    (on : ChainOn vol d eoc chain) (starts : TransferStarts vol start) :
    At vol d chain start (firstCursor d nfd) := by
  have near := here.near on
  have split := vol.transfer_split start
  have sectors := sector_split vol start
  have product : vol.perBuf * (start % vol.perClus / vol.perBuf) =
      16 * (min 8 vol.spc * (start % vol.perClus / vol.perBuf)) := Nat.mul_assoc 16 _ _
  have whole := div_add_mod (start % vol.perClus / 16) (min 8 vol.spc)
  rw [starts, Nat.add_zero] at whole
  have index : start % vol.perClus / vol.perBuf = start % vol.perClus / 16 / min 8 vol.spc := by
    rw [Volume.perBuf, Nat.div_div_eq_div_mul]
  have inside := here.inside
  have position := here.pos
  refine ⟨inside, here.clus, ?_, ?_, near.buf⟩
  · rw [index, whole]
    show nfd.curSec = vol.first nfd.curClusNum + _
    rw [here.clus]
    exact here.sec
  · show nfd.pos % 512 = _
    rw [index, ← index] at product
    have sameSector : min 8 vol.spc * (start % vol.perClus / vol.perBuf) = start % vol.perClus / 16 := by
      rw [index, whole]
    omega

theorem FdAt.walks {nfd : Fs.Fd} (here : FdAt vol chain start nfd)
    (on : ChainOn vol d eoc chain) (inside : t < vol.perClus * chain.length)
    (later : start ≤ t) (stays : TransferStarts vol start ∨ t / vol.perClus = start / vol.perClus) :
    ∃ limit at', Walks vol d chain limit at' ∧ at' start (firstCursor d nfd) ∧ t < limit ∧
      ∀ cur, at' t cur → StopsAt vol chain start t cur := by
  rcases stays with starts | same
  · exact ⟨_, _, on.walks, here.at on starts, inside, fun cur there => there.stops starts later⟩
  · refine ⟨_, _, Near.walks on here.inside, here.near on, ?_, fun cur there => there.stops⟩
    rw [← same, Nat.mul_add, Nat.mul_one]
    have whole := div_add_mod t vol.perClus
    have small := mod_lt t vol.perClus_pos
    omega

/-- The sum that the call adds to `cur_sec` is the sector of the entry in the buffer. -/
def SectorRight (vol : Volume) (start t : Nat) : Prop :=
  vol.spc = 1 ∨ start % 16 ≤ 2 * (t % 16) ∧ 2 * (t % 16) < 16 + start % 16

instance (vol : Volume) (start t : Nat) : Decidable (SectorRight vol start t) :=
  inferInstanceAs (Decidable (_ ∨ _))

theorem shift_eq (later : start ≤ t) (right : SectorRight vol start t) :
    (32 * (t - start) + 32 * t % 512) / 512 % min 8 vol.spc =
      32 * ((start % 16 + (t - start)) % vol.perBuf) / 512 := by
  have transfers : (start % 16 + (t - start)) % vol.perBuf / 16 =
      (start % 16 + (t - start)) / 16 % min 8 vol.spc := by
    rw [Volume.perBuf, mod_mul_right_div_self]
  have sector : 32 * ((start % 16 + (t - start)) % vol.perBuf) / 512 =
      (start % 16 + (t - start)) % vol.perBuf / 16 := by omega
  rw [sector, transfers]
  rcases right with one | bounds
  · rw [one]
    simp [mod_one]
  · congr 1
    omega

theorem StopsAt.fdAt {nfd : Fs.Fd} (stops : StopsAt vol chain start t cur)
    (on : ChainOn vol d eoc chain) (here : FdAt vol chain start nfd)
    (inside : t < vol.perClus * chain.length) (later : start ≤ t)
    (right : SectorRight vol start t) : FdAt vol chain t { nfd with
    pos := nfd.pos + 32 * (t - start)
    curClusNum := cur.clus
    curSec := u32 (cur.sec + (32 * (t - start) + (nfd.pos + 32 * (t - start)) % 512) / 512 %
      min 8 vol.spc) } := by
  have position : nfd.pos + 32 * (t - start) = 32 * t := by
    have before := here.pos
    omega
  have valid : vol.Valid (chain.getD (t / vol.perClus) 0) := on.valid_getD (index_lt_length inside)
  have cluster := vol.first_le valid
  have range := vol.in_range'
  have width : vol.perClus = 16 * vol.spc := rfl
  have inCluster := mod_lt t vol.perClus_pos
  have sector := stops.sec
  refine ⟨inside, position, stops.clus, ?_⟩
  dsimp only
  rw [position, shift_eq later right, ← stops.entry, sector]
  unfold u32
  omega

end Start

variable {vol : Volume} {d : Disk} {chain : List Nat} {len : Nat} {items : List Item}

theorem chunk_prefix (len : Nat) (items : List Item) (readLen : Nat) :
    ∃ left, items = chunk len items readLen ++ left := by
  induction items generalizing readLen with
  | nil => exact ⟨[], rfl⟩
  | cons item rest ih =>
    cases item with
    | deleted s =>
      rw [chunk]
      split
      · exact ⟨_, rfl⟩
      · obtain ⟨left, split⟩ := ih readLen
        exact ⟨left, congrArg (Item.deleted s :: ·) split⟩
    | file longs s =>
      rw [chunk]
      split
      · exact ⟨_, rfl⟩
      · obtain ⟨left, split⟩ := ih (roundUp (readLen + direntSize +
          (Item.name shortName (.file longs s)).length + 1))
        exact ⟨left, congrArg (Item.file longs s :: ·) split⟩

/-- There is room for any one record. -/
def LargeEnough (len : Nat) (items : List Item) : Prop :=
  ∀ r ∈ records items, direntSize + r.1.length + 1 ≤ len

instance (len : Nat) (items : List Item) : Decidable (LargeEnough len items) :=
  inferInstanceAs (Decidable (∀ r ∈ records items, _))

theorem records_append (items items' : List Item) :
    records (items ++ items') = records items ++ records items' :=
  filterMap_append

theorem chunk_lists (large : LargeEnough len items) (left : records items ≠ []) :
    records (chunk len items 0) ≠ [] := by
  induction items with
  | nil => exact left
  | cons item rest ih =>
    cases item with
    | deleted s =>
      have large' : LargeEnough len rest := large
      have positive : ¬ len ≤ 0 := by
        obtain ⟨r, mem⟩ := exists_mem_of_ne_nil _ left
        have room := large r mem
        unfold direntSize at room
        omega
      rw [chunk, if_neg positive]
      exact ih large' left
    | file longs s =>
      have room := large _ mem_cons_self
      dsimp only at room
      have fits : ¬ (len ≤ 0 ∨ len < 0 + direntSize +
          (Item.name shortName (.file longs s)).length + 1) := by
        unfold direntSize at room ⊢
        omega
      rw [chunk]
      rw [if_neg fits]
      exact cons_ne_nil _ _

theorem filled_le (items : List Item) (readLen : Nat) : readLen ≤ filled items readLen := by
  induction items generalizing readLen with
  | nil => exact Nat.le_refl _
  | cons item rest ih =>
    cases item with
    | deleted s => exact ih readLen
    | file longs s =>
      have more := ih (roundUp (readLen + direntSize +
        (Item.name shortName (.file longs s)).length + 1))
      rw [filled]
      unfold roundUp at more ⊢
      omega

theorem filled_eq_zero (items : List Item) : filled items 0 = 0 ↔ records items = [] := by
  induction items with
  | nil => exact iff_of_true rfl rfl
  | cons item rest ih =>
    cases item with
    | deleted s => exact ih
    | file longs s =>
      have more := filled_le rest (roundUp (0 + direntSize +
        (Item.name shortName (.file longs s)).length + 1))
      refine iff_of_false ?_ (cons_ne_nil _ _)
      rw [filled]
      unfold roundUp at more ⊢
      omega

theorem Layout.rest {before rest : List Item} (layout : Layout vol d chain (before ++ rest)) :
    Tail vol d chain (slotsOf before).length rest := by
  suffices shifted : ∀ t, Tail vol d chain t (before ++ rest) →
      Tail vol d chain (t + (slotsOf before).length) rest by
    have tail := shifted 0 layout.tail
    rwa [Nat.zero_add] at tail
  clear layout
  induction before with
  | nil =>
    intro t tail
    exact tail
  | cons item before ih =>
    intro t tail
    have later := ih (t + item.size) tail.rest
    rw [slotsOf_cons, length_append, ← Nat.add_assoc]
    exact later

theorem getdents_eq {before rest : List Item} {nfd : Fs.Fd} {fuel : Nat}
    (layout : Layout vol d chain (before ++ rest))
    (unused : (slotsOf (before ++ rest)).length < vol.perClus * chain.length)
    (types : TypesRight (before ++ rest)) (here : FdAt vol chain (slotsOf before).length nfd)
    (cut : CutShort len rest 0)
    (right : SectorRight vol (slotsOf before).length (slotsOf (before ++ chunk len rest 0)).length)
    (stays : TransferStarts vol (slotsOf before).length ∨
      (slotsOf (before ++ chunk len rest 0)).length / vol.perClus =
        (slotsOf before).length / vol.perClus) (enough : vol.perClus * chain.length < fuel) :
    ∃ out nfd', fat32Getdents vol.fat d fuel nfd len =
        some (filled (chunk len rest 0) 0, out, nfd') ∧
      out.map (fun r => (r.name, r.type)) = records (chunk len rest 0) ∧
      FdAt vol chain (slotsOf (before ++ chunk len rest 0)).length nfd' := by
  have tail := layout.rest
  obtain ⟨left, split⟩ := chunk_prefix len rest 0
  have lengths : (slotsOf (before ++ rest)).length =
      (slotsOf before).length + (slotsOf rest).length := by
    rw [slotsOf_append, length_append]
  have lengths' : (slotsOf (before ++ chunk len rest 0)).length =
      (slotsOf before).length + (slotsOf (chunk len rest 0)).length := by
    rw [slotsOf_append, length_append]
  have bound : (slotsOf (chunk len rest 0)).length ≤ (slotsOf rest).length := by
    have length := congrArg (fun items => (slotsOf items).length) split
    rw [slotsOf_append, length_append] at length
    omega
  obtain ⟨eoc, on⟩ := layout.on
  obtain ⟨limit, at', walks, first, room, stops⟩ := here.walks on
    (t := (slotsOf (before ++ chunk len rest 0)).length) (by omega) (by omega) stays
  have sectorSize := vol.sectorSize_eq
  simp only [fat32Getdents, sectorSize]
  by_cases empty : dentryIsEmpty (firstCursor d nfd).slot = true
  · -- nothing is left
    have none : rest = [] := by
      cases rest with
      | nil => rfl
      | cons item rest =>
        have used := (tail.good item mem_cons_self).first
        have same := tail.slot (j := 0) item.size_pos
        rw [walks.slot first, ← Nat.add_zero (slotsOf before).length, same, used] at empty
        cases empty
    subst none
    refine ⟨[], nfd, if_pos empty, rfl, ?_⟩
    rw [chunk, append_nil]
    exact here
  · have loop : ∃ p', getdentsLoop vol.fat d len fuel ⟨firstCursor d nfd, 0, 0, []⟩ = some p' ∧
        Reached at' (slotsOf before).length (chunk len rest 0) ⟨firstCursor d nfd, 0, 0, []⟩ p' := by
      obtain ⟨fuel, rfl⟩ : ∃ k, fuel = k + 1 := ⟨fuel - 1, by omega⟩
      rw [getdentsLoop_succ]
      by_cases none : len ≤ 0
      · rw [if_pos (by simp [none]), chunk_full none]
        exact ⟨_, rfl, Reached.refl first⟩
      · rw [if_neg (by simp [empty, none])]
        have typesRest : TypesRight rest := fun item mem => types item (mem_append_right _ mem)
        exact getdentsRest_eq walks rest first tail (by omega) (by dsimp only; omega) cut typesRest
          (by dsimp only; omega) (by omega) (by omega)
    obtain ⟨p', ran, reached⟩ := loop
    have atEnd := reached.here
    rw [← lengths'] at atEnd
    have moved : p'.addPos = 32 * ((slotsOf (before ++ chunk len rest 0)).length -
        (slotsOf before).length) := by
      rw [reached.addPos, lengths', Nat.add_sub_cancel_left]
      exact Nat.zero_add _
    have next := (stops p'.cur atEnd).fdAt on here (by omega) (by omega) right
    rw [← moved, ← vol.readMaxSec_eq] at next
    refine ⟨p'.out, _, ?_, reached.out, next⟩
    show (if dentryIsEmpty (firstCursor d nfd).slot then _ else
      (getdentsLoop vol.fat d len fuel ⟨firstCursor d nfd, 0, 0, []⟩).map _) = _
    rw [if_neg empty, ran, map_some, reached.readLen]

/-! ## A whole listing -/

structure Lister where
  fd : Fs.Fd
  listed : List (Str × DirentType)
  calls : Nat
  ended : Bool

/-- A call with a buffer of `len` bytes. -/
def listStep (fat : FatSb) (d : Disk) (fuel : Nat) (s : Lister) (len : Nat) : Option Lister :=
  (fat32Getdents fat d fuel s.fd len).map fun (readLen, out, fd) =>
    ⟨fd, s.listed ++ out.map (fun r => (r.name, r.type)), s.calls + 1, readLen == 0⟩

/-- What has been listed are the first records of the directory, and all of them after a call
that returns 0, which comes after one call for each record at the latest. -/
structure ListsAll (items : List Item) (s : Lister) : Prop where
  listed : s.listed <+: records items
  complete : s.ended = true → s.listed = records items
  advances : s.ended = false → s.calls ≤ s.listed.length

/-- The items from entry `t` on. -/
def restAt : List Item → Nat → List Item
  | items, 0 => items
  | [], _ + 1 => []
  | item :: rest, t + 1 => restAt rest (t + 1 - item.size)

/-- The call has room for any one record; it does not stop behind the long entries of a file;
the sector it saves is that of the entry where it stops; and it begins with the transfers of
its cluster or stops in it. -/
def CallRight (vol : Volume) (items : List Item) (s : Lister) (len : Nat) : Prop :=
  let start := s.fd.pos / 32
  let rest := restAt items start
  let stop := start + (slotsOf (chunk len rest 0)).length
  LargeEnough len items ∧ CutShort len rest 0 ∧ SectorRight vol start stop ∧
    (TransferStarts vol start ∨ stop / vol.perClus = start / vol.perClus)

instance (vol : Volume) (items : List Item) (s : Lister) (len : Nat) :
    Decidable (CallRight vol items s len) := by
  unfold CallRight
  infer_instance

variable {fuel : Nat}

theorem restAt_append (before rest : List Item) :
    restAt (before ++ rest) (slotsOf before).length = rest := by
  induction before with
  | nil =>
    cases rest with
    | nil => rfl
    | cons item rest => rfl
  | cons item before ih =>
    have positive : 0 < item.slots.length := item.size_pos
    rw [slotsOf_cons, length_append]
    obtain ⟨k, length⟩ : ∃ k, item.slots.length + (slotsOf before).length = k + 1 :=
      ⟨item.slots.length + (slotsOf before).length - 1, by omega⟩
    have left : k + 1 - item.size = (slotsOf before).length := by
      unfold Item.size
      omega
    rw [length, cons_append, restAt, left]
    exact ih

/-- The descriptor is at an item, and the items in front of it have been listed. -/
structure Between (vol : Volume) (chain : List Nat) (items before rest : List Item) (s : Lister) :
    Prop where
  split : items = before ++ rest
  here : FdAt vol chain (slotsOf before).length s.fd
  listed : s.listed = records before
  complete : s.ended = true → records rest = []
  advances : s.ended = false → s.calls ≤ s.listed.length

theorem Between.listsAll {before rest : List Item} {s : Lister}
    (between : Between vol chain items before rest s) : ListsAll items s := by
  have split : records items = s.listed ++ records rest := by
    rw [between.split, records_append, between.listed]
  refine ⟨⟨records rest, split.symm⟩, ?_, between.advances⟩
  intro ended
  rw [split, between.complete ended, append_nil]

theorem listStep_between (layout : Layout vol d chain items)
    (unused : (slotsOf items).length < vol.perClus * chain.length) (types : TypesRight items)
    (enough : vol.perClus * chain.length < fuel) {before rest : List Item} {s : Lister}
    (between : Between vol chain items before rest s) {len : Nat}
    (right : CallRight vol items s len) : ∃ s', listStep vol.fat d fuel s len = some s' ∧
    ∃ before' rest', Between vol chain items before' rest' s' := by
  have split := between.split
  have start : s.fd.pos / 32 = (slotsOf before).length := by
    rw [between.here.pos]
    omega
  unfold CallRight at right
  dsimp only at right
  rw [start, split, restAt_append] at right
  obtain ⟨large, cut, sector, stays⟩ := right
  have stop : (slotsOf (before ++ chunk len rest 0)).length =
      (slotsOf before).length + (slotsOf (chunk len rest 0)).length := by
    rw [slotsOf_append, length_append]
  rw [← stop] at sector stays
  rw [split] at layout unused types
  obtain ⟨out, nfd', ran, listed, there⟩ :=
    getdents_eq layout unused types between.here cut sector stays enough
  obtain ⟨left, cutAt⟩ := chunk_prefix len rest 0
  have lists : records (chunk len rest 0) = [] → records rest = [] := by
    intro none
    by_contra more
    have largeRest : LargeEnough len rest := by
      intro r mem
      apply large r
      rw [records_append]
      exact mem_append_right _ mem
    exact chunk_lists largeRest more none
  refine ⟨⟨nfd', s.listed ++ out.map (fun r => (r.name, r.type)), s.calls + 1,
    filled (chunk len rest 0) 0 == 0⟩, ?_, before ++ chunk len rest 0, left, ?_, there, ?_, ?_, ?_⟩
  · rw [listStep, ran, map_some]
  · rw [split, append_assoc, ← cutAt]
  · dsimp only
    rw [between.listed, listed, records_append]
  · intro ended
    have none : records (chunk len rest 0) = [] :=
      (filled_eq_zero _).mp (beq_iff_eq.mp ended)
    have all := lists none
    rw [cutAt, records_append, none, nil_append] at all
    exact all
  · intro ended
    have some' : records (chunk len rest 0) ≠ [] := by
      intro none
      rw [(filled_eq_zero _).mpr none] at ended
      cases ended
    have more := length_pos_of_ne_nil some'
    have running : s.ended = false := by
      by_contra ended
      have none := between.complete (Bool.eq_true_of_not_eq_false ended)
      rw [cutAt, records_append] at none
      exact some' (append_eq_nil_iff.mp none).1
    have advances := between.advances running
    dsimp only
    rw [length_append, listed]
    omega

structure FreshFd (vol : Volume) (chain : List Nat) (nfd : Fs.Fd) : Prop where
  pos : nfd.pos = 0
  clus : nfd.curClusNum = chain.getD 0 0
  sec : nfd.curSec = vol.fat.firstSecOfClus (chain.getD 0 0)

def smallDirFd : Fs.Fd := { smallFile 0 with firstClusNum := 5, curClusNum := 5, curSec := 9, pos := 0 }

theorem smallDirFd_fresh : FreshFd smallVolume [5, 3] smallDirFd := ⟨rfl, rfl, rfl⟩

/-- A directory with a directory in it. -/
def nestedItems : List Item :=
  [.file [] (newDentry (ascii ['S', 'U', 'B']) .dir 6)]

/-- The records take `size` bytes one after the other.  Each is a multiple of eight bytes long
and has room for its name, at offset 19, with the zero behind it. -/
structure Framed (out : List Dirent) (size : Nat) : Prop where
  sum : (out.map Dirent.reclen).sum = size
  each : ∀ r ∈ out, 8 ∣ r.reclen ∧ 19 + r.name.length < r.reclen

/-- The names from a cursor to the first unused entry, as the loop reads them. -/
def namesFrom (fat : FatSb) (d : Disk) : Nat → Cursor → Option (List Str)
  | 0, _ => none
  | fuel + 1, cur =>
    if dentryIsEmpty cur.slot then some []
    else
      (skipCounting fat d (fuel + 1) cur 0).bind fun (cur, _) =>
        if dentryIsEmpty cur.slot then some []
        else
          (namesFrom fat d fuel (nextEntry fat d (readName fat d shortName cur).1)).map
            ((readName fat d shortName cur).2.1 :: ·)

/-- Every record that passes the space test fits with its padding too. -/
def PaddingFits (len : Nat) : List Str → Nat → Prop
  | [], _ => True
  | name :: rest, readLen =>
    len < readLen + direntSize + name.length + 1 ∨
      roundUp (readLen + direntSize + name.length + 1) ≤ len ∧
        PaddingFits len rest (roundUp (readLen + direntSize + name.length + 1))

instance decidablePaddingFits (len : Nat) :
    (names : List Str) → (readLen : Nat) → Decidable (PaddingFits len names readLen)
  | [], _ => isTrue trivial
  | _ :: rest, _ =>
    have := decidablePaddingFits len rest
    inferInstanceAs (Decidable (_ ∨ _ ∧ _))

structure Filled (size : Nat) (out : List Dirent) : Prop where
  framed : Framed out size
  aligned : 8 ∣ size

theorem Filled.nil : Filled 0 [] := ⟨⟨rfl, nofun⟩, Nat.dvd_zero 8⟩

theorem Filled.snoc {size ino : Nat} {out : List Dirent} {type : DirentType} {name : Str}
    (filled : Filled size out) :
    let next := roundUp (size + direntSize + name.length + 1)
    Filled next (out ++ [⟨ino, next - size, type, name⟩]) := by
  have aligned := filled.aligned
  intro next
  have after : next = size + 24 + name.length + 1 + (8 - (size + 24 + name.length + 1) % 8) := rfl
  refine ⟨⟨?_, ?_⟩, by omega⟩
  · rw [map_append, sum_append_nat, filled.framed.sum, map_singleton, sum_singleton]
    dsimp only
    omega
  · intro r mem
    rcases mem_append.mp mem with earlier | last
    · exact filled.framed.each r earlier
    · rw [mem_singleton.mp last]
      dsimp only
      omega

theorem PaddingFits.of_full {len readLen : Nat} (names : List Str) (full : len ≤ readLen) :
    PaddingFits len names readLen := by
  cases names with
  | nil => trivial
  | cons name rest => exact .inl (by omega)

theorem skipCounting_addPos (fat : FatSb) (d : Disk) (fuel : Nat) (cur : Cursor) (addPos : Nat) :
    skipCounting fat d fuel cur addPos =
      (skipCounting fat d fuel cur 0).map fun r => (r.1, addPos + r.2) := by
  induction fuel generalizing cur addPos with
  | zero => rfl
  | succ fuel ih =>
    unfold skipCounting
    split
    · rw [ih, ih _ (0 + 32), Option.map_map]
      congr 1
      funext r
      simp [Nat.add_assoc]
    · rfl

/-- The loop returns where the names end, and goes past `len` exactly by a padding. -/
theorem getdentsLoop_filled {fat : FatSb} {d : Disk} {len fuel : Nat} {p : Progress}
    {names : List Str} (filled : Filled p.readLen p.out) (within : p.readLen ≤ len)
    (ends : namesFrom fat d fuel p.cur = some names) :
    ∃ q, getdentsLoop fat d len fuel p = some q ∧ Filled q.readLen q.out ∧
      (q.readLen ≤ len ↔ PaddingFits len names p.readLen) := by
  induction fuel generalizing p names with
  | zero => cases ends
  | succ fuel ih =>
    unfold namesFrom at ends
    unfold getdentsLoop
    by_cases unused : dentryIsEmpty p.cur.slot = true
    · rw [if_pos unused] at ends
      cases ends
      rw [unused, Bool.true_or, if_pos rfl]
      exact ⟨p, rfl, filled, iff_of_true within trivial⟩
    rw [if_neg unused] at ends
    obtain ⟨⟨cur, skipped⟩, skip, ends⟩ := bind_eq_some_iff.mp ends
    by_cases full : len ≤ p.readLen
    · rw [decide_eq_true full, Bool.or_true, if_pos rfl]
      exact ⟨p, rfl, filled, iff_of_true within (.of_full names full)⟩
    rw [decide_eq_false full, Bool.or_false, if_neg unused, skipCounting_addPos, skip]
    simp only [Option.map_some, bind_some, getdentsTurn]
    dsimp only at ends
    by_cases last : dentryIsEmpty cur.slot = true
    · rw [if_pos last] at ends ⊢
      cases ends
      exact ⟨_, rfl, filled, iff_of_true within trivial⟩
    rw [if_neg last] at ends ⊢
    obtain ⟨rest, further, rfl⟩ := map_eq_some_iff.mp ends
    clear ends
    generalize readName fat d shortName cur = read at further
    obtain ⟨dentry, filename, entryNum⟩ := read
    dsimp only at further ⊢
    by_cases unfit : len < p.readLen + direntSize + filename.length + 1
    · rw [if_pos unfit]
      exact ⟨_, rfl, filled, iff_of_true within (.inl unfit)⟩
    rw [if_neg unfit, Sum.elim_inr]
    by_cases padded : roundUp (p.readLen + direntSize + filename.length + 1) ≤ len
    · have next : Filled _ (p.out ++ [⟨cur.clus, _, direntType dentry.slot, filename⟩]) :=
        filled.snoc
      obtain ⟨q, ran, framed, fits⟩ := ih (p := ⟨nextEntry fat d dentry, _, _, _⟩) next padded further
      refine ⟨q, ran, framed, fits.trans ?_⟩
      exact ⟨fun rest => .inr ⟨padded, rest⟩, fun all => (all.resolve_left unfit).2⟩
    · -- the record is written, and the loop ends before the next one
      obtain ⟨fuel, rfl⟩ : ∃ k, fuel = k + 1 := by
        cases fuel with
        | zero => cases further
        | succ k => exact ⟨k, rfl⟩
      rw [getdentsLoop, decide_eq_true (by dsimp only; omega), Bool.or_true, if_pos rfl]
      refine ⟨_, rfl, filled.snoc, iff_of_false padded ?_⟩
      intro all
      exact padded (all.resolve_left unfit).1

def openCursor (fat : FatSb) (d : Disk) (nfd : Fs.Fd) : Cursor :=
  ⟨diskRead d nfd.curSec, nfd.pos % fat.sectorSize, nfd.curClusNum, nfd.curSec⟩

end CCore.Fat
