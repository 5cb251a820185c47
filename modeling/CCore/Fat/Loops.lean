import CCore.Fat.Chain
import CCore.Fat.ReadWrite
import CCore.Fat.Transfer

/-!
# The loops of `fat32_read` and `fat32_write`

Round by round the descriptor of the code follows `track`.  The loop of
`fat32_read` delivers the bytes at the sectors of the cursor; the loop of
`fat32_write` puts each byte of the data at its `address`, and takes clusters
from the free list in order when the chain ends.
-/
namespace CCore.Fat

open Bytes Fs Loop List Option Nat

structure Follows (vol : Volume) (e : Nat → Nat) (pos n j : Nat) (nfd : Fd) : Prop where
  position : nfd.pos = vol.mark pos n j
  cluster : nfd.curClusNum = e (vol.track e pos n j).1
  sector : nfd.curSec = (vol.track e pos n j).2

def Moved (nfd nfd' : Fd) : Prop :=
  nfd' = { nfd with pos := nfd'.pos, curSec := nfd'.curSec, curClusNum := nfd'.curClusNum }

theorem Moved.refl (nfd : Fd) : Moved nfd nfd := rfl

theorem Moved.trans {a b c : Fd} (first : Moved a b) (second : Moved b c) : Moved a c := by
  unfold Moved at *
  rw [second, first]

theorem moved_moveCursor (fat : FatSb) (d : Disk) (oldClusNum oldSecNum pos : Nat) (nfd : Fd) :
    Moved nfd (moveCursor fat d oldClusNum oldSecNum { nfd with pos := pos }) := by
  unfold Moved moveCursor
  dsimp only
  split <;> rfl

theorem moved_lseek (fat : FatSb) (d : Disk) (nfd : Fd) (off : Nat) (whence : Whence) :
    Moved nfd (fat32Lseek fat d nfd off whence).2 := by
  unfold fat32Lseek
  dsimp only
  split_ifs <;> rfl

theorem moved_read {fat : FatSb} {d : Disk} {nfd : Fd} {count : Nat}
    {r : Int × List UInt8 × Fd} (run : fat32Read fat d nfd count = some r) : Moved nfd r.2.2 := by
  unfold fat32Read at run
  split at run
  · cases run
    exact .refl nfd
  split at run
  · cases run
    exact .refl nfd
  obtain ⟨final, loop, rfl⟩ := map_eq_some_iff.mp run
  refine whileLoop_invariant (I := fun s => Moved nfd s.nfd) ?_ (Moved.refl nfd) loop
  intro s s' moved round
  cases round
  exact moved.trans (moved_moveCursor ..)

variable {vol : Volume} {e : Nat → Nat} {pos n j : Nat} {d : Disk} {nfd : Fd}

theorem u32_div_sector {p : Nat} (small : p < 2 ^ 33) : u32 (p / 512) = p / 512 := by
  unfold u32
  omega

theorem u32_div_cs {p : Nat} (small : p < 2 ^ 33) : u32 (p / vol.cs) = p / vol.cs := by
  have sectors := vol.cs_eq
  have positive := vol.spc_pos
  have bound : p / vol.cs ≤ p / 512 := div_le_div_left (by omega) (by omega)
  exact mod_eq_of_lt (by omega)

theorem moveCursor_follows (small : pos + n < 2 ^ 33) (follows : Follows vol e pos n j nfd)
    (next : vol.mark pos n (j + 1) / vol.cs ≠ pos / vol.cs →
      nextCluster vol.fat d nfd.curClusNum = e ((vol.track e pos n j).1 + 1)) :
    Follows vol e pos n (j + 1) (moveCursor vol.fat d (u32 (pos / vol.cs)) (u32 (pos / 512))
        { nfd with pos := vol.mark pos n (j + 1) }) := by
  obtain ⟨lower, upper⟩ := vol.mark_le pos n (j + 1)
  have cluster : u32 (vol.mark pos n (j + 1) / vol.cs) = vol.mark pos n (j + 1) / vol.cs :=
    u32_div_cs (by omega)
  have sector : u32 (vol.mark pos n (j + 1) / 512) = vol.mark pos n (j + 1) / 512 :=
    u32_div_sector (by omega)
  have oldCluster : u32 (pos / vol.cs) = pos / vol.cs := u32_div_cs (by omega)
  have oldSector : u32 (pos / 512) = pos / 512 := u32_div_sector (by omega)
  have size : vol.fat.clusterSize = vol.cs := rfl
  simp only [moveCursor, size, vol.sectorSize_eq, cluster, sector, oldCluster, oldSector]
  by_cases crosses : vol.mark pos n (j + 1) / vol.cs ≠ pos / vol.cs
  · rw [if_pos crosses]
    refine ⟨rfl, ?_, ?_⟩
    · simp only [Volume.track, if_pos crosses]
      exact next crosses
    · simp [Volume.track, if_pos crosses, next crosses]
  · rw [if_neg crosses]
    refine ⟨rfl, ?_, ?_⟩
    · simp only [Volume.track, if_neg crosses]
      exact follows.cluster
    · simp only [Volume.track, if_neg crosses, follows.sector]
      unfold u32
      omega

def Volume.delivered (vol : Volume) (e : Nat → Nat) (d : Disk) (pos n q : Nat) : UInt8 :=
  diskRead d (vol.track e pos n ((q - sectorBase pos) / vol.buf)).2
    ((q - sectorBase pos) % vol.buf)

structure ReadAt (vol : Volume) (e : Nat → Nat) (d : Disk) (nfd : Fd) (n j : Nat)
    (s : Reading) : Prop where
  follows : Follows vol e nfd.pos n j s.nfd
  moved : Moved nfd s.nfd
  ncount : s.ncount = vol.mark nfd.pos n j - nfd.pos
  bytes : s.bytes = (List.range (vol.mark nfd.pos n j - nfd.pos)).map fun i =>
    vol.delivered e d nfd.pos n (nfd.pos + i)

section
variable (small : nfd.pos + n < 2 ^ 33) (next : ∀ i, nextCluster vol.fat d (e i) = e (i + 1))
include small next

theorem readBlock_step {j : Nat} {s : Reading}
    (more : j < vol.rounds nfd.pos n) (now : ReadAt vol e d nfd n j s) :
    ReadAt vol e d nfd n (j + 1)
      (readBlock vol.fat d n (u32 (nfd.pos / vol.cs)) (u32 (nfd.pos / 512)) s) := by
  have step := vol.mark_succ more
  have lower := (vol.mark_le nfd.pos n j).1
  have size : vol.fat.bufSize = vol.buf := rfl
  have readsize : min (vol.fat.bufSize - s.nfd.pos % vol.fat.sectorSize) (n - s.ncount) =
      vol.mark nfd.pos n (j + 1) - vol.mark nfd.pos n j := by
    rw [now.follows.position, now.ncount, vol.sectorSize_eq, size]
    omega
  have target : s.nfd.pos + (vol.mark nfd.pos n (j + 1) - vol.mark nfd.pos n j) =
      vol.mark nfd.pos n (j + 1) := by
    rw [now.follows.position]
    omega
  simp only [readBlock, readsize, target]
  constructor
  · apply moveCursor_follows small now.follows
    intro _
    rw [now.follows.cluster, next]
  · exact now.moved.trans (moved_moveCursor _ _ _ _ _ _)
  · simp only [now.ncount]
    omega
  · -- the bytes of round `j` are those of the buffer at the cursor
    have total : vol.mark nfd.pos n (j + 1) - nfd.pos = (vol.mark nfd.pos n j - nfd.pos) +
        (vol.mark nfd.pos n (j + 1) - vol.mark nfd.pos n j) := by omega
    rw [total, range_add, map_append, List.map_map, ← now.bytes]
    apply congrArg (s.bytes ++ ·)
    apply map_congr_left
    intro i inside
    have bound := mem_range.mp inside
    have position : nfd.pos + (vol.mark nfd.pos n j - nfd.pos + i) =
        vol.mark nfd.pos n j + i := by omega
    obtain ⟨round, offset⟩ := vol.round_of_mark (q := vol.mark nfd.pos n j + i) more
      (by omega) (by omega)
    simp [Function.comp_apply, Volume.delivered, position, round, offset,
      vol.sectorSize_eq, now.follows.position, now.follows.sector]

theorem readLoop_spec (start : Follows vol e nfd.pos n 0 nfd) :
    ∃ s, whileLoop (fun s => s.ncount < n)
        (fun s => some (readBlock vol.fat d n (u32 (nfd.pos / vol.cs)) (u32 (nfd.pos / 512)) s))
        n ⟨nfd, 0, []⟩ = some s ∧ ReadAt vol e d nfd n (vol.rounds nfd.pos n) s := by
  have enough := vol.rounds_le nfd.pos n
  refine whileLoop_counted (P := ReadAt vol e d nfd n) ?_ ?_ (by omega) (Nat.zero_le _) ?_
  · intro j s more now
    have stop := vol.mark_lt_stop more
    refine ⟨?_, _, rfl, readBlock_step small next more now⟩
    rw [decide_eq_true_eq, now.ncount]
    omega
  · intro s last
    rw [decide_eq_false_iff_not, last.ncount, vol.mark_rounds]
    omega
  · constructor
    · exact start
    · exact Moved.refl nfd
    · rw [vol.mark_zero, Nat.sub_self]
    · rw [vol.mark_zero, Nat.sub_self]
      rfl

end

/-! ## Growing the chain -/

/-- The reserved sectors, and the entries of clusters other than `own`, are left
alone. -/
structure TableFrame (vol : Volume) (d d' : Disk) (own : List Nat) : Prop where
  reserved : ∀ a, a < 512 * vol.fatStart → d' a = d a
  others : ∀ c, c < vol.fat.dataClusCnt + 2 → c ∉ own → vol.entry d' c = vol.entry d c

/-- The data area is left alone. -/
def SameData (vol : Volume) (d d' : Disk) : Prop := ∀ a, vol.dataStart ≤ a → d' a = d a

variable {d' d'' : Disk} {own own' E : List Nat} {m i : Nat}

theorem TableFrame.refl (vol : Volume) (d : Disk) (own : List Nat) : TableFrame vol d d own :=
  ⟨fun _ _ => rfl, fun _ _ _ => rfl⟩

theorem TableFrame.trans (first : TableFrame vol d d' own) (second : TableFrame vol d' d'' own')
    (sub : ∀ c ∈ own, c ∈ own') : TableFrame vol d d'' own' := by
  constructor
  · intro a low
    rw [second.reserved a low, first.reserved a low]
  · intro c inTable foreign
    rw [second.others c inTable foreign]
    exact first.others c inTable fun mine => foreign (sub c mine)

theorem TableFrame.of_sameTables (same : SameTables vol d d') (own : List Nat) :
    TableFrame vol d d' own := by
  constructor
  · intro a low
    apply same
    rw [vol.dataStart_eq]
    omega
  · intro c inTable _
    exact vol.entry_congr inTable same

theorem TableFrame.setEntry {c value : Nat} (mine : c ∈ own) :
    TableFrame vol d (vol.setEntry d c value) own := by
  constructor
  · intro a low
    exact vol.setEntry_of_reserved low
  · intro x inTable foreign
    apply vol.entry_setEntry_other inTable
    rintro rfl
    exact foreign mine

theorem getD_take {e : Nat} (inside : i < m) (within : m ≤ E.length) :
    (E.take m).getD i e = E.getD i e := by
  rw [getD_eq_getElem _ _ (by rw [List.length_take]; omega),
    getD_eq_getElem _ _ (by omega), getElem_take]

theorem mem_take_of_lt {e : Nat} (inside : i < m) (within : m ≤ E.length) :
    E.getD i e ∈ E.take m := by
  rw [← getD_take inside within]
  apply getD_mem
  rw [List.length_take]
  omega

theorem take_succ_getD (room : m < E.length) : E.take (m + 1) = E.take m ++ [E.getD m mEoc] := by
  rw [getD_eq_getElem _ _ room]
  exact (take_append_getElem room).symm

theorem drop_eq_getD_cons (room : m < E.length) : E.drop m = E.getD m mEoc :: E.drop (m + 1) := by
  rw [getD_eq_getElem _ _ room]
  exact drop_eq_getElem_cons room

theorem Owns.next (owns : Owns vol d (E.take m) (E.drop m)) (within : m ≤ E.length)
    (inside : i < m) :
    nextCluster vol.fat d (E.getD i mEoc) = if i + 1 < m then E.getD (i + 1) mEoc else mEoc := by
  have length : (E.take m).length = m := by
    rw [List.length_take]
    omega
  have linked := owns.chainOn.linked i (by omega)
  have same : (E.take m).getD i 0 = E.getD i mEoc := by
    rw [getD_take inside within, getD_eq_getElem _ _ (by omega), getD_eq_getElem _ _ (by omega)]
  have valid : vol.Valid (E.getD i mEoc) := owns.chainOn.valid _ (mem_take_of_lt inside within)
  rw [same] at linked
  rw [vol.nextCluster_eq valid.2, linked]
  by_cases more : i + 1 < m
  · rw [if_pos more, getD_take more within]
  · rw [if_neg more, getD_eq_default _ _ (by omega)]

theorem growChain_owns (owns : Owns vol d (E.take m) (E.drop m)) (inside : i < m)
    (within : m ≤ E.length) (room : i + 1 < E.length) :
    ∃ d', growChain vol.fat d (E.getD i mEoc) = some d' ∧
      Owns vol d' (E.take (max m (i + 2))) (E.drop (max m (i + 2))) ∧ SameData vol d d' ∧
      TableFrame vol d d' (E.take (max m (i + 2))) := by
  have next := owns.next within inside
  rw [growChain, next]
  by_cases more : i + 1 < m
  · have valid := owns.chainOn.valid _ (mem_take_of_lt (e := mEoc) more within)
    have limit := vol.clusters_le
    have upper := valid.2
    have inner : E.getD (i + 1) mEoc ≠ mEoc := by
      unfold mEoc at *
      omega
    have size : max m (i + 2) = m := by omega
    rw [if_pos more, if_neg inner, size]
    exact ⟨d, rfl, owns, fun _ _ => rfl, TableFrame.refl vol d _⟩
  · obtain rfl : m = i + 1 := by omega
    have head := drop_eq_getD_cons room
    have length : (E.take (i + 1)).length = i + 1 := by
      rw [List.length_take]
      omega
    have nonempty : E.take (i + 1) ≠ [] := by
      intro empty
      rw [empty] at length
      exact absurd length (by simp)
    have last : (E.take (i + 1)).getLast nonempty = E.getD i mEoc := by
      rw [getLast_eq_getElem, getElem_take, getD_eq_getElem _ _ (by omega)]
      congr 1
      omega
    have grown := owns.extend head nonempty
    have mine : ∀ k, k < i + 2 → E.getD k mEoc ∈ E.take (i + 2) := by
      intro k bound
      exact mem_take_of_lt bound (by omega)
    have valid := owns.chainOn.valid _ (mem_take_of_lt (e := mEoc) inside within)
    have validNew : vol.Valid (E.getD (i + 1) mEoc) := by
      apply owns.valid_free
      rw [head]
      exact mem_cons_self
    have size : max (i + 1) (i + 2) = i + 2 := by omega
    rw [if_neg more, if_pos rfl, owns.search head, map_some, size]
    refine ⟨_, congrArg some (vol.writeFatTable_link valid validNew), ?_, ?_, ?_⟩
    · rw [take_succ_getD room]
      rw [last] at grown
      exact grown
    · intro a data
      rw [vol.setEntry_of_data valid.2 data, vol.setEntry_of_data validNew.2 data]
    · apply TableFrame.trans (TableFrame.setEntry (mine (i + 1) (by omega)))
        (TableFrame.setEntry (mine i (by omega)))
      intro c mem
      exact mem

section Write
variable {data : List UInt8} {used : Nat}

/-- The clusters of the file and after them the free ones, in order. -/
abbrev clusterOf (E : List Nat) : Nat → Nat := fun i => E.getD i mEoc

def WrittenTo (vol : Volume) (e : Nat → Nat) (d d' : Disk) (pos : Nat) (data : List UInt8)
    (stop a : Nat) : Prop :=
  (∃ q, pos ≤ q ∧ q < stop ∧ vol.address e pos data.length q = a ∧ d' a = data.getD (q - pos) 0) ∨
    (∀ q, pos ≤ q → q < stop → vol.address e pos data.length q ≠ a) ∧ d' a = d a

/-- The variables of the loop before round `j`: the chain covers the first
`used` clusters, and those that the cursor has come to. -/
structure WriteAt (vol : Volume) (E : List Nat) (used : Nat) (d : Disk) (nfd : Fd)
    (data : List UInt8) (j : Nat) (s : Writing) : Prop where
  follows : Follows vol (clusterOf E) nfd.pos data.length j s.nfd
  moved : Moved nfd s.nfd
  ncount : s.ncount = vol.mark nfd.pos data.length j - nfd.pos
  point : s.point = vol.mark nfd.pos data.length j - nfd.pos
  owns : Owns vol s.disk
    (E.take (max used ((vol.track (clusterOf E) nfd.pos data.length j).1 + 1)))
    (E.drop (max used ((vol.track (clusterOf E) nfd.pos data.length j).1 + 1)))
  frame : TableFrame vol d s.disk
    (E.take (max used ((vol.track (clusterOf E) nfd.pos data.length j).1 + 1)))
  written : ∀ a, vol.dataStart ≤ a →
    WrittenTo vol (clusterOf E) d s.disk nfd.pos data (vol.mark nfd.pos data.length j) a

theorem diskWrite_round {d₁ d₂ : Disk} {sec : Nat} (src : Nat → UInt8) (offset size : Nat)
    (same : SameData vol d₁ d₂) (low : vol.fat.firstDataSec ≤ sec)
    (high : sec + vol.width ≤ 2 ^ 32) (fits : offset + size ≤ 512 * vol.width) :
    SameTables vol d₂ (diskWrite d₂ (blit (diskRead d₁ sec) offset size src) sec
        vol.fat.readMaxSec) ∧ ∀ a, vol.dataStart ≤ a →
        diskWrite d₂ (blit (diskRead d₁ sec) offset size src) sec vol.fat.readMaxSec a =
          if 512 * sec + offset ≤ a ∧ a < 512 * sec + offset + size
            then src (a - (512 * sec + offset)) else d₁ a := by
  have start : vol.dataStart = 512 * vol.fat.firstDataSec := rfl
  have width : vol.fat.readMaxSec = vol.width := vol.readMaxSec_eq
  rw [width, diskWrite_eq high]
  constructor
  · intro a below
    apply blit_outside
    omega
  · intro a above
    by_cases inSectors : 512 * sec ≤ a ∧ a < 512 * sec + 512 * vol.width
    · rw [blit, if_pos inSectors]
      by_cases inData : 512 * sec + offset ≤ a ∧ a < 512 * sec + offset + size
      · have shift : a - 512 * sec - offset = a - (512 * sec + offset) := by omega
        rw [blit, if_pos (by omega), if_pos inData, shift]
      · rw [blit, if_neg (by omega), if_neg inData, diskRead_eq (by omega)]
        exact congrArg d₁ (by omega)
    · rw [blit, if_neg inSectors, if_neg (by omega), same a above]

theorem address_of_round {e : Nat → Nat} {pos n j q : Nat} (more : j < vol.rounds pos n)
    (lower : vol.mark pos n j ≤ q) (upper : q < vol.mark pos n (j + 1)) : vol.address e pos n q =
    512 * (vol.track e pos n j).2 + vol.mark pos n j % 512 + (q - vol.mark pos n j) := by
  obtain ⟨round, offset⟩ := vol.round_of_mark more lower upper
  rw [Volume.address, round, offset]
  omega

theorem WrittenTo.round {e : Nat → Nat} {d' d'' : Disk} {pos j a start : Nat}
    (more : j < vol.rounds pos data.length)
    (first : start = 512 * (vol.track e pos data.length j).2 + vol.mark pos data.length j % 512)
    (before : WrittenTo vol e d d' pos data (vol.mark pos data.length j) a) (now : d'' a =
      if start ≤ a ∧ a < start + (vol.mark pos data.length (j + 1) - vol.mark pos data.length j)
        then data.getD (vol.mark pos data.length j - pos + (a - start)) 0
        else d' a) : WrittenTo vol e d d'' pos data (vol.mark pos data.length (j + 1)) a := by
  have forward := vol.mark_lt_succ more
  have reached := (vol.mark_le pos data.length j).1
  by_cases hit : start ≤ a ∧
      a < start + (vol.mark pos data.length (j + 1) - vol.mark pos data.length j)
  · rw [if_pos hit] at now
    left
    refine ⟨vol.mark pos data.length j + (a - start), by omega, by omega, ?_, ?_⟩
    · rw [address_of_round more (by omega) (by omega)]
      omega
    · rw [now]
      exact congrArg (data.getD · 0) (by omega)
  · rw [if_neg hit] at now
    rcases before with ⟨q, lower, upper, address, value⟩ | ⟨missed, value⟩
    · left
      exact ⟨q, lower, by omega, address, by rw [now, value]⟩
    · right
      refine ⟨?_, by rw [now, value]⟩
      intro q lower upper
      rcases Nat.lt_or_ge q (vol.mark pos data.length j) with early | late
      · exact missed q lower early
      · rw [address_of_round more late upper]
        omega

section
variable (small : nfd.pos + data.length < 2 ^ 33)
include small

theorem growTable {j : Nat} {s : Writing} (now : WriteAt vol E used d nfd data j s)
    (room : (vol.track (clusterOf E) nfd.pos data.length (j + 1)).1 < E.length)
    (within : used ≤ E.length) :
    ∃ d', (if u32 (vol.mark nfd.pos data.length (j + 1) / vol.cs) ≠ u32 (nfd.pos / vol.cs)
        then growChain vol.fat s.disk s.nfd.curClusNum else some s.disk) = some d' ∧ Owns vol d'
        (E.take (max used ((vol.track (clusterOf E) nfd.pos data.length (j + 1)).1 + 1)))
        (E.drop (max used ((vol.track (clusterOf E) nfd.pos data.length (j + 1)).1 + 1))) ∧
      SameData vol s.disk d' ∧ TableFrame vol s.disk d'
        (E.take (max used ((vol.track (clusterOf E) nfd.pos data.length (j + 1)).1 + 1))) := by
  have upper := (vol.mark_le nfd.pos data.length (j + 1)).2
  have index := vol.track_succ_index (clusterOf E) nfd.pos data.length j
  rw [u32_div_cs (p := vol.mark nfd.pos data.length (j + 1)) (by omega),
    u32_div_cs (p := nfd.pos) (by omega)]
  by_cases crosses : vol.mark nfd.pos data.length (j + 1) / vol.cs ≠ nfd.pos / vol.cs
  · rw [if_pos crosses] at index ⊢
    rw [now.follows.cluster, index]
    have size : max used ((vol.track (clusterOf E) nfd.pos data.length j).1 + 1 + 1) =
        max (max used ((vol.track (clusterOf E) nfd.pos data.length j).1 + 1))
          ((vol.track (clusterOf E) nfd.pos data.length j).1 + 2) := by omega
    rw [size]
    exact growChain_owns now.owns (by omega) (by omega) (by omega)
  · rw [if_neg crosses] at index ⊢
    rw [index, Nat.add_zero]
    exact ⟨s.disk, rfl, now.owns, fun _ _ => rfl, TableFrame.refl vol s.disk _⟩

section
variable (short : data.length < 2 ^ 32)
  (clusters : vol.Clusters (clusterOf E) E.length)
  (within : used ≤ E.length)
  (room : vol.endIndex nfd.pos data.length < E.length)
include short clusters within room

theorem writeBlock_step {j : Nat} {s : Writing}
    (more : j < vol.rounds nfd.pos data.length) (now : WriteAt vol E used d nfd data j s) :
    ∃ s', writeBlock vol.fat data (u32 (nfd.pos / vol.cs)) (u32 (nfd.pos / 512)) s = some s' ∧
      WriteAt vol E used d nfd data (j + 1) s' := by
  have step := vol.mark_succ more
  have forward := vol.mark_lt_succ more
  have lower := (vol.mark_le nfd.pos data.length j).1
  have buffer := vol.buf_width
  have last : (vol.track (clusterOf E) nfd.pos data.length (j + 1)).1 < E.length := by
    have order := vol.track_index_mono (clusterOf E) nfd.pos data.length more
    rw [vol.track_rounds_index] at order
    exact Nat.lt_of_le_of_lt order room
  have index := vol.track_index_eq (clusterOf E) more
  have here : nfd.pos / vol.cs + (j - vol.stay nfd.pos) < E.length := by
    have order := vol.track_index_mono (clusterOf E) nfd.pos data.length (Nat.le_add_right j 1)
    omega
  have start := vol.track_eq (clusters.valid _ (by omega)) more
  obtain ⟨low, high⟩ := vol.startSec_bounds clusters here
  have sector : s.nfd.curSec = vol.startSec (clusterOf E) nfd.pos j := by
    rw [now.follows.sector, start]
  have size : vol.fat.bufSize = vol.buf := rfl
  have cluster : vol.fat.clusterSize = vol.cs := rfl
  have writesize : min (vol.fat.bufSize - s.nfd.pos % vol.fat.sectorSize) (data.length - s.ncount) =
      vol.mark nfd.pos data.length (j + 1) - vol.mark nfd.pos data.length j := by
    rw [now.follows.position, now.ncount, vol.sectorSize_eq, size]
    omega
  have target : s.nfd.pos +
      (vol.mark nfd.pos data.length (j + 1) - vol.mark nfd.pos data.length j) =
      vol.mark nfd.pos data.length (j + 1) := by
    rw [now.follows.position]
    omega
  obtain ⟨grown, grows, owns, data', frame⟩ := growTable small now last within
  simp only [writeBlock, writesize, target, cluster, grows, map_some]
  refine ⟨_, rfl, ?_⟩
  obtain ⟨tables, bytes⟩ := diskWrite_round
    (fun i => data.getD (s.point + i) 0) (s.nfd.pos % vol.fat.sectorSize)
    (vol.mark nfd.pos data.length (j + 1) - vol.mark nfd.pos data.length j)
    data' (sector ▸ low) (sector ▸ high) (by
      rw [now.follows.position, vol.sectorSize_eq]
      omega)
  have ownsNow := owns.congr tables
  constructor
  · apply moveCursor_follows small now.follows
    intro crosses
    have advance := vol.track_succ_index (clusterOf E) nfd.pos data.length j
    rw [if_pos crosses] at advance
    rw [now.follows.cluster, ownsNow.next (by omega) (by omega), if_pos (by omega)]
  · exact now.moved.trans (moved_moveCursor _ _ _ _ _ _)
  · show u32 _ = _
    rw [now.ncount]
    exact mod_eq_of_lt (by omega) |>.trans (by omega)
  · show s.point + _ = _
    rw [now.point]
    omega
  · exact ownsNow
  · have order := vol.track_index_mono (clusterOf E) nfd.pos data.length (Nat.le_add_right j 1)
    apply (now.frame.trans frame _).trans (TableFrame.of_sameTables tables _)
    · intro c mem
      exact mem
    · intro c mem
      exact take_subset_take_left _ (by omega) mem
  · intro a above
    apply (now.written a above).round more rfl
    show diskWrite _ _ _ _ a = _
    rw [bytes a above, now.follows.position, vol.sectorSize_eq, now.follows.sector, now.point]

theorem writeLoop_spec (start : WriteAt vol E used d nfd data 0 ⟨d, nfd, 0, 0⟩) :
    ∃ s, whileLoop (fun s => s.ncount < data.length)
        (writeBlock vol.fat data (u32 (nfd.pos / vol.cs)) (u32 (nfd.pos / 512)))
        data.length ⟨d, nfd, 0, 0⟩ = some s ∧
      WriteAt vol E used d nfd data (vol.rounds nfd.pos data.length) s := by
  have enough := vol.rounds_le nfd.pos data.length
  refine whileLoop_counted (P := WriteAt vol E used d nfd data) ?_ ?_ (by omega)
    (Nat.zero_le _) start
  · intro j s more now
    have stop := vol.mark_lt_stop more
    refine ⟨?_, writeBlock_step small short clusters within room more now⟩
    rw [decide_eq_true_eq, now.ncount]
    omega
  · intro s last
    rw [decide_eq_false_iff_not, last.ncount, vol.mark_rounds]
    omega

end
end

theorem writeLoop_diverges {fat : FatSb} {oldClusNum oldSecNum fuel : Nat} {s : Writing}
    (long : 2 ^ 32 ≤ data.length) (now : s.ncount < 2 ^ 32) :
    whileLoop (fun s => s.ncount < data.length) (writeBlock fat data oldClusNum oldSecNum) fuel s =
      none := by
  refine whileLoop_diverges (I := fun s => s.ncount < 2 ^ 32) ?_ now
  intro s bound
  refine ⟨decide_eq_true (by omega), ?_⟩
  intro s' ran
  obtain ⟨_, _, rfl⟩ := map_eq_some_iff.mp ran
  exact mod_lt _ (by omega)

end Write
end CCore.Fat
