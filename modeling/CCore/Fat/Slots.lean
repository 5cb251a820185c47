import CCore.Fat.Directory

/-!
# The slots of a directory

The entries of a directory are numbered along its chain.  `At` says that a cursor of the
source is on entry number `t`, and `At.next` and `At.last` say where `next_entry` leads from
there; what loops over directories do is proved with these two.
-/
namespace CCore.Fat

open List Nat

namespace Volume

variable (vol : Volume)

/-- Entries per cluster. -/
def perClus : Nat := 16 * vol.spc

/-- Entries per transfer. -/
def perBuf : Nat := 16 * min 8 vol.spc

def slotAddr (chain : List Nat) (t k : Nat) : Nat :=
  vol.place (fun i => chain.getD i 0) (32 * t + k)

def dirSlot (d : Disk) (chain : List Nat) (t : Nat) : Slot := fun k => d (vol.slotAddr chain t k)

theorem perBuf_pos : 0 < vol.perBuf := by
  have positive := vol.spc_pos
  unfold perBuf
  omega

theorem perClus_pos : 0 < vol.perClus := by
  have positive := vol.spc_pos
  unfold perClus
  omega

theorem buf_eq_slots : vol.buf = 32 * vol.perBuf := by
  rw [vol.buf_eq]
  unfold perBuf
  omega

theorem cs_eq_slots : vol.cs = 32 * vol.perClus := by
  rw [vol.cs_eq]
  unfold perClus
  omega

/-- Transfers per cluster. -/
def bufPerClus : Nat := vol.spc / min 8 vol.spc

theorem spc_split : min 8 vol.spc * vol.bufPerClus = vol.spc ∧ 0 < vol.bufPerClus := by
  unfold bufPerClus
  rcases vol.spc_cases with h | h | h | h | h | h | h | h <;> rw [h] <;> decide

theorem perClus_split : vol.perClus = vol.perBuf * vol.bufPerClus := by
  rw [perClus, perBuf, Nat.mul_assoc, vol.spc_split.1]

theorem transfer_index (t : Nat) :
    t % vol.perClus / vol.perBuf = t / vol.perBuf % vol.bufPerClus := by
  rw [vol.perClus_split, mod_mul_right_div_self]

theorem cluster_index (t : Nat) : t / vol.perClus = t / vol.perBuf / vol.bufPerClus := by
  rw [vol.perClus_split, Nat.div_div_eq_div_mul]

theorem transfer_split (t : Nat) :
    t % vol.perClus = vol.perBuf * (t % vol.perClus / vol.perBuf) + t % vol.perBuf := by
  have inner : t % vol.perClus % vol.perBuf = t % vol.perBuf := by
    rw [vol.perClus_split, mod_mul_right_mod]
  rw [← inner, div_add_mod]

theorem transfer_bound (t : Nat) :
    min 8 vol.spc * (t % vol.perClus / vol.perBuf) + min 8 vol.spc ≤ vol.spc := by
  have inside := mod_lt (t / vol.perBuf) vol.spc_split.2
  rw [vol.transfer_index, ← mul_succ]
  calc min 8 vol.spc * (t / vol.perBuf % vol.bufPerClus).succ
      ≤ min 8 vol.spc * vol.bufPerClus := Nat.mul_le_mul_left _ inside
    _ = vol.spc := vol.spc_split.1

theorem succ_div_mod (n : Nat) {k : Nat} (positive : 0 < k) :
    (n % k + 1 < k ∧ (n + 1) / k = n / k ∧ (n + 1) % k = n % k + 1) ∨
      (n % k + 1 = k ∧ (n + 1) / k = n / k + 1 ∧ (n + 1) % k = 0) := by
  have split : n + 1 = k * (n / k) + (n % k + 1) := by rw [← Nat.add_assoc, div_add_mod]
  have small := mod_lt n positive
  rcases Nat.lt_or_ge (n % k + 1) k with inner | outer
  · left
    refine ⟨inner, ?_, ?_⟩
    · rw [split, mul_add_div positive, div_eq_of_lt inner, Nat.add_zero]
    · rw [split, mul_add_mod, mod_eq_of_lt inner]
  · right
    have full : n % k + 1 = k := by omega
    refine ⟨full, ?_, ?_⟩
    · rw [split, full, mul_add_div positive, Nat.div_self positive]
    · rw [split, full, mul_add_mod, mod_self]

theorem next_cases (t : Nat) :
    (t % vol.perBuf + 1 < vol.perBuf ∧ (t + 1) / vol.perClus = t / vol.perClus ∧
      (t + 1) % vol.perClus / vol.perBuf = t % vol.perClus / vol.perBuf ∧
      (t + 1) % vol.perBuf = t % vol.perBuf + 1) ∨
    (t % vol.perBuf + 1 = vol.perBuf ∧ (t + 1) / vol.perClus = t / vol.perClus ∧
      (t + 1) % vol.perClus / vol.perBuf = t % vol.perClus / vol.perBuf + 1 ∧
      (t + 1) % vol.perBuf = 0) ∨
    (t % vol.perBuf + 1 = vol.perBuf ∧ (t + 1) / vol.perClus = t / vol.perClus + 1 ∧
      (t + 1) % vol.perClus / vol.perBuf = 0 ∧ (t + 1) % vol.perBuf = 0 ∧
      min 8 vol.spc * (t % vol.perClus / vol.perBuf) + min 8 vol.spc = vol.spc) := by
  simp only [vol.transfer_index, vol.cluster_index]
  rcases succ_div_mod t vol.perBuf_pos with ⟨inner, quotient, remainder⟩ |
    ⟨outer, quotient, remainder⟩
  · left
    rw [quotient]
    exact ⟨inner, rfl, rfl, remainder⟩
  · rw [quotient]
    right
    rcases succ_div_mod (t / vol.perBuf) vol.spc_split.2 with ⟨_, cluster, transfer⟩ |
      ⟨full, cluster, transfer⟩
    · left
      exact ⟨outer, cluster, transfer, remainder⟩
    · right
      refine ⟨outer, cluster, transfer, remainder, ?_⟩
      rw [← mul_succ, succ_eq_add_one, full, vol.spc_split.1]

theorem slotAddr_eq (chain : List Nat) (t : Nat) {k : Nat} (inside : k < 32) :
    vol.slotAddr chain t k =
      512 * vol.first (chain.getD (t / vol.perClus) 0) + 32 * (t % vol.perClus) + k := by
  have size := vol.cs_eq_slots
  have cluster : (32 * t + k) / vol.cs = t / vol.perClus := by
    rw [size, ← Nat.div_div_eq_div_mul]
    have slot : (32 * t + k) / 32 = t := by omega
    rw [slot]
  have whole := div_add_mod (32 * t + k) vol.cs
  have slots := div_add_mod t vol.perClus
  have product : vol.cs * (t / vol.perClus) = 32 * (vol.perClus * (t / vol.perClus)) := by
    rw [size, Nat.mul_assoc]
  have offset : (32 * t + k) % vol.cs = 32 * (t % vol.perClus) + k := by
    rw [cluster] at whole
    omega
  rw [slotAddr, place, cluster, offset]
  exact (Nat.add_assoc _ _ _).symm

end Volume

structure At (vol : Volume) (d : Disk) (chain : List Nat) (t : Nat) (cur : Cursor) : Prop where
  inside : t < vol.perClus * chain.length
  clus : cur.clus = chain.getD (t / vol.perClus) 0
  sec : cur.sec = vol.first cur.clus + min 8 vol.spc * (t % vol.perClus / vol.perBuf)
  entry : cur.entry = 32 * (t % vol.perBuf)
  buf : ∀ i, i < vol.buf → cur.buf i = d (512 * cur.sec + i)

section Cursor
variable {vol : Volume} {d : Disk} {eoc : Nat} {chain : List Nat} {t : Nat} {cur : Cursor}

theorem index_lt_length (inside : t < vol.perClus * chain.length) : t / vol.perClus < chain.length :=
  Nat.div_lt_of_lt_mul inside

section
variable (here : At vol d chain t cur) (on : ChainOn vol d eoc chain)
include here on

theorem At.valid : vol.Valid cur.clus := by
  rw [here.clus]
  exact on.valid_getD (index_lt_length here.inside)

theorem At.clus_ne_end : cur.clus ≠ cluserEnd := by
  have upper := (here.valid on).2
  have clusters := vol.clusters_le
  intro same
  rw [same] at upper
  unfold cluserEnd at upper
  omega

theorem At.sector_range :
    vol.first cur.clus ≤ cur.sec ∧ cur.sec + min 8 vol.spc ≤ vol.first cur.clus + vol.spc ∧
      cur.sec + min 8 vol.spc + 2048 ≤ 2 ^ 32 := by
  have bound := vol.transfer_bound t
  have cluster := vol.first_le (here.valid on)
  have range := vol.in_range'
  have sector := here.sec
  omega

end

theorem read_eq {sec i : Nat} (range : sec + min 8 vol.spc ≤ 2 ^ 32) (inside : i < vol.buf) :
    diskRead d sec i = d (512 * sec + i) := by
  have size := vol.buf_eq
  apply diskRead_eq
  omega

theorem At.entry_le (here : At vol d chain t cur) : cur.entry + 32 ≤ vol.buf := by
  have small := mod_lt t vol.perBuf_pos
  have size := vol.buf_eq_slots
  have entry := here.entry
  omega

theorem At.address (here : At vol d chain t cur) {k : Nat} (inside : k < 32) :
    vol.slotAddr chain t k = 512 * cur.sec + (cur.entry + k) := by
  have split := vol.transfer_split t
  have product : vol.perBuf * (t % vol.perClus / vol.perBuf) =
      16 * (min 8 vol.spc * (t % vol.perClus / vol.perBuf)) := Nat.mul_assoc 16 _ _
  have entry := here.entry
  have sector := here.sec
  rw [vol.slotAddr_eq chain t inside, ← here.clus]
  omega

theorem At.slot (here : At vol d chain t cur) : cur.slot = vol.dirSlot d chain t := by
  have last := here.entry_le
  funext k
  have inside := k.isLt
  show cur.buf (cur.entry + k) = d (vol.slotAddr chain t k)
  rw [here.buf _ (by omega), here.address inside]

theorem At.open (on : ChainOn vol d eoc chain) (nonempty : chain ≠ []) :
    At vol d chain 0 (openDir vol.fat d (chain.getD 0 0)) := by
  have positive : 0 < chain.length := length_pos_of_ne_nil nonempty
  have valid : vol.Valid (chain.getD 0 0) := on.valid_getD positive
  have cluster := vol.first_le valid
  have range := vol.in_range'
  have first := vol.firstSecOfClus_eq valid
  refine ⟨Nat.mul_pos vol.perClus_pos positive, ?_, ?_, ?_, ?_⟩
  · rw [Nat.zero_div]
    rfl
  · rw [zero_mod, Nat.zero_div]
    exact first
  · rw [zero_mod]
    rfl
  · intro i inside
    exact read_eq (by omega) inside

theorem At.tests (here : At vol d chain t cur) (on : ChainOn vol d eoc chain) :
    (cur.entry + 32 = vol.fat.bufSize ↔ t % vol.perBuf + 1 = vol.perBuf) ∧
    u32 (cur.sec + vol.fat.readMaxSec) = cur.sec + min 8 vol.spc ∧
    (u32 (cur.sec + min 8 vol.spc + (2 ^ 32 - vol.fat.firstSecOfClus cur.clus)) ≥
        vol.fat.bpb.secPerClus ↔
      min 8 vol.spc * (t % vol.perClus / vol.perBuf) + min 8 vol.spc = vol.spc) := by
  have size : vol.fat.bufSize = 32 * vol.perBuf := vol.buf_eq_slots
  have place := here.entry
  have range := here.sector_range on
  have sector := here.sec
  have spc : vol.fat.bpb.secPerClus = vol.spc := rfl
  refine ⟨?_, ?_, ?_⟩
  · omega
  · rw [vol.readMaxSec_eq]
    unfold u32
    omega
  · rw [vol.firstSecOfClus_eq (here.valid on), spc]
    have exact : u32 (cur.sec + min 8 vol.spc + (2 ^ 32 - vol.first cur.clus)) =
        min 8 vol.spc * (t % vol.perClus / vol.perBuf) + min 8 vol.spc := by
      unfold u32
      omega
    rw [exact]
    omega

theorem At.next (here : At vol d chain t cur) (on : ChainOn vol d eoc chain)
    (more : t + 1 < vol.perClus * chain.length) :
    At vol d chain (t + 1) (nextEntry vol.fat d cur) := by
  obtain ⟨atEnd, advance, leaves⟩ := here.tests on
  have links := on.linked _ (index_lt_length here.inside)
  rw [← here.clus] at links
  unfold nextEntry
  rcases vol.next_cases t with ⟨inner, cluster, transfer, offset⟩ |
    ⟨outer, cluster, transfer, offset⟩ | ⟨outer, cluster, transfer, offset, full⟩
  · -- the same transfer
    have stays : ¬ cur.entry + 32 = vol.fat.bufSize := fun h => by
      omega
    rw [if_neg stays]
    refine ⟨more, ?_, ?_, ?_, here.buf⟩
    · rw [cluster]
      exact here.clus
    · rw [transfer]
      exact here.sec
    · have place := here.entry
      show cur.entry + 32 = _
      omega
  · -- the next transfer of the cluster
    have inCluster : ¬ min 8 vol.spc * (t % vol.perClus / vol.perBuf) + min 8 vol.spc =
        vol.spc := by
      have bound := vol.transfer_bound (t + 1)
      rw [transfer, Nat.mul_add, Nat.mul_one] at bound
      have positive := vol.spc_pos
      omega
    have bound := vol.transfer_bound (t + 1)
    have next := vol.first_le (here.valid on)
    have limit := vol.in_range'
    have sector := here.sec
    rw [transfer, Nat.mul_add, Nat.mul_one] at bound
    rw [if_pos (atEnd.mpr outer), advance, if_neg fun h => inCluster (leaves.mp h)]
    refine ⟨more, ?_, ?_, ?_, ?_⟩
    · rw [cluster]
      exact here.clus
    · rw [transfer, Nat.mul_add, Nat.mul_one]
      show cur.sec + min 8 vol.spc = vol.first cur.clus + _
      omega
    · rw [offset]
    · intro i inside
      exact read_eq (by omega) inside
  · -- the next cluster
    have later : t / vol.perClus + 1 < chain.length := by
      rw [← cluster]
      exact index_lt_length more
    have valid : vol.Valid (chain.getD (t / vol.perClus + 1) eoc) := on.valid_getD later
    have notEnd : chain.getD (t / vol.perClus + 1) eoc ≠ cluserEnd := by
      have upper := valid.2
      have clusters := vol.clusters_le
      intro same
      rw [same] at upper
      unfold cluserEnd at upper
      omega
    have next := vol.first_le valid
    have limit := vol.in_range'
    rw [if_pos (atEnd.mpr outer), advance, if_pos (leaves.mpr full),
      vol.nextCluster_eq (here.valid on).2, links, if_neg notEnd]
    refine ⟨more, ?_, ?_, ?_, ?_⟩
    · rw [cluster]
      exact getD_default later
    · show vol.fat.firstSecOfClus (chain.getD (t / vol.perClus + 1) eoc) = _
      rw [vol.firstSecOfClus_eq valid, transfer]
      rfl
    · rw [offset]
    · intro i inside
      rw [vol.firstSecOfClus_eq valid]
      exact read_eq (by omega) inside

theorem At.last (here : At vol d chain t cur) (on : ChainOn vol d cluserEnd chain)
    (last : t + 1 = vol.perClus * chain.length) : nextEntry vol.fat d cur =
    { cur with entry := 0, clus := cluserEnd, sec := vol.first cur.clus + vol.spc } := by
  obtain ⟨atEnd, advance, leaves⟩ := here.tests on
  have links := on.linked _ (index_lt_length here.inside)
  rw [← here.clus] at links
  have quotient : (t + 1) / vol.perClus = chain.length := by
    rw [last, Nat.mul_div_cancel_left _ vol.perClus_pos]
  have index := index_lt_length here.inside
  rcases vol.next_cases t with ⟨_, cluster, _, _⟩ | ⟨_, cluster, _, _⟩ |
    ⟨outer, cluster, _, _, full⟩
  · omega
  · omega
  · have ends : chain.getD (t / vol.perClus + 1) cluserEnd = cluserEnd :=
      getD_eq_default _ _ (by omega)
    have sector := here.sec
    have after : cur.sec + min 8 vol.spc = vol.first cur.clus + vol.spc := by omega
    rw [nextEntry, if_pos (atEnd.mpr outer), advance, if_pos (leaves.mpr full),
      vol.nextCluster_eq (here.valid on).2, links, if_pos ends, ends, after]

/-- What a loop over entries needs of the relation between its cursor and the number of an
entry, up to the entry `limit`. -/
structure Walks (vol : Volume) (d : Disk) (chain : List Nat) (limit : Nat)
    (on : Nat → Cursor → Prop) : Prop where
  slot : ∀ {t cur}, on t cur → cur.slot = vol.dirSlot d chain t
  next : ∀ {t cur}, on t cur → t + 1 < limit → on (t + 1) (nextEntry vol.fat d cur)

theorem ChainOn.walks (on : ChainOn vol d eoc chain) :
    Walks vol d chain (vol.perClus * chain.length) (At vol d chain) :=
  ⟨fun here => here.slot, fun here more => here.next on more⟩

end Cursor
end CCore.Fat
