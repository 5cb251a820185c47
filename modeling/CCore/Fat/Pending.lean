import CCore.Fat.Listed

/-!
# Writing through the buffer

The loops that change a directory change entries in the buffer, write the buffer when they
come to its end, and write it once more when they are done.  `Pending` names the disk that
will be there after that write; a step of such a loop changes one entry of that disk.
-/
namespace CCore.Fat

open Bytes

namespace Volume

variable (vol : Volume)

/-- The disk with another entry `t`. -/
def putSlot (d : Disk) (chain : List Nat) (t : Nat) (s : Slot) : Disk :=
  blit d (vol.slotAddr chain t 0) 32 s.byte

/-- Is the byte in a cluster of the chain? -/
def InChain (chain : List Nat) (a : Nat) : Prop :=
  ∃ c ∈ chain, 512 * vol.first c ≤ a ∧ a < 512 * vol.first c + vol.cs

end Volume

variable {n t u : Nat}

section Slots
variable {vol : Volume} {d : Disk} {chain : List Nat} {eoc : Nat}

theorem Slot.byte_of_lt (s : Slot) {k : Nat} (inside : k < 32) : s.byte k = s ⟨k, inside⟩ := by
  rw [Slot.byte, dif_pos inside]

theorem slot_range (on : ChainOn vol d eoc chain) (inside : t < vol.perClus * chain.length) :
    chain.getD (t / vol.perClus) 0 ∈ chain ∧
      512 * vol.first (chain.getD (t / vol.perClus) 0) ≤ vol.slotAddr chain t 0 ∧
      vol.slotAddr chain t 0 + 32 ≤ 512 * vol.first (chain.getD (t / vol.perClus) 0) + vol.cs ∧
      vol.dataStart ≤ vol.slotAddr chain t 0 := by
  have index := index_lt_length inside
  have valid : vol.Valid (chain.getD (t / vol.perClus) 0) := on.valid_getD index
  have cluster := vol.first_le valid
  have address := vol.slotAddr_eq chain t (k := 0) (by omega)
  have small := Nat.mod_lt t vol.perClus_pos
  have size := vol.cs_eq_slots
  refine ⟨getD_mem index, ?_, ?_, ?_⟩
  · omega
  · omega
  · unfold Volume.dataStart
    omega

theorem slotAddr_add {k : Nat} (inside : k < 32) :
    vol.slotAddr chain t k = vol.slotAddr chain t 0 + k := by
  rw [vol.slotAddr_eq chain t inside, vol.slotAddr_eq chain t (k := 0) (by omega)]
  omega

theorem slotAddr_apart (on : ChainOn vol d eoc chain)
    (inside : t < vol.perClus * chain.length) (inside' : u < vol.perClus * chain.length)
    (other : u ≠ t) : vol.slotAddr chain u 0 + 32 ≤ vol.slotAddr chain t 0 ∨
    vol.slotAddr chain t 0 + 32 ≤ vol.slotAddr chain u 0 := by
  have clusters := clusters_of_nodup on.valid on.nodup 0
  have size := vol.cs_eq_slots
  have index : ∀ {x : Nat}, x < vol.perClus * chain.length →
      ∀ k, k < 32 → (32 * x + k) / vol.cs < chain.length := by
    intro x bound k small
    apply Nat.div_lt_of_lt_mul
    rw [size, Nat.mul_assoc]
    omega
  have clash : ∀ {x y : Nat}, x < vol.perClus * chain.length → y < vol.perClus * chain.length →
      vol.slotAddr chain x 0 ≤ vol.slotAddr chain y 0 →
      vol.slotAddr chain y 0 < vol.slotAddr chain x 0 + 32 → x = y := by
    intro x y boundX boundY below near
    obtain ⟨k, small, same⟩ : ∃ k, k < 32 ∧ vol.slotAddr chain x k = vol.slotAddr chain y 0 := by
      refine ⟨vol.slotAddr chain y 0 - vol.slotAddr chain x 0, by omega, ?_⟩
      rw [slotAddr_add (by omega)]
      omega
    have numbers := Volume.place_inj clusters (index boundX k small) (index boundY 0 (by omega)) same
    omega
  by_contra overlap
  rcases Nat.le_total (vol.slotAddr chain u 0) (vol.slotAddr chain t 0) with below | above
  · exact other (clash inside' inside below (by omega))
  · exact other (clash inside inside' above (by omega)).symm

theorem dirSlot_putSlot_self (t : Nat) (s : Slot) :
    vol.dirSlot (vol.putSlot d chain t s) chain t = s := by
  funext k
  rw [Volume.dirSlot, Volume.putSlot, slotAddr_add k.isLt, blit_inside k.isLt, s.byte_of_lt k.isLt]

section
variable (on : ChainOn vol d eoc chain) (s : Slot) (inside : t < vol.perClus * chain.length)
include on s inside

theorem dirSlot_putSlot_other (inside' : u < vol.perClus * chain.length) (other : u ≠ t) :
    vol.dirSlot (vol.putSlot d chain t s) chain u = vol.dirSlot d chain u := by
  have apart := slotAddr_apart on inside inside' other
  funext k
  unfold Volume.dirSlot Volume.putSlot
  rw [slotAddr_add k.isLt, blit_outside (by omega)]

theorem putSlot_outside {a : Nat} (outside : ¬ vol.InChain chain a) :
    vol.putSlot d chain t s a = d a := by
  obtain ⟨mem, lower, upper, _⟩ := slot_range on inside
  apply blit_outside
  by_contra overlap
  exact outside ⟨_, mem, by omega, by omega⟩

theorem putSlot_tables : SameTables vol d (vol.putSlot d chain t s) := by
  obtain ⟨_, _, _, data⟩ := slot_range on inside
  intro a table
  exact blit_outside (by omega)

theorem ChainOn.putSlot : ChainOn vol (vol.putSlot d chain t s) eoc chain :=
  on.congr (putSlot_tables on s inside)

end
end Slots

def edited (vol : Volume) (chain : List Nat) (change : Nat → Slot → Slot) : Nat → Nat → Disk → Disk
  | 0, _, d => d
  | n + 1, t, d => edited vol chain change n (t + 1)
      (vol.putSlot d chain t (change t (vol.dirSlot d chain t)))

section Edited
variable {vol : Volume} {d : Disk} {chain : List Nat} {eoc : Nat} {change : Nat → Slot → Slot}

section
variable (on : ChainOn vol d eoc chain) (inside : t + n ≤ vol.perClus * chain.length)
include on inside

theorem edited_tables : SameTables vol d (edited vol chain change n t d) := by
  induction n generalizing t d with
  | zero =>
    intro a _
    rfl
  | succ n ih =>
    intro a table
    have here : t < vol.perClus * chain.length := by omega
    have first := putSlot_tables on (change t (vol.dirSlot d chain t)) here a table
    have rest := ih (on.putSlot (change t (vol.dirSlot d chain t)) here) (t := t + 1)
      (by omega) a table
    exact rest.trans first

theorem edited_outside {a : Nat} (outside : ¬ vol.InChain chain a) :
    edited vol chain change n t d a = d a := by
  induction n generalizing t d with
  | zero => rfl
  | succ n ih =>
    have here : t < vol.perClus * chain.length := by omega
    have first := putSlot_outside on (change t (vol.dirSlot d chain t)) here outside
    have rest := ih (on.putSlot (change t (vol.dirSlot d chain t)) here) (t := t + 1) (by omega)
    exact rest.trans first

theorem dirSlot_edited (inside' : u < vol.perClus * chain.length) :
    vol.dirSlot (edited vol chain change n t d) chain u =
      if t ≤ u ∧ u < t + n then change u (vol.dirSlot d chain u) else vol.dirSlot d chain u := by
  induction n generalizing t d with
  | zero =>
    rw [if_neg (by omega)]
    rfl
  | succ n ih =>
    have bound : t < vol.perClus * chain.length := by omega
    have rest := ih (on.putSlot (change t (vol.dirSlot d chain t)) bound) (t := t + 1) (by omega)
    rw [edited, rest]
    rcases eq_or_ne u t with rfl | here
    · rw [if_neg (by omega), if_pos (by omega), dirSlot_putSlot_self]
    · rw [dirSlot_putSlot_other on _ bound inside' here]
      by_cases later : t + 1 ≤ u ∧ u < t + 1 + n
      · rw [if_pos later, if_pos (by omega)]
      · rw [if_neg later, if_neg (by omega)]

end
end Edited

structure Pending (vol : Volume) (after : Disk) (chain : List Nat) (t : Nat) (d : Disk)
    (cur : Cursor) : Prop where
  here : At vol after chain t cur
  same : ∀ a, a < 512 * cur.sec ∨ 512 * cur.sec + vol.buf ≤ a → d a = after a

section Pending
variable {vol : Volume} {after d : Disk} {chain : List Nat} {eoc : Nat} {cur : Cursor}

theorem Pending.start (here : At vol d chain t cur) : Pending vol d chain t d cur :=
  ⟨here, fun _ _ => rfl⟩

section
variable (pending : Pending vol after chain t d cur)
include pending

theorem Pending.flush (on : ChainOn vol after eoc chain) :
    diskWrite d cur.buf cur.sec vol.fat.readMaxSec = after := by
  have range := pending.here.sector_range on
  have size := vol.buf_eq
  rw [vol.readMaxSec_eq, diskWrite_eq (by omega)]
  funext a
  rcases Nat.lt_or_ge a (512 * cur.sec) with below | above
  · rw [blit_outside (by omega)]
    exact pending.same a (.inl below)
  · rcases Nat.lt_or_ge a (512 * cur.sec + vol.buf) with inner | beyond
    · obtain ⟨k, rfl⟩ := Nat.exists_eq_add_of_le above
      rw [blit_inside (by omega)]
      exact pending.here.buf k (by omega)
    · rw [blit_outside (by omega)]
      exact pending.same a (.inr beyond)

theorem Pending.put (s : Slot)
    (buf : Nat → UInt8) (inner : ∀ k (inside : k < 32), buf (cur.entry + k) = s ⟨k, inside⟩)
    (outer : ∀ i, i < cur.entry ∨ cur.entry + 32 ≤ i → buf i = cur.buf i) :
    Pending vol (vol.putSlot after chain t s) chain t d { cur with buf } := by
  have here := pending.here
  have last := here.entry_le
  have address : vol.slotAddr chain t 0 = 512 * cur.sec + cur.entry := here.address (k := 0) (by omega)
  refine ⟨{ here with buf := ?_ }, ?_⟩
  · intro i inside
    show buf i = blit after (vol.slotAddr chain t 0) 32 s.byte (512 * cur.sec + i)
    by_cases inSlot : cur.entry ≤ i ∧ i < cur.entry + 32
    · obtain ⟨k, rfl⟩ := Nat.exists_eq_add_of_le inSlot.1
      have bound : k < 32 := by omega
      rw [inner k bound, address, ← Nat.add_assoc, blit_inside bound, s.byte_of_lt bound]
    · rw [outer i (by omega), blit_outside (by omega)]
      exact here.buf i inside
  · intro a outside
    dsimp only at outside
    show d a = blit after (vol.slotAddr chain t 0) 32 s.byte a
    rw [blit_outside (by omega)]
    exact pending.same a outside

theorem Pending.next
    (on : ChainOn vol after eoc chain) (more : t + 1 < vol.perClus * chain.length)
    {d' : Disk} (written : d' = if cur.entry + 32 = vol.fat.bufSize then
      diskWrite d cur.buf cur.sec vol.fat.readMaxSec else d) :
    Pending vol after chain (t + 1) d' (nextEntry vol.fat d' cur) := by
  by_cases last : cur.entry + 32 = vol.fat.bufSize
  · rw [if_pos last, pending.flush on] at written
    subst written
    exact Pending.start (pending.here.next on more)
  · rw [if_neg last] at written
    subst written
    have moved : nextEntry vol.fat d' cur = { cur with entry := cur.entry + 32 } := by
      rw [nextEntry, if_neg last]
    have moved' : nextEntry vol.fat after cur = { cur with entry := cur.entry + 32 } := by
      rw [nextEntry, if_neg last]
    have there := pending.here.next on more
    rw [moved'] at there
    rw [moved]
    exact ⟨there, pending.same⟩

end
end Pending
end CCore.Fat
