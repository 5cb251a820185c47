import CCore.Fat.Create
import CCore.Fat.Removed

/-!
# Unlinking a file

`UnlinksOnly` is what `fat32_unlink` is for: the name is gone, every other name resolves as
before, and no sector outside of the directory has changed.  The entry that is deleted is the
one that `search2` finds, and `search2` reads short names in a way of its own.
-/
namespace CCore.Fat

open List Option

def resolves (fat : FatSb) (d : Disk) (fuel : Nat) (name : Str) (dir : Nat) (mode : FileType) :
    Option (Option (Nat × Nat)) :=
  (search fat d fuel name dir mode).map fun found =>
    found.map fun found => (found.dentry.slot.cluster, found.dentry.slot.fileSize)

structure UnlinksOnly (vol : Volume) (d d' : Disk) (chain : List Nat) (name : Str) : Prop where
  gone : ∀ fuel, vol.perClus * chain.length + 1 < fuel →
    search vol.fat d' fuel name (chain.getD 0 0) .file = some none
  others : ∀ other mode fuel, other ≠ [] → other.map lowerCase ≠ name.map lowerCase →
    vol.perClus * chain.length + 1 < fuel → resolves vol.fat d' fuel other (chain.getD 0 0) mode =
      resolves vol.fat d fuel other (chain.getD 0 0) mode
  outside : ∀ a, ¬ vol.InChain chain a → d' a = d a

/-- The entries at which `search` stops. -/
def named (mode : FileType) (name : Str) : Item → Bool := Item.hit shortName mode.fits name

/-- The entries at which `search2` stops. -/
def named2 (mode : FileType) (name : Str) : Item → Bool := Item.hit shortName2 mode.fits name

section Unlink
variable {vol : Volume} {d : Disk} {chain : List Nat} {items : List Item} {name : Str}
  {mode : FileType} {fuel : Nat}

theorem sameName_nil (nonempty : name ≠ []) : sameName [] name = false := by
  cases name with
  | nil => exact absurd rfl nonempty
  | cons c rest => rfl

theorem ignores_short (nonempty : name ≠ []) : Ignores shortName mode.fits name := by
  have zero : shortName zeroSlot = [] := by decide
  constructor
  rw [zero, sameName_nil nonempty, Bool.and_false]

theorem ignores_short2 (nonempty : name ≠ []) : Ignores shortName2 mode.fits name := by
  have zero : shortName2 zeroSlot = [] := by decide
  constructor
  rw [zero, sameName_nil nonempty, Bool.and_false]

theorem Layout.length_le (layout : Layout vol d chain items) :
    (slotsOf items).length ≤ vol.perClus * chain.length := by
  have fits := layout.tail.fits
  omega

theorem search_layout (mode : FileType) (layout : Layout vol d chain items) (nonempty : name ≠ [])
    (enough : vol.perClus * chain.length + 1 < fuel) :
    Result vol d chain (locate (named mode name) items 0)
      (search vol.fat d fuel name (chain.getD 0 0) mode) := by
  have length := layout.length_le
  exact search_items layout (ignores_short nonempty) (by omega)

theorem search2_layout (mode : FileType) (layout : Layout vol d chain items) (nonempty : name ≠ [])
    (enough : vol.perClus * chain.length + 1 < fuel) :
    Result vol d chain (locate (named2 mode name) items 0)
      (search2 vol.fat d fuel name (chain.getD 0 0) mode) := by
  have length := layout.length_le
  exact search_items layout (ignores_short2 nonempty) (by omega)

section
variable (layout : Layout vol d chain items)
  (nonempty : name ≠ [])
  (enough : vol.perClus * chain.length + 1 < fuel)
include layout nonempty enough

theorem search_eq_none : search vol.fat d fuel name (chain.getD 0 0) mode = some none ↔
    ∀ item ∈ items, named mode name item = false := by
  have result := search_layout mode layout nonempty enough
  rw [← locate_eq_none (t := 0)]
  cases located : locate (named mode name) items 0 with
  | none =>
    rw [located] at result
    exact iff_of_true result rfl
  | some place =>
    rw [located] at result
    obtain ⟨found, returned, _⟩ := result
    rw [returned]
    simp

theorem resolves_layout : resolves vol.fat d fuel name (chain.getD 0 0) mode =
    some ((locate (named mode name) items 0).map fun place =>
      (place.2.dentry.cluster, place.2.dentry.fileSize)) := by
  have result := search_layout mode layout nonempty enough
  unfold resolves
  cases located : locate (named mode name) items 0 with
  | none =>
    rw [located] at result
    have none : search vol.fat d fuel name (chain.getD 0 0) mode = some none := result
    rw [none]
    rfl
  | some place =>
    rw [located] at result
    obtain ⟨found, returned, points⟩ := result
    rw [returned]
    simp [map_some, points.slot]

end

theorem not_named_other {item : Item} {other : Str} {mode' : FileType}
    (hit : named mode name item = true) (differs : other.map lowerCase ≠ name.map lowerCase) :
    named mode' other item = false := by
  cases item with
  | deleted s => rfl
  | file longs dentry =>
    have same : sameName (Item.name shortName (.file longs dentry)) name = true :=
      (Bool.and_eq_true_iff.mp hit).2
    have apart : sameName (Item.name shortName (.file longs dentry)) other = false := by
      have key := beq_iff_eq.mp same
      rw [sameName, key]
      exact beq_eq_false_iff_ne.mpr (Ne.symm differs)
    show (mode'.fits dentry && sameName _ other) = false
    rw [apart, Bool.and_false]

theorem UnlinksOnly.of_remove {before after : List Item} {item : Item}
    (layout : Layout vol d chain (before ++ item :: after)) (nonempty : name ≠ [])
    (room : (slotsOf before).length + item.size < vol.perClus * chain.length)
    (hit : named .file name item = true)
    (only : ∀ other ∈ before ++ after, named .file name other = false) :
    UnlinksOnly vol d (marked vol chain item.size (slotsOf before).length d) chain name where
  gone fuel enough := by
    rw [search_eq_none (layout.remove room) nonempty enough]
    intro other mem
    rcases mem_append.mp mem with mem | mem
    · exact only other (mem_append_left _ mem)
    · rcases mem_append.mp mem with mem | mem
      · exact remains_not_hit item other mem
      · exact only other (mem_append_right _ mem)
  others other mode fuel nonempty' differs enough := by
    have miss : named mode other item = false := not_named_other hit differs
    rw [resolves_layout (layout.remove room) nonempty' enough, resolves_layout layout nonempty' enough]
    unfold named at miss ⊢
    rw [locate_remains miss]
  outside a outside := by
    obtain ⟨eoc, on⟩ := layout.on
    exact marked_outside on (Nat.le_of_lt room) outside

end Unlink

/-! ## A small directory -/

/-- The volume of two clusters of two sectors each, with these entries in its directory of the
clusters 5 and 3. -/
def dirDisk (slots : List Slot) : Disk := fun a =>
  if a < 1536 then smallDisk a
  else if 4608 ≤ a ∧ a < 5632 then (slots.getD ((a - 4608) / 32) zeroSlot).byte ((a - 4608) % 32)
  else 0

def fileItem (name : List Char) (clus : Nat) : Item :=
  let entries := newEntries (ascii name) .file clus
  .file entries.dropLast (entries.getLastD zeroSlot)

def sampleItems : List Item :=
  [fileItem ['B', '.', 'C'] 6, .deleted (deletedSlot zeroSlot),
    fileItem ['l', 'o', 'n', 'g', '-', 'n', 'a', 'm', 'e', '.', 't', 'e', 'x', 't'] 7]

theorem dirDisk_chain (slots : List Slot) :
    ChainOn smallVolume (dirDisk slots) cluserEnd [5, 3] := by
  apply small_chain.congr
  intro a table
  exact if_pos table

theorem dirDisk_slot {slots : List Slot} (short : slots.length ≤ 32) {t : Nat} (inside : t < 64) :
    smallVolume.dirSlot (dirDisk slots) [5, 3] t = slots.getD t zeroSlot := by
  funext k
  have small := k.isLt
  rw [Volume.dirSlot, smallVolume.slotAddr_eq [5, 3] t small]
  have width : smallVolume.perClus = 32 := rfl
  rw [width]
  rcases Nat.lt_or_ge t 32 with first | second
  · have cluster : t / 32 = 0 := by omega
    have address : 512 * smallVolume.first ([5, 3].getD (t / 32) 0) + 32 * (t % 32) + k =
        4608 + 32 * t + k := by
      rw [cluster]
      show 512 * 9 + 32 * (t % 32) + k.val = _
      omega
    rw [address]
    unfold dirDisk
    have index : (4608 + 32 * t + k - 4608) / 32 = t := by omega
    have offset : (4608 + 32 * t + k.val - 4608) % 32 = k := by omega
    rw [if_neg (by omega), if_pos (by omega), index, offset, Slot.byte_of_lt _ small]
  · have cluster : t / 32 = 1 := by omega
    have address : 512 * smallVolume.first ([5, 3].getD (t / 32) 0) + 32 * (t % 32) + k =
        2560 + 32 * (t - 32) + k := by
      rw [cluster]
      show 512 * 5 + 32 * (t % 32) + k.val = _
      omega
    rw [address]
    rw [dirDisk, if_neg (by omega), if_neg (by omega), getD_eq_default _ _ (by omega)]
    rfl

theorem dirDisk_layout {items : List Item} (good : ∀ item ∈ items, item.Good)
    (short : (slotsOf items).length < 32) :
    Layout smallVolume (dirDisk (slotsOf items)) [5, 3] items := by
  have total : smallVolume.perClus * [5, 3].length = 64 := rfl
  refine ⟨⟨_, dirDisk_chain _⟩, by decide, ?_, good, ?_, ?_, fun _ => dirDisk_chain _⟩
  · intro t inside
    rw [Nat.zero_add] at inside ⊢
    exact dirDisk_slot (Nat.le_of_lt short) inside
  · omega
  · left
    omega

theorem sample_layout : Layout smallVolume (dirDisk (slotsOf sampleItems)) [5, 3] sampleItems :=
  dirDisk_layout (by decide +kernel) (by decide +kernel)

def samplePath : Str :=
  ascii ['/', 'l', 'o', 'n', 'g', '-', 'n', 'a', 'm', 'e', '.', 't', 'e', 'x', 't']

/-- Files called `A.TXT` and `A.T`. -/
def mixedItems : List Item := [fileItem ['A', '.', 'T', 'X', 'T'] 6, fileItem ['A', '.', 'T'] 7]

end CCore.Fat
