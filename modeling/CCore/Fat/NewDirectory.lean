import CCore.Fat.Names
import CCore.Fat.Unlink

/-!
# A new directory

`create_new` writes the entries `.` and `..` to the first transfer of the new cluster.  The
extension of the second one is not filled with blanks, and a name with an extension that does
not start with a blank is read with a dot behind its base: the entry answers to `...`.
-/
namespace CCore.Fat

open Bytes List Option

def liveSlots (vol : Volume) (d : Disk) (clus : Nat) : List Slot :=
  (((List.range vol.perClus).map (vol.dirSlot d [clus])).takeWhile
    fun s => !dentryIsEmpty s).filter fun s => !s.isDeleted

/-- The directory in `clus` has two entries: one leads to the directory itself, the other to its
parent, where cluster 0 stands for the root. -/
structure Navigable (vol : Volume) (d : Disk) (clus parent : Nat) : Prop where
  two : (liveSlots vol d clus).length = 2
  self : ∃ fuel found, search vol.fat d fuel [dot] clus .dir = some (some found) ∧
    found.dentry.slot.cluster = clus
  up : ∃ fuel found, search vol.fat d fuel [dot, dot] clus .dir = some (some found) ∧
    (found.dentry.slot.cluster = parent ∨
      parent = vol.fat.bpb.rootClus ∧ found.dentry.slot.cluster = 0)

def dotSlot (clus : Nat) : Slot := dotEntry [dot] [space, space, space] clus

def dotDotSlot (clus : Nat) : Slot := dotEntry [dot, dot] [0, 0, 0] clus

theorem not_empty_of_byte {s : Slot} (first : s.byte 0 ≠ 0) : dentryIsEmpty s = false := by
  apply decide_eq_false
  intro empty
  exact first (empty ⟨0, by decide⟩)

theorem dotSlot_good (clus : Nat) : (Item.file [] (dotSlot clus)).Good :=
  ⟨rfl, rfl, not_empty_of_byte (by show (46 : UInt8) ≠ 0; decide)⟩

theorem dotDotSlot_good (clus : Nat) : (Item.file [] (dotDotSlot clus)).Good :=
  ⟨rfl, rfl, not_empty_of_byte (by show (46 : UInt8) ≠ 0; decide)⟩

theorem shortName_dot (clus : Nat) : shortName (dotSlot clus) = [dot] := rfl

theorem shortName_dotDot (clus : Nat) : shortName (dotDotSlot clus) = [dot, dot, dot] := rfl

theorem dotSlot_cluster {clus : Nat} (small : clus < 2 ^ 32) : (dotSlot clus).cluster = clus := by
  have high : (dotSlot clus).half 20 = clus / 2 ^ 16 % 2 ^ 16 := half_slotOf _ _ (by decide) rfl rfl
  have low : (dotSlot clus).half 26 = clus % 2 ^ 16 := half_slotOf _ _ (by decide) rfl rfl
  rw [Slot.cluster, high, low]
  omega

variable {fat : FatSb} {short : Slot → Str} {want : Slot → Bool} {wanted : Str}

section Created
variable {vol : Volume} {d d' : Disk} {fuel newClus parent : Nat} {name : Str} {cur : Cursor}

theorem createNew_disk {type : FileType}
    (run : createNew vol.fat d fuel name parent type = some (d', cur, newClus))
    (valid : vol.Valid newClus) : ChainOn vol d' cluserEnd [newClus] ∧
    ∀ i, i < vol.buf → d' (512 * vol.first newClus + i) = firstTransfer type newClus parent i := by
  have bounds := vol.first_le valid
  have range := vol.in_range'
  have sectors := vol.readMaxSec_eq
  have size := vol.buf_eq
  unfold createNew at run
  obtain ⟨_, run⟩ := ite_none_left_eq_some.mp run
  obtain ⟨⟨d₁, entry, sec⟩, _, run⟩ := bind_eq_some_iff.mp run
  obtain ⟨clus, _, run⟩ := bind_eq_some_iff.mp run
  simp only [some.injEq, Prod.mk.injEq] at run
  obtain ⟨disk, _, rfl⟩ := run
  rw [writeFatTableP_eq (.inl rfl) valid, if_pos rfl, vol.firstSecOfClus_eq valid,
    diskWrite_eq (by omega), sectors] at disk
  subst disk
  refine ⟨⟨by simpa using valid, nodup_singleton _, ?_⟩, ?_⟩
  · intro i inside
    obtain rfl : i = 0 := Nat.lt_one_iff.mp inside
    exact vol.entry_setEntry_self valid.2 (by decide)
  · intro i inside
    have start : vol.dataStart = 512 * vol.fat.firstDataSec := rfl
    rw [vol.setEntry_of_data valid.2 (by omega), blit_inside (by omega)]

theorem perBuf_ge : 16 ≤ vol.perBuf ∧ vol.perBuf ≤ vol.perClus := by
  have positive := vol.spc_pos
  unfold Volume.perBuf Volume.perClus
  omega

theorem new_slots (written : ∀ i, i < vol.buf →
      d' (512 * vol.first newClus + i) = firstTransfer .dir newClus parent i) :
    vol.dirSlot d' [newClus] 0 = dotSlot newClus ∧ vol.dirSlot d' [newClus] 1 = dotDotSlot parent ∧
      ∀ t, 2 ≤ t → t < vol.perBuf → vol.dirSlot d' [newClus] t = zeroSlot := by
  have slots := @perBuf_ge vol
  have size := vol.buf_eq_slots
  have bytes : ∀ t, t < vol.perBuf → ∀ k : Fin 32,
      vol.dirSlot d' [newClus] t k = firstTransfer .dir newClus parent (32 * t + k) := by
    intro t inside k
    have small := k.isLt
    unfold Volume.dirSlot
    rw [vol.slotAddr_eq _ _ small, Nat.div_eq_of_lt (by omega), Nat.mod_eq_of_lt (by omega),
      Nat.add_assoc]
    exact written _ (by omega)
  refine ⟨?_, ?_, ?_⟩
  · funext k
    have small := k.isLt
    rw [bytes 0 (by omega), firstTransfer, blit_outside (by omega), Nat.mul_zero, blit_inside small,
      Slot.byte, dif_pos small]
    rfl
  · funext k
    have small := k.isLt
    rw [bytes 1 (by omega), firstTransfer, Nat.mul_one, blit_inside small, Slot.byte, dif_pos small]
    rfl
  · intro t second inside
    funext k
    rw [bytes t inside, firstTransfer, blit_outside (by omega), blit_outside (by omega)]
    rfl

theorem searchLoop_short (good : (Item.file [] cur.slot).Good) (fuel : Nat) :
    searchLoop fat d short want wanted (fuel + 1) cur =
      if want cur.slot && sameName (short cur.slot) wanted then some (some ⟨cur, cur, 1⟩)
      else if (nextEntry fat d cur).clus = cluserEnd then some none
      else searchLoop fat d short want wanted fuel (nextEntry fat d cur) := by
  obtain ⟨live, plain, used⟩ := good
  rw [searchLoop_succ, used, skipDeleted, live]
  simp [turn, readName, plain]

theorem searchLoop_misses {found : Found} (good : (Item.file [] cur.slot).Good)
    (miss : (want cur.slot && sameName (short cur.slot) wanted) = false)
    (later : ∀ fuel, searchLoop fat d short want wanted fuel (nextEntry fat d cur) ≠
      some (some found)) (fuel : Nat) :
    searchLoop fat d short want wanted fuel cur ≠ some (some found) := by
  cases fuel with
  | zero => simp [searchLoop]
  | succ fuel =>
    rw [searchLoop_short good, miss, if_neg Bool.false_ne_true]
    split
    · simp
    · exact later fuel

theorem searchLoop_unused {found : Found} (unused : cur.slot = zeroSlot) (fuel : Nat) :
    searchLoop fat d short want wanted fuel cur ≠ some (some found) := by
  cases fuel with
  | zero => simp [searchLoop]
  | succ fuel =>
    rw [searchLoop_succ, unused, zeroSlot_empty]
    simp

theorem search_new (on : ChainOn vol d' cluserEnd [newClus])
    (dots : vol.dirSlot d' [newClus] 0 = dotSlot newClus)
    (dotDots : vol.dirSlot d' [newClus] 1 = dotDotSlot parent)
    (rest : vol.dirSlot d' [newClus] 2 = zeroSlot) :
    (∀ fuel, ∃ found, search vol.fat d' (fuel + 1) [dot] newClus .dir = some (some found) ∧
        found.dentry.slot = dotSlot newClus) ∧
      ∀ fuel found, search vol.fat d' fuel [dot, dot] newClus .dir ≠ some (some found) := by
  have slots := @perBuf_ge vol
  have length : vol.perClus * [newClus].length = vol.perClus := Nat.mul_one _
  have first : At vol d' [newClus] 0 (openDir vol.fat d' newClus) := At.open on (by simp)
  have second := first.next on (by omega)
  have third := second.next on (by omega)
  have slot₀ := first.slot.trans dots
  have slot₁ := second.slot.trans dotDots
  have slot₂ := third.slot.trans rest
  have good₀ := dotSlot_good newClus
  have good₁ := dotDotSlot_good parent
  rw [← slot₀] at good₀
  rw [← slot₁] at good₁
  constructor
  · intro fuel
    refine ⟨⟨openDir vol.fat d' newClus, openDir vol.fat d' newClus, 1⟩, ?_, slot₀⟩
    have hit : (FileType.dir.fits (dotSlot newClus) && sameName [dot] [dot]) = true := by
      have attributes : (dotSlot newClus).attributes = 0x10 := rfl
      show ((dotSlot newClus).attributes &&& 0x10 != 0 && sameName [dot] [dot]) = true
      rw [attributes]
      decide
    rw [search, searchLoop_short good₀, slot₀, shortName_dot, if_pos hit]
  · intro fuel found
    refine searchLoop_misses good₀ ?_ (searchLoop_misses good₁ ?_ (searchLoop_unused slot₂)) fuel
    · rw [slot₀, shortName_dot, show sameName [dot] [dot, dot] = false by decide, Bool.and_false]
    · rw [slot₁, shortName_dotDot, show sameName [dot, dot, dot] [dot, dot] = false by decide,
        Bool.and_false]

theorem liveSlots_new (dots : vol.dirSlot d' [newClus] 0 = dotSlot newClus)
    (dotDots : vol.dirSlot d' [newClus] 1 = dotDotSlot parent)
    (rest : vol.dirSlot d' [newClus] 2 = zeroSlot) :
    liveSlots vol d' newClus = [dotSlot newClus, dotDotSlot parent] := by
  have slots := @perBuf_ge vol
  obtain ⟨more, many⟩ := Nat.exists_eq_add_of_le (show 3 ≤ vol.perClus by omega)
  have used₀ := (dotSlot_good newClus).2.2
  have used₁ := (dotDotSlot_good parent).2.2
  have live₀ := (dotSlot_good newClus).1
  have live₁ := (dotDotSlot_good parent).1
  rw [liveSlots, many, range_add]
  simp [range_succ, dots, dotDots, rest, used₀, used₁, live₀, live₁, zeroSlot_empty]

end Created

/-- The new directory has its two entries and `.` is found, but no search for `..` finds
anything, whatever the volume, the parent and the name are. -/
theorem created_directory_not_navigable (vol : Volume) (d d' : Disk) (fuel newClus parent : Nat)
    (name : Str) (cur : Cursor)
    (run : createNew vol.fat d fuel name parent .dir = some (d', cur, newClus))
    (valid : vol.Valid newClus) : liveSlots vol d' newClus = [dotSlot newClus, dotDotSlot parent] ∧
      (∀ fuel', ∃ found, search vol.fat d' (fuel' + 1) [dot] newClus .dir = some (some found) ∧
        found.dentry.slot.cluster = newClus) ∧
      (∀ fuel' found, search vol.fat d' fuel' [dot, dot] newClus .dir ≠ some (some found)) ∧
      ¬ Navigable vol d' newClus parent := by
  obtain ⟨on, written⟩ := createNew_disk run valid
  obtain ⟨dots, dotDots, rest⟩ := new_slots written
  have unused := rest 2 (Nat.le_refl 2) (by have := @perBuf_ge vol; omega)
  obtain ⟨self, up⟩ := search_new on dots dotDots unused
  have small : newClus < 2 ^ 32 := by
    have clusters := vol.clusters_le
    have upper := valid.2
    omega
  refine ⟨liveSlots_new dots dotDots unused, ?_, up, ?_⟩
  · intro fuel'
    obtain ⟨found, returned, slot⟩ := self fuel'
    refine ⟨found, returned, ?_⟩
    rw [slot, dotSlot_cluster small]
  · intro navigable
    obtain ⟨fuel', found, returned, _⟩ := navigable.up
    exact up fuel' found returned

def subName : Str := ascii ['s', 'u', 'b']

theorem created_directory_small :
    ∃ d' cur, createNew smallVolume.fat (dirDisk (slotsOf sampleItems)) 66 subName 5 .dir =
        some (d', cur, 4) ∧ ¬ Navigable smallVolume d' 4 5 := by
  have ran : (createNew smallVolume.fat (dirDisk (slotsOf sampleItems)) 66 subName 5 .dir).map
      (fun r => r.2.2) = some 4 := by decide +kernel
  obtain ⟨⟨d', cur, newClus⟩, run, rfl⟩ := map_eq_some_iff.mp ran
  exact ⟨d', cur, run, (created_directory_not_navigable smallVolume _ d' 66 4 5 subName cur run
    (by decide)).2.2.2⟩

/-- The directory `sub` of directory 5 is made in cluster 4: its parent is found under the name
`...` only. -/
theorem created_directory_without_parent :
    Layout smallVolume (dirDisk (slotsOf sampleItems)) [5, 3] sampleItems ∧
    ∃ d' cur, createNew smallVolume.fat (dirDisk (slotsOf sampleItems)) 66 subName 5 .dir =
        some (d', cur, 4) ∧ resolves smallVolume.fat d' 66 [dot] 4 .dir = some (some (4, 0)) ∧
      resolves smallVolume.fat d' 66 [dot, dot] 4 .dir = some none ∧
      resolves smallVolume.fat d' 66 [dot, dot, dot] 4 .dir = some (some (5, 0)) := by
  refine ⟨sample_layout, ?_⟩
  have ran : (createNew smallVolume.fat (dirDisk (slotsOf sampleItems)) 66 subName 5 .dir).map
      (fun r => (r.2.2, [[dot], [dot, dot], [dot, dot, dot]].map fun name =>
        resolves smallVolume.fat r.1 66 name 4 .dir)) =
      some (4, [some (some (4, 0)), some none, some (some (5, 0))]) := by decide +kernel
  obtain ⟨⟨d', cur, newClus⟩, run, values⟩ := map_eq_some_iff.mp ran
  simp only [Prod.mk.injEq, map_cons, map_nil, List.cons.injEq, and_true] at values
  obtain ⟨rfl, self, up, dots⟩ := values
  exact ⟨d', cur, run, self, up, dots⟩

end CCore.Fat
