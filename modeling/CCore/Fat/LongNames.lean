import CCore.Fat.Names
import CCore.Fat.Unlink

/-!
# Long names on the disk

The long entries that `create_new` builds carry the checksum of the short entry.  The loop of
`search` over long entries spells the name again if there are at most fifteen of them: only
four bits of their number are read, and with sixteen or more the loop takes the last parts of
the name for the first ones, or none at all.
-/
namespace CCore.Fat

open List

/-- The entries that are written; behind an extension of 25 characters or more the loop that
copies it leaves `new_dentry`. -/
def emitted (name : Str) (type : FileType) (newClus : Nat) : Option (List Slot) :=
  if (extOf name type).length > 24 then none else some (newEntries name type newClus)

structure LieAt (vol : Volume) (d : Disk) (chain : List Nat) (p : Nat) (entries : List Slot) :
    Prop where
  room : p + entries.length ≤ vol.perClus * chain.length
  slots : ∀ j, j < entries.length → vol.dirSlot d chain (p + j) = entries.getD j zeroSlot

/-- `checksum` of a long entry. -/
def Slot.checksumByte (s : Slot) : UInt8 := s.byte 13

/-- The name is decoded at `cur` as it was given, and the long entries carry the checksum of
the last entry. -/
def RoundTrips (fat : FatSb) (d : Disk) (cur : Cursor) (name : Str) (type : FileType)
    (newClus : Nat) : Prop :=
  ∃ entries, emitted name type newClus = some entries ∧ (readName fat d shortName cur).2.1 = name ∧
    ∀ s ∈ entries.dropLast, s.checksumByte = checksum ((entries.getLastD zeroSlot).bytes 0 11)

section Names
variable {name : Str} {type : FileType} {newClus : Nat}

theorem longEntry_checksum (name : Str) (count : Nat) (sum : UInt8) (i : Nat) :
    (longEntry name count sum i).checksumByte = sum := by
  rw [Slot.checksumByte, longEntry, byte_slotOf _ (by decide)]
  rfl

theorem newEntries_checksum (name : Str) (type : FileType) (newClus : Nat) :
    ∀ s ∈ (newEntries name type newClus).dropLast, s.checksumByte =
      checksum (((newEntries name type newClus).getLastD zeroSlot).bytes 0 11) := by
  intro s mem
  unfold newEntries at mem ⊢
  dsimp only at mem ⊢
  rw [dropLast_concat] at mem
  obtain ⟨i, _, rfl⟩ := mem_map.mp mem
  rw [getLastD_concat, longEntry_checksum]

theorem newEntries_long (newClus : Nat) (long : 8 < lenFilename name type) :
    ∃ sum, newEntries name type newClus =
      (longEntry name (name.length / 13 + 1) sum (name.length / 13) ::
        longsDown name (name.length / 13 + 1) sum (name.length / 13)) ++
        [newDentry name type newClus] := by
  rcases newItem_cases name type newClus with ⟨one, _⟩ | ⟨_, sum, item⟩
  · have short := lenFilename_short one
    omega
  · refine ⟨sum, ?_⟩
    rw [← newItem_slots, item]
    rfl

section Decoding
variable {vol : Volume} {d : Disk} {chain : List Nat} {p eoc : Nat} {cur : Cursor}

theorem LieAt.slot (here : At vol d chain p cur) {first : Slot} {rest : List Slot}
    (lies : LieAt vol d chain p (first :: rest)) : cur.slot = first := by
  rw [here.slot]
  exact lies.slots 0 (Nat.succ_pos _)

theorem readName_newEntries (on : ChainOn vol d eoc chain) (here : At vol d chain p cur)
    (lies : LieAt vol d chain p (newEntries name type newClus))
    (chars : ∀ c ∈ name, nameChar c = true) (long : 8 < lenFilename name type)
    (few : name.length ≤ 194) : (readName vol.fat d shortName cur).2.1 = name := by
  obtain ⟨sum, entries⟩ := newEntries_long newClus long
  rw [entries] at lies
  obtain ⟨_, starts, number⟩ := longEntry_last name sum (m := name.length / 13) (by omega)
  have slot := lies.slot here
  have room := lies.room
  have length := length_longsDown name (name.length / 13 + 1) sum (name.length / 13 + 1)
  rw [longsDown] at length
  rw [length_append, length_singleton, length] at room
  obtain ⟨cur', read, _⟩ := readLong_eq on.walks
    (longsDown name (name.length / 13 + 1) sum (name.length / 13 + 1)) here
    (by rw [length_longsDown]; omega)
    (fun j inside => by
      have inEntries := lies.slots j (by
        rw [length_append, length_singleton]
        exact Nat.lt_succ_of_lt inside)
      rw [inEntries]
      exact getD_append _ _ _ _ inside)
    noName
  rw [length_longsDown] at read
  rw [readName, slot, starts, number, read]
  exact gather_name chars (by omega) (name.length / 13 + 1) sum

theorem readUnits_length (s : Slot) (start count : Nat) :
    (readUnits s start count).length ≤ count := by
  rw [readUnits, length_map]
  refine ( takeWhile_prefix _).length_le.trans ?_
  rw [length_map, length_range]

theorem longSegment_length (s : Slot) : (longSegment s).length ≤ 13 := by
  have first := readUnits_length s 1 5
  have second := readUnits_length s 14 6
  have third := readUnits_length s 28 2
  rw [longSegment, length_append, length_append]
  omega

theorem putSegment_behind (filename segment : List UInt8) (pos i : Nat)
    (inside : pos + segment.length ≤ filename.length) (behind : pos + segment.length ≤ i) :
    (putSegment filename pos segment).length = filename.length ∧
      (putSegment filename pos segment).getD i 0 = filename.getD i 0 := by
  have front : (filename.take pos ++ segment).length = pos + segment.length := by
    rw [length_append, List.length_take]
    omega
  unfold putSegment
  constructor
  · rw [length_append, front, length_drop]
    omega
  · rw [getD_append_right _ _ _ _ (by omega), front]
    simp only [getD_eq_getElem?_getD, List.getElem?_drop]
    congr 2
    omega

theorem readLong_behind (fat : FatSb) (d : Disk) (n : Nat) (cur : Cursor) (filename : List UInt8)
    {i : Nat} (inside : 13 * n ≤ filename.length) (behind : 13 * n ≤ i) :
    (readLong fat d n cur filename).2.getD i 0 = filename.getD i 0 := by
  induction n generalizing cur filename with
  | zero => rfl
  | succ n ih =>
    have short := longSegment_length cur.slot
    obtain ⟨length, same⟩ := putSegment_behind filename (longSegment cur.slot) (13 * n) i
      (by omega) (by omega)
    rw [readLong, ih _ _ (by omega) (by omega), same]

theorem cstr_length_le {memory : List UInt8} {i : Nat} (zero : memory.getD i 0 = 0) :
    (cstr memory).length ≤ i := by
  unfold cstr
  by_contra longer
  have inside : i < (memory.takeWhile fun b => b != 0).length := by omega
  have start := takeWhile_prefix (fun b : UInt8 => b != 0) (l := memory)
  have same := start.getElem inside
  have kept := all_eq_true.mp all_takeWhile _ (getElem_mem inside)
  rw [same, ← getD_eq_getElem memory 0, zero] at kept
  exact absurd kept (by decide)

theorem readName_many (here : At vol d chain p cur)
    (lies : LieAt vol d chain p (newEntries name type newClus))
    (long : 8 < lenFilename name type) (bound : name.length ≤ 255) (many : 194 < name.length) :
    (readName vol.fat d shortName cur).2.1.length ≤ 52 := by
  obtain ⟨sum, entries⟩ := newEntries_long newClus long
  rw [entries] at lies
  obtain ⟨_, starts, number⟩ := longEntry_seq name sum (m := name.length / 13) (by omega)
  have slot := lies.slot here
  rw [readName, slot, starts, number]
  apply cstr_length_le
  have behind := readLong_behind vol.fat d ((name.length / 13 + 1) % 16) cur noName (i := 52) (by
      rw [noName, length_replicate]
      omega)
    (by omega)
  exact behind.trans (by decide)

/-- The name of new entries is decoded again exactly if it has at most 194 characters and its
extension at most 24. -/
theorem longName_roundTrips_iff (on : ChainOn vol d eoc chain) (here : At vol d chain p cur)
    (lies : ∀ entries, emitted name type newClus = some entries → LieAt vol d chain p entries)
    (chars : ∀ c ∈ name, nameChar c = true) (long : 8 < lenFilename name type)
    (bound : name.length ≤ 255) : RoundTrips vol.fat d cur name type newClus ↔
    name.length ≤ 194 ∧ (extOf name type).length ≤ 24 := by
  constructor
  · rintro ⟨entries, written, decoded, _⟩
    by_cases outside : (extOf name type).length > 24
    · rw [emitted, if_pos outside] at written
      exact nomatch written
    · refine ⟨?_, Nat.le_of_not_gt outside⟩
      by_contra many
      have here' := lies _ (if_neg outside)
      have short := readName_many here here' long bound (by omega)
      rw [decoded] at short
      omega
  · rintro ⟨few, inside⟩
    have written : emitted name type newClus = some (newEntries name type newClus) :=
      if_neg (Nat.not_lt.mpr inside)
    exact ⟨_, written, readName_newEntries on here (lies _ written) chars long few,
      newEntries_checksum name type newClus⟩

end Decoding
end Names

theorem dirDisk_lies {slots : List Slot} (short : slots.length ≤ 32) :
    LieAt smallVolume (dirDisk slots) [5, 3] 0 slots := by
  have total : smallVolume.perClus * [5, 3].length = 64 := rfl
  refine ⟨by omega, ?_⟩
  intro j inside
  rw [Nat.zero_add]
  exact dirDisk_slot short (by omega)

def plainName (n : Nat) : Str := List.replicate n 97

def plainDisk (n : Nat) : Disk := dirDisk (newEntries (plainName n) .file 6)

theorem longName_roundTrips_27 :
    RoundTrips smallVolume.fat (plainDisk 27) (openDir smallVolume.fat (plainDisk 27) 5)
        (plainName 27) .file 6 ↔
      (plainName 27).length ≤ 194 ∧ (extOf (plainName 27) .file).length ≤ 24 := by
  refine longName_roundTrips_iff (dirDisk_chain _) (At.open (dirDisk_chain _) (by decide)) ?_
    (by decide +kernel) (by decide) (by decide)
  intro entries written
  rw [← Option.some.inj written]
  exact dirDisk_lies (by decide +kernel)

/-- A name of 195 characters has sixteen long entries, and none of them is read. -/
theorem longName_lost_195 :
    LieAt smallVolume (plainDisk 195) [5, 3] 0 (newEntries (plainName 195) .file 6) ∧
    emitted (plainName 195) .file 6 = some (newEntries (plainName 195) .file 6) ∧
    (readName smallVolume.fat (plainDisk 195) shortName
      (openDir smallVolume.fat (plainDisk 195) 5)).2.1 = [] ∧
    ¬ RoundTrips smallVolume.fat (plainDisk 195) (openDir smallVolume.fat (plainDisk 195) 5)
      (plainName 195) .file 6 := by
  have empty : (readName smallVolume.fat (plainDisk 195) shortName
      (openDir smallVolume.fat (plainDisk 195) 5)).2.1 = [] := by
    decide +kernel
  refine ⟨dirDisk_lies (by decide +kernel), rfl, empty, ?_⟩
  rintro ⟨_, _, decoded, _⟩
  rw [empty] at decoded
  exact absurd decoded (by decide)

end CCore.Fat
