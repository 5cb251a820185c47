import CCore.Fat.Create
import CCore.Fat.Listed
import CCore.Fat.Resolve

/-!
# The name of a new entry

What `search` decodes from the entries that `create_new` builds: the name itself, up to case,
if it has a long name of at most 194 characters or fits into a base name and an extension.
-/
namespace CCore.Fat

open List Nat

/-- The characters of names: letters, digits, `_`, `-` and dots. -/
def nameChar (c : UInt8) : Bool :=
  isLetter c.toNat || isDigit c.toNat || c == 95 || c == 45 || c == 46

theorem every_byte (test : UInt8 → Bool)
    (passes : ((List.range 256).all fun n => test (UInt8.ofNat n)) = true) (c : UInt8) :
    test c = true := by
  have listed : c.toNat ∈ List.range 256 := mem_range.mpr c.toNat_lt
  have passed := all_eq_true.mp passes c.toNat listed
  rwa [UInt8.ofNat_toNat] at passed

theorem nameChar_ne {c : UInt8} (valid : nameChar c = true) : c ≠ 0 ∧ c ≠ space ∧ c ≠ 0xe5 := by
  have tested := every_byte (fun c => !nameChar c || decide (c ≠ 0 ∧ c ≠ space ∧ c ≠ 0xe5))
    (by decide +kernel) c
  simpa [valid] using tested

theorem nameChar_unit {c : UInt8} (valid : nameChar c = true) :
    (char2unicode c != 0 && char2unicode c != 0xffff) = true ∧ unicode2char (char2unicode c) = c := by
  have tested := every_byte (fun c => !nameChar c ||
    ((char2unicode c != 0 && char2unicode c != 0xffff) && unicode2char (char2unicode c) == c))
    (by decide +kernel) c
  rw [valid, Bool.not_true, Bool.false_or, Bool.and_eq_true] at tested
  exact ⟨tested.1, beq_iff_eq.mp tested.2⟩

theorem char2unicode_lt (c : UInt8) : char2unicode c < 2 ^ 16 := by
  have small := c.toNat_lt
  unfold char2unicode
  split <;> omega

theorem byte_slotOf (bytes : List UInt8) {k : Nat} (inside : k < 32) :
    (slotOf bytes).byte k = bytes.getD k 0 := by
  rw [Slot.byte, dif_pos inside]
  rfl

theorem half_slotOf (bytes : List UInt8) (value : Nat) {k : Nat} (inside : k + 1 < 32)
    (low : bytes.getD k 0 = UInt8.ofNat value)
    (high : bytes.getD (k + 1) 0 = UInt8.ofNat (value / 256)) :
    (slotOf bytes).half k = value % 2 ^ 16 := by
  rw [Slot.half, byte_slotOf _ (by omega), byte_slotOf _ inside, low, high]
  simp only [UInt8.toNat_ofNat']
  omega

/-- The item of the new entries. -/
def newItem (name : Str) (type : FileType) (newClus : Nat) : Item :=
  .file (newEntries name type newClus).dropLast (newDentry name type newClus)

section Short
variable {name : Str} {type : FileType} {newClus : Nat}

theorem newItem_slots (name : Str) (type : FileType) (newClus : Nat) :
    (newItem name type newClus).slots = newEntries name type newClus := by
  rw [newItem, Item.slots, newEntries, dropLast_concat]

theorem lenFilename_short (one : dentryNum name type = 1) : lenFilename name type ≤ 8 := by
  unfold dentryNum at one
  by_contra long
  rw [if_neg long] at one
  omega

end Short

/-! ## Long names -/

section Long
variable {name : Str} {type : FileType} {newClus : Nat}

theorem nameUnit_lt (name : Str) (len : Nat) : nameUnit name len < 2 ^ 16 := by
  unfold nameUnit
  split
  · exact char2unicode_lt _
  · split <;> decide

theorem units_takeWhile (chars : ∀ c ∈ name, nameChar c = true) (base count : Nat) :
    (((List.range count).map fun j => nameUnit name (base + j)).takeWhile
      fun u => u != 0 && u != 0xffff).map unicode2char = (name.drop base).take count := by
  induction count generalizing base with
  | zero => rw [take_zero]; rfl
  | succ count ih =>
    have rest := ih (base + 1)
    have shifted : (List.range (count + 1)).map (fun j => nameUnit name (base + j)) =
        nameUnit name base :: (List.range count).map fun j => nameUnit name (base + 1 + j) := by
      rw [range_succ_eq_map, map_cons, map_map, Nat.add_zero]
      congr 1
      apply map_congr_left
      intro j _
      exact congrArg (nameUnit name) (by omega)
    rw [shifted]
    by_cases inside : base < name.length
    · have char := nameChar_unit (chars name[base] (getElem_mem inside))
      have unit : nameUnit name base = char2unicode name[base] := by
        rw [nameUnit, if_pos inside, getD_eq_getElem _ _ inside]
      rw [unit, takeWhile_cons_of_pos (p := fun u => u != 0 && u != 0xffff) char.1,
        map_cons, char.2, rest, drop_eq_getElem_cons inside, take_succ_cons]
    · have stops : (nameUnit name base != 0 && nameUnit name base != 0xffff) = false := by
        rw [nameUnit, if_neg inside]
        split <;> rfl
      rw [takeWhile_cons_of_neg (by rw [stops]; exact Bool.false_ne_true),
        drop_eq_nil_of_le (by omega)]
      rfl

theorem longEntry_units (name : Str) (count : Nat) (sum : UInt8) (i : Nat) :
    (∀ j, j < 5 → (longEntry name count sum i).half (1 + 2 * j) = nameUnit name (13 * i + j)) ∧
    (∀ j, j < 6 → (longEntry name count sum i).half (14 + 2 * j) = nameUnit name (13 * i + 5 + j)) ∧
    (∀ j, j < 2 → (longEntry name count sum i).half (28 + 2 * j) =
      nameUnit name (13 * i + 11 + j)) := by
  have whole : ∀ {k value : Nat}, value < 2 ^ 16 →
      (longEntry name count sum i).half k = value % 2 ^ 16 →
      (longEntry name count sum i).half k = value :=
    fun small same => same.trans (mod_eq_of_lt small)
  refine ⟨?_, ?_, ?_⟩
  all_goals
    intro j inside
    interval_cases j <;> exact whole (nameUnit_lt _ _) (half_slotOf _ _ (by decide) rfl rfl)

theorem longSegment_longEntry (chars : ∀ c ∈ name, nameChar c = true) (count : Nat) (sum : UInt8)
    (i : Nat) : longSegment (longEntry name count sum i) = (name.drop (13 * i)).take 13 := by
  obtain ⟨first, second, third⟩ := longEntry_units name count sum i
  have read : ∀ {start size base : Nat}, (∀ j, j < size →
      (longEntry name count sum i).half (start + 2 * j) = nameUnit name (base + j)) →
      readUnits (longEntry name count sum i) start size = (name.drop base).take size := by
    intro start size base units
    rw [← units_takeWhile chars base size]
    rw [readUnits, map_congr_left fun j mem => units j (mem_range.mp mem)]
  rw [longSegment, read first, read second, read third]
  have five : (name.drop (13 * i)).drop 5 = name.drop (13 * i + 5) := drop_drop ..
  have eleven : (name.drop (13 * i)).drop 11 = name.drop (13 * i + 11) := drop_drop ..
  rw [← five, ← eleven, ← take_add, ← take_add]

def longsDown (name : Str) (count : Nat) (sum : UInt8) : Nat → List Slot
  | 0 => []
  | m + 1 => longEntry name count sum m :: longsDown name count sum m

theorem length_longsDown (name : Str) (count : Nat) (sum : UInt8) (m : Nat) :
    (longsDown name count sum m).length = m := by
  induction m with
  | zero => rfl
  | succ m ih => rw [longsDown, length_cons, ih]

theorem longsDown_eq (name : Str) (count : Nat) (sum : UInt8) (m : Nat) :
    (List.range m).map (fun i => longEntry name count sum (m - 1 - i)) =
      longsDown name count sum m := by
  induction m with
  | zero => rfl
  | succ m ih =>
    rw [longsDown, ← ih, range_succ_eq_map, map_cons, map_map]
    congr 1
    apply map_congr_left
    intro i _
    exact congrArg (longEntry name count sum) (by omega)

theorem gather_full (chars : ∀ c ∈ name, nameChar c = true) (count : Nat) (sum : UInt8) {m : Nat}
    (full : 13 * m ≤ name.length) (suffix : List UInt8) :
    gather (longsDown name count sum m) (List.replicate (13 * m) 0 ++ suffix) =
      name.take (13 * m) ++ suffix := by
  induction m generalizing suffix with
  | zero => rfl
  | succ m ih =>
    have width : 13 * (m + 1) = 13 * m + 13 := by omega
    have length : ((name.drop (13 * m)).take 13).length = 13 := by
      rw [List.length_take, length_drop]
      omega
    have placed : putSegment (List.replicate (13 * (m + 1)) 0 ++ suffix) (13 * m)
        ((name.drop (13 * m)).take 13) =
        List.replicate (13 * m) 0 ++ ((name.drop (13 * m)).take 13 ++ suffix) := by
      have zeros : (List.replicate (13 * (m + 1)) (0 : UInt8)).length = 13 * m + 13 := by
        rw [length_replicate, width]
      rw [putSegment, length, take_append_of_le_length (by omega), take_replicate,
        drop_left' zeros, append_assoc, Nat.min_eq_left (by omega)]
    rw [longsDown, gather, length_longsDown, longSegment_longEntry chars, placed,
      ih (by omega), ← append_assoc, ← take_add, ← width]

theorem gather_name (chars : ∀ c ∈ name, nameChar c = true) (short : name.length ≤ 256) (count : Nat)
    (sum : UInt8) :
    cstr (gather (longsDown name count sum (name.length / 13 + 1)) noName) = name := by
  have length : ((name.drop (13 * (name.length / 13))).take 13).length = name.length % 13 := by
    rw [List.length_take, length_drop]
    omega
  have last : (name.drop (13 * (name.length / 13))).take 13 = name.drop (13 * (name.length / 13)) := by
    apply take_of_length_le
    rw [length_drop]
    omega
  have placed : putSegment noName (13 * (name.length / 13))
      ((name.drop (13 * (name.length / 13))).take 13) =
      List.replicate (13 * (name.length / 13)) 0 ++ (name.drop (13 * (name.length / 13)) ++
        List.replicate (256 - name.length) 0) := by
    rw [putSegment, noName, length, last, take_replicate, drop_replicate, append_assoc]
    congr 2
    · omega
    · congr 1
      congr 1
      omega
  rw [longsDown, gather, length_longsDown, longSegment_longEntry chars, placed,
    gather_full chars count sum (by omega), ← append_assoc, take_append_drop]
  apply cstr_append
  · exact fun zero => (nameChar_ne (chars 0 zero)).1 rfl
  · cases 256 - name.length with
    | zero => exact .inl rfl
    | succ n => exact .inr ⟨List.replicate n 0, rfl⟩

theorem seq_first {n : Nat} (bound : n ≤ 20) : ((0x40 ||| UInt8.ofNat n) == 0xe5) = false ∧
    ((0x40 ||| UInt8.ofNat n) &&& 0x40 == 0x40) = true ∧
    ((0x40 ||| UInt8.ofNat n) &&& 0x0f).toNat = n % 16 := by
  have bits : ∀ n, n < 21 → ((0x40 ||| UInt8.ofNat n) == 0xe5) = false ∧
      ((0x40 ||| UInt8.ofNat n) &&& 0x40 == 0x40) = true ∧
      ((0x40 ||| UInt8.ofNat n) &&& 0x0f).toNat = n % 16 := by decide
  exact bits n (lt_succ_of_le bound)

theorem longEntry_seq (name : Str) (sum : UInt8) {m : Nat} (bound : m < 20) :
    (longEntry name (m + 1) sum m).isDeleted = false ∧
      (longEntry name (m + 1) sum m).startsLong = true ∧
      (longEntry name (m + 1) sum m).longEntryNum = (m + 1) % 16 := by
  have seq : (longEntry name (m + 1) sum m).byte 0 = 0x40 ||| UInt8.ofNat (m + 1) := by
    rw [longEntry, byte_slotOf _ (by decide)]
    exact if_pos rfl
  have attributes : (longEntry name (m + 1) sum m).attributes = 0x0f := by
    rw [Slot.attributes, longEntry, byte_slotOf _ (by decide)]
    rfl
  obtain ⟨live, last, number⟩ := seq_first (n := m + 1) bound
  rw [Slot.isDeleted, Slot.startsLong, Slot.longEntryNum, seq, attributes]
  refine ⟨live, ?_, number⟩
  rw [last]
  rfl

theorem longEntry_last (name : Str) (sum : UInt8) {m : Nat} (few : m < 15) :
    (longEntry name (m + 1) sum m).isDeleted = false ∧
      (longEntry name (m + 1) sum m).startsLong = true ∧
      (longEntry name (m + 1) sum m).longEntryNum = m + 1 := by
  obtain ⟨live, starts, number⟩ := longEntry_seq name sum (Nat.lt_trans few (by decide))
  exact ⟨live, starts, number.trans (mod_eq_of_lt (succ_lt_succ few))⟩

end Long

section New
variable {name : Str} {type : FileType} {newClus : Nat}

theorem newItem_cases (name : Str) (type : FileType) (newClus : Nat) :
    (dentryNum name type = 1 ∧ newItem name type newClus = .file [] (newDentry name type newClus)) ∨
      (8 < lenFilename name type ∧ ∃ sum, newItem name type newClus =
        .file (longEntry name (name.length / 13 + 1) sum (name.length / 13) ::
          longsDown name (name.length / 13 + 1) sum (name.length / 13))
          (newDentry name type newClus)) := by
  unfold newItem newEntries
  rw [dropLast_concat]
  by_cases short : lenFilename name type ≤ 8
  · left
    have one : dentryNum name type = 1 := if_pos short
    rw [one]
    exact ⟨rfl, rfl⟩
  · right
    have count : dentryNum name type - 1 = name.length / 13 + 1 := by
      rw [dentryNum, if_neg short]
      rfl
    refine ⟨by omega, checksum ((newDentry name type newClus).bytes 0 11), ?_⟩
    rw [count, longsDown_eq]
    rfl

end New
end CCore.Fat
