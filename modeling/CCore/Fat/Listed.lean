import CCore.Fat.Slots

/-!
# What the searches find

A directory is a list of items, a deleted entry or a file with the entries of its long name,
and unused entries up to the end of its chain.  On such a directory the three searches of the
source find the first item that they want, whatever the number of clusters is.
-/
namespace CCore.Fat

open List Option Nat Bool

/-! ## Items -/

inductive Item
  | deleted (s : Slot)
  | file (longs : List Slot) (dentry : Slot)
  deriving DecidableEq

def zeroSlot : Slot := fun _ => 0

def gather : List Slot → List UInt8 → List UInt8
  | [], filename => filename
  | s :: rest, filename => gather rest (putSegment filename (13 * rest.length) (longSegment s))

namespace Item

def slots : Item → List Slot
  | deleted s => [s]
  | file longs dentry => longs ++ [dentry]

def size (item : Item) : Nat := item.slots.length

def dentry : Item → Slot
  | deleted s => s
  | file _ dentry => dentry

/-- The entries are what the loops of the source take for such an item.  A long name has
fifteen entries at most, since only four bits of their number are read. -/
def Good : Item → Prop
  | deleted s => s.isDeleted = true
  | file [] s => s.isDeleted = false ∧ s.startsLong = false ∧ dentryIsEmpty s = false
  | file (l :: longs) _ =>
    l.isDeleted = false ∧ l.startsLong = true ∧ l.longEntryNum = longs.length + 1

instance : DecidablePred Good := fun item =>
  match item with
  | deleted _ => inferInstanceAs (Decidable (_ = _))
  | file [] _ => inferInstanceAs (Decidable (_ ∧ _ ∧ _))
  | file (_ :: _) _ => inferInstanceAs (Decidable (_ ∧ _ ∧ _))

def name (short : Slot → Str) : Item → Str
  | deleted _ => []
  | file [] s => short s
  | file (l :: longs) _ => cstr (gather (l :: longs) noName)

/-- Does a search stop at the item? -/
def hit (short : Slot → Str) (want : Slot → Bool) (wanted : Str) : Item → Bool
  | deleted _ => false
  | file longs dentry => want dentry && sameName (name short (file longs dentry)) wanted

theorem size_pos (item : Item) : 0 < item.size := by
  cases item with
  | deleted s => exact Nat.one_pos
  | file longs dentry =>
    rw [size, slots, length_append]
    exact succ_pos _

end Item

def slotsOf (items : List Item) : List Slot := items.flatMap Item.slots

def locate (hits : Item → Bool) : List Item → Nat → Option (Nat × Item)
  | [], _ => none
  | item :: rest, t => if hits item then some (t, item) else locate hits rest (t + item.size)

/-- From entry `t` on the directory holds the items and then unused entries; the last entry of
the chain is not a deleted one. -/
structure Tail (vol : Volume) (d : Disk) (chain : List Nat) (t : Nat) (items : List Item) :
    Prop where
  slots : ∀ j, t + j < vol.perClus * chain.length →
    vol.dirSlot d chain (t + j) = (slotsOf items).getD j zeroSlot
  good : ∀ item ∈ items, item.Good
  fits : t + (slotsOf items).length ≤ vol.perClus * chain.length
  ends : t + (slotsOf items).length < vol.perClus * chain.length ∨
    ∀ s, items.getLast? ≠ some (.deleted s)
  -- a scan reads the mark behind the chain only from one of the last two entries
  closed : vol.perClus * chain.length ≤ t + (slotsOf items).length + 1 →
    ChainOn vol d cluserEnd chain

/-- A directory: its chain and its items. -/
structure Layout (vol : Volume) (d : Disk) (chain : List Nat) (items : List Item) : Prop where
  on : ∃ eoc, ChainOn vol d eoc chain
  nonempty : chain ≠ []
  tail : Tail vol d chain 0 items

structure Points (vol : Volume) (d : Disk) (chain : List Nat) (t : Nat) (item : Item)
    (found : Found) : Prop where
  first : At vol d chain t found.first
  dentry : At vol d chain (t + (item.size - 1)) found.dentry
  entryNum : found.entryNum = item.size
  slot : found.dentry.slot = item.dentry

variable {item : Item} {longs : List Slot} {fuel : Nat}

section Items
variable {vol : Volume} {d : Disk} {chain : List Nat} {t : Nat} {cur : Cursor}

theorem slotsOf_cons (item : Item) (rest : List Item) :
    slotsOf (item :: rest) = item.slots ++ slotsOf rest := rfl

theorem Tail.rest {rest : List Item} (tail : Tail vol d chain t (item :: rest)) :
    Tail vol d chain (t + item.size) rest := by
  have length : (slotsOf (item :: rest)).length = item.size + (slotsOf rest).length := by
    rw [slotsOf_cons, length_append]
    rfl
  refine ⟨?_, ?_, ?_, ?_, fun full => tail.closed (by omega)⟩
  · intro j inside
    have here := tail.slots (item.size + j) (by omega)
    rw [← Nat.add_assoc] at here
    have offset : item.size + j - item.slots.length = j := Nat.add_sub_cancel_left _ _
    rw [here, slotsOf_cons, getD_append_right _ _ _ _ (Nat.le_add_right item.size j), offset]
  · intro other mem
    exact tail.good other (mem_cons_of_mem item mem)
  · have fits := tail.fits
    omega
  · rcases tail.ends with room | file
    · left
      omega
    · right
      intro s last
      apply file s
      rw [List.getLast?_cons, last]
      rfl

theorem Tail.slot {rest : List Item} (tail : Tail vol d chain t (item :: rest))
    {j : Nat} (inside : j < item.size) :
    vol.dirSlot d chain (t + j) = item.slots.getD j zeroSlot := by
  have fits := tail.fits
  rw [slotsOf_cons, length_append] at fits
  have length : item.slots.length = item.size := rfl
  rw [tail.slots j (by omega), slotsOf_cons, getD_append _ _ _ _ inside]

theorem Tail.room {s : Slot} {rest : List Item}
    (tail : Tail vol d chain t (.deleted s :: rest)) : t + 1 < vol.perClus * chain.length := by
  have fits := tail.fits
  have length : (slotsOf (.deleted s :: rest)).length = 1 + (slotsOf rest).length := by
    rw [slotsOf_cons, length_append]
    rfl
  rcases tail.ends with room | file
  · omega
  · cases rest with
    | nil => exact absurd rfl (file s)
    | cons item rest =>
      have positive : 0 < item.slots.length := item.size_pos
      have more : (slotsOf (item :: rest)).length = item.slots.length + (slotsOf rest).length := by
        rw [slotsOf_cons, length_append]
      omega

variable {limit : Nat} {at' : Nat → Cursor → Prop}

theorem readLong_eq (walks : Walks vol d chain limit at') (longs : List Slot)
    (here : at' t cur) (room : t + longs.length < limit)
    (slots : ∀ j, j < longs.length → vol.dirSlot d chain (t + j) = longs.getD j zeroSlot)
    (filename : List UInt8) :
    ∃ cur', readLong vol.fat d longs.length cur filename = (cur', gather longs filename) ∧
      at' (t + longs.length) cur' := by
  induction longs generalizing t cur filename with
  | nil => exact ⟨cur, rfl, here⟩
  | cons s rest ih =>
    rw [length_cons] at room
    have slot : cur.slot = s := by
      rw [walks.slot here]
      exact slots 0 (succ_pos _)
    have next := walks.next here (by omega)
    obtain ⟨cur', read, there⟩ := ih next (by omega) (fun j inside => by
        have later := slots (j + 1) (succ_lt_succ inside)
        rw [Nat.add_right_comm, Nat.add_assoc]
        exact later)
      (putSegment filename (13 * rest.length) (longSegment s))
    refine ⟨cur', ?_, ?_⟩
    · rw [length_cons, readLong, slot, read]
      rfl
    · rw [length_cons, Nat.add_comm rest.length 1, ← Nat.add_assoc]
      exact there

theorem size_file (longs : List Slot) (dentry : Slot) :
    (Item.file longs dentry).size = longs.length + 1 := by
  rw [Item.size, Item.slots, length_append, length_singleton]

theorem readName_eq (walks : Walks vol d chain limit at') (short : Slot → Str) {dentry : Slot}
    {rest : List Item} (here : at' t cur)
    (tail : Tail vol d chain t (.file longs dentry :: rest)) (room : t + longs.length < limit) :
    ∃ cur', readName vol.fat d short cur =
        (cur', Item.name short (.file longs dentry), longs.length + 1) ∧
      at' (t + longs.length) cur' ∧ cur'.slot = dentry := by
  have size := size_file longs dentry
  have good := tail.good _ mem_cons_self
  have final : vol.dirSlot d chain (t + longs.length) = dentry := by
    rw [tail.slot (by omega), Item.slots, getD_append_right _ _ _ _ (Nat.le_refl _), Nat.sub_self]
    rfl
  have slot : cur.slot = (longs ++ [dentry]).getD 0 zeroSlot := by
    have first := tail.slot (j := 0) (by omega)
    rw [walks.slot here]
    exact first
  unfold readName
  cases longs with
  | nil =>
    have plain : cur.slot.startsLong = false := by
      rw [slot]
      exact good.2.1
    rw [plain]
    refine ⟨cur, ?_, here, slot⟩
    rw [slot]
    rfl
  | cons l longs =>
    have long : cur.slot.startsLong = true := by
      rw [slot]
      exact good.2.1
    have count : cur.slot.longEntryNum = (l :: longs).length := by
      rw [slot]
      exact good.2.2
    rw [long, count]
    obtain ⟨cur', read, there⟩ := readLong_eq walks (l :: longs) here room (fun j inside => by
        rw [tail.slot (by omega), Item.slots, getD_append _ _ _ _ inside])
      noName
    refine ⟨cur', ?_, there, (walks.slot there).trans final⟩
    rw [read]
    rfl

theorem Tail.file_room {dentry : Slot} {rest : List Item}
    (tail : Tail vol d chain t (.file longs dentry :: rest)) :
    t + longs.length < vol.perClus * chain.length := by
  have fits := tail.fits
  have size := size_file longs dentry
  rw [slotsOf_cons, length_append] at fits
  unfold Item.size at size
  omega

/-! ## The searches -/

/-- The rest of a turn of the loop after deleted entries have been skipped. -/
def turn (fat : FatSb) (d : Disk) (short : Slot → Str) (want : Slot → Bool) (wanted : Str)
    (fuel : Nat) (cur : Cursor) : Option (Option Found) :=
  let (dentry, filename, entryNum) := readName fat d short cur
  if want dentry.slot && sameName filename wanted then some (some ⟨cur, dentry, entryNum⟩)
  else
    let cur := nextEntry fat d dentry
    if cur.clus = cluserEnd then some none
    else searchLoop fat d short want wanted fuel cur

theorem searchLoop_succ (fat : FatSb) (short : Slot → Str) (want : Slot → Bool) (wanted : Str)
    (fuel : Nat) (cur : Cursor) : searchLoop fat d short want wanted (fuel + 1) cur =
    if dentryIsEmpty cur.slot then some none
    else (skipDeleted fat d (fuel + 1) cur).bind (turn fat d short want wanted fuel) := rfl

/-- An unused entry is not what is looked for. -/
structure Ignores (short : Slot → Str) (want : Slot → Bool) (wanted : Str) : Prop where
  zero : (want zeroSlot && sameName (short zeroSlot) wanted) = false

def Result (vol : Volume) (d : Disk) (chain : List Nat) (located : Option (Nat × Item))
    (result : Option (Option Found)) : Prop :=
  match located with
  | none => result = some none
  | some (p, item) => ∃ found, result = some (some found) ∧ Points vol d chain p item found

theorem zeroSlot_empty : dentryIsEmpty zeroSlot = true := by decide

theorem Item.Good.first (good : item.Good) : dentryIsEmpty (item.slots.getD 0 zeroSlot) = false := by
  have marked : ∀ {s : Slot} {k : Nat} (inside : k < 32), s ⟨k, inside⟩ ≠ 0 →
      dentryIsEmpty s = false := by
    intro s k inside nonzero
    exact decide_eq_false fun empty => nonzero (empty ⟨k, inside⟩)
  match item with
  | .deleted s =>
    have byte : s ⟨0, by decide⟩ = 0xe5 := by simpa [Item.Good, Slot.isDeleted, Slot.byte] using good
    apply marked (k := 0) (by decide)
    show s ⟨0, by decide⟩ ≠ 0
    rw [byte]
    decide
  | .file [] s => exact good.2.2
  | .file (l :: longs) s =>
    have byte : l ⟨11, by decide⟩ = 0x0f := by
      have long := good.2.1
      simp only [Slot.startsLong, Slot.attributes, Slot.byte, and_eq_true, beq_iff_eq] at long
      exact long.1
    apply marked (k := 11) (by decide)
    show l ⟨11, by decide⟩ ≠ 0
    rw [byte]
    decide

variable {short : Slot → Str} {want : Slot → Bool} {wanted : Str}

section
variable {eoc : Nat} (on : ChainOn vol d eoc chain)
include on

theorem turn_unused (ignores : Ignores short want wanted)
    (here : At vol d chain t cur) (tail : Tail vol d chain t [])
    (enough : 0 < fuel) : turn vol.fat d short want wanted fuel cur = some none := by
  have slot : cur.slot = zeroSlot := by
    rw [here.slot]
    exact tail.slots 0 here.inside
  have name : readName vol.fat d short cur = (cur, short zeroSlot, 1) := by
    rw [readName, slot]
    rfl
  simp only [turn, name, slot, ignores.zero, false_eq_true, if_false]
  by_cases more : t + 1 < vol.perClus * chain.length
  · have next := here.next on more
    obtain ⟨fuel, rfl⟩ := Nat.exists_eq_add_of_lt enough
    have unused : (nextEntry vol.fat d cur).slot = zeroSlot := by
      rw [next.slot]
      exact tail.slots 1 more
    rw [if_neg (next.clus_ne_end on), Nat.zero_add, searchLoop_succ, unused, zeroSlot_empty]
    rfl
  · have inside := here.inside
    rw [here.last (tail.closed (Nat.le_of_not_lt more)) (by omega)]
    rfl

theorem turn_passes {dentry : Slot} {rest : List Item} (here : At vol d chain t cur)
    (tail : Tail vol d chain t (.file longs dentry :: rest))
    (miss : Item.hit short want wanted (.file longs dentry) = false) (fuel : Nat) :
    (rest = [] ∧ turn vol.fat d short want wanted fuel cur = some none) ∨
      ∃ cur', At vol d chain (t + (Item.file longs dentry).size) cur' ∧
        turn vol.fat d short want wanted fuel cur =
          searchLoop vol.fat d short want wanted fuel cur' := by
  obtain ⟨cur', read, there, slot⟩ := readName_eq on.walks short here tail tail.file_room
  have size := size_file longs dentry
  have other : (want cur'.slot && sameName (Item.name short (.file longs dentry)) wanted) = false := by
    rw [slot]
    exact miss
  simp only [turn, read, other, false_eq_true, if_false]
  by_cases more : t + longs.length + 1 < vol.perClus * chain.length
  · have next := there.next on more
    right
    refine ⟨nextEntry vol.fat d cur', ?_, ?_⟩
    · rw [size, ← Nat.add_assoc]
      exact next
    · rw [if_neg (next.clus_ne_end on)]
  · left
    have fits := tail.rest.fits
    constructor
    · cases rest with
      | nil => rfl
      | cons item rest =>
        have positive := item.size_pos
        rw [slotsOf_cons, length_append] at fits
        unfold Item.size at positive
        omega
    · have ends := tail.rest.closed (by omega)
      rw [there.last ends (by omega)]
      rfl

theorem turn_hits {dentry : Slot} {rest : List Item} (here : At vol d chain t cur)
    (tail : Tail vol d chain t (.file longs dentry :: rest))
    (hits : Item.hit short want wanted (.file longs dentry) = true) (fuel : Nat) :
    ∃ found, turn vol.fat d short want wanted fuel cur = some (some found) ∧
      Points vol d chain t (.file longs dentry) found := by
  obtain ⟨cur', read, there, slot⟩ := readName_eq on.walks short here tail tail.file_room
  have size := size_file longs dentry
  have wanted' : (want cur'.slot && sameName (Item.name short (.file longs dentry)) wanted) = true := by
    rw [slot]
    exact hits
  refine ⟨⟨cur, cur', longs.length + 1⟩, ?_, here, ?_, size.symm, slot⟩
  · unfold turn
    simp [read, wanted']
  · rw [size]
    exact there

theorem search_from (ignores : Ignores short want wanted) (items : List Item)
    (here : At vol d chain t cur) (tail : Tail vol d chain t items) {skips : Nat}
    (enough : (slotsOf items).length < skips) (enough' : (slotsOf items).length < fuel) :
    Result vol d chain (locate (Item.hit short want wanted) items t)
      ((skipDeleted vol.fat d skips cur).bind (turn vol.fat d short want wanted fuel)) := by
  induction items generalizing t cur skips fuel with
  | nil =>
    obtain ⟨skips, rfl⟩ := Nat.exists_eq_add_of_lt enough
    have slot : cur.slot = zeroSlot := by
      rw [here.slot]
      exact tail.slots 0 here.inside
    have live : cur.slot.isDeleted = false := by
      rw [slot]
      rfl
    rw [skipDeleted, live, if_neg Bool.false_ne_true, bind_some]
    exact turn_unused on ignores here tail enough'
  | cons item rest ih =>
    rw [slotsOf_cons, length_append] at enough enough'
    have slot : cur.slot = item.slots.getD 0 zeroSlot := by
      rw [here.slot]
      exact tail.slot (j := 0) item.size_pos
    have good := tail.good item mem_cons_self
    obtain ⟨skips, rfl⟩ : ∃ k, skips = k + 1 := ⟨skips - 1, by omega⟩
    obtain ⟨fuel, rfl⟩ : ∃ k, fuel = k + 1 := ⟨fuel - 1, by omega⟩
    have positive : 0 < item.slots.length := item.size_pos
    cases item with
    | deleted s =>
      have gone : cur.slot.isDeleted = true := by
        rw [slot]
        exact good
      rw [skipDeleted, gone, if_pos rfl]
      have skipped : locate (Item.hit short want wanted) (.deleted s :: rest) t =
          locate (Item.hit short want wanted) rest (t + 1) := rfl
      rw [skipped]
      have next : Tail vol d chain (t + 1) rest := tail.rest
      exact ih (here.next on tail.room) next (by omega) (by omega)
    | file longs dentry =>
      have live : cur.slot.isDeleted = false := by
        rw [slot]
        cases longs with
        | nil => exact good.1
        | cons l longs => exact good.1
      rw [skipDeleted, live, if_neg Bool.false_ne_true, bind_some, locate]
      cases hits : Item.hit short want wanted (.file longs dentry) with
      | true =>
        rw [if_pos rfl]
        exact turn_hits on here tail hits (fuel + 1)
      | false =>
        rw [if_neg Bool.false_ne_true]
        rcases turn_passes on here tail hits (fuel + 1) with ⟨rfl, none⟩ | ⟨cur', there, goes⟩
        · exact none
        · rw [goes, searchLoop_succ]
          by_cases empty : dentryIsEmpty cur'.slot = true
          · cases rest with
            | nil =>
              rw [if_pos empty]
              rfl
            | cons item rest =>
              have first := (tail.rest.good item mem_cons_self).first
              have next := tail.rest.slot (j := 0) item.size_pos
              rw [there.slot, ← Nat.add_zero (t + _), next, first] at empty
              cases empty
          · rw [if_neg empty]
            exact ih there tail.rest (by omega) (by omega)

end

theorem search_items {items : List Item} (layout : Layout vol d chain items)
    (ignores : Ignores short want wanted) (enough : (slotsOf items).length + 1 < fuel) :
    Result vol d chain (locate (Item.hit short want wanted) items 0)
      (searchLoop vol.fat d short want wanted fuel (openDir vol.fat d (chain.getD 0 0))) := by
  obtain ⟨eoc, on⟩ := layout.on
  have here := At.open on layout.nonempty
  obtain ⟨fuel, rfl⟩ : ∃ k, fuel = k + 1 := ⟨fuel - 1, by omega⟩
  rw [searchLoop_succ]
  by_cases empty : dentryIsEmpty (openDir vol.fat d (chain.getD 0 0)).slot = true
  · cases items with
    | nil =>
      rw [if_pos empty]
      rfl
    | cons item rest =>
      have first := (layout.tail.good item mem_cons_self).first
      have slot := layout.tail.slot (j := 0) item.size_pos
      rw [here.slot, ← Nat.add_zero 0, slot, first] at empty
      cases empty
  · rw [if_neg empty]
    exact search_from on ignores items here layout.tail (by omega) (by omega)

end Items
end CCore.Fat
