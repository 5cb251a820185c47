import CCore.Fat.Pending

/-!
# Deleting an item of a directory

The loop that marks the entries of an item as deleted changes the first byte of each of them,
across transfers and clusters, and nothing else, as long as the last one is not the last entry
of the chain.  The directory then has deleted entries in the place of the item.
-/
namespace CCore.Fat

open List Option

def deletedSlot (s : Slot) : Slot := Function.update s 0 0xe5

def marked (vol : Volume) (chain : List Nat) : Nat → Nat → Disk → Disk
  | 0, _, d => d
  | n + 1, t, d =>
    marked vol chain n (t + 1) (vol.putSlot d chain t (deletedSlot (vol.dirSlot d chain t)))

def Item.remains (item : Item) : List Item := item.slots.map fun s => .deleted (deletedSlot s)

variable {n t : Nat} {after before items : List Item} {item : Item}
variable {vol : Volume} {d : Disk} {chain : List Nat} {eoc : Nat}

theorem marked_eq (n t : Nat) :
    marked vol chain n t d = edited vol chain (fun _ => deletedSlot) n t d := by
  induction n generalizing t d with
  | zero => rfl
  | succ n ih => exact ih (t + 1)

section
variable (on : ChainOn vol d eoc chain) (inside : t + n ≤ vol.perClus * chain.length)
include on inside

theorem marked_tables : SameTables vol d (marked vol chain n t d) := by
  rw [marked_eq]
  exact edited_tables on inside

theorem marked_outside {a : Nat} (outside : ¬ vol.InChain chain a) :
    marked vol chain n t d a = d a := by
  rw [marked_eq]
  exact edited_outside on inside outside

theorem dirSlot_marked {u : Nat} (inside' : u < vol.perClus * chain.length) :
    vol.dirSlot (marked vol chain n t d) chain u =
      if t ≤ u ∧ u < t + n then deletedSlot (vol.dirSlot d chain u) else vol.dirSlot d chain u := by
  rw [marked_eq, dirSlot_edited on inside inside']

end

theorem markDeleted_pending {after : Disk} {cur : Cursor}
    (pending : Pending vol after chain t d cur) (on : ChainOn vol after eoc chain)
    (room : t + n < vol.perClus * chain.length) :
    Pending vol (marked vol chain n t after) chain (t + n) (markDeleted vol.fat n d cur).1
      (markDeleted vol.fat n d cur).2 := by
  induction n generalizing t d after cur with
  | zero => exact pending
  | succ n ih =>
    have inside := pending.here.inside
    have slot := pending.here.slot
    have changed := pending.put (deletedSlot (vol.dirSlot after chain t))
      (Function.update cur.buf cur.entry 0xe5) (fun k bound => by
        rw [← slot]
        rcases eq_or_ne k 0 with rfl | zero
        · have first : deletedSlot cur.slot ⟨0, bound⟩ = 0xe5 :=
            Function.update_self (0 : Fin 32) _ _
          exact (Function.update_self _ _ _).trans first.symm
        · have elsewhere : cur.entry + k ≠ cur.entry := by omega
          have elsewhere' : (⟨k, bound⟩ : Fin 32) ≠ 0 := fun same => zero (congrArg Fin.val same)
          rw [deletedSlot, Function.update_of_ne elsewhere, Function.update_of_ne elsewhere']
          rfl)
      (fun i outer => Function.update_of_ne (by omega) _ _)
    have on' := on.putSlot (deletedSlot (vol.dirSlot after chain t)) inside
    have next := changed.next on' (by omega) rfl
    have rest := ih next on' (by omega)
    rw [Nat.add_right_comm] at rest
    exact rest

theorem clusOfSec_eq {c i : Nat} (valid : vol.Valid c) (inside : i < vol.spc) :
    clusOfSec vol.fat (vol.first c + i) = c := by
  have cluster := vol.first_le valid
  have range := vol.in_range'
  have lower := valid.1
  have spc : vol.fat.bpb.secPerClus = vol.spc := rfl
  have offset : u32 (vol.first c + i + (2 ^ 32 - vol.fat.firstDataSec)) = vol.spc * (c - 2) + i := by
    have sector : vol.first c = vol.fat.firstDataSec + vol.spc * (c - 2) := by
      rw [Volume.first, Nat.mul_comm]
    unfold u32
    omega
  rw [clusOfSec, offset, spc, Nat.mul_add_div vol.spc_pos, Nat.div_eq_of_lt inside]
  omega

theorem At.reread {cur : Cursor} (here : At vol d chain t cur)
    (on : ChainOn vol d eoc chain) :
    At vol d chain t ⟨diskRead d cur.sec, cur.entry, clusOfSec vol.fat cur.sec, cur.sec⟩ := by
  have range := here.sector_range on
  have positive := vol.spc_pos
  have cluster : clusOfSec vol.fat cur.sec = cur.clus := by
    obtain ⟨i, split⟩ := Nat.exists_eq_add_of_le range.1
    rw [split]
    exact clusOfSec_eq (here.valid on) (by omega)
  refine ⟨here.inside, cluster.trans here.clus, ?_, here.entry, ?_⟩
  · rw [cluster]
    exact here.sec
  · intro i inside
    exact read_eq (by omega) inside

theorem deleteEntries_eq {found : Found} (points : Points vol d chain t item found)
    (on : ChainOn vol d eoc chain) (room : t + item.size < vol.perClus * chain.length) :
    deleteEntries vol.fat d found = marked vol chain item.size t d := by
  have start := Pending.start (points.first.reread on)
  have pending := markDeleted_pending start on room
  rw [deleteEntries, points.entryNum]
  exact pending.flush (on.congr (marked_tables on (Nat.le_of_lt room)))

theorem slotsOf_append (items items' : List Item) :
    slotsOf (items ++ items') = slotsOf items ++ slotsOf items' :=
  flatMap_append

theorem slotsOf_remains (item : Item) : slotsOf item.remains = item.slots.map deletedSlot := by
  rw [slotsOf, Item.remains, flatMap_map]
  exact (map_eq_flatMap ..).symm

theorem length_slotsOf_remains (item : Item) : (slotsOf item.remains).length = item.size := by
  rw [slotsOf_remains, length_map]
  rfl

theorem deletedSlot_isDeleted (s : Slot) : (deletedSlot s).isDeleted = true := by
  rw [Slot.isDeleted, Slot.byte_of_lt _ (by decide)]
  exact beq_iff_eq.mpr (Function.update_self _ _ _)

theorem Layout.remove (layout : Layout vol d chain (before ++ item :: after))
    (room : (slotsOf before).length + item.size < vol.perClus * chain.length) :
    Layout vol (marked vol chain item.size (slotsOf before).length d) chain
      (before ++ (item.remains ++ after)) := by
  have tail := layout.tail
  have old : slotsOf (before ++ item :: after) = slotsOf before ++ (item.slots ++ slotsOf after) := by
    rw [slotsOf_append, slotsOf_cons]
  have new : slotsOf (before ++ (item.remains ++ after)) =
      slotsOf before ++ (item.slots.map deletedSlot ++ slotsOf after) := by
    rw [slotsOf_append, slotsOf_append, slotsOf_remains]
  have size : item.slots.length = item.size := rfl
  have length : (slotsOf (before ++ (item.remains ++ after))).length =
      (slotsOf (before ++ item :: after)).length := by
    rw [old, new]
    simp only [length_append, length_map]
  obtain ⟨eoc, on⟩ := layout.on
  have tables := marked_tables on (Nat.le_of_lt room)
  refine ⟨⟨eoc, on.congr tables⟩, layout.nonempty, ?_, ?_, ?_, ?_, ?_⟩
  · intro u inside
    rw [Nat.zero_add] at inside ⊢
    have slot := tail.slots u (by omega)
    rw [Nat.zero_add, old] at slot
    rw [dirSlot_marked on (Nat.le_of_lt room) inside, slot, new]
    rcases Nat.lt_or_ge u (slotsOf before).length with earlier | later
    · rw [if_neg (by omega), getD_append _ _ _ _ earlier, getD_append _ _ _ _ earlier]
    · rw [getD_append_right _ _ _ _ later, getD_append_right _ _ _ _ later]
      rcases Nat.lt_or_ge (u - (slotsOf before).length) item.slots.length with inner | beyond
      · have inner' : u - (slotsOf before).length < (item.slots.map deletedSlot).length := by
          rw [length_map]
          exact inner
        rw [if_pos (by omega), getD_append _ _ _ _ inner, getD_append _ _ _ _ inner',
          getD_eq_getElem _ _ inner, getD_eq_getElem _ _ inner', getElem_map]
      · have beyond' : (item.slots.map deletedSlot).length ≤ u - (slotsOf before).length := by
          rw [length_map]
          exact beyond
        rw [if_neg (by omega), getD_append_right _ _ _ _ beyond,
          getD_append_right _ _ _ _ beyond', length_map]
  · intro other mem
    rcases mem_append.mp mem with mem | mem
    · exact tail.good other (mem_append_left _ mem)
    · rcases mem_append.mp mem with mem | mem
      · obtain ⟨s, _, rfl⟩ := mem_map.mp mem
        exact deletedSlot_isDeleted s
      · exact tail.good other (mem_append_right _ (mem_cons_of_mem _ mem))
  · rw [length]
    exact tail.fits
  · rw [length]
    rcases tail.ends with space | file
    · exact .inl space
    · cases after with
      | nil =>
        left
        rw [old, length_append, length_append]
        show 0 + (_ + (_ + 0)) < _
        omega
      | cons next rest =>
        right
        intro s last
        apply file s
        rw [← last]
        simp only [List.getLast?_append, List.getLast?_cons, some_or, getD_some]
  · rw [length]
    intro full
    exact (tail.closed full).congr tables

section Locate
variable {hits : Item → Bool}

theorem locate_append (items items' : List Item) (t : Nat) : locate hits (items ++ items') t =
    (locate hits items t).or (locate hits items' (t + (slotsOf items).length)) := by
  induction items generalizing t with
  | nil => rfl
  | cons item rest ih =>
    rw [cons_append, locate, locate, slotsOf_cons, length_append]
    split
    · rfl
    · rw [ih, Nat.add_assoc]
      rfl

theorem locate_eq_none : locate hits items t = none ↔ ∀ item ∈ items, hits item = false := by
  induction items generalizing t with
  | nil => simp [locate]
  | cons item rest ih =>
    rw [locate]
    cases hit : hits item with
    | true => simp [hit]
    | false => simp [hit, ih]

/-- `item` is the first of the items that is hit. -/
structure FirstHit (hits : Item → Bool) (items before : List Item) (item : Item)
    (after : List Item) : Prop where
  split : items = before ++ item :: after
  misses : ∀ other ∈ before, hits other = false
  hit : hits item = true

theorem locate_eq_some {p : Nat} (located : locate hits items t = some (p, item)) :
    ∃ before after, FirstHit hits items before item after ∧ p = t + (slotsOf before).length := by
  induction items generalizing t with
  | nil => cases located
  | cons head rest ih =>
    rw [locate] at located
    cases hit : hits head with
    | true =>
      rw [hit] at located
      cases located
      exact ⟨[], rest, ⟨rfl, by simp, hit⟩, rfl⟩
    | false =>
      rw [hit] at located
      obtain ⟨before, after, ⟨rfl, misses, found⟩, rfl⟩ := ih located
      refine ⟨head :: before, after, ⟨rfl, ?_, found⟩, ?_⟩
      · intro other mem
        rcases mem_cons.mp mem with rfl | mem
        · exact hit
        · exact misses other mem
      · rw [slotsOf_cons, length_append, ← Nat.add_assoc]
        rfl

theorem FirstHit.unique {before' after' : List Item} {item' : Item}
    (first : FirstHit hits items before item after)
    (first' : FirstHit hits items before' item' after') :
    before = before' ∧ item = item' ∧ after = after' := by
  obtain ⟨split, misses, hit⟩ := first
  obtain ⟨split', misses', hit'⟩ := first'
  subst split
  induction before generalizing before' with
  | nil =>
    cases before' with
    | nil =>
      obtain ⟨rfl, rfl⟩ := List.cons.inj split'
      exact ⟨rfl, rfl, rfl⟩
    | cons head rest =>
      obtain ⟨rfl, _⟩ := List.cons.inj split'
      rw [misses' item mem_cons_self] at hit
      cases hit
  | cons head rest ih =>
    cases before' with
    | nil =>
      obtain ⟨rfl, _⟩ := List.cons.inj split'
      rw [misses head mem_cons_self] at hit'
      cases hit'
    | cons head' rest' =>
      obtain ⟨rfl, tails⟩ := List.cons.inj split'
      obtain ⟨rfl, same⟩ := ih (fun other mem => misses other (mem_cons_of_mem _ mem))
        (fun other mem => misses' other (mem_cons_of_mem _ mem)) tails
      exact ⟨rfl, same⟩

variable {short : Slot → Str} {want : Slot → Bool} {wanted : Str}

theorem remains_not_hit (item other : Item) (mem : other ∈ item.remains) :
    Item.hit short want wanted other = false := by
  obtain ⟨s, _, rfl⟩ := mem_map.mp mem
  rfl

theorem locate_remains (miss : Item.hit short want wanted item = false) :
    locate (Item.hit short want wanted) (before ++ (item.remains ++ after)) 0 =
      locate (Item.hit short want wanted) (before ++ item :: after) 0 := by
  have none : ∀ t, locate (Item.hit short want wanted) item.remains t = none := fun t =>
    locate_eq_none.mpr (remains_not_hit item)
  rw [locate_append, locate_append, locate_append, none, none_or, length_slotsOf_remains,
    locate, if_neg (by rw [miss]; exact Bool.false_ne_true)]

end Locate
end CCore.Fat
