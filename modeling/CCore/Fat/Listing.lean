import CCore.Fat.Unlink

/-!
# Listing a directory (`fat32_getdents`)

A call lists records until one does not fit and saves where it is as a position, a cluster
and a sector.  `chunk` says which items a call gets through; the calls of a whole listing are
a machine whose state is the descriptor and what has been listed so far.
-/
namespace CCore.Fat

open List Option Sum

/-- `DT_DIR` and `DT_REG`. -/
inductive DirentType
  | dir
  | reg
  deriving DecidableEq

/-- `struct linux_dirent64`; `d_off` is not set. -/
structure Dirent where
  ino : Nat
  reclen : Nat
  type : DirentType
  name : Str

/-- `sizeof(struct linux_dirent64)`. -/
def direntSize : Nat := 24

/-- `arributes & ATTR_DIRECTORY != 0`, where `!=` binds more tightly than `&`. -/
def direntType (s : Slot) : DirentType := if s.attributes &&& 1 != 0 then .dir else .reg

def roundUp (readLen : Nat) : Nat := readLen + (8 - readLen % 8)

/-- The loop over deleted entries, which counts them. -/
def skipCounting (fat : FatSb) (d : Disk) : Nat → Cursor → Nat → Option (Cursor × Nat)
  | 0, _, _ => none
  | fuel + 1, cur, addPos =>
    if cur.slot.isDeleted then skipCounting fat d fuel (nextEntry fat d cur) (addPos + 32)
    else some (cur, addPos)

/-- The variables of the loop and what has been written to `outbuf`. -/
structure Progress where
  cur : Cursor
  addPos : Nat
  readLen : Nat
  out : List Dirent

/-- A turn of the loop after deleted entries have been skipped: the loop ends, or it goes on
with the progress that is returned. -/
def getdentsTurn (fat : FatSb) (d : Disk) (len : Nat) (p : Progress) : Progress ⊕ Progress :=
  if dentryIsEmpty p.cur.slot then .inl p
  else
    let (dentry, filename, entryNum) := readName fat d shortName p.cur
    let addPos := p.addPos + 32 * (entryNum - 1)
    if len < p.readLen + direntSize + filename.length + 1 then .inl { p with cur := dentry, addPos }
    else
      let readLen := roundUp (p.readLen + direntSize + filename.length + 1)
      .inr ⟨nextEntry fat d dentry, addPos + 32, readLen,
        p.out ++ [⟨p.cur.clus, readLen - p.readLen, direntType dentry.slot, filename⟩]⟩

def getdentsLoop (fat : FatSb) (d : Disk) (len : Nat) : Nat → Progress → Option Progress
  | 0, _ => none
  | fuel + 1, p =>
    if dentryIsEmpty p.cur.slot || decide (len ≤ p.readLen) then some p
    else
      (skipCounting fat d (fuel + 1) p.cur p.addPos).bind fun (cur, addPos) =>
        (getdentsTurn fat d len { p with cur, addPos }).elim some (getdentsLoop fat d len fuel)

/-- What the call returns, the records in `outbuf`, and the descriptor. -/
def fat32Getdents (fat : FatSb) (d : Disk) (fuel : Nat) (nfd : Fs.Fd) (len : Nat) :
    Option (Nat × List Dirent × Fs.Fd) :=
  let cur : Cursor := ⟨diskRead d nfd.curSec, nfd.pos % fat.sectorSize, nfd.curClusNum, nfd.curSec⟩
  if dentryIsEmpty cur.slot then some (0, [], nfd)
  else
    (getdentsLoop fat d len fuel ⟨cur, 0, 0, []⟩).map fun p =>
      let pos := nfd.pos + p.addPos
      let shift := (p.addPos + pos % fat.sectorSize) / fat.sectorSize % fat.readMaxSec
      (p.readLen, p.out,
        { nfd with pos, curClusNum := p.cur.clus, curSec := u32 (p.cur.sec + shift) })

/-! ## What a call gets through -/

/-- The record that a listing should have for an item. -/
def Item.record : Item → Option (Str × DirentType)
  | .deleted _ => none
  | .file longs s =>
    some (Item.name shortName (.file longs s), if s.isDirectory then .dir else .reg)

def records (items : List Item) : List (Str × DirentType) := items.filterMap Item.record

/-- `read_len` after the items. -/
def filled : List Item → Nat → Nat
  | [], readLen => readLen
  | .deleted _ :: rest, readLen => filled rest readLen
  | .file longs s :: rest, readLen =>
    filled rest (roundUp (readLen + direntSize + (Item.name shortName (.file longs s)).length + 1))

/-- The items that a call with `len` bytes gets through. -/
def chunk (len : Nat) : List Item → Nat → List Item
  | [], _ => []
  | .deleted s :: rest, readLen =>
    if len ≤ readLen then [] else .deleted s :: chunk len rest readLen
  | .file longs s :: rest, readLen =>
    let room := readLen + direntSize + (Item.name shortName (.file longs s)).length + 1
    if len ≤ readLen ∨ len < room then [] else .file longs s :: chunk len rest (roundUp room)

/-- If the call stops before a file, that file has no long name or `len` bytes are used up. -/
def CutShort (len : Nat) (items : List Item) (readLen : Nat) : Prop :=
  match items.drop (chunk len items readLen).length with
  | .file (_ :: _) _ :: _ => len ≤ filled (chunk len items readLen) readLen
  | _ => True

instance (len : Nat) (items : List Item) (readLen : Nat) : Decidable (CutShort len items readLen) := by
  unfold CutShort
  split
  · infer_instance
  · infer_instance

/-- The type of the record is right. -/
def Item.TypeRight : Item → Prop
  | .deleted _ => True
  | .file _ s => direntType s = if s.isDirectory then .dir else .reg

instance : DecidablePred Item.TypeRight := fun item =>
  match item with
  | .deleted _ => isTrue trivial
  | .file _ _ => inferInstanceAs (Decidable (_ = _))

def TypesRight (items : List Item) : Prop := ∀ item ∈ items, item.TypeRight

instance (items : List Item) : Decidable (TypesRight items) :=
  inferInstanceAs (Decidable (∀ item ∈ items, _))

variable {t : Nat} {p : Progress}
variable {vol : Volume} {d : Disk} {chain : List Nat} {limit len : Nat}
  {at' : Nat → Cursor → Prop}

theorem chunk_full {items : List Item} {readLen : Nat} (full : len ≤ readLen) :
    chunk len items readLen = [] := by
  cases items with
  | nil => rfl
  | cons item rest =>
    cases item with
    | deleted s => exact if_pos full
    | file longs s => exact if_pos (.inl full)

structure Reached (at' : Nat → Cursor → Prop) (t : Nat) (done : List Item) (p p' : Progress) :
    Prop where
  here : at' (t + (slotsOf done).length) p'.cur
  addPos : p'.addPos = p.addPos + 32 * (slotsOf done).length
  readLen : p'.readLen = filled done p.readLen
  out : p'.out.map (fun r => (r.name, r.type)) =
    p.out.map (fun r => (r.name, r.type)) ++ records done

theorem Reached.refl (here : at' t p.cur) : Reached at' t [] p p :=
  ⟨here, rfl, rfl, by rw [records, filterMap_nil, append_nil]⟩

/-- Where the record of a file ends, before the padding. -/
abbrev recordEnd (readLen : Nat) (longs : List Slot) (s : Slot) : Nat :=
  readLen + direntSize + (Item.name shortName (.file longs s)).length + 1

theorem Reached.file {ino reclen : Nat} {p' : Progress} {cur : Cursor} {longs : List Slot}
    {s : Slot} {done : List Item}
    (reached : Reached at' (t + longs.length + 1) done ⟨cur, p.addPos + 32 * longs.length + 32,
        roundUp (recordEnd p.readLen longs s),
        p.out ++ [⟨ino, reclen, if s.isDirectory then .dir else .reg,
          Item.name shortName (.file longs s)⟩]⟩ p') :
    Reached at' t (.file longs s :: done) p p' := by
  have size : (slotsOf (.file longs s :: done)).length =
      longs.length + 1 + (slotsOf done).length := by
    rw [slotsOf_cons, length_append, ← size_file longs s]
    rfl
  refine ⟨?_, ?_, reached.readLen, ?_⟩
  · rw [size, ← Nat.add_assoc, ← Nat.add_assoc]
    exact reached.here
  · rw [size, reached.addPos]
    dsimp only
    omega
  · rw [reached.out, map_append, append_assoc]
    rfl

def getdentsRest (fat : FatSb) (d : Disk) (len fuel skips : Nat) (p : Progress) : Option Progress :=
  (skipCounting fat d skips p.cur p.addPos).bind fun (cur, addPos) =>
    (getdentsTurn fat d len { p with cur, addPos }).elim some (getdentsLoop fat d len fuel)

theorem getdentsLoop_succ (fat : FatSb) (fuel : Nat) (p : Progress) :
    getdentsLoop fat d len (fuel + 1) p =
      if dentryIsEmpty p.cur.slot || decide (len ≤ p.readLen) then some p
      else getdentsRest fat d len fuel (fuel + 1) p := by
  rw [getdentsLoop, getdentsRest]

theorem getdentsRest_deleted (fuel skips : Nat) (gone : p.cur.slot.isDeleted = true) :
    getdentsRest vol.fat d len fuel (skips + 1) p = getdentsRest vol.fat d len fuel skips
        { p with cur := nextEntry vol.fat d p.cur, addPos := p.addPos + 32 } := by
  unfold getdentsRest
  rw [skipCounting, gone, if_pos rfl]

theorem getdentsRest_live (fuel skips : Nat) (live : p.cur.slot.isDeleted = false) :
    getdentsRest vol.fat d len fuel (skips + 1) p =
      (getdentsTurn vol.fat d len p).elim some (getdentsLoop vol.fat d len fuel) := by
  rw [getdentsRest, skipCounting, live, if_neg Bool.false_ne_true, bind_some]

theorem getdentsTurn_file (len : Nat) (walks : Walks vol d chain limit at') {longs : List Slot}
    {s : Slot} {rest : List Item} (here : at' t p.cur)
    (tail : Tail vol d chain t (.file longs s :: rest)) (room : t + longs.length < limit) :
    ∃ dentry, at' (t + longs.length) dentry ∧ dentry.slot = s ∧ getdentsTurn vol.fat d len p =
        if len < recordEnd p.readLen longs s then
          .inl { p with cur := dentry, addPos := p.addPos + 32 * longs.length }
        else .inr ⟨nextEntry vol.fat d dentry, p.addPos + 32 * longs.length + 32,
            roundUp (recordEnd p.readLen longs s), p.out ++ [⟨p.cur.clus,
              roundUp (recordEnd p.readLen longs s) -
                p.readLen, direntType s, Item.name shortName (.file longs s)⟩]⟩ := by
  obtain ⟨dentry, read, there, slot⟩ := readName_eq walks shortName here tail room
  have size := size_file longs s
  have used : dentryIsEmpty p.cur.slot = false := by
    have first := (tail.good _ mem_cons_self).first
    have same := tail.slot (j := 0) (by omega)
    rw [walks.slot here]
    rw [Nat.add_zero] at same
    rw [same]
    exact first
  refine ⟨dentry, there, slot, ?_⟩
  simp only [getdentsTurn, used, read, slot, Nat.add_sub_cancel, Bool.false_eq_true, if_false]

theorem getdentsRest_eq (walks : Walks vol d chain limit at') (items : List Item)
    (here : at' t p.cur) (tail : Tail vol d chain t items)
    (unused : t + (slotsOf items).length < vol.perClus * chain.length)
    (room : t + (slotsOf (chunk len items p.readLen)).length < limit)
    (cut : CutShort len items p.readLen) (types : TypesRight items) (space : p.readLen < len)
    {fuel skips : Nat} (enough : (slotsOf items).length < fuel)
    (enough' : (slotsOf items).length < skips) :
    ∃ p', getdentsRest vol.fat d len fuel skips p = some p' ∧
      Reached at' t (chunk len items p.readLen) p p' := by
  induction items generalizing t p fuel skips with
  | nil =>
    obtain ⟨skips, rfl⟩ : ∃ k, skips = k + 1 := ⟨skips - 1, by omega⟩
    have slot : p.cur.slot = zeroSlot := by
      rw [walks.slot here]
      exact tail.slots 0 unused
    have live : p.cur.slot.isDeleted = false := by
      rw [slot]
      rfl
    refine ⟨p, ?_, Reached.refl here⟩
    have turn : getdentsTurn vol.fat d len p = .inl p := by
      rw [getdentsTurn, slot, zeroSlot_empty, if_pos rfl]
    rw [getdentsRest_live fuel skips live, turn, elim_inl]
  | cons item rest ih =>
    obtain ⟨skips, rfl⟩ : ∃ k, skips = k + 1 := ⟨skips - 1, by omega⟩
    obtain ⟨fuel, rfl⟩ : ∃ k, fuel = k + 1 := ⟨fuel - 1, by omega⟩
    rw [slotsOf_cons, length_append] at enough enough' unused
    have slot : p.cur.slot = item.slots.getD 0 zeroSlot := by
      rw [walks.slot here]
      exact tail.slot (j := 0) item.size_pos
    have good := tail.good item mem_cons_self
    have typesRest : TypesRight rest := fun other mem => types other (mem_cons_of_mem _ mem)
    cases item with
    | deleted s =>
      have gone : p.cur.slot.isDeleted = true := by
        rw [slot]
        exact good
      have chunked : chunk len (.deleted s :: rest) p.readLen =
          .deleted s :: chunk len rest p.readLen := if_neg (by omega)
      have sizes : (slotsOf (.deleted s :: chunk len rest p.readLen)).length =
          1 + (slotsOf (chunk len rest p.readLen)).length := by
        rw [slotsOf_cons, length_append]
        rfl
      unfold CutShort at cut
      rw [chunked] at room cut ⊢
      rw [sizes] at room
      have next := walks.next here (by omega)
      have tail' : Tail vol d chain (t + 1) rest := tail.rest
      have one : (Item.deleted s).slots.length = 1 := rfl
      obtain ⟨p', ran, reached⟩ := ih
        (p := { p with cur := nextEntry vol.fat d p.cur, addPos := p.addPos + 32 })
        next tail' (by omega) (by dsimp only; omega) cut typesRest space
        (show (slotsOf rest).length < fuel + 1 by omega)
        (show (slotsOf rest).length < skips by omega)
      refine ⟨p', ?_, ?_, ?_, reached.readLen, reached.out⟩
      · rw [getdentsRest_deleted (fuel + 1) skips gone]
        exact ran
      · rw [sizes, ← Nat.add_assoc]
        exact reached.here
      · rw [sizes, reached.addPos]
        dsimp only
        omega
    | file longs s =>
      have live : p.cur.slot.isDeleted = false := by
        rw [slot]
        cases longs with
        | nil => exact good.1
        | cons l longs => exact good.1
      have size := size_file longs s
      have length : (Item.file longs s).slots.length = longs.length + 1 := size
      have chunkEq : chunk len (.file longs s :: rest) p.readLen =
          if len ≤ p.readLen ∨ len < recordEnd p.readLen longs s then []
          else .file longs s :: chunk len rest (roundUp (recordEnd p.readLen longs s)) := rfl
      rw [getdentsRest_live (fuel + 1) skips live]
      by_cases unfit : len < recordEnd p.readLen longs s
      · -- the record does not fit; with a long name its entries would be lost
        rw [if_pos (.inr unfit)] at chunkEq
        unfold CutShort at cut
        rw [chunkEq] at room cut ⊢
        obtain rfl : longs = [] := by
          cases longs with
          | nil => rfl
          | cons l longs =>
            have full : len ≤ p.readLen := cut
            omega
        obtain ⟨dentry, there, _, turn⟩ := getdentsTurn_file len walks here tail room
        rw [if_pos unfit] at turn
        rw [turn, elim_inl]
        exact ⟨_, rfl, there, rfl, rfl, by rw [records, filterMap_nil, append_nil]⟩
      · have fits : ¬ (len ≤ p.readLen ∨ len < recordEnd p.readLen longs s) := by omega
        rw [if_neg fits] at chunkEq
        have sizes : ∀ done, (slotsOf (.file longs s :: done)).length =
            longs.length + 1 + (slotsOf done).length := by
          intro done
          rw [slotsOf_cons, length_append, length]
        unfold CutShort at cut
        rw [chunkEq] at room cut ⊢
        rw [sizes] at room
        obtain ⟨dentry, there, slot', turn⟩ :=
          getdentsTurn_file len walks here tail (by omega)
        rw [if_neg unfit] at turn
        rw [turn, elim_inr]
        have next := walks.next there (by omega)
        have tail' : Tail vol d chain (t + longs.length + 1) rest := by
          have rest' := tail.rest
          rw [size, ← Nat.add_assoc] at rest'
          exact rest'
        have dtype : direntType s = if s.isDirectory then .dir else .reg :=
          types _ mem_cons_self
        have cutRest : CutShort len rest (roundUp (recordEnd p.readLen longs s)) := cut
        generalize filledEq : roundUp (recordEnd p.readLen longs s) = readLen at *
        rw [dtype]
        have step : ∀ {p' : Progress}, Reached at' (t + longs.length + 1)
            (chunk len rest readLen) ⟨nextEntry vol.fat d dentry,
              p.addPos + 32 * longs.length + 32, readLen,
              p.out ++ [⟨p.cur.clus, readLen - p.readLen, if s.isDirectory then .dir else .reg,
                Item.name shortName (.file longs s)⟩]⟩ p' →
            Reached at' t (.file longs s :: chunk len rest readLen) p p' := by
          rw [← filledEq]
          exact Reached.file
        rw [getdentsLoop_succ]
        by_cases stops : (dentryIsEmpty (nextEntry vol.fat d dentry).slot ||
            decide (len ≤ readLen)) = true
        · have none : chunk len rest readLen = [] := by
            rcases Bool.or_eq_true_iff.mp stops with empty | full
            · cases rest with
              | nil => rfl
              | cons item rest =>
                have first := (tail'.good item mem_cons_self).first
                have same := tail'.slot (j := 0) item.size_pos
                rw [walks.slot next, ← Nat.add_zero (t + longs.length + 1), same, first] at empty
                cases empty
            · exact chunk_full (decide_eq_true_eq.mp full)
          refine ⟨_, if_pos stops, step ?_⟩
          rw [none]
          exact Reached.refl next
        · have notFull : readLen < len := by
            simp only [Bool.or_eq_true, decide_eq_true_eq, not_or] at stops
            omega
          obtain ⟨p', ran, reached⟩ := ih
            (p := ⟨nextEntry vol.fat d dentry, p.addPos + 32 * longs.length + 32, readLen,
              p.out ++ [⟨p.cur.clus, readLen - p.readLen, if s.isDirectory then .dir else .reg,
                Item.name shortName (.file longs s)⟩]⟩)
            next tail' (by omega) (by dsimp only; omega) cutRest typesRest notFull
            (show (slotsOf rest).length < fuel by omega)
            (show (slotsOf rest).length < fuel + 1 by omega)
          rw [if_neg stops]
          exact ⟨p', ran, step reached⟩

end CCore.Fat
