import CCore.Swap.Clock

/-!
# Eviction keeps every value

Where the bytes of a page are is its place: in a physical page, on the swap device
or nowhere yet.  `Sound` ties the places to the back pointers and to `sd_sec`; while
a fault is handled one page may be held by the handler and belong to no entry.
`clock_algorithm` always finds a page of a list that is not empty, and moves its
bytes to sectors that no other entry uses.
-/
namespace CCore.Swap

open Function List Option Nat

theorem readPage_writePage (disk : Nat → Nat → UInt8) (sec : Nat) (page : Nat → UInt8) (x : Nat)
    (inside : x < 4096) : readPage (writePage disk sec page) sec x = page x := by
  have range : sec ≤ sec + x / 512 ∧ sec + x / 512 < sec + 8 := by omega
  have offset : (sec + x / 512 - sec) * 512 + x % 512 = x := by omega
  rw [readPage, writePage, if_pos range, offset]

theorem readPage_writePage_apart (disk : Nat → Nat → UInt8) (sec other : Nat)
    (page : Nat → UInt8) (x : Nat) (inside : x < 4096) (aligned : sec % 8 = 4)
    (otherAligned : other % 8 = 4) (different : other ≠ sec) :
    readPage (writePage disk sec page) other x = readPage disk other x := by
  have range : ¬ (sec ≤ other + x / 512 ∧ other + x / 512 < sec + 8) := by omega
  rw [readPage, writePage, if_neg range]
  rfl

section Round
variable {list : List Nat} {start : Nat}

def nodeAt (list : List Nat) (start t : Nat) : Nat :=
  list.getD ((list.idxOf start + t) % list.length) start

theorem nodeAt_eq (nonempty : 0 < list.length) (start t : Nat) : nodeAt list start t =
    list.get ⟨(list.idxOf start + t) % list.length, mod_lt _ nonempty⟩ := by
  rw [nodeAt, getD_eq_getElem _ _ (mod_lt _ nonempty)]
  rfl

theorem nodeAt_mem (nonempty : 0 < list.length) (start t : Nat) : nodeAt list start t ∈ list := by
  rw [nodeAt_eq nonempty]
  exact get_mem _ _

theorem nodeAt_zero (member : start ∈ list) : nodeAt list start 0 = start := by
  have bound := idxOf_lt_length_of_mem member
  rw [nodeAt, Nat.add_zero, mod_eq_of_lt bound, getD_eq_getElem _ _ bound]
  exact getElem_idxOf bound

theorem nodeAt_length (member : start ∈ list) : nodeAt list start list.length = start := by
  rw [nodeAt, add_mod_right]
  exact nodeAt_zero member

theorem nextNode_nodeAt (nodup : list.Nodup) (nonempty : 0 < list.length) (t : Nat) :
    nextNode list (nodeAt list start t) = nodeAt list start (t + 1) := by
  have bound : (list.idxOf start + t) % list.length < list.length := mod_lt _ nonempty
  have index : list.idxOf (nodeAt list start t) = (list.idxOf start + t) % list.length := by
    rw [nodeAt, getD_eq_getElem _ _ bound]
    exact nodup.idxOf_getElem _ bound
  have next : ((list.idxOf start + t) % list.length + 1) % list.length <
      list.length := mod_lt _ nonempty
  have same : ((list.idxOf start + t) % list.length + 1) % list.length =
      (list.idxOf start + (t + 1)) % list.length := by
    rw [mod_add_mod, Nat.add_assoc]
  rw [nextNode, index, nodeAt, getD_eq_getElem _ _ next]
  simp only [same]
  exact (nodeAt_eq nonempty start (t + 1)).symm

theorem nodeAt_succ_ne (nodup : list.Nodup) (two : 2 ≤ list.length) (t : Nat) :
    nodeAt list start (t + 1) ≠ nodeAt list start t := by
  have nonempty : 0 < list.length := by omega
  rw [nodeAt_eq nonempty, nodeAt_eq nonempty]
  intro same
  have indices := nodup_iff_injective_get.mp nodup same
  have values := congrArg Fin.val indices
  simp only at values
  have split := mod_add_mod (list.idxOf start + t) list.length 1
  rw [Nat.add_assoc] at split
  rw [← split] at values
  have bound : (list.idxOf start + t) % list.length < list.length := mod_lt _ nonempty
  generalize (list.idxOf start + t) % list.length = i at values bound
  rcases Nat.lt_or_ge (i + 1) list.length with inside | last
  · rw [mod_eq_of_lt inside] at values
    omega
  · have full : i + 1 = list.length := by omega
    rw [full, mod_self] at values
    omega

end Round

/-! ## Places -/

inductive Place
  | nowhere
  | resident (page : Nat) (dirty : Bool)
  | swapped (sec : Nat)

/-- The `_PAGE_PRESENT` bit of an entry on the device and the A bit do not matter. -/
def place (e : Pte) : Place :=
  if e.sd then .swapped e.pfn else if e.present then .resident e.pfn e.dirty else .nowhere

def Pte.withoutA (e : Pte) : Pte := { e with accessed := false }

/-- Entries that differ in the A bit only. -/
def SameButA (leaf leaf' : Slot → Pte) : Prop :=
  ∀ slot, (leaf' slot).withoutA = (leaf slot).withoutA

theorem SameButA.refl (leaf : Slot → Pte) : SameButA leaf leaf := fun _ => rfl

theorem SameButA.trans {leaf₁ leaf₂ leaf₃ : Slot → Pte} (first : SameButA leaf₁ leaf₂)
    (second : SameButA leaf₂ leaf₃) : SameButA leaf₁ leaf₃ :=
  fun slot => (second slot).trans (first slot)

variable {leaf' : Slot → Pte} {pagePte : Nat → Option Slot} {slot : Slot} {after before : Place}
  {page : Nat} {dirty : Bool}

theorem SameButA.place {leaf : Slot → Pte} (same : SameButA leaf leaf') (slot : Slot) :
    place (leaf' slot) = place (leaf slot) := by
  show Swap.place (leaf' slot).withoutA = Swap.place (leaf slot).withoutA
  rw [same slot]

theorem SameButA.write {leaf : Slot → Pte} (same : SameButA leaf leaf') (slot : Slot) :
    (leaf' slot).write = (leaf slot).write := by
  show (leaf' slot).withoutA.write = (leaf slot).withoutA.write
  rw [same slot]

theorem SameButA.settled {leaf : Slot → Pte} (same : SameButA leaf leaf') (slot : Slot) :
    (leaf' slot).present = (leaf slot).present ∧ (leaf' slot).sd = (leaf slot).sd := by
  show (leaf' slot).withoutA.present = (leaf slot).withoutA.present ∧
    (leaf' slot).withoutA.sd = (leaf slot).withoutA.sd
  rw [same slot]
  exact ⟨rfl, rfl⟩

theorem sameButA_clear (leaf : Slot → Pte) (slot : Slot) :
    SameButA leaf (update leaf slot { leaf slot with accessed := false }) := by
  intro other
  by_cases same : other = slot
  · rw [same, update_self]
    rfl
  · rw [update_of_ne same]

section Find
variable {list : List Nat} {start : Nat}

theorem findSwapADFrom_spec (k : Kernel) (nodup : k.swapPageList.Nodup)
    (member : start ∈ k.swapPageList) (fuel t : Nat) (early : t < k.swapPageList.length)
    (enough : k.swapPageList.length ≤ t + fuel) :
    ∃ found, findSwapADFrom k start fuel (nodeAt k.swapPageList start t) = some found ∧
      ∀ page, found = some page → page ∈ k.swapPageList := by
  have nonempty : 0 < k.swapPageList.length := by omega
  induction fuel generalizing t with
  | zero => omega
  | succ fuel ih =>
    rw [findSwapADFrom]
    simp only [nextNode_nodeAt nodup nonempty]
    split
    · refine ⟨_, rfl, ?_⟩
      intro page same
      rw [← Option.some.inj same]
      exact nodeAt_mem nonempty start t
    · split
      · exact ⟨none, rfl, nofun⟩
      · rename_i back
        have more : t + 1 < k.swapPageList.length := by
          by_contra last
          have full : t + 1 = k.swapPageList.length := by omega
          rw [full] at back
          exact back (nodeAt_length member)
        exact ih (t + 1) more (by omega)

def Writable (list : List Nat) (pagePte : Nat → Option Slot) (leaf : Slot → Pte) : Prop :=
  ∀ page ∈ list, ∃ slot, pagePte page = some slot ∧ (leaf slot).write = true

theorem Writable.congr {leaf : Slot → Pte}
    (writable : Writable list pagePte leaf) (same : SameButA leaf leaf') :
    Writable list pagePte leaf' := by
  intro page member
  obtain ⟨slot, back, write⟩ := writable page member
  exact ⟨slot, back, (same.write slot).trans write⟩

/-- With two pages or more the search goes on until it comes to a page whose A bit
it has cleared itself, at the latest after one round. -/
theorem findSwapAFrom_spec (nodup : list.Nodup) (member : start ∈ list) (two : 2 ≤ list.length)
    (fuel t : Nat) (leaf : Slot → Pte) (early : t ≤ list.length)
    (enough : list.length + 1 ≤ t + fuel) (writable : Writable list pagePte leaf)
    (cleared : ∀ u < t, ∀ slot, pagePte (nodeAt list start u) = some slot →
      (leaf slot).accessed = false) :
    ∃ page leaf', findSwapAFrom list pagePte fuel (nodeAt list start t) leaf =
      some (some page, leaf') ∧ page ∈ list ∧ SameButA leaf leaf' := by
  have nonempty : 0 < list.length := by omega
  induction fuel generalizing t leaf with
  | zero => omega
  | succ fuel ih =>
    obtain ⟨slot, back, write⟩ := writable _ (nodeAt_mem nonempty start t)
    have guard : (!(leaf slot).accessed && (leaf slot).write) = !(leaf slot).accessed := by
      rw [write, Bool.and_true]
    rw [findSwapAFrom]
    simp only [back, guard, nextNode_nodeAt nodup nonempty, if_neg (nodeAt_succ_ne nodup two t)]
    cases accessed : (leaf slot).accessed with
    | false => exact ⟨_, leaf, rfl, nodeAt_mem nonempty start t, SameButA.refl leaf⟩
    | true =>
      have more : t < list.length := by
        by_contra last
        have full : t = list.length := by omega
        rw [full, nodeAt_length member, ← nodeAt_zero member] at back
        rw [cleared 0 (by omega) slot back] at accessed
        cases accessed
      have clear := sameButA_clear leaf slot
      obtain ⟨page, leaf', run, found, same⟩ := ih (t + 1) _ more (by omega)
        (writable.congr clear) (by
          intro u before other otherBack
          by_cases own : other = slot
          · rw [own, update_self]
          · rw [update_of_ne own]
            have earlier : u ≠ t := by
              rintro rfl
              rw [back] at otherBack
              exact own (Option.some.inj otherBack).symm
            exact cleared u (by omega) other otherBack)
      exact ⟨page, leaf', run, found, clear.trans same⟩

theorem findSwapAFrom_single (fuel : Nat)
    (leaf : Slot → Pte) (back : pagePte start = some slot) (write : (leaf slot).write = true) :
    findSwapAFrom [start] pagePte (fuel + 1) start leaf = if (leaf slot).accessed then
        some (none, update leaf slot { leaf slot with accessed := false })
      else some (some start, leaf) := by
  have next : nextNode [start] start = start := by simp [nextNode]
  rw [findSwapAFrom]
  simp only [back, write, next]
  cases (leaf slot).accessed <;> rfl

theorem findSwapPage_spec (k : Kernel) (nodup : k.swapPageList.Nodup)
    (member : start ∈ k.swapPageList) (writable : Writable k.swapPageList k.pagePte k.leaf) :
    ∃ page leaf, findSwapPage k start = some (page, { k with leaf }) ∧
      page ∈ k.swapPageList ∧ SameButA k.leaf leaf := by
  have nonempty : 0 < k.swapPageList.length := length_pos_of_mem member
  have first := findSwapADFrom_spec k nodup member (k.swapPageList.length + 1) 0 nonempty (by omega)
  rw [nodeAt_zero member] at first
  obtain ⟨found, run, sound⟩ := first
  rw [findSwapPage, findSwapAD, run]
  cases found with
  | some page => exact ⟨page, k.leaf, rfl, sound page rfl, SameButA.refl _⟩
  | none =>
    rcases Nat.lt_or_ge k.swapPageList.length 2 with one | two
    · -- a single page: its A bit is cleared, and the last search takes it
      obtain ⟨page, single⟩ : ∃ page, k.swapPageList = [page] :=
        length_eq_one_iff.mp (by omega)
      obtain rfl : start = page := by simpa [single] using member
      obtain ⟨slot, back, write⟩ := writable start member
      have search := findSwapAFrom_single (2 * k.swapPageList.length) k.leaf back write
      rw [← single] at search
      simp only [findSwapA, search, bind_eq_bind, bind_some]
      cases accessed : (k.leaf slot).accessed with
      | false => exact ⟨start, k.leaf, rfl, member, SameButA.refl _⟩
      | true =>
        have clear := sameButA_clear k.leaf slot
        let k' : Kernel := { k with
          leaf := update k.leaf slot { k.leaf slot with accessed := false } }
        have again := findSwapADFrom_spec k' nodup member (k.swapPageList.length + 1) 0
          nonempty (Nat.le_trans (le_succ _) (Nat.le_of_eq (Nat.zero_add _).symm))
        rw [nodeAt_zero member] at again
        obtain ⟨found', run', sound'⟩ := again
        have last := findSwapAFrom_single (2 * k.swapPageList.length) k'.leaf back
          (by simpa [k'] using write)
        rw [← single] at last
        have off : (k'.leaf slot).accessed = false := by simp [k']
        simp only [if_true, bind_some, findSwapAD]
        rw [show findSwapADFrom { k with
          leaf := update k.leaf slot { k.leaf slot with accessed := false } } start
          (k.swapPageList.length + 1) start = some found' from run']
        cases found' with
        | some page' => exact ⟨page', _, rfl, sound' page' rfl, clear⟩
        | none =>
          rw [off] at last
          rw [show findSwapAFrom k.swapPageList k.pagePte (2 * k.swapPageList.length + 1)
            start (update k.leaf slot { k.leaf slot with accessed := false }) =
            some (some start, k'.leaf) from last]
          exact ⟨start, k'.leaf, rfl, member, clear⟩
    · have search := findSwapAFrom_spec nodup member two (2 * k.swapPageList.length + 1) 0
        k.leaf (Nat.zero_le _) (by omega) writable (fun u before => absurd before (by omega))
      rw [nodeAt_zero member] at search
      obtain ⟨page, leaf, run', found, same⟩ := search
      simp only [findSwapA, run', bind_eq_bind, bind_some]
      exact ⟨page, leaf, rfl, found, same⟩

end Find

/-! ## The invariant -/

def Owns (k : Kernel) (slot : Slot) (sec : Nat) : Prop :=
  place (k.leaf slot) = .swapped sec ∨ ∃ page ∈ k.swapPageList, ∃ dirty,
    place (k.leaf slot) = .resident page dirty ∧ k.sdSec page = sec ∧ sec ≠ 0

/-- `held` is a page that a handler has in its hands. -/
structure Sound (k : Kernel) (held : Option Nat) : Prop where
  writable : ∀ slot, place (k.leaf slot) ≠ .nowhere → (k.leaf slot).write = true
  tables : ∀ slot, place (k.leaf slot) ≠ .nowhere →
    k.second (slot.1, slot.2 / 512 / 512) = true ∧ k.third (slot.1, slot.2 / 512) = true
  distinct : ∀ slot slot' page dirty dirty', place (k.leaf slot) = .resident page dirty →
    place (k.leaf slot') = .resident page dirty' → slot = slot'
  used : ∀ slot page dirty, place (k.leaf slot) = .resident page dirty → page ∉ k.free
  apart : ∀ page, held = some page →
    page ∉ k.free ∧ ∀ slot dirty, place (k.leaf slot) ≠ .resident page dirty
  listed : ∀ page ∈ k.swapPageList, held ≠ some page → ∃ slot dirty,
    k.pagePte page = some slot ∧ place (k.leaf slot) = .resident page dirty
  listOnce : k.swapPageList.Nodup
  freeOnce : k.free.Nodup
  unlisted : ∀ page ∈ k.free, page ∉ k.swapPageList
  clock : ∀ page, k.clockPointer = some page → page ∈ k.swapPageList
  offset : k.swapOffset % 8 = 4
  sectors : ∀ slot sec, Owns k slot sec → sec % 8 = 4 ∧ sec < k.swapOffset
  alone : ∀ slot slot' sec, Owns k slot sec → Owns k slot' sec → slot = slot'
  clean : ∀ slot, ∀ page ∈ k.swapPageList, place (k.leaf slot) = .resident page false →
    k.sdSec page ≠ 0 → ∀ x < 4096, k.bytes page x = readPage k.disk (k.sdSec page) x

/-- The byte of a page, wherever it is. -/
def value (k : Kernel) (slot : Slot) (x : Nat) : UInt8 :=
  match place (k.leaf slot) with
  | .nowhere => 0
  | .resident page _ => k.bytes page x
  | .swapped sec => readPage k.disk sec x

/-- No byte of any page changes. -/
def SameValues (k k' : Kernel) : Prop :=
  ∀ slot, ∀ x < 4096, value k' slot x = value k slot x

theorem SameValues.trans {k₁ k₂ k₃ : Kernel} (first : SameValues k₁ k₂)
    (second : SameValues k₂ k₃) : SameValues k₁ k₃ :=
  fun slot x inside => (second slot x inside).trans (first slot x inside)

theorem value_of_place (k k' : Kernel)
    (samePlace : place (k'.leaf slot) = place (k.leaf slot)) (bytes : k'.bytes = k.bytes)
    (disk : k'.disk = k.disk) (x : Nat) : value k' slot x = value k slot x := by
  rw [value, value, samePlace, bytes, disk]

def Redirtied (before after : Place) : Prop :=
  after = before ∨ ∃ page dirty, before = .resident page dirty ∧ after = .resident page true

section
variable (same : Redirtied before after)
include same

theorem Redirtied.resident (here : after = .resident page dirty) :
    ∃ dirty', before = .resident page dirty' ∧ (dirty = false → dirty' = false) := by
  rcases same with same | ⟨page', dirty', was, now⟩
  · exact ⟨dirty, same.symm.trans here, id⟩
  · rw [now] at here
    cases here
    exact ⟨dirty', was, nofun⟩

theorem Redirtied.swapped {sec : Nat} (here : after = .swapped sec) : before = .swapped sec := by
  rcases same with same | ⟨page', dirty', was, now⟩
  · exact same.symm.trans here
  · rw [now] at here
    cases here

theorem Redirtied.nowhere (gone : before = .nowhere) : after = .nowhere := by
  rcases same with same | ⟨page', dirty', was, now⟩
  · exact same.trans gone
  · rw [gone] at was
    cases was

theorem Redirtied.still (here : before = .resident page dirty) :
    ∃ dirty', after = .resident page dirty' := by
  rcases same with same | ⟨page', dirty', was, now⟩
  · exact ⟨dirty, same.trans here⟩
  · rw [was] at here
    cases here
    exact ⟨true, now⟩

end

theorem Sound.leaf {k : Kernel} {held : Option Nat} (sound : Sound k held) (leaf : Slot → Pte)
    (same : ∀ slot, Redirtied (place (k.leaf slot)) (place (leaf slot)))
    (write : ∀ slot, (leaf slot).write = (k.leaf slot).write) : Sound { k with leaf } held := by
  have placed : ∀ slot, place (leaf slot) ≠ .nowhere → place (k.leaf slot) ≠ .nowhere :=
    fun slot here gone => here ((same slot).nowhere gone)
  have owns : ∀ slot sec, Owns { k with leaf } slot sec → Owns k slot sec := by
    rintro slot sec (swapped | ⟨page, member, dirty, here, copy⟩)
    · exact .inl ((same slot).swapped swapped)
    · obtain ⟨dirty', was, -⟩ := (same slot).resident here
      exact .inr ⟨page, member, dirty', was, copy⟩
  constructor
  case writable => exact fun slot here => (write slot).trans (sound.writable slot (placed slot here))
  case tables => exact fun slot here => sound.tables slot (placed slot here)
  case distinct =>
    intro slot slot' page dirty dirty' here there
    obtain ⟨_, was, -⟩ := (same slot).resident here
    obtain ⟨_, was', -⟩ := (same slot').resident there
    exact sound.distinct slot slot' page _ _ was was'
  case used =>
    intro slot page dirty here
    obtain ⟨_, was, -⟩ := (same slot).resident here
    exact sound.used slot page _ was
  case apart =>
    intro page isHeld
    refine ⟨(sound.apart page isHeld).1, fun slot dirty here => ?_⟩
    obtain ⟨_, was, -⟩ := (same slot).resident here
    exact (sound.apart page isHeld).2 slot _ was
  case listed =>
    intro page member other
    obtain ⟨slot, dirty, back, here⟩ := sound.listed page member other
    obtain ⟨dirty', now⟩ := (same slot).still here
    exact ⟨slot, dirty', back, now⟩
  case listOnce => exact sound.listOnce
  case freeOnce => exact sound.freeOnce
  case unlisted => exact sound.unlisted
  case clock => exact sound.clock
  case offset => exact sound.offset
  case sectors => exact fun slot sec own => sound.sectors slot sec (owns slot sec own)
  case alone =>
    intro slot slot' sec own own'
    exact sound.alone slot slot' sec (owns slot sec own) (owns slot' sec own')
  case clean =>
    intro slot page member here
    obtain ⟨dirty, was, clean⟩ := (same slot).resident here
    rw [clean rfl] at was
    exact sound.clean slot page member was

def Unsettled (k : Kernel) (slot : Slot) : Prop :=
  (k.leaf slot).sd = true ∧ (k.leaf slot).present = true

/-- A part of a fault handler: all bytes stay, and pages that are not in memory
stay where they are. -/
structure Moves (k k' : Kernel) : Prop where
  values : SameValues k k'
  settled : ∀ slot, Unsettled k' slot → Unsettled k slot
  elsewhere : ∀ slot, (∀ page dirty, place (k.leaf slot) ≠ .resident page dirty) →
    place (k'.leaf slot) = place (k.leaf slot)

theorem Moves.trans {k₁ k₂ k₃ : Kernel} (first : Moves k₁ k₂) (second : Moves k₂ k₃) :
    Moves k₁ k₃ where
  values := first.values.trans second.values
  settled := fun slot here => first.settled slot (second.settled slot here)
  elsewhere := by
    intro slot away
    have same := first.elsewhere slot away
    rw [second.elsewhere slot (by rwa [same]), same]

/-- What `clock_algorithm` does with the copy on the device: the page's own
sectors or new ones hold its bytes, and no other sectors change. -/
theorem writeOut_spec (k : Kernel) (page : Nat) (dirty : Bool) (offset : k.swapOffset % 8 = 4)
    (room : k.swapOffset < 2 ^ 32) (own : k.sdSec page ≠ 0 → k.sdSec page % 8 = 4)
    (clean : dirty = false → k.sdSec page ≠ 0 → ∀ x < 4096,
      k.bytes page x = readPage k.disk (k.sdSec page) x) :
    ∃ sec swapOffset disk, writeOut k page dirty = (sec, { k with swapOffset, disk }) ∧
      sec % 8 = 4 ∧ k.swapOffset ≤ swapOffset ∧ swapOffset % 8 = 4 ∧
      ((k.sdSec page ≠ 0 ∧ sec = k.sdSec page) ∨
        (sec = k.swapOffset ∧ swapOffset = k.swapOffset + 8)) ∧
      (∀ x < 4096, readPage disk sec x = k.bytes page x) ∧
      ∀ other, other % 8 = 4 → other ≠ sec → ∀ x < 4096,
        readPage disk other x = readPage k.disk other x := by
  have word : k.swapOffset % 4294967296 = k.swapOffset := mod_eq_of_lt room
  by_cases kept : k.sdSec page = 0
  · -- no copy yet: new sectors
    refine ⟨k.swapOffset, k.swapOffset + 8, writePage k.disk k.swapOffset (k.bytes page), ?_,
      offset, by omega, by omega, .inr ⟨rfl, rfl⟩, ?_, ?_⟩
    · rw [writeOut]
      cases dirty <;> simp [kept, getSwapSec, word]
    · exact fun x inside => readPage_writePage _ _ _ x inside
    · exact fun other aligned different x inside =>
        readPage_writePage_apart _ _ _ _ x inside offset aligned different
  · cases dirty with
    | true =>
      refine ⟨k.sdSec page, k.swapOffset, writePage k.disk (k.sdSec page) (k.bytes page), ?_,
        own kept, Nat.le_refl _, offset, .inl ⟨kept, rfl⟩, ?_, ?_⟩
      · rw [writeOut]
        simp [kept]
      · exact fun x inside => readPage_writePage _ _ _ x inside
      · exact fun other aligned different x inside =>
          readPage_writePage_apart _ _ _ _ x inside (own kept) aligned different
    | false =>
      refine ⟨k.sdSec page, k.swapOffset, k.disk, ?_, own kept, Nat.le_refl _, offset,
        .inl ⟨kept, rfl⟩, ?_, fun _ _ _ _ _ => rfl⟩
      · rw [writeOut]
        simp [kept]
      · exact fun x inside => (clean rfl kept x inside).symm

/-- The entry of a page that was written out to `sec`. -/
def Pte.swappedOut (e : Pte) (sec : Nat) : Pte := { e with pfn := sec, present := false, sd := true }

/-- The page of `slot` has been written out to `sec`. -/
def Kernel.evicted (k : Kernel) (slot : Slot) (sec next swapOffset : Nat)
    (disk : Nat → Nat → UInt8) : Kernel :=
  { k with
    clockPointer := some next, swapOffset, disk
    leaf := update k.leaf slot ((k.leaf slot).swappedOut sec) }

theorem Sound.evict {k : Kernel} (sound : Sound k none)
    (member : page ∈ k.swapPageList) (here : place (k.leaf slot) = .resident page dirty)
    {sec swapOffset next : Nat} {disk : Nat → Nat → UInt8} (nextMember : next ∈ k.swapPageList)
    (aligned : sec % 8 = 4) (grown : k.swapOffset ≤ swapOffset) (offset : swapOffset % 8 = 4)
    (source : (k.sdSec page ≠ 0 ∧ sec = k.sdSec page) ∨
      (sec = k.swapOffset ∧ swapOffset = k.swapOffset + 8))
    (written : ∀ x < 4096, readPage disk sec x = k.bytes page x)
    (others : ∀ other, other % 8 = 4 → other ≠ sec → ∀ x < 4096,
      readPage disk other x = readPage k.disk other x) :
    Sound (k.evicted slot sec next swapOffset disk) (some page) ∧
      Moves k (k.evicted slot sec next swapOffset disk) := by
  set k' := k.evicted slot sec next swapOffset disk
  have now : k'.leaf slot = (k.leaf slot).swappedOut sec := update_self ..
  have rest : ∀ other, other ≠ slot → k'.leaf other = k.leaf other :=
    fun other different => update_of_ne different _ _
  have write : ∀ other, (k'.leaf other).write = (k.leaf other).write := by
    intro other
    by_cases same : other = slot
    · rw [same, now]
      rfl
    · rw [rest other same]
  have placed : ∀ other, place (k'.leaf other) ≠ .nowhere → place (k.leaf other) ≠ .nowhere := by
    intro other there
    by_cases same : other = slot
    · rw [same, here]
      exact nofun
    · rwa [rest other same] at there
  have resident : ∀ other page' dirty', place (k'.leaf other) = .resident page' dirty' →
      other ≠ slot ∧ place (k.leaf other) = .resident page' dirty' := by
    intro other page' dirty' there
    by_cases same : other = slot
    · rw [same, now] at there
      cases there
    · rw [rest other same] at there
      exact ⟨same, there⟩
  have ownPage : k.sdSec page ≠ 0 → Owns k slot (k.sdSec page) :=
    fun copy => .inr ⟨page, member, dirty, here, rfl, copy⟩
  -- sectors owned by another entry are not the ones written
  have ownOther : ∀ other sec', other ≠ slot → Owns k other sec' → sec' ≠ sec := by
    rintro other sec' different own rfl
    rcases source with ⟨copy, rfl⟩ | ⟨rfl, -⟩
    · exact different (sound.alone other slot _ own (ownPage copy))
    · exact Nat.lt_irrefl _ (sound.sectors other _ own).2
  have owns : ∀ other sec', Owns k' other sec' →
      (other = slot ∧ sec' = sec) ∨ (other ≠ slot ∧ Owns k other sec') := by
    rintro other sec' (swapped | ⟨page', inList, dirty', there, copy⟩)
    · by_cases same : other = slot
      · rw [same, now] at swapped
        cases swapped
        exact .inl ⟨same, rfl⟩
      · rw [rest other same] at swapped
        exact .inr ⟨same, .inl swapped⟩
    · obtain ⟨different, old⟩ := resident other page' dirty' there
      exact .inr ⟨different, .inr ⟨page', inList, dirty', old, copy⟩⟩
  have inBounds : sec < swapOffset := by
    rcases source with ⟨copy, rfl⟩ | ⟨rfl, more⟩
    · exact Nat.lt_of_lt_of_le (sound.sectors slot _ (ownPage copy)).2 grown
    · omega
  refine ⟨?_, ?_⟩
  · constructor
    case writable => exact fun other there => (write other).trans (sound.writable other (placed other there))
    case tables => exact fun other there => sound.tables other (placed other there)
    case distinct =>
      intro a b page' d d' hereA hereB
      exact sound.distinct a b page' d d' (resident a page' d hereA).2 (resident b page' d' hereB).2
    case used => exact fun other page' d there => sound.used other page' d (resident other page' d there).2
    case apart =>
      rintro _ ⟨⟩
      refine ⟨sound.used slot page dirty here, fun other d there => ?_⟩
      obtain ⟨different, old⟩ := resident other page d there
      exact different (sound.distinct other slot page d dirty old here)
    case listed =>
      intro page' inList other
      obtain ⟨slot', d, back, there⟩ := sound.listed page' inList (by simp)
      have different : slot' ≠ slot := by
        rintro rfl
        rw [here] at there
        cases there
        exact other rfl
      exact ⟨slot', d, back, (congrArg place (rest slot' different)).trans there⟩
    case listOnce => exact sound.listOnce
    case freeOnce => exact sound.freeOnce
    case unlisted => exact sound.unlisted
    case clock =>
      rintro _ ⟨⟩
      exact nextMember
    case offset => exact offset
    case sectors =>
      intro other sec' own
      rcases owns other sec' own with ⟨-, rfl⟩ | ⟨-, old⟩
      · exact ⟨aligned, inBounds⟩
      · obtain ⟨otherAligned, below⟩ := sound.sectors other sec' old
        exact ⟨otherAligned, Nat.lt_of_lt_of_le below grown⟩
    case alone =>
      intro a b sec' ownA ownB
      rcases owns a sec' ownA with ⟨rfl, rfl⟩ | ⟨notA, oldA⟩
      · rcases owns b sec' ownB with ⟨rfl, -⟩ | ⟨notB, oldB⟩
        · rfl
        · exact absurd rfl (ownOther b sec' notB oldB)
      · rcases owns b sec' ownB with ⟨-, rfl⟩ | ⟨-, oldB⟩
        · exact absurd rfl (ownOther a sec' notA oldA)
        · exact sound.alone a b sec' oldA oldB
    case clean =>
      intro other page' inList there copy x inside
      obtain ⟨different, old⟩ := resident other page' false there
      have own : Owns k other (k.sdSec page') := .inr ⟨page', inList, false, old, rfl, copy⟩
      refine (sound.clean other page' inList old copy x inside).trans ?_
      exact (others _ (sound.sectors other _ own).1 (ownOther other _ different own) x inside).symm
  · constructor
    case values =>
      intro other x inside
      rw [value, value]
      by_cases same : other = slot
      · rw [same, now, here]
        exact written x inside
      · rw [rest other same]
        cases there : place (k.leaf other) with
        | nowhere => rfl
        | resident page' d => rfl
        | swapped sec' =>
          exact others sec' (sound.sectors other sec' (.inl there)).1
            (ownOther other sec' same (.inl there)) x inside
    case settled =>
      rintro other ⟨onDevice, present⟩
      by_cases same : other = slot
      · rw [same, now] at present
        cases present
      · rw [rest other same] at onDevice present
        exact ⟨onDevice, present⟩
    case elsewhere =>
      intro other away
      have different : other ≠ slot := by
        rintro rfl
        exact away page dirty here
      exact congrArg place (rest other different)

theorem Redirtied.refl (p : Place) : Redirtied p p := .inl rfl

theorem clockAlgorithm_spec (k : Kernel) (sound : Sound k none) (some_page : k.swapPageList ≠ [])
    (room : k.swapOffset < 2 ^ 32) :
    ∃ page k', clockAlgorithm k = some (page, k') ∧ Sound k' (some page) ∧ Moves k k' ∧
      k'.free = k.free ∧ k'.second = k.second ∧ k'.third = k.third := by
  obtain ⟨first, rest, list⟩ := exists_cons_of_ne_nil some_page
  have start : k.clockPointer.getD first ∈ k.swapPageList := by
    cases pointer : k.clockPointer with
    | none => exact list ▸ mem_cons_self
    | some page => exact sound.clock page pointer
  have writable : Writable k.swapPageList k.pagePte k.leaf := by
    intro page member
    obtain ⟨slot, dirty, back, here⟩ := sound.listed page member (by simp)
    exact ⟨slot, back, sound.writable slot (by rw [here]; exact nofun)⟩
  obtain ⟨page, leaf, find, member, same⟩ := findSwapPage_spec k sound.listOnce start writable
  have sound' : Sound { k with leaf } none :=
    sound.leaf leaf (fun slot => (same.place slot) ▸ Redirtied.refl _) same.write
  obtain ⟨slot, dirty, back, here⟩ := sound'.listed page member (by simp)
  have dirtyBit : (leaf slot).dirty = dirty := by
    have shape : place (leaf slot) = .resident page dirty := here
    rw [place] at shape
    split at shape
    · cases shape
    · split at shape
      · cases shape
        rfl
      · cases shape
  have nonempty : 0 < k.swapPageList.length := length_pos_of_mem member
  have nextMember : nextNode k.swapPageList page ∈ k.swapPageList := by
    rw [nextNode, getD_eq_getElem _ _ (mod_lt _ nonempty)]
    exact getElem_mem _
  have own : k.sdSec page ≠ 0 → k.sdSec page % 8 = 4 := by
    intro copy
    exact (sound'.sectors slot _ (.inr ⟨page, member, dirty, here, rfl, copy⟩)).1
  obtain ⟨sec, swapOffset, disk, out, aligned, grown, offset, source, written, others⟩ :=
    writeOut_spec { k with leaf, clockPointer := some (nextNode k.swapPageList page) } page
      (leaf slot).dirty sound.offset room own (by
        intro clean copy
        rw [dirtyBit] at clean
        rw [clean] at here
        exact sound'.clean slot page member here copy)
  obtain ⟨final, moves⟩ := sound'.evict member here nextMember aligned grown offset source
    written others
  have began : Moves k { k with leaf } := by
    refine ⟨fun other x _ => value_of_place k { k with leaf } (same.place other) rfl rfl x, ?_,
      fun other _ => same.place other⟩
    rintro other ⟨onDevice, present⟩
    exact ⟨(same.settled other).2.symm.trans onDevice, (same.settled other).1.symm.trans present⟩
  refine ⟨page, _, ?_, final, began.trans moves, rfl, rfl, rfl⟩
  have head : k.swapPageList.head? = some first := by rw [list]; rfl
  have backAgain : k.pagePte page = some slot := back
  simp only [clockAlgorithm, head, bind_eq_bind, bind_some, find, backAgain]
  rw [out]
  rfl

end CCore.Swap
