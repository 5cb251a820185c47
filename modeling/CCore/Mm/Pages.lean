import Mathlib.Data.List.Range
import CCore.Lib.Ring
import CCore.Lib.Run
import CCore.Mm.Memory

/-!
# The page manager on its linked lists (`kernel/mm/mm.c`)

`init_mem`, `allocPage`, `freePage`, `freePage_voilence`, `share_add` and
`share_sub` with the list nodes they move: a page is its index in `pageRecyc`,
and its node is linked into the free list or into `usedPageList`.  The processes
that wait for a page are left out; waking one touches no page.

`PageLists` is what the lists and counts look like between two calls, and
`PageLists.refines` relates each call to the page manager of `CCore.Mm.Memory`,
which keeps the free pages as a plain list.
-/
namespace CCore.Mm

open Intrusive Run Function List

inductive PageNode where
  | freeSourceList
  | usedPageList
  | page (i : Nat)
  deriving DecidableEq

structure Pages where
  links : Links PageNode
  shareNum : Nat → Nat
  sourceNum : Nat
  bytes : Nat → Nat → Nat

namespace Pages

/-- One turn of the loop of `init_mem`. -/
def initPage (s : Pages) (i : Nat) : Pages :=
  { s with
    links := listAddTail s.links (.page i) .freeSourceList
    shareNum := update s.shareNum i 0 }

def initMem (numRec : Nat) (s : Pages) : Pages :=
  let linked := (List.range numRec).foldl initPage
    { s with links := initList s.links .freeSourceList }
  { linked with sourceNum := numRec }

/-- The page that the first node of the free list belongs to; `none` is the
branch that sleeps. -/
def firstFree (s : Pages) : Option Nat :=
  if listEmpty s.links .freeSourceList then none
  else
    match s.links.next .freeSourceList with
    | some (.page i) => some i
    | _ => none

/-- `kmemset(new->kva_begin, 0, PAGE_SIZE)`. -/
def clearPage (s : Pages) (i : Nat) : Pages :=
  { s with bytes := update s.bytes i fun _ => 0 }

def shareAdd (s : Pages) (i : Nat) : Pages :=
  { s with shareNum := update s.shareNum i ((s.shareNum i + 1) % 256) }

def shareSub (s : Pages) (i : Nat) : Pages :=
  { s with shareNum := update s.shareNum i ((s.shareNum i + 255) % 256) }

def allocPage (s : Pages) : Option (Nat × Pages) :=
  (firstFree s).map fun i =>
    (i, ({ s.shareAdd i with
      links := listAddTail (listDel s.links (.page i)) (.page i) .usedPageList
      sourceNum := s.sourceNum - 1 } : Pages).clearPage i)

def freePage (s : Pages) (i : Nat) : Pages :=
  if (s.shareNum i + 255) % 256 ≠ 0 then s.shareSub i
  else
    { s.shareSub i with
      links := listAdd (listDel s.links (.page i)) (.page i) .freeSourceList
      sourceNum := s.sourceNum + 1 }

def freePageVoilence (s : Pages) (i : Nat) : Pages :=
  { s with
    shareNum := update s.shareNum i 0
    links := listAddTail (listDel s.links (.page i)) (.page i) .freeSourceList
    sourceNum := s.sourceNum + 1 }

end Pages

inductive PageCall where
  | allocPage
  | freePage (i : Nat)
  | freePageVoilence (i : Nat)
  | shareAdd (i : Nat)
  | shareSub (i : Nat)

/-- A call of the page manager.  An `allocPage` that finds no page goes to sleep
and changes none; its retry is a call of its own. -/
def pageStep (s : Pages) : PageCall → Option Pages
  | .allocPage =>
    match s.allocPage with
    | some (_, next) => some next
    | none => some s
  | .freePage i => some (s.freePage i)
  | .freePageVoilence i => some (s.freePageVoilence i)
  | .shareAdd i => some (s.shareAdd i)
  | .shareSub i => some (s.shareSub i)

/-- The page is in use, and no count leaves the range of its `uint8_t`. -/
def PageCall.Fair (numRec : Nat) (s : Pages) : PageCall → Prop
  | .allocPage => True
  | .freePage i | .freePageVoilence i => i < numRec ∧ 1 ≤ s.shareNum i
  | .shareAdd i => i < numRec ∧ 1 ≤ s.shareNum i ∧ s.shareNum i < 255
  | .shareSub i => i < numRec ∧ 2 ≤ s.shareNum i

instance (numRec : Nat) (s : Pages) : (call : PageCall) → Decidable (call.Fair numRec s)
  | .allocPage => isTrue trivial
  | .freePage _ | .freePageVoilence _ => inferInstanceAs (Decidable (_ ∧ _))
  | .shareAdd _ => inferInstanceAs (Decidable (_ ∧ _ ∧ _))
  | .shareSub _ => inferInstanceAs (Decidable (_ ∧ _))

/-- The free and the used pages, in the order of their lists. -/
structure PageLists (numRec : Nat) (s : Pages) (free used : List Nat) : Prop where
  freeRing : Ring s.links .freeSourceList (free.map .page)
  usedRing : Ring s.links .usedPageList (used.map .page)
  known : ∀ i, i ∈ free ∨ i ∈ used ↔ i < numRec
  free_iff : ∀ i < numRec, i ∈ free ↔ s.shareNum i = 0
  apart : ∀ i ∈ free, i ∉ used
  byte : ∀ i < numRec, s.shareNum i < 256
  counted : s.sourceNum = free.length

theorem page_injective : Function.Injective PageNode.page := by
  intro i j same
  cases same
  rfl

@[simp] theorem page_mem_map {i : Nat} {xs : List Nat} :
    PageNode.page i ∈ xs.map PageNode.page ↔ i ∈ xs :=
  mem_map_of_injective page_injective

@[simp] theorem freeSourceList_notMem (xs : List Nat) :
    PageNode.freeSourceList ∉ xs.map PageNode.page := by
  simp

@[simp] theorem usedPageList_notMem (xs : List Nat) :
    PageNode.usedPageList ∉ xs.map PageNode.page := by
  simp

theorem outside_of_apart {xs ys : List Nat} {h h' : PageNode} (apart : ∀ i ∈ xs, i ∉ ys)
    (heads : h = .freeSourceList ∧ h' = .usedPageList ∨ h = .usedPageList ∧ h' = .freeSourceList) :
    ∀ x ∈ h :: xs.map PageNode.page, x ∉ h' :: ys.map PageNode.page := by
  intro x mem other
  rcases heads with ⟨rfl, rfl⟩ | ⟨rfl, rfl⟩ <;>
  · rcases mem_cons.mp mem with rfl | inside
    · simp at other
    · obtain ⟨i, mine, rfl⟩ := mem_map.mp inside
      rcases mem_cons.mp other with same | theirs
      · cases same
      · exact apart i mine (page_mem_map.mp theirs)

variable {back front used : List Nat} {numRec : Nat} {s : Pages}

section Lists
variable {i : Nat} {free : List Nat}

section
variable (lists : PageLists numRec s free used)
include lists

theorem PageLists.nodup : free.Nodup :=
  ((nodup_cons.mp lists.freeRing.nodup).2).of_map PageNode.page

theorem PageLists.used_nodup : used.Nodup :=
  ((nodup_cons.mp lists.usedRing.nodup).2).of_map PageNode.page

theorem PageLists.used_of_share (inside : i < numRec) (held : 1 ≤ s.shareNum i) : i ∈ used := by
  rcases (lists.known i).mpr inside with mem | mem
  · have zero := (lists.free_iff i inside).mp mem
    omega
  · exact mem

end

/-! ## What each call does to the lists -/

section
variable (lists : PageLists numRec s free used)
include lists

theorem PageLists.used_apart : ∀ i ∈ used, i ∉ free :=
  fun i mem other => lists.apart i other mem

theorem firstFree_eq : s.firstFree = free.head? := by
  unfold Pages.firstFree
  cases free with
  | nil => rw [if_pos ((listEmpty_iff lists.freeRing).mpr rfl)]; rfl
  | cons i rest =>
    have filled : ¬ listEmpty s.links .freeSourceList = true := by
      rw [listEmpty_iff lists.freeRing]
      simp
    rw [if_neg filled, lists.freeRing.next_head]
    rfl

theorem PageLists.recount {value : Nat}
    (held : 1 ≤ s.shareNum i) (low : 1 ≤ value) (high : value < 256) :
    PageLists numRec { s with shareNum := update s.shareNum i value } free used where
  freeRing := lists.freeRing
  usedRing := lists.usedRing
  known := lists.known
  free_iff j inside := by
    rcases eq_or_ne j i with rfl | same
    · rw [lists.free_iff j inside]
      simp only [update_self]
      omega
    · simp only [update_of_ne same, lists.free_iff j inside]
  apart := lists.apart
  byte j inside := by
    rcases eq_or_ne j i with rfl | same
    · simpa using high
    · simpa [same] using lists.byte j inside
  counted := lists.counted

theorem PageLists.shareAdd (held : 1 ≤ s.shareNum i)
    (room : s.shareNum i < 255) : PageLists numRec (s.shareAdd i) free used := by
  refine lists.recount held ?_ ?_ <;> omega

theorem PageLists.shareSub (inside : i < numRec)
    (shared : 2 ≤ s.shareNum i) : PageLists numRec (s.shareSub i) free used := by
  have byte := lists.byte i inside
  refine lists.recount (by omega) ?_ ?_ <;> omega

end

theorem PageLists.release (lists : PageLists numRec s free used) {next : List Nat}
    (split : used = front ++ i :: back) (placed : ∀ j, j ∈ next ↔ j = i ∨ j ∈ free)
    (size : next.length = free.length + 1) {links : Links PageNode}
    (freeRing : Ring links .freeSourceList (next.map .page))
    (usedRing : Ring links .usedPageList ((front ++ back).map .page)) : PageLists numRec
    { s with links := links, shareNum := update s.shareNum i 0, sourceNum := s.sourceNum + 1 }
    next (front ++ back) := by
  have member : i ∈ used := by simp [split]
  have inside : i < numRec := (lists.known i).mp (.inr member)
  have once : i ∉ front ++ back := by
    have nodup := lists.used_nodup
    rw [split, List.nodup_append, nodup_cons] at nodup
    simp only [mem_append, not_or]
    exact ⟨fun mem => nodup.2.2 i mem i (by simp) rfl, nodup.2.1.1⟩
  have others : ∀ j, j ≠ i → (j ∈ front ++ back ↔ j ∈ used) := by
    intro j other
    simp [split, other]
  refine ⟨freeRing, usedRing, ?_, ?_, ?_, ?_, ?_⟩
  · intro j
    by_cases same : j = i
    · simp [same, inside, placed]
    · rw [placed, others j same, ← lists.known j]
      simp [same]
  · intro j below
    by_cases same : j = i
    · simp [same, placed]
    · simp [placed, same, lists.free_iff j below]
  · intro j mem
    rcases (placed j).mp mem with rfl | free
    · exact once
    · have other : j ≠ i := by
        rintro rfl
        exact lists.apart j free member
      rw [others j other]
      exact lists.apart j free
  · intro j below
    by_cases same : j = i
    · simp [same]
    · simpa [same] using lists.byte j below
  · simp [lists.counted, size]

section
variable (lists : PageLists numRec s free used)
include lists

theorem PageLists.freePage_shared (inside : i < numRec)
    (shared : 2 ≤ s.shareNum i) : PageLists numRec (s.freePage i) free used := by
  have byte := lists.byte i inside
  rw [Pages.freePage, if_pos (by omega)]
  exact lists.shareSub inside shared

theorem PageLists.freePage_last (split : used = front ++ i :: back) (single : s.shareNum i = 1) :
    PageLists numRec (s.freePage i) (i :: free) (front ++ back) := by
  have source : Ring s.links .usedPageList (front.map .page ++ .page i :: back.map .page) := by
    simpa [split] using lists.usedRing
  have rings := Ring.move source lists.freeRing
    (by simpa [split] using outside_of_apart lists.apart (.inl ⟨rfl, rfl⟩))
  rw [Pages.freePage, Pages.shareSub, if_neg (by simp [single]), single]
  refine lists.release split (by simp) (by simp) rings.2 ?_
  rw [map_append]
  exact rings.1

theorem PageLists.freePageVoilence (split : used = front ++ i :: back) :
    PageLists numRec (s.freePageVoilence i) (free ++ [i]) (front ++ back) := by
  have source : Ring s.links .usedPageList (front.map .page ++ .page i :: back.map .page) := by
    simpa [split] using lists.usedRing
  have rings := Ring.moveTail source lists.freeRing
    (by simpa [split] using outside_of_apart lists.apart (.inl ⟨rfl, rfl⟩))
  exact lists.release split (by simp [or_comm]) (by simp) (by simpa using rings.2)
    (by simpa using rings.1)

end

theorem PageLists.allocPage_sleeps (lists : PageLists numRec s [] used) : s.allocPage = none := by
  rw [Pages.allocPage, firstFree_eq lists]
  rfl

theorem PageLists.allocPage {rest : List Nat} (lists : PageLists numRec s (i :: rest) used) :
    ∃ next, s.allocPage = some (i, next) ∧ PageLists numRec next rest (used ++ [i]) ∧
      next.bytes = update s.bytes i (fun _ => 0) ∧ next.shareNum = update s.shareNum i 1 := by
  have inside : i < numRec := (lists.known i).mp (.inl (by simp))
  have unused : s.shareNum i = 0 := (lists.free_iff i inside).mp (by simp)
  have fresh := nodup_cons.mp lists.nodup
  have source : Ring s.links .freeSourceList ([] ++ .page i :: rest.map .page) := lists.freeRing
  have rings := Ring.moveTail source lists.usedRing
    (by simpa using outside_of_apart lists.used_apart (.inr ⟨rfl, rfl⟩))
  refine ⟨_, by unfold Pages.allocPage; rw [firstFree_eq lists]; rfl, ?_, rfl, ?_⟩
  · refine ⟨rings.1, ?_, ?_, ?_, ?_, ?_, ?_⟩
    · rw [map_append]
      exact rings.2
    · intro j
      rw [← lists.known j]
      simp only [mem_append, mem_cons, not_mem_nil, or_false]
      tauto
    · intro j below
      have before := lists.free_iff j below
      rcases eq_or_ne j i with rfl | same
      · simp [Pages.clearPage, Pages.shareAdd, unused, fresh.1]
      · simpa [Pages.clearPage, Pages.shareAdd, same] using before
    · intro j mem
      have other : j ≠ i := fun same => fresh.1 (same ▸ mem)
      simpa [other] using lists.apart j (mem_cons_of_mem _ mem)
    · intro j below
      have before := lists.byte j below
      rcases eq_or_ne j i with rfl | same
      · simp [Pages.clearPage, Pages.shareAdd, unused]
      · simpa [Pages.clearPage, Pages.shareAdd, same] using before
    · simp [Pages.clearPage, lists.counted]
  · simp [Pages.clearPage, Pages.shareAdd, unused]

end Lists

/-- The page manager of `CCore.Mm.Memory` with these free pages. -/
def Pages.toMem (s : Pages) (free : List Nat) (entry : Slot → Option Pte) : Mem :=
  ⟨free, s.sourceNum, s.shareNum, s.bytes, entry⟩

/-- The calls on the plain list of the free pages. -/
def memStep (m : Mem) : PageCall → Option Mem
  | .allocPage =>
    match Mm.allocPage .user m with
    | .ok _ m' | .error _ m' => some m'
  | .freePage i => some (m.freePage i)
  | .freePageVoilence i => some { m with
      free := m.free ++ [i], sourceNum := m.sourceNum + 1, shareNum := update m.shareNum i 0 }
  | .shareAdd i => some (m.shareAdd i)
  | .shareSub i => some (m.shareSub i)

variable {free : List Nat} {entry : Slot → Option Pte}

theorem PageLists.refines {call : PageCall} (lists : PageLists numRec s free used)
    (fair : call.Fair numRec s) : ∃ next free' used', pageStep s call = some next ∧
      PageLists numRec next free' used' ∧
      memStep (s.toMem free entry) call = some (next.toMem free' entry) := by
  cases call with
  | allocPage =>
    cases free with
    | nil => exact ⟨s, [], used, by rw [pageStep, lists.allocPage_sleeps], lists, rfl⟩
    | cons i rest =>
      obtain ⟨next, alloc, kept, bytes, counts⟩ := lists.allocPage
      have unused : s.shareNum i = 0 :=
        (lists.free_iff i ((lists.known i).mp (.inl (by simp)))).mp (by simp)
      have size := lists.counted
      refine ⟨next, rest, _, by rw [pageStep, alloc], kept, ?_⟩
      simp [memStep, Mm.allocPage, Pages.toMem, Mem.shareAdd, Mem.fillPage, bytes, counts, unused,
        size, kept.counted]
  | freePage i =>
    obtain ⟨inside, held⟩ := fair
    by_cases single : s.shareNum i = 1
    · obtain ⟨front, back, split⟩ := append_of_mem (lists.used_of_share inside held)
      refine ⟨_, _, _, rfl, lists.freePage_last split single, ?_⟩
      simp [memStep, Mem.freePage, Pages.freePage, Pages.toMem, Mem.shareSub, Pages.shareSub, single]
    · have byte := lists.byte i inside
      have shared : (s.shareNum i + 255) % 256 ≠ 0 := by omega
      refine ⟨_, _, _, rfl, lists.freePage_shared inside (by omega), ?_⟩
      simp [memStep, Mem.freePage, Pages.freePage, Pages.toMem, Mem.shareSub, Pages.shareSub, shared]
  | freePageVoilence i =>
    obtain ⟨front, back, split⟩ := append_of_mem (lists.used_of_share fair.1 fair.2)
    exact ⟨_, _, _, rfl, lists.freePageVoilence split, rfl⟩
  | shareAdd i => exact ⟨_, _, _, rfl, lists.shareAdd fair.2.1 fair.2.2, rfl⟩
  | shareSub i => exact ⟨_, _, _, rfl, lists.shareSub fair.1 fair.2, rfl⟩

theorem initPage_loop (s : Pages) (n : Nat) (used : Ring s.links .usedPageList []) :
    let linked := (List.range n).foldl Pages.initPage
      { s with links := initList s.links .freeSourceList }
    Ring linked.links .freeSourceList ((List.range n).map .page) ∧
      Ring linked.links .usedPageList [] ∧ ∀ i < n, linked.shareNum i = 0 := by
  induction n with
  | zero =>
    refine ⟨ring_initList _ _, ?_, by simp⟩
    refine used.congr ?_ ?_ <;> simp [initList]
  | succ n ih =>
    rw [range_succ, foldl_concat]
    obtain ⟨freeRing, usedRing, zero⟩ := ih
    generalize (List.range n).foldl Pages.initPage
      { s with links := initList s.links .freeSourceList } = linked at freeRing usedRing zero
    refine ⟨?_, ?_, ?_⟩
    · rw [map_append]
      exact freeRing.addTail (by simp)
    · refine usedRing.congr ?_ ?_ <;>
      · intro x mem
        rw [mem_singleton.mp mem]
        have outside := listAddTail_outside freeRing
          (show PageNode.usedPageList ≠ .page n by simp) (by simp)
        first | exact outside.1 | exact outside.2
    · intro i below
      by_cases same : i = n
      · simp [Pages.initPage, same]
      · simpa [Pages.initPage, same] using zero i (by omega)

theorem initMem_lists (numRec : Nat) (s : Pages) (used : Ring s.links .usedPageList []) :
    PageLists numRec (s.initMem numRec) (List.range numRec) [] := by
  obtain ⟨freeRing, usedRing, zero⟩ := initPage_loop s numRec used
  refine ⟨freeRing, usedRing, by simp, ?_, by simp, ?_, ?_⟩
  · intro i below
    have count := zero i below
    simpa [Pages.initMem, below] using count
  · intro i below
    have count : (s.initMem numRec).shareNum i = 0 := zero i below
    omega
  · simp [Pages.initMem]

theorem pageStep_keeps {next : Pages} {call : PageCall}
    (before : ∃ free used, PageLists numRec s free used) (fair : call.Fair numRec s)
    (ran : pageStep s call = some next) : ∃ free used, PageLists numRec next free used := by
  obtain ⟨free, used, lists⟩ := before
  cases call with
  | allocPage =>
    rw [pageStep] at ran
    cases free with
    | nil =>
      rw [lists.allocPage_sleeps] at ran
      cases ran
      exact ⟨_, _, lists⟩
    | cons i rest =>
      obtain ⟨after, alloc, kept, _⟩ := lists.allocPage
      rw [alloc] at ran
      cases ran
      exact ⟨_, _, kept⟩
  | freePage i =>
    cases ran
    obtain ⟨inside, held⟩ := fair
    by_cases single : s.shareNum i = 1
    · obtain ⟨front, back, split⟩ := append_of_mem (lists.used_of_share inside held)
      exact ⟨_, _, lists.freePage_last split single⟩
    · exact ⟨_, _, lists.freePage_shared inside (by omega)⟩
  | freePageVoilence i =>
    cases ran
    obtain ⟨front, back, split⟩ := append_of_mem (lists.used_of_share fair.1 fair.2)
    exact ⟨_, _, lists.freePageVoilence split⟩
  | shareAdd i =>
    cases ran
    exact ⟨_, _, lists.shareAdd fair.2.1 fair.2.2⟩
  | shareSub i =>
    cases ran
    exact ⟨_, _, lists.shareSub fair.1 fair.2⟩

/-- The free list holds the pages with count zero, each once, and `source_num`
is its length. -/
def FreeListExact (numRec : Nat) (s : Pages) : Prop :=
  ∃ free : List Nat, Ring s.links .freeSourceList (free.map .page) ∧ free.Nodup ∧
    (∀ i, i ∈ free ↔ i < numRec ∧ s.shareNum i = 0) ∧ s.sourceNum = free.length

/-- `allocPage` takes a zero-filled page off the free list, unless that list is
empty, and touches no other page. -/
def AllocsFresh (numRec : Nat) (s : Pages) : Prop :=
  ¬ listEmpty s.links .freeSourceList = true →
    ∃ i next, s.allocPage = some (i, next) ∧ i < numRec ∧ s.shareNum i = 0 ∧
      (∀ offset, next.bytes i offset = 0) ∧ next.shareNum i = 1 ∧
      ∀ j, j ≠ i → next.shareNum j = s.shareNum j ∧ next.bytes j = s.bytes j

theorem PageLists.exact {free : List Nat}
    (lists : PageLists numRec s free used) : FreeListExact numRec s := by
  refine ⟨free, lists.freeRing, lists.nodup, ?_, lists.counted⟩
  intro i
  constructor
  · intro mem
    have inside := (lists.known i).mp (.inl mem)
    exact ⟨inside, (lists.free_iff i inside).mp mem⟩
  · rintro ⟨inside, zero⟩
    exact (lists.free_iff i inside).mpr zero

theorem PageLists.allocsFresh {free : List Nat}
    (lists : PageLists numRec s free used) : AllocsFresh numRec s := by
  intro filled
  rw [listEmpty_iff lists.freeRing, map_eq_nil_iff] at filled
  obtain ⟨i, rest, rfl⟩ := exists_cons_of_ne_nil filled
  obtain ⟨next, alloc, _, bytes, counts⟩ := lists.allocPage
  have inside : i < numRec := (lists.known i).mp (.inl (by simp))
  refine ⟨i, next, alloc, inside, (lists.free_iff i inside).mp (by simp), ?_, ?_, ?_⟩
  · simp [bytes]
  · simp [counts]
  · intro j other
    simp [bytes, counts, other]

theorem pages_along (numRec : Nat) (boot : Pages) (calls : List PageCall)
    (used : Ring boot.links .usedPageList [])
    (fair : StepsMeet pageStep (fun s call => call.Fair numRec s) (boot.initMem numRec) calls) :
    HoldsAlong pageStep (fun s => FreeListExact numRec s ∧ AllocsFresh numRec s)
      (boot.initMem numRec) calls :=
  holdsAlong_of_stepsMeet pageStep _ (fun s => ∃ free used, PageLists numRec s free used) _
    (fun _ ⟨_, _, lists⟩ => ⟨lists.exact, lists.allocsFresh⟩)
    (fun _ _ _ before fair ran => pageStep_keeps before fair ran) _ calls
    ⟨_, _, initMem_lists numRec boot used⟩ fair

/-- Memory at boot: only `usedPageList` has been set up. -/
def bootPages : Pages where
  links := initList ⟨fun _ => none, fun _ => none⟩ .usedPageList
  shareNum _ := 0
  sourceNum := 0
  bytes _ _ := 0

theorem pages_along_small :
    HoldsAlong pageStep (fun s => FreeListExact 3 s ∧ AllocsFresh 3 s) (bootPages.initMem 3)
      [.allocPage, .shareAdd 0, .allocPage, .shareSub 0, .freePage 0, .freePageVoilence 1] :=
  pages_along 3 bootPages _ (ring_initList _ _) (by decide +kernel)

/-- On linked lists and on the plain list of free pages a fair run goes the same way. -/
theorem pages_refine_along (lists : PageLists numRec s free used) (calls : List PageCall)
    (fair : StepsMeet pageStep (fun s call => call.Fair numRec s) s calls) :
    ∃ final free' used', runActs pageStep s calls = some final ∧
      PageLists numRec final free' used' ∧
      runActs memStep (s.toMem free entry) calls = some (final.toMem free' entry) := by
  induction calls generalizing s free used with
  | nil => exact ⟨s, free, used, rfl, lists, rfl⟩
  | cons call rest ih =>
    obtain ⟨next, free', used', ran, kept, same⟩ := lists.refines fair.1
    obtain ⟨final, free'', used'', run, last, sameRun⟩ := ih kept (fair.2 next ran)
    exact ⟨final, free'', used'', by rw [runActs_cons, ran]; exact run, last,
      by rw [runActs_cons, same]; exact sameRun⟩

theorem pages_refine_small : ∃ final free used,
    runActs pageStep (bootPages.initMem 3) [.allocPage, .shareAdd 0, .freePage 0] = some final ∧
      PageLists 3 final free used ∧
      runActs memStep ((bootPages.initMem 3).toMem (List.range 3) fun _ => none)
        [.allocPage, .shareAdd 0, .freePage 0] = some (final.toMem free fun _ => none) :=
  pages_refine_along (initMem_lists 3 bootPages (ring_initList _ _)) _ (by decide +kernel)

end CCore.Mm
