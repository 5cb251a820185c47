import CCore.Bio.Refine
import CCore.Lib.Run

/-!
# The pages of the block cache (`bio.c`, `special_ctx.c`, `mm.c`)

`binit` takes the pages of the buffer array from the page manager and moves their
nodes to `bioPageList`; `do_extend` switches to the extended mode and gives the
pages on that list back while the cache goes on using them.  The lists through
`pageRecyc` are kept as plain lists of page numbers, and the cache is the one of
`CCore.Bio.Cache` with all calls made by one process at a time.

`cacheOwned_along_iff` gives the exact condition under which the cache keeps its
pages and its unwritten data.
-/
namespace CCore.Bio

open Run Function List Option Bool

/-! ## Page lists -/

/-- `NUM_REC` on QEMU. -/
def numRec : Nat := 1822

def bnum : Nat := 1600

/-- `sizeof(struct buf)`. -/
def bufBytes : Nat := 600

/-- The pages that `binit` allocates. -/
def cachePages : Nat := (bufBytes * bnum + 4095) / 4096

def actualBufNum : Nat := cachePages * 4096 / bufBytes

/-- The lists that the node of a page can be on, and the counts. -/
structure PageBook where
  free : List Nat
  used : List Nat
  bio : List Nat
  extend : List Nat
  shareNum : Nat → Nat
  sourceNum : Nat

namespace PageBook

def initMem : PageBook := ⟨List.range numRec, [], [], [], fun _ => 0, numRec⟩

/-- `list_del` takes the node off whatever list it is on. -/
def listDel (b : PageBook) (i : Nat) : PageBook :=
  { b with
    free := b.free.erase i, used := b.used.erase i, bio := b.bio.erase i
    extend := b.extend.erase i }

/-- `none` is the branch that sleeps. -/
def allocPage (b : PageBook) : Option (Nat × PageBook) :=
  b.free.head?.map fun i =>
    (i, { b.listDel i with
      used := (b.listDel i).used ++ [i]
      shareNum := update b.shareNum i ((b.shareNum i + 1) % 256)
      sourceNum := b.sourceNum - 1 })

def freePage (b : PageBook) (i : Nat) : PageBook :=
  let counted := { b with shareNum := update b.shareNum i ((b.shareNum i + 255) % 256) }
  if (b.shareNum i + 255) % 256 ≠ 0 then counted
  else
    { counted.listDel i with
      free := i :: (counted.listDel i).free, sourceNum := b.sourceNum + 1 }

/-- Also `kfree_voilence`, whose range test every page passes. -/
def freePageVoilence (b : PageBook) (i : Nat) : PageBook :=
  { b.listDel i with
    free := (b.listDel i).free ++ [i]
    shareNum := update b.shareNum i 0
    sourceNum := b.sourceNum + 1 }

/-- `kmalloc` and `list_move` to `bioPageList`. -/
def allocBioPage (b : PageBook) : Option (Nat × PageBook) :=
  b.allocPage.map fun (i, b) => (i, { b.listDel i with bio := i :: (b.listDel i).bio })

def allocExtendPage (b : PageBook) : Option (Nat × PageBook) :=
  b.allocPage.map fun (i, b) => (i, { b.listDel i with extend := (b.listDel i).extend ++ [i] })

/-- What the kernel allocates before `binit`. -/
def allocPages : Nat → PageBook → Option PageBook
  | 0, b => some b
  | count + 1, b => b.allocPage.bind fun (_, b) => allocPages count b

def allocBioPages : Nat → PageBook → Option PageBook
  | 0, b => some b
  | count + 1, b => b.allocBioPage.bind fun (_, b) => allocBioPages count b

end PageBook

/-! ## The cache and its pages -/

/-- `bufs` is the page where the buffer array starts; `intact` says that no page of
the array was cleared.  `array` has the data last written to every sector. -/
structure CacheKernel (D : Type) where
  cache : Cache actualBufNum D
  intact : Bool
  bufs : Nat
  book : PageBook
  statusCtx : Bool
  threshold : Nat
  maxExtend : Nat
  fdNodes : Nat
  array : Nat → D

inductive ExtendHow where
  | extendFree
  | extendLoad
  deriving DecidableEq

inductive CacheAct (D : Type) where
  | disk (op : Op D)
  | allocPage
  | freePage (i : Fin numRec)
  | doExtend (num : Nat) (how : ExtendHow) (threshold : Nat)

variable {D : Type}

def CacheKernel.Backs (s : CacheKernel D) (i : Nat) : Prop := s.bufs ≤ i ∧ i < s.bufs + cachePages

instance (s : CacheKernel D) (i : Nat) : Decidable (s.Backs i) :=
  inferInstanceAs (Decidable (_ ∧ _))

/-- `init_mem`, the pages allocated before `binit`, and `binit`. -/
def bootCache (blank : D) (device : Nat → D) (before : Nat) : Option (CacheKernel D) :=
  (PageBook.initMem.allocPages before).bind fun b =>
    b.free.head?.bind fun bufs =>
      (b.allocBioPages cachePages).map fun book =>
        { cache := binit actualBufNum blank device
          intact := true, bufs := bufs, book := book, statusCtx := false, threshold := 0
          maxExtend := 0, fdNodes := 0, array := device }

/-- `kmemset` of page `i` by `allocPage`. -/
def CacheKernel.allocated (s : CacheKernel D) (i : Nat) (book : PageBook) : CacheKernel D :=
  { s with intact := s.intact && !decide (s.Backs i), book := book }

def CacheKernel.allocExtendPages : Nat → CacheKernel D → Option (CacheKernel D)
  | 0, s => some s
  | count + 1, s =>
    s.book.allocExtendPage.bind fun (i, book) => allocExtendPages count (s.allocated i book)

/-- `PAGE_SIZE / sizeof(my_pipe_t)`. -/
def pipePage : Nat := 5

/-- `pcb[1..NUM_MAX_TASK)` each take a node of `extendFdList`. -/
def pcbNodes : Nat := 99

/-- `none`: asleep for a page, or the failed assertion. -/
def extendPcbFd (s : CacheKernel D) (num : Nat) : Option (CacheKernel D) :=
  let recycled := { s with
    statusCtx := true, maxExtend := num
    book := s.book.bio.foldl PageBook.freePageVoilence s.book }
  (recycled.allocExtendPages ((num - 1 + (pipePage - 1)) / pipePage)).bind fun s =>
    let fdNodes := s.fdNodes + (num - 1)
    if fdNodes < pcbNodes then none else some { s with fdNodes := fdNodes - pcbNodes }

def closeExtend (s : CacheKernel D) : CacheKernel D :=
  { s with book := s.book.extend.foldl PageBook.freePageVoilence s.book, statusCtx := false }

def doExtend (s : CacheKernel D) (num : Nat) (how : ExtendHow) (threshold : Nat) :
    Option (CacheKernel D) :=
  match how with
  | .extendFree => some (closeExtend s)
  | .extendLoad =>
    let noted := { s with threshold := threshold }
    if s.statusCtx then some noted else extendPcbFd noted num

/-- One call.  An `allocPage` that finds no page sleeps and changes nothing.  What
the cache does after a page of it was cleared is left out. -/
def cacheStep (s : CacheKernel D) : CacheAct D → Option (CacheKernel D)
  | .disk op =>
    if s.intact then
      (serveOne s.cache op).map fun out =>
        { s with cache := out.2, array := (flatOne s.array op).2 }
    else none
  | .allocPage =>
    match s.book.allocPage with
    | some (i, book) => some (s.allocated i book)
    | none => some s
  | .freePage i => some { s with book := s.book.freePage i }
  | .doExtend num how threshold => doExtend s num how threshold

/-- The cache owns its pages, and what is not on the device is in a dirty buffer. -/
structure CacheOwned (s : CacheKernel D) : Prop where
  not_free : ∀ i, s.Backs i → i ∉ s.book.free
  not_handed_out : ∀ i, s.Backs i → i ∉ s.book.used ∧ i ∉ s.book.extend
  dirty : ∀ sector, s.cache.device sector ≠ s.array sector →
    s.intact = true ∧ ∃ b, (s.cache.bufs b).hashed = true ∧ (s.cache.bufs b).sectorno = sector ∧
      (s.cache.bufs b).dirty = true ∧ (s.cache.bufs b).data = s.array sector

/-- The side condition: nobody frees a page of the cache, and nobody switches to the
extended mode. -/
def CacheAct.Spares (s : CacheKernel D) : CacheAct D → Prop
  | .freePage i => ¬ s.Backs i
  | .doExtend _ how _ => how = .extendFree ∨ s.statusCtx = true
  | .disk _ | .allocPage => True

/-! ## What the list operations do to a page -/

namespace PageBook

variable {b next : PageBook} {i j : Nat}

structure SamePlace (b next : PageBook) (j : Nat) : Prop where
  free : j ∈ next.free ↔ j ∈ b.free
  used : j ∈ next.used ↔ j ∈ b.used
  bio : j ∈ next.bio ↔ j ∈ b.bio
  extend : j ∈ next.extend ↔ j ∈ b.extend
  share : next.shareNum j = b.shareNum j

theorem SamePlace.trans {last : PageBook} (first : SamePlace b next j)
    (second : SamePlace next last j) : SamePlace b last j :=
  ⟨second.free.trans first.free, second.used.trans first.used, second.bio.trans first.bio,
    second.extend.trans first.extend, second.share.trans first.share⟩

theorem listDel_other (b : PageBook) (other : j ≠ i) : SamePlace b (b.listDel i) j :=
  ⟨mem_erase_of_ne other, mem_erase_of_ne other, mem_erase_of_ne other, mem_erase_of_ne other, rfl⟩

section
variable (run : b.allocPage = some (i, next))
include run

theorem allocPage_some : b.free.head? = some i ∧ next = { b.listDel i with
    used := (b.listDel i).used ++ [i]
    shareNum := update b.shareNum i ((b.shareNum i + 1) % 256)
    sourceNum := b.sourceNum - 1 } := by
  obtain ⟨head, first, same⟩ := map_eq_some_iff.mp run
  cases same
  exact ⟨first, rfl⟩

theorem allocPage_mem : i ∈ b.free :=
  List.mem_of_mem_head? (allocPage_some run).1

theorem allocPage_other (other : j ≠ i) : SamePlace b next j := by
  obtain ⟨_, rfl⟩ := allocPage_some run
  obtain ⟨free, used, bio, extend, _⟩ := listDel_other b other
  exact ⟨free, by simp [used, other], bio, extend, by simp [other]⟩

end

theorem freePage_other (b : PageBook) (other : j ≠ i) : SamePlace b (b.freePage i) j := by
  unfold freePage
  split
  · exact ⟨.rfl, .rfl, .rfl, .rfl, by simp [other]⟩
  · obtain ⟨_, used, bio, extend, _⟩ := listDel_other b other
    exact ⟨by simp [other, listDel], used, bio, extend, by simp [listDel, other]⟩

theorem freePage_single (single : b.shareNum i = 1) : i ∈ (b.freePage i).free := by
  simp [freePage, single]

theorem freePageVoilence_free (b : PageBook) (i j : Nat) :
    j ∈ (b.freePageVoilence i).free ↔ j = i ∨ j ∈ b.free := by
  unfold freePageVoilence
  by_cases same : j = i
  · simp [same]
  · simp [same, (listDel_other b same).free]

theorem foldl_freePageVoilence (pages : List Nat) (b : PageBook) (j : Nat) :
    j ∈ (pages.foldl freePageVoilence b).free ↔ j ∈ pages ∨ j ∈ b.free := by
  induction pages generalizing b with
  | nil => simp
  | cons i rest ih =>
    rw [foldl_cons, ih, freePageVoilence_free, mem_cons]
    tauto

theorem allocExtendPage_keeps (run : b.allocExtendPage = some (i, next))
    (mem : j ∈ b.free ∨ j ∈ b.extend) : j ∈ next.free ∨ j ∈ next.extend := by
  obtain ⟨⟨i', book⟩, alloc, same⟩ := map_eq_some_iff.mp run
  cases same
  by_cases same : j = i
  · right
    simp [same]
  · obtain ⟨free, _, _, extend, _⟩ :=
      (allocPage_other alloc same).trans (listDel_other book same)
    rcases mem with mem | mem
    · exact .inl (free.mpr mem)
    · exact .inr (by simp [extend.mpr mem])

end PageBook

section Invariant
variable {s next : CacheKernel D}

structure BookKept (s : CacheKernel D) : Prop where
  bio : ∀ i, i ∈ s.book.bio ↔ s.Backs i
  free : ∀ i, s.Backs i → i ∉ s.book.free
  used : ∀ i, s.Backs i → i ∉ s.book.used
  extend : s.book.extend = []
  share : ∀ i, s.Backs i → s.book.shareNum i = 1

structure CacheKept (s : CacheKernel D) : Prop extends BookKept s where
  intact : s.intact = true
  normal : s.statusCtx = false
  idle : Idle s.cache
  holds : Holds s.cache s.array

theorem CacheKept.owned (kept : CacheKept s) : CacheOwned s where
  not_free := kept.free
  not_handed_out := fun i backs => ⟨kept.used i backs, by simp [kept.extend]⟩
  dirty := by
    intro sector differs
    refine ⟨kept.intact, ?_⟩
    by_contra clean
    refine differs (kept.holds.clean_device sector ?_)
    intro b hashed number
    by_contra dirty
    rw [not_eq_false] at dirty
    have data := kept.holds.valid_data b hashed (kept.holds.dirty_valid b dirty).2
    exact clean ⟨b, hashed, number, dirty, number ▸ data⟩

theorem BookKept.of_samePlace (kept : BookKept s) {book : PageBook}
    (place : ∀ i, s.Backs i → PageBook.SamePlace s.book book i)
    (others : ∀ i, ¬ s.Backs i → i ∉ book.bio) (extend : book.extend = []) :
    BookKept { s with book := book } where
  bio := by
    intro i
    by_cases backs : s.Backs i
    · exact ((place i backs).bio.trans (kept.bio i))
    · exact ⟨fun mem => absurd mem (others i backs), fun here => absurd here backs⟩
  free := fun i backs mem => kept.free i backs ((place i backs).free.mp mem)
  used := fun i backs mem => kept.used i backs ((place i backs).used.mp mem)
  extend := extend
  share := fun i backs => (place i backs).share.trans (kept.share i backs)

theorem BookKept.alloc (kept : BookKept s) {i : Nat} {book : PageBook}
    (run : s.book.allocPage = some (i, book)) : ¬ s.Backs i ∧ BookKept { s with book := book } := by
  have spared : ¬ s.Backs i := fun backs => kept.free i backs (PageBook.allocPage_mem run)
  have away : ∀ j, s.Backs j → j ≠ i := fun j backs same => spared (same ▸ backs)
  refine ⟨spared, kept.of_samePlace (fun j backs => PageBook.allocPage_other run (away j backs))
    ?_ ?_⟩
  · intro j notBacks mem
    obtain ⟨_, rfl⟩ := PageBook.allocPage_some run
    exact notBacks ((kept.bio j).mp (mem_of_mem_erase mem))
  · obtain ⟨_, rfl⟩ := PageBook.allocPage_some run
    simp [PageBook.listDel, kept.extend]

theorem BookKept.freePage (kept : BookKept s) {i : Nat} (spared : ¬ s.Backs i) :
    BookKept { s with book := s.book.freePage i } := by
  have away : ∀ j, s.Backs j → j ≠ i := fun j backs same => spared (same ▸ backs)
  refine kept.of_samePlace (fun j backs => PageBook.freePage_other _ (away j backs)) ?_ ?_
  · intro j notBacks mem
    unfold PageBook.freePage at mem
    split at mem
    · exact notBacks ((kept.bio j).mp mem)
    · exact notBacks ((kept.bio j).mp (mem_of_mem_erase mem))
  · unfold PageBook.freePage
    split <;> simp [PageBook.listDel, kept.extend]

theorem CacheKept.disk (kept : CacheKept s) (op : Op D) :
    ∃ next, cacheStep s (.disk op) = some next ∧ CacheKept next := by
  obtain ⟨cache, served, idle, holds, _⟩ := serveOne_refines op kept.idle kept.holds (by decide)
  refine ⟨{ s with cache := cache, array := (flatOne s.array op).2 }, ?_, ?_⟩
  · rw [cacheStep, if_pos kept.intact, served]
    rfl
  · exact { kept with idle, holds }

theorem CacheKept.allocated (kept : CacheKept s) {i : Nat} {book : PageBook}
    (run : s.book.allocPage = some (i, book)) : CacheKept (s.allocated i book) := by
  obtain ⟨spared, after⟩ := kept.toBookKept.alloc run
  refine { after, kept with intact := ?_ }
  simp [CacheKernel.allocated, kept.intact, spared]

theorem CacheKept.step (kept : CacheKept s) (act : CacheAct D) (spares : act.Spares s) :
    ∃ next, cacheStep s act = some next ∧ CacheKept next := by
  cases act with
  | disk op => exact kept.disk op
  | allocPage =>
    rw [cacheStep]
    split
    · rename_i i book alloc
      exact ⟨_, rfl, kept.allocated alloc⟩
    · exact ⟨s, rfl, kept⟩
  | freePage i => exact ⟨_, rfl, { kept.toBookKept.freePage spares, kept with }⟩
  | doExtend num how threshold =>
    rcases spares with rfl | extended
    · have closed : closeExtend s = { s with statusCtx := false } := by
        simp [closeExtend, kept.extend]
      refine ⟨{ s with statusCtx := false }, congrArg some closed, ?_⟩
      exact { kept with normal := rfl }
    · rw [kept.normal] at extended
      cases extended

theorem allocExtendPages_keeps {count j : Nat} (mem : j ∈ s.book.free ∨ j ∈ s.book.extend)
    (run : s.allocExtendPages count = some next) :
    (j ∈ next.book.free ∨ j ∈ next.book.extend) ∧ next.bufs = s.bufs ∧ next.fdNodes = s.fdNodes := by
  induction count generalizing s with
  | zero =>
    cases run
    exact ⟨mem, rfl, rfl⟩
  | succ count ih =>
    obtain ⟨⟨i, book⟩, alloc, rest⟩ := bind_eq_some_iff.mp run
    exact ih (s := s.allocated i book) (PageBook.allocExtendPage_keeps alloc mem) rest

theorem CacheKept.extend_loses (kept : CacheKept s) {num threshold i : Nat}
    (run : cacheStep s (.doExtend num .extendLoad threshold) = some next) (backs : s.Backs i) :
    next.Backs i ∧ (i ∈ next.book.free ∨ i ∈ next.book.extend) := by
  simp only [cacheStep, doExtend, kept.normal, false_eq_true, if_false, extendPcbFd] at run
  obtain ⟨taken, allocs, run⟩ := bind_eq_some_iff.mp run
  have freed := (PageBook.foldl_freePageVoilence s.book.bio s.book i).mpr
    (.inl ((kept.bio i).mpr backs))
  obtain ⟨mem, bufs, _⟩ := allocExtendPages_keeps (.inl freed) allocs
  split at run
  · cases run
  · cases run
    refine ⟨?_, mem⟩
    rw [bufs]
    exact backs

theorem CacheOwned.not_lost (owned : CacheOwned s) {i : Nat} (backs : s.Backs i) :
    ¬ (i ∈ s.book.free ∨ i ∈ s.book.extend) := by
  rintro (mem | mem)
  · exact owned.not_free i backs mem
  · exact (owned.not_handed_out i backs).2 mem

theorem CacheKept.breaks (kept : CacheKept s) (act : CacheAct D) (bad : ¬ act.Spares s)
    (run : cacheStep s act = some next) : ¬ CacheOwned next := by
  intro owned
  cases act with
  | disk op => exact bad trivial
  | allocPage => exact bad trivial
  | freePage i =>
    have backs : s.Backs i := not_not.mp bad
    cases run
    exact owned.not_free i backs (PageBook.freePage_single (kept.share i backs))
  | doExtend num how threshold =>
    cases how with
    | extendFree => exact bad (.inl rfl)
    | extendLoad =>
      have first : s.Backs s.bufs := ⟨le_rfl, Nat.lt_add_of_pos_right (by decide)⟩
      obtain ⟨backs, lost⟩ := kept.extend_loses run first
      exact owned.not_lost backs lost

end Invariant

/-! ## Boot -/

namespace PageBook

structure Stage (b : PageBook) (k j : Nat) : Prop where
  free : b.free = List.range' (k + j) (numRec - (k + j))
  used : ∀ i ∈ b.used, i < k
  bio : ∀ i, i ∈ b.bio ↔ k ≤ i ∧ i < k + j
  extend : b.extend = []
  share_bio : ∀ i, k ≤ i → i < k + j → b.shareNum i = 1
  share_free : ∀ i, k + j ≤ i → b.shareNum i = 0

variable {b next : PageBook} {i k j : Nat}

theorem stage_initMem : Stage initMem 0 0 where
  free := by simp [initMem, range_eq_range']
  used := by simp [initMem]
  bio := by simp [initMem]
  extend := rfl
  share_bio := fun _ _ _ => by omega
  share_free := fun _ _ => rfl

theorem Stage.head_some (stage : Stage b k j) (below : k + j < numRec) :
    b.free = (k + j) :: List.range' (k + j + 1) (numRec - (k + j + 1)) := by
  rw [stage.free, show numRec - (k + j) = numRec - (k + j + 1) + 1 by omega, List.range'_succ]

theorem Stage.head (stage : Stage b k j) (first : b.free.head? = some i) :
    i = k + j ∧ b.free.erase i = List.range' (k + j + 1) (numRec - (k + j + 1)) := by
  rcases Nat.lt_or_ge (k + j) numRec with below | full
  · rw [stage.head_some below] at first ⊢
    cases first
    exact ⟨rfl, by simp⟩
  · rw [stage.free, Nat.sub_eq_zero_of_le full] at first
    cases first

theorem Stage.listDel_lists (stage : Stage b k j) :
    b.used.erase (k + j) = b.used ∧ b.bio.erase (k + j) = b.bio := by
  constructor
  · refine erase_of_not_mem fun mem => ?_
    have below := stage.used _ mem
    omega
  · refine erase_of_not_mem fun mem => ?_
    have below := (stage.bio _).mp mem
    omega

theorem Stage.allocPage (stage : Stage b k 0) (run : b.allocPage = some (i, next)) :
    Stage next (k + 1) 0 := by
  obtain ⟨first, rfl⟩ := allocPage_some run
  obtain ⟨used, bio⟩ := stage.listDel_lists
  rw [Nat.add_zero] at used bio
  obtain ⟨rfl, rest⟩ := stage.head first
  refine ⟨by simpa [listDel] using rest, ?_, ?_, by simp [listDel, stage.extend], ?_, ?_⟩
  · intro i mem
    simp only [listDel, used, mem_append, mem_singleton] at mem
    rcases mem with mem | rfl
    · have below := stage.used i mem
      omega
    · omega
  · intro i
    simp only [listDel, bio, stage.bio i]
    omega
  · intro i low high
    omega
  · intro i high
    simp only
    rw [update_of_ne (by omega)]
    exact stage.share_free i (by omega)

theorem Stage.allocBioPage (stage : Stage b k j) (run : b.allocBioPage = some (i, next)) :
    Stage next k (j + 1) := by
  obtain ⟨⟨_, book⟩, alloc, same⟩ := map_eq_some_iff.mp run
  cases same
  obtain ⟨first, rfl⟩ := allocPage_some alloc
  obtain ⟨rfl, rest⟩ := stage.head first
  obtain ⟨used, bio⟩ := stage.listDel_lists
  have notFree : k + j ∉ List.range' (k + j + 1) (numRec - (k + j + 1)) := by
    intro mem
    rw [mem_range'_1] at mem
    omega
  refine ⟨?_, ?_, ?_, by simp [listDel, stage.extend], ?_, ?_⟩
  · simp only [listDel, rest]
    exact erase_of_not_mem notFree
  · intro i mem
    simp only [listDel, used] at mem
    rcases mem_append.mp (mem_of_mem_erase mem) with before | here
    · exact stage.used i before
    · exfalso
      have notMem : k + j ∉ b.used := fun mem => absurd (stage.used _ mem) (by omega)
      rw [mem_singleton.mp here, erase_append_right _ notMem] at mem
      simp [notMem] at mem
  · intro i
    simp only [listDel, bio, mem_cons, stage.bio i]
    omega
  · intro i low high
    simp only [listDel]
    by_cases same : i = k + j
    · rw [same, update_self, stage.share_free (k + j) le_rfl]
    · rw [update_of_ne same]
      exact stage.share_bio i low (by omega)
  · intro i high
    simp only [listDel]
    rw [update_of_ne (by omega)]
    exact stage.share_free i (by omega)

theorem Stage.allocPages (count : Nat) (stage : Stage b k 0) (enough : k + count ≤ numRec) :
    ∃ next, b.allocPages count = some next ∧ Stage next (k + count) 0 := by
  induction count generalizing b k with
  | zero => exact ⟨b, rfl, stage⟩
  | succ count ih =>
    have first := stage.head_some (show k + 0 < numRec by omega)
    obtain ⟨next, run, after⟩ := ih
      (stage.allocPage (by rw [PageBook.allocPage, first]; rfl)) (by omega)
    refine ⟨next, ?_, by rwa [Nat.add_right_comm, Nat.add_assoc] at after⟩
    rw [PageBook.allocPages, PageBook.allocPage, first]
    exact run

theorem Stage.allocBioPages (count : Nat) (stage : Stage b k j) (enough : k + j + count ≤ numRec) :
    ∃ next, b.allocBioPages count = some next ∧ Stage next k (j + count) := by
  induction count generalizing b j with
  | zero => exact ⟨b, rfl, stage⟩
  | succ count ih =>
    have first := stage.head_some (show k + j < numRec by omega)
    obtain ⟨next, run, after⟩ := ih
      (stage.allocBioPage (by rw [PageBook.allocBioPage, PageBook.allocPage, first]; rfl))
      (by omega)
    refine ⟨next, ?_, by rwa [Nat.add_right_comm, Nat.add_assoc] at after⟩
    rw [PageBook.allocBioPages, PageBook.allocBioPage, PageBook.allocPage, first]
    exact run

theorem allocExtendPage_returns (some : 2 ≤ b.free.length) :
    ∃ i next, b.allocExtendPage = .some (i, next) ∧ b.free.length ≤ next.free.length + 2 := by
  cases free : b.free with
  | nil => simp [free] at some
  | cons i rest =>
    refine ⟨i, _, by rw [allocExtendPage, allocPage, free]; rfl, ?_⟩
    simp only [listDel, free, erase_cons_head, length_cons, length_erase]
    split <;> omega

theorem foldl_freePageVoilence_length (pages : List Nat) (b : PageBook) :
    b.free.length ≤ (pages.foldl freePageVoilence b).free.length := by
  induction pages generalizing b with
  | nil => exact le_rfl
  | cons i rest ih =>
    refine le_trans ?_ (ih (b.freePageVoilence i))
    simp only [freePageVoilence, listDel, length_append, length_singleton, length_erase]
    split <;> omega

end PageBook

variable {s : CacheKernel D}

theorem bootCache_kept (blank : D) (device : Nat → D) {before : Nat}
    (enough : before + cachePages ≤ numRec) :
    ∃ s, bootCache blank device before = some s ∧ CacheKept s ∧ s.bufs = before ∧
      s.fdNodes = 0 ∧ s.book.free.length = numRec - (before + cachePages) := by
  have pages : 0 < cachePages := by decide
  obtain ⟨b, alloc, start⟩ := PageBook.stage_initMem.allocPages before (by omega)
  rw [Nat.zero_add] at start
  have first := start.head_some (show before + 0 < numRec by omega)
  obtain ⟨book, allocBio, stage⟩ := start.allocBioPages cachePages (by omega)
  rw [Nat.zero_add] at stage
  have boot : bootCache blank device before = some
      { cache := binit actualBufNum blank device
        intact := true, bufs := before, book := book, statusCtx := false, threshold := 0
        maxExtend := 0, fdNodes := 0, array := device } := by
    rw [bootCache, alloc, bind_some, first, List.head?_cons, bind_some, allocBio]
    rfl
  refine ⟨_, boot, ?_, rfl, rfl, by simp [stage.free]⟩
  refine ⟨⟨stage.bio, ?_, ?_, stage.extend, fun i backs => stage.share_bio i backs.1 backs.2⟩, rfl,
    rfl, idle_binit blank device, holds_binit blank device⟩
  · intro i backs mem
    have above : i < before + cachePages := backs.2
    simp only [stage.free, mem_range'_1] at mem
    omega
  · intro i backs mem
    have low : before ≤ i := backs.1
    have below := stage.used i mem
    omega

theorem allocExtendPages_returns (count : Nat) (enough : 2 * count ≤ s.book.free.length) :
    ∃ next, s.allocExtendPages count = some next := by
  induction count generalizing s with
  | zero => exact ⟨s, rfl⟩
  | succ count ih =>
    obtain ⟨i, book, alloc, length⟩ := PageBook.allocExtendPage_returns
      (show 2 ≤ s.book.free.length by omega)
    obtain ⟨next, run⟩ := ih (s := s.allocated i book) (by simp only [CacheKernel.allocated]; omega)
    refine ⟨next, ?_⟩
    rw [CacheKernel.allocExtendPages, alloc]
    exact run

theorem CacheKept.extend_returns (kept : CacheKept s) (num threshold : Nat)
    (pages : 2 * ((num - 1 + (pipePage - 1)) / pipePage) ≤ s.book.free.length)
    (nodes : pcbNodes ≤ s.fdNodes + (num - 1)) :
    ∃ next, cacheStep s (.doExtend num .extendLoad threshold) = some next := by
  have length := PageBook.foldl_freePageVoilence_length s.book.bio s.book
  obtain ⟨taken, allocs⟩ := allocExtendPages_returns _
    (s := { s with
      statusCtx := true, maxExtend := num, threshold := threshold
      book := s.book.bio.foldl PageBook.freePageVoilence s.book }) (pages.trans length)
  have first : s.Backs s.bufs := ⟨le_rfl, Nat.lt_add_of_pos_right (by decide)⟩
  have freed := (PageBook.foldl_freePageVoilence s.book.bio s.book s.bufs).mpr
    (.inl ((kept.bio _).mpr first))
  obtain ⟨_, _, sameNodes⟩ := allocExtendPages_keeps (.inl freed) allocs
  simp only at sameNodes
  refine ⟨{ taken with fdNodes := taken.fdNodes + (num - 1) - pcbNodes }, ?_⟩
  simp only [cacheStep, doExtend, kept.normal, false_eq_true, if_false, extendPcbFd, allocs,
    bind_some]
  rw [if_neg (by omega)]

/-- Every call of a run from boot returns and the cache owns its pages and its
unwritten data all along exactly when nobody frees one of its pages and nobody
switches to the extended mode. -/
theorem cacheOwned_along_iff (blank : D) (device : Nat → D) (before : Nat)
    (enough : before + cachePages ≤ numRec) (acts : List (CacheAct D)) :
    ∃ s, bootCache blank device before = some s ∧
      (((∃ final, runActs cacheStep s acts = some final) ∧ HoldsAlong cacheStep CacheOwned s acts) ↔
      StepsMeet cacheStep (fun s act => act.Spares s) s acts) := by
  obtain ⟨s, boot, start, _⟩ := bootCache_kept blank device enough
  refine ⟨s, boot, ?_⟩
  have exact_along : ∀ final, runActs cacheStep s acts = some final →
      (HoldsAlong cacheStep CacheOwned s acts ↔
        StepsMeet cacheStep (fun s act => act.Spares s) s acts) := fun final run =>
    holdsAlong_iff_stepsMeet cacheStep (fun s act => act.Spares s) CacheKept CacheOwned
      (fun _ kept => kept.owned)
      (fun _ act _ kept spares run => by
        obtain ⟨next, other, keptNext⟩ := kept.step act spares
        exact Option.some.inj (other.symm.trans run) ▸ keptNext)
      (fun _ act _ kept bad run => kept.breaks act bad run) s final acts start run
  constructor
  · rintro ⟨⟨final, run⟩, along⟩
    exact (exact_along final run).mp along
  · intro meets
    obtain ⟨final, run⟩ := runActs_returns cacheStep (fun s act => act.Spares s) CacheKept
      (fun _ act kept spares => kept.step act spares) s acts start meets
    exact ⟨⟨final, run⟩, (exact_along final run).mpr meets⟩

/-- Data is written, a page is allocated, and the extended mode is left without
having been entered. -/
theorem cacheOwned_along_small :
    10 + cachePages ≤ numRec ∧ ∃ s, bootCache 0 (fun _ => 0) 10 = some s ∧
      HoldsAlong cacheStep CacheOwned s
        [.disk (.write 7 [70]), .allocPage, .doExtend 0 .extendFree 5, .disk .sync] := by
  obtain ⟨s, boot, along⟩ := cacheOwned_along_iff 0 (fun _ => 0) 10 (by decide)
    [.disk (.write 7 [70]), .allocPage, .doExtend 0 .extendFree 5, .disk .sync]
  refine ⟨by decide, s, boot, (along.mpr ?_).2⟩
  exact ⟨trivial, fun _ _ => ⟨trivial, fun _ _ => ⟨.inl rfl, fun _ _ =>
    ⟨trivial, fun _ _ => trivial⟩⟩⟩⟩

/-- After a write, `do_extend(100, EXTEND_LOAD, 0)` puts the first page of the cache
on the free list or hands it out. -/
theorem extend_frees_cache : ∃ s final, bootCache 0 (fun _ => 0) 10 = some s ∧
    runActs cacheStep s [.disk (.write 7 [70]), .doExtend 100 .extendLoad 0] = some final ∧
    final.Backs 10 ∧ (10 ∈ final.book.free ∨ 10 ∈ final.book.extend) ∧ ¬ CacheOwned final := by
  obtain ⟨s, boot, start, bufs, fdNodes, length⟩ :=
    bootCache_kept 0 (fun _ => 0) (show 10 + cachePages ≤ numRec by decide)
  obtain ⟨written, write, kept⟩ := start.disk (.write 7 [70])
  have same : written.bufs = 10 ∧ written.fdNodes = 0 ∧ written.book = s.book := by
    rw [cacheStep, if_pos start.intact] at write
    obtain ⟨_, _, rfl⟩ := map_eq_some_iff.mp write
    exact ⟨bufs, fdNodes, rfl⟩
  obtain ⟨next, extended⟩ := kept.extend_returns 100 0
    (by rw [same.2.2, length]; decide) (by rw [same.2.1]; decide)
  obtain ⟨backs, lost⟩ := kept.extend_loses (i := 10) extended ⟨same.1.le, by rw [same.1]; decide⟩
  refine ⟨s, next, boot, ?_, backs, lost, fun owned => owned.not_lost backs lost⟩
  rw [runActs_cons, write, bind_some, runActs_cons, extended]
  rfl

end CCore.Bio
