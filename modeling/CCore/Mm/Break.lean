import CCore.Mm.Isolation

/-!
# The program break (`do_brk`, `lazy_brk`)

Both calls set `edata` and walk over the range between the old and the new break in
steps of a page, starting at the lower one of the two as it is: the pages they visit
are those of `ptr`, `ptr + 4096` and so on.  To shrink, every visited page that is
mapped is given back, the page of `ptr` itself among them.  To grow, `do_brk` maps
the visited pages and `lazy_brk` does nothing.
-/
namespace CCore.Mm

open Sleep Function List Option Mem

/-- The addresses of a loop from `start` to `stop` in steps of `NORMAL_PAGE_SIZE`. -/
def visited (start stop : Nat) : List Nat :=
  (List.range ((stop - start + 4095) / 4096)).map fun k => start + 4096 * k

/-- `free_page_helper` of a page that `get_kva_of` has found. -/
def Mem.freePageHelper (m : Mem) (p page : Nat) : Mem :=
  match getPTEOf m p page with
  | none => m
  | some e => (m.freePage e.frame).clear (.leaf (owner p page) page)

/-- How a call ends.  A walk that meets the kernel's own pages in the boot map takes
them for page tables, and nothing is known of what it does then. -/
inductive BrkEnd
  | returned (value : Int) (m : Mem) (edata : Nat)
  | asleep (myPtr : Nat) (m : Mem)
  | astray

/-- The loop of `do_brk` that maps pages. -/
def growLoop (p : Nat) : List Nat → Mem → Except (Nat × Mem) Mem
  | [], m => .ok m
  | myPtr :: rest, m =>
    match allocPageHelper (.touch (myPtr / 4096)) p (myPtr / 4096) m with
    | .ok _ m' => growLoop p rest m'
    | .error _ m' => .error (myPtr, m')

def shrinkLoop (p : Nat) (addrs : List Nat) (m : Mem) : Mem :=
  addrs.foldl (fun m curPage => m.freePageHelper p (curPage / 4096)) m

/-- The two fields of the PCB. -/
structure Heap where
  edata : Nat
  userStackBase : Nat

def enomem : Int := -12

/-- `do_brk` and `lazy_brk`, which differ in what they do to grow. -/
def brkBy (grow : Nat → Nat → Mem → BrkEnd) (p : Nat) (heap : Heap) (m : Mem) (ptr : Nat) :
    BrkEnd :=
  if heap.userStackBase < ptr then .returned enomem m heap.edata
  else if ptr = 0 then .returned heap.edata m heap.edata
  else if ptr < heap.edata then
    if (visited ptr heap.edata).all userAddr then
      .returned ptr (shrinkLoop p (visited ptr heap.edata) m) ptr
    else .astray
  else grow heap.edata ptr m

/-- The pages from `myPtr` on; where a call that slept goes on as well. -/
def growFrom (p myPtr ptr : Nat) (m : Mem) : BrkEnd :=
  if (visited myPtr ptr).all userAddr then
    match growLoop p (visited myPtr ptr) m with
    | .ok m' => .returned ptr m' ptr
    | .error (myPtr, m') => .asleep myPtr m'
  else .astray

def doBrk (p : Nat) (heap : Heap) (m : Mem) (ptr : Nat) : BrkEnd :=
  brkBy (growFrom p) p heap m ptr

def lazyBrk (p : Nat) (heap : Heap) (m : Mem) (ptr : Nat) : BrkEnd :=
  brkBy (fun _ ptr m => .returned ptr m ptr) p heap m ptr

/-! ## What a call has to do -/

def KeptAt (p : Nat) (m m' : Mem) (page : Nat) : Prop :=
  ∀ e, getPTEOf m p page = some e →
    ∃ e', getPTEOf m' p page = some e' ∧ e'.frame = e.frame ∧ m'.bytes e.frame = m.bytes e.frame

def DroppedAt (p : Nat) (m m' : Mem) (page : Nat) : Prop :=
  ∀ e, getPTEOf m p page = some e →
    getPTEOf m' p page = none ∧ m'.shareNum e.frame + 1 = m.shareNum e.frame

/-- The break has become `ptr`, and the memory has followed it. -/
structure Moved (p ptr edata : Nat) (m m' : Mem) (edata' : Nat) : Prop where
  below : ∀ va, va < min edata ptr → KeptAt p m m' (va / 4096)
  above : ∀ page, ptr ≤ 4096 * page → 4096 * page + 4096 ≤ edata → DroppedAt p m m' page
  edata : edata' = ptr

def ImageKept (p initial : Nat) (m m' : Mem) : Prop :=
  ∀ page, 4096 * page < initial → (getPTEOf m p page).isSome → (getPTEOf m' p page).isSome

/-- A call that sleeps has lost nothing so far. -/
def BrkRight (p initial ptr edata : Nat) (m : Mem) : BrkEnd → Prop
  | .returned value m' edata' =>
    (value < 0 → m' = m ∧ edata' = edata) ∧ (0 ≤ value → Moved p ptr edata m m' edata') ∧
      ImageKept p initial m m'
  | .asleep _ m' => ∀ page, KeptAt p m m' page
  | .astray => False

/-- What the page manager promises of the pages a process has mapped. -/
structure HeapSound (p edata : Nat) (m : Mem) : Prop where
  used : ∀ page e, getPTEOf m p page = some e → e.frame ∉ m.free
  counted : ∀ page e, getPTEOf m p page = some e → 1 ≤ m.shareNum e.frame ∧ m.shareNum e.frame < 256
  apart : ∀ page page' e e', 4096 * page < edata → 4096 * page' < edata →
    getPTEOf m p page = some e → getPTEOf m p page' = some e' → e.frame = e'.frame → page = page'

/-- The range can be walked over, no live byte shares a page with the new break, and
no mapped page of the range begins below the initial break. -/
structure Shrinkable (p initial ptr edata : Nat) (m : Mem) : Prop where
  user : ∀ va ∈ visited ptr edata, userAddr va = true
  whole : ptr % 4096 ≠ 0 → getPTEOf m p (ptr / 4096) = none
  image : ∀ va ∈ visited ptr edata, (getPTEOf m p (va / 4096)).isSome → initial ≤ 4096 * (va / 4096)

/-- When the break can be moved; `eager` for `do_brk`. -/
structure Breakable (eager : Bool) (p initial ptr : Nat) (heap : Heap) (m : Mem) : Prop where
  query : ptr = 0 → heap.edata = 0
  shrink : ptr ≤ heap.userStackBase → 0 < ptr → ptr < heap.edata →
    Shrinkable p initial ptr heap.edata m
  grow : eager = true → ptr ≤ heap.userStackBase → 0 < ptr → heap.edata ≤ ptr →
    ∀ va ∈ visited heap.edata ptr, userAddr va = true

theorem mem_visited {start stop va : Nat} :
    va ∈ visited start stop ↔ ∃ k, va = start + 4096 * k ∧ va < stop := by
  simp only [visited, List.mem_map, mem_range]
  constructor
  · rintro ⟨k, inside, rfl⟩
    exact ⟨k, rfl, by omega⟩
  · rintro ⟨k, rfl, below⟩
    exact ⟨k, by omega, rfl⟩

theorem visited_page_nodup (start stop : Nat) : ((visited start stop).map (· / 4096)).Nodup := by
  rw [visited, List.map_map]
  refine List.Nodup.map ?_ nodup_range
  intro j k same
  dsimp only [Function.comp_apply] at same
  omega

/-- Slots and used pages stay as they are. -/
structure Grown (m m' : Mem) : Prop where
  entry : ∀ slot e, m.entry slot = some e → m'.entry slot = some e
  free : ∀ f, f ∈ m'.free → f ∈ m.free
  bytes : ∀ f, f ∉ m.free → m'.bytes f = m.bytes f

namespace Grown

theorem refl (m : Mem) : Grown m m := ⟨fun _ _ h => h, fun _ h => h, fun _ _ => rfl⟩

theorem trans {m₁ m₂ m₃ : Mem} (first : Grown m₁ m₂) (second : Grown m₂ m₃) : Grown m₁ m₃ where
  entry slot e found := second.entry slot e (first.entry slot e found)
  free f mem := first.free f (second.free f mem)
  bytes f used := by rw [second.bytes f (fun mem => used (first.free f mem)), first.bytes f used]

theorem take {m : Mem} {slot : Slot} {f : Nat} {rest : List Nat} (absent : m.entry slot = none)
    (free : m.free = f :: rest) (write : Bool) (fill : Nat → Nat) :
    Grown m (m.take slot ⟨f, write, false, false⟩ rest fill) where
  entry other e found := by
    rw [take_entry_of_ne]
    · exact found
    · rintro rfl
      rw [absent] at found
      cases found
  free g mem := by
    rw [free]
    exact mem_cons_of_mem f mem
  bytes g used := by
    have other : g ≠ f := by
      rintro rfl
      exact used (by rw [free]; exact mem_cons_self)
    exact update_of_ne other ..

theorem kept {p edata : Nat} {m m' : Mem} (grown : Grown m m') (sound : HeapSound p edata m)
    (page : Nat) : KeptAt p m m' page := by
  intro e mapped
  have used := sound.used page e mapped
  obtain ⟨second, root, mapped⟩ := bind_eq_some_iff.mp mapped
  obtain ⟨third, middle, leaf⟩ := bind_eq_some_iff.mp mapped
  refine ⟨e, ?_, rfl, grown.bytes e.frame used⟩
  rw [getPTEOf, grown.entry _ _ root, bind_some, grown.entry _ _ middle, bind_some]
  exact grown.entry _ _ leaf

end Grown

theorem checkPageSetFlag_grown (again : Task) (slot : Slot) (write : Bool) (m : Mem) :
    Ends (checkPageSetFlag again slot write m) (fun _ m' => Grown m m')
      (fun _ m' => Grown m m') := by
  cases entry : m.entry slot with
  | some e =>
    rw [checkPageSetFlag_present again write entry]
    exact Grown.refl m
  | none =>
    cases free : m.free with
    | nil =>
      rw [checkPageSetFlag_sleep again write entry free]
      exact Grown.refl m
    | cons f rest =>
      rw [checkPageSetFlag_take again write entry free]
      exact Grown.take entry free write _

theorem allocPageHelper_grown (again : Task) (p page : Nat) (m : Mem) :
    Ends (allocPageHelper again p page m) (fun _ m' => Grown m m') (fun _ m' => Grown m m') := by
  unfold allocPageHelper
  refine Ends.bind _ (checkPageSetFlag_grown again _ false m) ?_
  intro _ m₁ first
  refine Ends.bind (fun _ m' => Grown m m') ((checkPageSetFlag_grown again _ false m₁).weaken
    (fun _ _ later => first.trans later) (fun _ _ later => first.trans later)) ?_
  intro _ m₂ second
  exact (checkPageSetFlag_grown again _ true m₂).weaken
    (fun _ _ later => second.trans later) (fun _ _ later => second.trans later)

theorem growLoop_grown (p : Nat) (addrs : List Nat) (m : Mem) : match growLoop p addrs m with
    | .ok m' => Grown m m'
    | .error (_, m') => Grown m m' := by
  induction addrs generalizing m with
  | nil => exact Grown.refl m
  | cons myPtr rest ih =>
    have step := allocPageHelper_grown (.touch (myPtr / 4096)) p (myPtr / 4096) m
    unfold growLoop
    cases run : allocPageHelper (.touch (myPtr / 4096)) p (myPtr / 4096) m with
    | error task m' =>
      rw [run] at step
      exact step
    | ok f m' =>
      rw [run] at step
      have later := ih m'
      dsimp only
      cases loop : growLoop p rest m' with
      | ok | error =>
        rw [loop] at later
        exact Grown.trans step later

/-! ## Shrinking -/

section FreePageHelper
variable (m : Mem) (p page : Nat)

theorem freePageHelper_absent (absent : getPTEOf m p page = none) : m.freePageHelper p page = m := by
  rw [Mem.freePageHelper, absent]

theorem freePageHelper_mapped {e : Pte} (mapped : getPTEOf m p page = some e) :
    m.freePageHelper p page = (m.freePage e.frame).clear (.leaf (owner p page) page) := by
  rw [Mem.freePageHelper, mapped]

theorem freePageHelper_bytes : (m.freePageHelper p page).bytes = m.bytes := by
  unfold Mem.freePageHelper
  split
  · rfl
  · rw [clear_bytes, freePage_bytes]

theorem freePageHelper_self : getPTEOf (m.freePageHelper p page) p page = none := by
  cases mapped : getPTEOf m p page with
  | none => rw [freePageHelper_absent m p page mapped, mapped]
  | some e =>
    rw [freePageHelper_mapped m p page mapped]
    rw [getPTEOf, clear_entry_self]
    simp [bind_fun_none]

theorem freePageHelper_other {page' : Nat} (other : page' ≠ page) :
    getPTEOf (m.freePageHelper p page) p page' = getPTEOf m p page' := by
  cases mapped : getPTEOf m p page with
  | none => rw [freePageHelper_absent m p page mapped]
  | some e =>
    have apart : Slot.leaf (owner p page') page' ≠ .leaf (owner p page) page := by
      intro same
      exact other (Slot.leaf.inj same).2
    rw [freePageHelper_mapped m p page mapped]
    unfold getPTEOf
    rw [clear_entry_of_ne _ (by simp), clear_entry_of_ne _ (by simp),
      clear_entry_of_ne _ apart, freePage_entry]

theorem freePageHelper_shareNum_other {f : Nat}
    (other : ∀ e, getPTEOf m p page = some e → e.frame ≠ f) :
    (m.freePageHelper p page).shareNum f = m.shareNum f := by
  cases mapped : getPTEOf m p page with
  | none => rw [freePageHelper_absent m p page mapped]
  | some e =>
    rw [freePageHelper_mapped m p page mapped, clear_shareNum, freePage_shareNum]
    exact update_of_ne (other e mapped).symm ..

theorem freePageHelper_shareNum {e : Pte} (mapped : getPTEOf m p page = some e) :
    (m.freePageHelper p page).shareNum e.frame = (m.shareNum e.frame + 255) % 256 := by
  rw [freePageHelper_mapped m p page mapped, clear_shareNum, freePage_shareNum]
  exact update_self ..

end FreePageHelper

structure Shrunk (p : Nat) (pages : List Nat) (m m' : Mem) : Prop where
  gone : ∀ page ∈ pages, getPTEOf m' p page = none
  others : ∀ page, page ∉ pages → getPTEOf m' p page = getPTEOf m p page
  bytes : m'.bytes = m.bytes
  unshared : ∀ f, (∀ page ∈ pages, ∀ e, getPTEOf m p page = some e → e.frame ≠ f) →
    m'.shareNum f = m.shareNum f
  dropped : ∀ page ∈ pages, ∀ e, getPTEOf m p page = some e →
    (∀ page' ∈ pages, ∀ e', getPTEOf m p page' = some e' → e'.frame = e.frame → page' = page) →
    m'.shareNum e.frame = (m.shareNum e.frame + 255) % 256

theorem shrinkLoop_shrunk (p : Nat) (addrs : List Nat) (m : Mem)
    (nodup : (addrs.map (· / 4096)).Nodup) :
    Shrunk p (addrs.map (· / 4096)) m (shrinkLoop p addrs m) := by
  induction addrs generalizing m with
  | nil => exact ⟨by simp, fun _ _ => rfl, rfl, fun _ _ => rfl, by simp⟩
  | cons va rest ih =>
    rw [List.map_cons] at nodup ⊢
    obtain ⟨fresh, nodup⟩ := nodup_cons.mp nodup
    have later : Shrunk p (rest.map (· / 4096)) (m.freePageHelper p (va / 4096))
        (shrinkLoop p (va :: rest) m) := ih _ nodup
    -- the pages still to come are as they were
    have same : ∀ page ∈ rest.map (· / 4096),
        getPTEOf (m.freePageHelper p (va / 4096)) p page = getPTEOf m p page := by
      intro page mem
      exact freePageHelper_other m p (va / 4096) (fun here => fresh (here ▸ mem))
    constructor
    · intro page mem
      rcases mem_cons.mp mem with rfl | mem
      · rw [later.others _ fresh, freePageHelper_self]
      · exact later.gone page mem
    · intro page out
      obtain ⟨other, out⟩ := not_or.mp (mt mem_cons.mpr out)
      rw [later.others page out, freePageHelper_other m p (va / 4096) other]
    · rw [later.bytes, freePageHelper_bytes]
    · intro f apart
      rw [later.unshared f, freePageHelper_shareNum_other]
      · exact apart _ mem_cons_self
      · intro page mem e mapped
        rw [same page mem] at mapped
        exact apart page (mem_cons_of_mem _ mem) e mapped
    · intro page mem e mapped sole
      rcases mem_cons.mp mem with rfl | mem
      · rw [later.unshared e.frame, freePageHelper_shareNum m p (va / 4096) mapped]
        intro page' mem' e' mapped' frame
        rw [same page' mem'] at mapped'
        have here := sole page' (mem_cons_of_mem _ mem') e' mapped' frame
        exact fresh (here ▸ mem')
      · rw [later.dropped page mem e (by rw [same page mem]; exact mapped)]
        · rw [freePageHelper_shareNum_other]
          intro e' mapped' frame
          have here := sole (va / 4096) mem_cons_self e' mapped' frame
          exact fresh (here ▸ mem)
        · intro page' mem' e' mapped' frame
          rw [same page' mem'] at mapped'
          exact sole page' (mem_cons_of_mem _ mem') e' mapped' frame

section Shrink
variable {p initial ptr edata : Nat} {m : Mem}

theorem shrink_moved (sound : HeapSound p edata m) (shrinkable : Shrinkable p initial ptr edata m)
    (less : ptr < edata) : Moved p ptr edata m (shrinkLoop p (visited ptr edata) m) ptr := by
  have shrunk := shrinkLoop_shrunk p (visited ptr edata) m (visited_page_nodup ptr edata)
  refine ⟨?_, ?_, rfl⟩
  · intro va below e mapped
    -- only the page of the break itself could be visited, and it is not mapped
    have out : va / 4096 ∉ (visited ptr edata).map (· / 4096) := by
      intro mem
      obtain ⟨addr, mem, page⟩ := List.mem_map.mp mem
      obtain ⟨k, rfl, _⟩ := mem_visited.mp mem
      have here : va / 4096 = ptr / 4096 := by omega
      have unaligned : ptr % 4096 ≠ 0 := by omega
      rw [here, shrinkable.whole unaligned] at mapped
      cases mapped
    refine ⟨e, ?_, rfl, by rw [shrunk.bytes]⟩
    rw [shrunk.others _ out]
    exact mapped
  · intro page lower upper e mapped
    have within : ∀ page' ∈ (visited ptr edata).map (· / 4096), 4096 * page' < edata := by
      intro page' mem
      obtain ⟨addr, mem, page⟩ := List.mem_map.mp mem
      obtain ⟨k, rfl, _⟩ := mem_visited.mp mem
      omega
    have mem : page ∈ (visited ptr edata).map (· / 4096) := by
      refine List.mem_map.mpr ⟨ptr + 4096 * (page - ptr / 4096), mem_visited.mpr ⟨_, rfl, ?_⟩, ?_⟩
      · omega
      · omega
    obtain ⟨one, small⟩ := sound.counted page e mapped
    refine ⟨shrunk.gone page mem, ?_⟩
    rw [shrunk.dropped page mem e mapped]
    · omega
    · intro page' mem' e' mapped' frame
      exact sound.apart page' page e' e (within page' mem') (within page mem) mapped' mapped frame

theorem shrink_imageKept (shrinkable : Shrinkable p initial ptr edata m) :
    ImageKept p initial m (shrinkLoop p (visited ptr edata) m) := by
  have shrunk := shrinkLoop_shrunk p (visited ptr edata) m (visited_page_nodup ptr edata)
  intro page below mapped
  rw [shrunk.others]
  · exact mapped
  · intro mem
    obtain ⟨addr, visit, rfl⟩ := List.mem_map.mp mem
    have lower := shrinkable.image addr visit mapped
    omega

theorem shrinkable_of_right (less : ptr < edata) (user : ∀ va ∈ visited ptr edata, userAddr va = true)
    (moved : Moved p ptr edata m (shrinkLoop p (visited ptr edata) m) ptr)
    (image : ImageKept p initial m (shrinkLoop p (visited ptr edata) m)) :
    Shrinkable p initial ptr edata m := by
  have shrunk := shrinkLoop_shrunk p (visited ptr edata) m (visited_page_nodup ptr edata)
  refine ⟨user, ?_, ?_⟩
  · intro unaligned
    cases mapped : getPTEOf m p (ptr / 4096) with
    | none => rfl
    | some e =>
      -- the page holds the address before `ptr`, and is given back
      have before : (ptr - 1) / 4096 = ptr / 4096 := by omega
      obtain ⟨e', kept, _⟩ := moved.below (ptr - 1) (by omega) e (by rw [before]; exact mapped)
      have mem : ptr / 4096 ∈ (visited ptr edata).map (· / 4096) :=
        List.mem_map.mpr ⟨ptr, mem_visited.mpr ⟨0, rfl, less⟩, rfl⟩
      rw [before, shrunk.gone _ mem] at kept
      cases kept
  · intro va mem mapped
    by_contra below
    have kept := image (va / 4096) (by omega) mapped
    rw [shrunk.gone _ (List.mem_map.mpr ⟨va, mem, rfl⟩)] at kept
    cases kept

end Shrink

section Calls
variable {p initial ptr : Nat} {heap : Heap} {m : Mem}

theorem doBrk_shrink (inside : ptr ≤ heap.userStackBase) (positive : 0 < ptr)
    (less : ptr < heap.edata) (user : (visited ptr heap.edata).all userAddr = true) :
    doBrk p heap m ptr = .returned ptr (shrinkLoop p (visited ptr heap.edata) m) ptr := by
  rw [doBrk, brkBy, if_neg (by omega), if_neg (by omega), if_pos less, if_pos user]

section
variable (sound : HeapSound p heap.edata m)
include sound

theorem grown_right (more : heap.edata ≤ ptr) {m' : Mem}
    (grown : Grown m m') : BrkRight p initial ptr heap.edata m (.returned ptr m' ptr) := by
  refine ⟨fun negative => absurd negative (by omega), fun _ => ⟨?_, ?_, rfl⟩, ?_⟩
  · exact fun va _ => grown.kept sound (va / 4096)
  · intro page lower upper
    omega
  · intro page _ mapped
    obtain ⟨e, mapped⟩ := isSome_iff_exists.mp mapped
    obtain ⟨e', kept, _⟩ := grown.kept sound page e mapped
    rw [kept]
    rfl

theorem growFrom_right_iff (more : heap.edata ≤ ptr)
    (myPtr : Nat) : BrkRight p initial ptr heap.edata m (growFrom p myPtr ptr m) ↔
    ∀ va ∈ visited myPtr ptr, userAddr va = true := by
  rw [growFrom, ← List.all_eq_true]
  by_cases user : (visited myPtr ptr).all userAddr = true
  · rw [if_pos user]
    refine ⟨fun _ => user, fun _ => ?_⟩
    have grown := growLoop_grown p (visited myPtr ptr) m
    cases loop : growLoop p (visited myPtr ptr) m with
    | ok m' =>
      rw [loop] at grown
      exact grown_right sound more grown
    | error stop =>
      rw [loop] at grown
      exact fun page => Grown.kept grown sound page
  · rw [if_neg user]
    exact ⟨fun lost => lost.elim, fun all => absurd all user⟩

theorem brkBy_right_iff {grow : Nat → Nat → Mem → BrkEnd} {growOk : Prop}
    (grows : heap.edata ≤ ptr → (BrkRight p initial ptr heap.edata m (grow heap.edata ptr m) ↔ growOk)) :
    BrkRight p initial ptr heap.edata m (brkBy grow p heap m ptr) ↔ (ptr = 0 → heap.edata = 0) ∧
      (ptr ≤ heap.userStackBase → 0 < ptr → ptr < heap.edata →
        Shrinkable p initial ptr heap.edata m) ∧
      (ptr ≤ heap.userStackBase → 0 < ptr → heap.edata ≤ ptr → growOk) := by
  unfold brkBy
  by_cases above : heap.userStackBase < ptr
  · rw [if_pos above]
    refine ⟨fun _ => ⟨fun _ => by omega, fun _ => by omega, fun _ => by omega⟩, fun _ => ?_⟩
    exact ⟨fun _ => ⟨rfl, rfl⟩, fun positive => absurd positive (by decide), fun _ _ kept => kept⟩
  rw [if_neg above]
  by_cases query : ptr = 0
  · rw [if_pos query]
    constructor
    · rintro ⟨_, moved, _⟩
      exact ⟨fun _ => (moved (by omega)).edata.trans query, fun _ => by omega, fun _ => by omega⟩
    · rintro ⟨zero, _⟩
      refine ⟨fun negative => absurd negative (by omega), fun _ => ⟨?_, ?_, ?_⟩, ?_⟩
      · intro va below
        omega
      · intro page _ upper
        omega
      · rw [zero query, query]
      · exact fun _ _ kept => kept
  rw [if_neg query]
  by_cases less : ptr < heap.edata
  · rw [if_pos less]
    by_cases user : (visited ptr heap.edata).all userAddr = true
    · rw [if_pos user]
      constructor
      · rintro ⟨_, moved, image⟩
        exact ⟨fun zero => absurd zero query, fun _ _ _ => shrinkable_of_right less
          (List.all_eq_true.mp user) (moved (by omega)) image, fun _ _ more => by omega⟩
      · rintro ⟨_, shrinks, _⟩
        have shrinkable := shrinks (by omega) (by omega) less
        exact ⟨fun negative => absurd negative (by omega),
          fun _ => shrink_moved sound shrinkable less, shrink_imageKept shrinkable⟩
    · rw [if_neg user]
      refine ⟨fun lost => lost.elim, fun conditions => ?_⟩
      exact user (List.all_eq_true.mpr (conditions.2.1 (by omega) (by omega) less).user)
  · rw [if_neg less, grows (by omega)]
    constructor
    · exact fun ok => ⟨fun zero => absurd zero query, fun _ _ below => absurd below less,
        fun _ _ _ => ok⟩
    · exact fun conditions => conditions.2.2 (by omega) (by omega) (by omega)

end
end Calls

/-- `do_brk` and `lazy_brk` do what they have to exactly when the range can be
walked over, a break inside a mapped page is not asked for, and neither is one that
gives back pages of the program. -/
theorem brk_right_iff (p initial ptr : Nat) (heap : Heap) (m : Mem)
    (sound : HeapSound p heap.edata m) : (BrkRight p initial ptr heap.edata m (doBrk p heap m ptr) ↔
      Breakable true p initial ptr heap m) ∧
    (BrkRight p initial ptr heap.edata m (lazyBrk p heap m ptr) ↔
      Breakable false p initial ptr heap m) := by
  constructor
  · rw [doBrk, brkBy_right_iff sound (fun more => growFrom_right_iff sound more heap.edata)]
    exact ⟨fun ⟨query, shrink, grow⟩ => ⟨query, shrink, fun _ => grow⟩,
      fun ok => ⟨ok.query, ok.shrink, ok.grow rfl⟩⟩
  · rw [lazyBrk, brkBy_right_iff sound fun more =>
      iff_of_true (grown_right sound more (Grown.refl m)) trivial]
    exact ⟨fun ⟨query, shrink, _⟩ => ⟨query, shrink, nofun⟩,
      fun ok => ⟨ok.query, ok.shrink, fun _ _ _ => trivial⟩⟩

theorem Sound.heapSound {m : Mem} (sound : Sound m) (p edata : Nat) : HeapSound p edata m := by
  have held : ∀ page e, getPTEOf m p page = some e →
      m.frameAt (.leaf (owner p page) page) = some e.frame := by
    intro page e mapped
    rw [sound.getPTEOf_eq] at mapped
    exact frameAt_of_entry mapped
  constructor
  · exact fun page e mapped => sound.held_not_free (held page e mapped)
  · exact fun page e mapped => ⟨sound.held_share (held page e mapped), sound.small e.frame⟩
  · intro page page' e e' _ _ mapped mapped' frame
    have first := held page e mapped
    rw [frame] at first
    exact (sound.aligned _ _ page page' e'.frame first (held page' e' mapped')).symm

/-- The pages `0x10000` of the program and `0x11000` of the heap. -/
def twoPages : Mem :=
  blankMem.giveAll [(.pgdir 0, false), (.kernelStack 0, false), (.root (.user 0) 0, false),
    (.middle (.user 0) 0, false), (.leaf (.user 0) 0x10, true), (.leaf (.user 0) 0x11, true)]

def twoPageHeap : Heap := ⟨0x12000, 0xf00000000⟩

theorem twoPages_sound : Sound twoPages := (young_blankMem.giveAll _ (by decide)).sound

theorem brk_right_twoPages : Breakable true 0 0x11000 0x11000 twoPageHeap twoPages ∧
    BrkRight 0 0x11000 0x11000 0x12000 twoPages (doBrk 0 twoPageHeap twoPages 0x11000) := by
  have breakable : Breakable true 0 0x11000 0x11000 twoPageHeap twoPages := by
    refine ⟨by decide, fun _ _ _ => ⟨by decide, by decide, by decide⟩, ?_⟩
    intro _ _ _ more
    exact absurd more (by decide)
  exact ⟨breakable, (brk_right_iff 0 0x11000 0x11000 twoPageHeap twoPages
    (twoPages_sound.heapSound 0 _)).1.mpr breakable⟩

/-- The break is lowered by half a page, and the other half is gone too; and a break
at the start of the program gives back the program. -/
theorem brk_unmaps_live_page :
    (getPTEOf twoPages 0 0x11).isSome = true ∧ (getPTEOf twoPages 0 0x10).isSome = true ∧
    (∃ m', doBrk 0 twoPageHeap twoPages 0x11800 = .returned 0x11800 m' 0x11800 ∧
      getPTEOf m' 0 (0x11000 / 4096) = none ∧
      ¬ BrkRight 0 0x11000 0x11800 0x12000 twoPages (doBrk 0 twoPageHeap twoPages 0x11800)) ∧
    (∃ m', doBrk 0 twoPageHeap twoPages 0x10000 = .returned 0x10000 m' 0x10000 ∧
      getPTEOf m' 0 (0x10000 / 4096) = none ∧
      ¬ BrkRight 0 0x11000 0x10000 0x12000 twoPages (doBrk 0 twoPageHeap twoPages 0x10000)) := by
  have half : doBrk 0 twoPageHeap twoPages 0x11800 =
      .returned 0x11800 (shrinkLoop 0 (visited 0x11800 0x12000) twoPages) 0x11800 :=
    doBrk_shrink (by decide) (by decide) (by decide) (by decide)
  have halfGone : getPTEOf (shrinkLoop 0 (visited 0x11800 0x12000) twoPages) 0 0x11 = none := by
    decide
  have whole : doBrk 0 twoPageHeap twoPages 0x10000 =
      .returned 0x10000 (shrinkLoop 0 (visited 0x10000 0x12000) twoPages) 0x10000 :=
    doBrk_shrink (by decide) (by decide) (by decide) (by decide)
  have wholeGone : getPTEOf (shrinkLoop 0 (visited 0x10000 0x12000) twoPages) 0 0x10 = none := by
    decide
  have heapPage : (getPTEOf twoPages 0 0x11).isSome = true := by decide
  have programPage : (getPTEOf twoPages 0 0x10).isSome = true := by decide
  refine ⟨heapPage, programPage, ⟨_, half, halfGone, ?_⟩, ⟨_, whole, wholeGone, ?_⟩⟩
  · rw [half]
    intro right
    obtain ⟨e, mapped⟩ := isSome_iff_exists.mp heapPage
    obtain ⟨e', kept, _⟩ := (right.2.1 (by decide)).below 0x11000 (by decide) e mapped
    cases kept
  · rw [whole]
    intro right
    have kept := right.2.2 0x10 (by decide) programPage
    cases kept

end CCore.Mm
