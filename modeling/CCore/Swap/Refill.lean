import CCore.Swap.Evict

/-!
# Taking a page and mapping it

A handler takes a page from the free list or from another entry, fills it and maps
it, for which tables may have to be made.  Each of these keeps `Sound` and every
byte of every page.
-/
namespace CCore.Swap

open Function List

/-! ## Free pages -/

/-- Pages were taken off the free list for tables or by the handler. -/
structure Grown (k k' : Kernel) : Prop where
  leaf : k'.leaf = k.leaf
  pagePte : k'.pagePte = k.pagePte
  sdSec : k'.sdSec = k.sdSec
  swapPageList : k'.swapPageList = k.swapPageList
  clockPointer : k'.clockPointer = k.clockPointer
  swapOffset : k'.swapOffset = k.swapOffset
  disk : k'.disk = k.disk
  free : k'.free <:+ k.free
  bytes : ∀ page, page ∉ k.free → k'.bytes page = k.bytes page
  second : ∀ slot, k.second slot = true → k'.second slot = true
  third : ∀ slot, k.third slot = true → k'.third slot = true

theorem Grown.refl (k : Kernel) : Grown k k :=
  ⟨rfl, rfl, rfl, rfl, rfl, rfl, rfl, suffix_refl _, fun _ _ => rfl, fun _ => id, fun _ => id⟩

theorem Grown.trans {k₁ k₂ k₃ : Kernel} (first : Grown k₁ k₂) (second : Grown k₂ k₃) :
    Grown k₁ k₃ where
  leaf := second.leaf.trans first.leaf
  pagePte := second.pagePte.trans first.pagePte
  sdSec := second.sdSec.trans first.sdSec
  swapPageList := second.swapPageList.trans first.swapPageList
  clockPointer := second.clockPointer.trans first.clockPointer
  swapOffset := second.swapOffset.trans first.swapOffset
  disk := second.disk.trans first.disk
  free := second.free.trans first.free
  bytes := by
    intro page used
    rw [second.bytes page fun member => used (first.free.subset member), first.bytes page used]
  second := fun slot here => second.second slot (first.second slot here)
  third := fun slot here => second.third slot (first.third slot here)

variable {k k' : Kernel} {page : Nat} {other : Slot} {e : Pte} {dirty : Bool}

theorem Grown.owns (grown : Grown k k') (slot : Slot) (sec : Nat) :
    Owns k' slot sec ↔ Owns k slot sec := by
  rw [Owns, Owns, grown.leaf, grown.swapPageList, grown.sdSec]

theorem Sound.grown {held : Option Nat} (sound : Sound k held)
    (grown : Grown k k') : Sound k' held := by
  constructor
  case writable =>
    rw [grown.leaf]
    exact sound.writable
  case tables =>
    intro slot placed
    rw [grown.leaf] at placed
    obtain ⟨second, third⟩ := sound.tables slot placed
    exact ⟨grown.second _ second, grown.third _ third⟩
  case distinct =>
    rw [grown.leaf]
    exact sound.distinct
  case used =>
    intro slot page dirty here member
    rw [grown.leaf] at here
    exact sound.used slot page dirty here (grown.free.subset member)
  case apart =>
    intro page isHeld
    obtain ⟨used, nowhere⟩ := sound.apart page isHeld
    rw [grown.leaf]
    exact ⟨fun member => used (grown.free.subset member), nowhere⟩
  case listed =>
    rw [grown.swapPageList, grown.pagePte, grown.leaf]
    exact sound.listed
  case listOnce =>
    rw [grown.swapPageList]
    exact sound.listOnce
  case freeOnce => exact grown.free.sublist.nodup sound.freeOnce
  case unlisted =>
    intro page member
    rw [grown.swapPageList]
    exact sound.unlisted page (grown.free.subset member)
  case clock =>
    rw [grown.clockPointer, grown.swapPageList]
    exact sound.clock
  case offset =>
    rw [grown.swapOffset]
    exact sound.offset
  case sectors =>
    intro slot sec own
    rw [grown.swapOffset]
    exact sound.sectors slot sec ((grown.owns slot sec).mp own)
  case alone =>
    intro slot slot' sec own own'
    exact sound.alone slot slot' sec ((grown.owns slot sec).mp own) ((grown.owns slot' sec).mp own')
  case clean =>
    intro slot page member here copy x inside
    rw [grown.swapPageList] at member
    rw [grown.leaf] at here
    rw [grown.sdSec] at copy ⊢
    rw [grown.disk, grown.bytes page (sound.used slot page false here)]
    exact sound.clean slot page member here copy x inside

theorem Sound.grown_moves {held : Option Nat} (sound : Sound k held)
    (grown : Grown k k') : Moves k k' where
  values := by
    intro slot x _
    rw [value, value, grown.leaf, grown.disk]
    cases here : place (k.leaf slot) with
    | nowhere => rfl
    | resident page dirty =>
      show k'.bytes page x = k.bytes page x
      rw [grown.bytes page (sound.used slot page dirty here)]
    | swapped sec => rfl
  settled := by
    intro slot unsettled
    rw [Unsettled, grown.leaf] at unsettled
    exact unsettled
  elsewhere := fun slot _ => by rw [grown.leaf]

theorem allocPage_spec (k : Kernel) (some_free : k.free ≠ []) :
    ∃ page k', allocPage k = some (page, k') ∧ Grown k k' ∧ k.free = page :: k'.free ∧
      k'.second = k.second ∧ k'.third = k.third ∧ ∀ x, k'.bytes page x = 0 := by
  obtain ⟨page, rest, free⟩ := exists_cons_of_ne_nil some_free
  have member : page ∈ k.free := free ▸ mem_cons_self
  refine ⟨page, { k with free := rest, bytes := update k.bytes page fun _ => 0 }, ?_,
    ⟨rfl, rfl, rfl, rfl, rfl, rfl, rfl, ?_, ?_, fun _ => id, fun _ => id⟩, free, rfl, rfl, ?_⟩
  · rw [allocPage, free]
  · exact free ▸ suffix_cons page rest
  · intro other used
    have different : other ≠ page := fun same => used (same ▸ member)
    exact update_of_ne different _ _
  · intro x
    show update k.bytes page (fun _ => 0) page x = 0
    rw [update_self]

theorem Sound.take (sound : Sound k none) (grown : Grown k k')
    (free : k.free = page :: k'.free) : Sound k' (some page) := by
  have sound' := sound.grown grown
  have member : page ∈ k.free := free ▸ mem_cons_self
  have once := sound.freeOnce
  rw [free, nodup_cons] at once
  refine { sound' with apart := ?_, listed := ?_ }
  · intro other isHeld
    obtain rfl := Option.some.inj isHeld
    refine ⟨once.1, fun slot dirty here => ?_⟩
    rw [grown.leaf] at here
    exact sound.used slot page dirty here member
  · intro other listed _
    exact sound'.listed other listed (by simp)

def tablesNeeded (k : Kernel) (slot : Slot) : Nat :=
  (if k.second (slot.1, slot.2 / 512 / 512) then 0 else 1) +
    (if k.third (slot.1, slot.2 / 512) then 0 else 1)

/-- The table under a root entry. -/
def checkSecond (k : Kernel) (top : Slot) : Option Kernel :=
  if k.second top then some k
  else do
    let (_, k) ← allocPage k
    some { k with second := update k.second top true }

/-- The table under a second-level entry. -/
def checkThird (k : Kernel) (middle : Slot) : Option Kernel :=
  if k.third middle then some k
  else do
    let (_, k) ← allocPage k
    some { k with third := update k.third middle true }

theorem checkTables_eq (k : Kernel) (slot : Slot) :
    checkTables k slot = (checkSecond k (slot.1, slot.2 / 512 / 512)).bind fun k =>
      checkThird k (slot.1, slot.2 / 512) := by
  simp only [checkTables, checkSecond, checkThird]
  cases k.second (slot.1, slot.2 / 512 / 512) with
  | true => rfl
  | false => cases allocPage k <;> rfl

theorem update_true {f : Slot → Bool} {slot : Slot} (here : f other = true) :
    update f slot true other = true := by
  by_cases same : other = slot
  · rw [same, update_self]
  · rw [update_of_ne same, here]

theorem checkSecond_spec (k : Kernel) (top : Slot)
    (enough : (if k.second top then 0 else 1) ≤ k.free.length) :
    ∃ k', checkSecond k top = some k' ∧ Grown k k' ∧ k'.second top = true ∧ k'.third = k.third ∧
      k.free.length = k'.free.length + if k.second top then 0 else 1 := by
  cases present : k.second top with
  | true => exact ⟨k, by rw [checkSecond, if_pos present], Grown.refl k, present, rfl, rfl⟩
  | false =>
    have left : k.free ≠ [] := by
      intro empty
      simp [present, empty] at enough
    obtain ⟨page, k₁, run, grown, free, -, third, -⟩ := allocPage_spec k left
    refine ⟨{ k₁ with second := update k₁.second top true }, ?_,
      { grown with second := fun other here => update_true (grown.second other here) },
      update_self _ _ _, third, ?_⟩
    · simp [checkSecond, present, run]
    · simp [free]

theorem checkThird_spec (k : Kernel) (middle : Slot)
    (enough : (if k.third middle then 0 else 1) ≤ k.free.length) :
    ∃ k', checkThird k middle = some k' ∧ Grown k k' ∧ k'.third middle = true ∧
      k'.second = k.second ∧ k.free.length = k'.free.length + if k.third middle then 0 else 1 := by
  cases present : k.third middle with
  | true => exact ⟨k, by rw [checkThird, if_pos present], Grown.refl k, present, rfl, rfl⟩
  | false =>
    have left : k.free ≠ [] := by
      intro empty
      simp [present, empty] at enough
    obtain ⟨page, k₁, run, grown, free, second, -, -⟩ := allocPage_spec k left
    refine ⟨{ k₁ with third := update k₁.third middle true }, ?_,
      { grown with third := fun other here => update_true (grown.third other here) },
      update_self _ _ _, second, ?_⟩
    · simp [checkThird, present, run]
    · simp [free]

theorem checkTables_spec (k : Kernel) (slot : Slot) (enough : tablesNeeded k slot ≤ k.free.length) :
    ∃ k', checkTables k slot = some k' ∧ Grown k k' ∧
      k'.second (slot.1, slot.2 / 512 / 512) = true ∧ k'.third (slot.1, slot.2 / 512) = true ∧
      k.free.length = k'.free.length + tablesNeeded k slot := by
  rw [tablesNeeded] at enough ⊢
  obtain ⟨k₁, run₁, grown₁, second₁, third₁, count₁⟩ :=
    checkSecond_spec k (slot.1, slot.2 / 512 / 512) (by omega)
  obtain ⟨k₂, run₂, grown₂, third₂, second₂, count₂⟩ :=
    checkThird_spec k₁ (slot.1, slot.2 / 512) (by rw [third₁]; omega)
  refine ⟨k₂, ?_, grown₁.trans grown₂, by rw [second₂, second₁], third₂, ?_⟩
  · rw [checkTables_eq, run₁]
    exact run₂
  · rw [third₁] at count₂
    omega

/-! ## Mapping the page -/

theorem place_resident_iff : place e = .resident page dirty ↔
    e.sd = false ∧ e.present = true ∧ e.pfn = page ∧ e.dirty = dirty := by
  rw [place]
  cases e.sd <;> cases e.present <;> simp

theorem place_swapped_iff {sec : Nat} : place e = .swapped sec ↔ e.sd = true ∧ e.pfn = sec := by
  rw [place]
  cases e.sd <;> cases e.present <;> simp

theorem place_nowhere_iff : place e = .nowhere ↔ e.sd = false ∧ e.present = false := by
  rw [place]
  cases e.sd <;> cases e.present <;> simp

def Away (k : Kernel) (slot : Slot) : Prop :=
  ∀ page dirty, place (k.leaf slot) ≠ .resident page dirty

theorem Sound.fill (sound : Sound k (some page)) (f : Nat → UInt8) :
    Sound { k with bytes := update k.bytes page f } (some page) ∧
      Moves k { k with bytes := update k.bytes page f } := by
  have others : ∀ slot page' dirty, place (k.leaf slot) = .resident page' dirty →
      update k.bytes page f page' = k.bytes page' := by
    intro slot page' dirty here
    have different : page' ≠ page := by
      rintro rfl
      exact (sound.apart page' rfl).2 slot dirty here
    exact update_of_ne different _ _
  refine ⟨{ sound with clean := ?_ }, ?_, fun _ => id, fun _ _ => rfl⟩
  · intro slot page' member here copy x inside
    show update k.bytes page f page' x = readPage k.disk (k.sdSec page') x
    rw [others slot page' false here]
    exact sound.clean slot page' member here copy x inside
  · intro slot x _
    rw [value, value]
    cases here : place (k.leaf slot) with
    | nowhere => rfl
    | resident page' dirty =>
      show update k.bytes page f page' x = k.bytes page' x
      rw [others slot page' dirty here]
    | swapped sec => rfl

def mapped (k : Kernel) (slot : Slot) (page sec : Nat) : Kernel :=
  { k with
    leaf := update k.leaf slot ⟨page, true, true, false, false, false⟩
    pagePte := update k.pagePte page (some slot)
    sdSec := update k.sdSec page sec }

theorem setMapped_sdSec (k : Kernel) (slot : Slot) (page sec : Nat) : { setMapped k slot page with
    sdSec := update (setMapped k slot page).sdSec page sec } = mapped k slot page sec := by
  simp [setMapped, mapped, update_idem]

variable {slot : Slot} {sec : Nat}

theorem mapped_leaf_self :
    (mapped k slot page sec).leaf slot = ⟨page, true, true, false, false, false⟩ :=
  update_self _ _ _

theorem mapped_leaf_other (different : other ≠ slot) :
    (mapped k slot page sec).leaf other = k.leaf other := update_of_ne different _ _

theorem mapped_sdSec_self : (mapped k slot page sec).sdSec page = sec := update_self _ _ _

theorem mapped_sdSec_other {page' : Nat} (different : page' ≠ page) :
    (mapped k slot page sec).sdSec page' = k.sdSec page' := update_of_ne different _ _

theorem mapped_place_self : place ((mapped k slot page sec).leaf slot) = .resident page false := by
  rw [mapped_leaf_self]
  rfl

theorem mapped_resident (sound : Sound k (some page)) {page' : Nat}
    (here : place ((mapped k slot page sec).leaf other) = .resident page' dirty) :
    (other = slot ∧ page' = page ∧ dirty = false) ∨
      (other ≠ slot ∧ place (k.leaf other) = .resident page' dirty ∧ page' ≠ page) := by
  by_cases same : other = slot
  · rw [same, mapped_place_self] at here
    cases here
    exact .inl ⟨same, rfl, rfl⟩
  · rw [mapped_leaf_other same] at here
    refine .inr ⟨same, here, ?_⟩
    rintro rfl
    exact (sound.apart page' rfl).2 other dirty here

theorem mapped_owns (sound : Sound k (some page))
    (copy : sec = 0 ∨ place (k.leaf slot) = .swapped sec) {sec' : Nat}
    (own : Owns (mapped k slot page sec) other sec') : Owns k other sec' := by
  rcases own with swapped | ⟨page', member, dirty, here, same, real⟩
  · have different : other ≠ slot := by
      rintro rfl
      rw [mapped_place_self] at swapped
      cases swapped
    rw [mapped_leaf_other different] at swapped
    exact .inl swapped
  · rcases mapped_resident sound here with ⟨rfl, rfl, -⟩ | ⟨-, old, different⟩
    · rw [mapped_sdSec_self] at same
      subst same
      exact .inl (copy.resolve_left real)
    · rw [mapped_sdSec_other different] at same
      exact .inr ⟨page', member, dirty, old, same, real⟩

theorem mapped_placed (different : other ≠ slot)
    (placed : place ((mapped k slot page sec).leaf other) ≠ .nowhere) :
    place (k.leaf other) ≠ .nowhere := by
  rwa [mapped_leaf_other different] at placed

theorem Sound.map (sound : Sound k (some page)) (away : Away k slot)
    (second : k.second (slot.1, slot.2 / 512 / 512) = true)
    (third : k.third (slot.1, slot.2 / 512) = true)
    (copy : sec = 0 ∨ place (k.leaf slot) = .swapped sec)
    (filled : ∀ x < 4096, k.bytes page x = value k slot x) :
    Sound (mapped k slot page sec) none := by
  constructor
  case writable =>
    intro other placed
    by_cases same : other = slot
    · rw [same, mapped_leaf_self]
    · rw [mapped_leaf_other same]
      exact sound.writable other (mapped_placed same placed)
  case tables =>
    intro other placed
    by_cases same : other = slot
    · rw [same]
      exact ⟨second, third⟩
    · exact sound.tables other (mapped_placed same placed)
  case distinct =>
    intro a b page' d d' hereA hereB
    rcases mapped_resident sound hereA with ⟨rfl, rfl, -⟩ | ⟨-, oldA, notPage⟩
    · rcases mapped_resident sound hereB with ⟨rfl, -, -⟩ | ⟨-, -, notPage⟩
      · rfl
      · exact absurd rfl notPage
    · rcases mapped_resident sound hereB with ⟨-, rfl, -⟩ | ⟨-, oldB, -⟩
      · exact absurd rfl notPage
      · exact sound.distinct a b page' d d' oldA oldB
  case used =>
    intro other page' dirty here
    rcases mapped_resident sound here with ⟨-, rfl, -⟩ | ⟨-, old, -⟩
    · exact (sound.apart page' rfl).1
    · exact sound.used other page' dirty old
  case apart => exact nofun
  case listed =>
    intro page' member _
    rcases eq_or_ne page' page with rfl | same
    · exact ⟨slot, false, update_self _ _ _, mapped_place_self⟩
    · obtain ⟨slot', dirty, back, here⟩ :=
        sound.listed page' member fun held => same (Option.some.inj held).symm
      have different : slot' ≠ slot := by
        rintro rfl
        exact away page' dirty here
      refine ⟨slot', dirty, ?_, ?_⟩
      · exact (update_of_ne same _ _).trans back
      · rw [mapped_leaf_other different]
        exact here
  case listOnce => exact sound.listOnce
  case freeOnce => exact sound.freeOnce
  case unlisted => exact sound.unlisted
  case clock => exact sound.clock
  case offset => exact sound.offset
  case sectors => exact fun other sec' own => sound.sectors other sec' (mapped_owns sound copy own)
  case alone =>
    intro a b sec' ownA ownB
    exact sound.alone a b sec' (mapped_owns sound copy ownA) (mapped_owns sound copy ownB)
  case clean =>
    intro other page' member here real x inside
    rcases mapped_resident sound here with ⟨rfl, rfl, -⟩ | ⟨-, old, different⟩
    · rw [mapped_sdSec_self] at real ⊢
      show k.bytes page' x = readPage k.disk sec x
      rw [filled x inside, value, copy.resolve_left real]
    · rw [mapped_sdSec_other different] at real ⊢
      exact sound.clean other page' member old real x inside

theorem mapped_values (filled : ∀ x < 4096, k.bytes page x = value k slot x) :
    SameValues k (mapped k slot page sec) := by
  intro other x inside
  by_cases same : other = slot
  · rw [same, ← filled x inside, value, mapped_place_self]
    rfl
  · exact value_of_place k (mapped k slot page sec) (by rw [mapped_leaf_other same]) rfl rfl x

theorem mapped_settled (unsettled : Unsettled (mapped k slot page sec) other) :
    other ≠ slot ∧ Unsettled k other := by
  have different : other ≠ slot := by
    rintro rfl
    rw [Unsettled, mapped_leaf_self] at unsettled
    exact nomatch unsettled.1
  rw [Unsettled, mapped_leaf_other different] at unsettled
  exact ⟨different, unsettled⟩

theorem Sound.append (sound : Sound k none) {slot : Slot}
    (back : k.pagePte page = some slot) (here : place (k.leaf slot) = .resident page dirty)
    (noCopy : k.sdSec page = 0) (fresh : page ∉ k.swapPageList) :
    Sound { k with swapPageList := k.swapPageList ++ [page] } none := by
  have listed : ∀ page', page' ∈ k.swapPageList ++ [page] → page' ∈ k.swapPageList ∨ page' = page := by
    intro page' member
    simpa using member
  have owns : ∀ other sec, Owns { k with swapPageList := k.swapPageList ++ [page] } other sec →
      Owns k other sec := by
    rintro other sec (swapped | ⟨page', member, dirty', there, copy, real⟩)
    · exact .inl swapped
    · rcases listed page' member with old | rfl
      · exact .inr ⟨page', old, dirty', there, copy, real⟩
      · exact absurd (copy.symm.trans noCopy) real
  refine { sound with
    listed := ?_, listOnce := ?_, unlisted := ?_, clock := ?_, sectors := ?_, alone := ?_, clean := ?_ }
  · intro page' member _
    rcases listed page' member with old | rfl
    · exact sound.listed page' old (by simp)
    · exact ⟨slot, dirty, back, here⟩
  · rw [List.nodup_append]
    refine ⟨sound.listOnce, nodup_singleton page, ?_⟩
    rintro a member b single rfl
    exact fresh (mem_singleton.mp single ▸ member)
  · intro page' free member
    rcases listed page' member with old | rfl
    · exact sound.unlisted page' free old
    · exact sound.used slot page' dirty here free
  · intro page' pointer
    exact mem_append_left _ (sound.clock page' pointer)
  · exact fun other sec own => sound.sectors other sec (owns other sec own)
  · exact fun a b sec ownA ownB => sound.alone a b sec (owns a sec ownA) (owns b sec ownB)
  · intro other page' member there copy
    rcases listed page' member with old | rfl
    · exact sound.clean other page' old there copy
    · exact absurd noCopy copy

end CCore.Swap
