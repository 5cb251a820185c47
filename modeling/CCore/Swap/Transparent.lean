import CCore.Lib.Run
import CCore.Swap.Refill

/-!
# Swapping is transparent

A fault leaves the bytes of every page as they are and the page of the address in
memory, as long as there is a page to take.  Then a load gives the last value
stored, and pages on the device never share a sector.
-/
namespace CCore.Swap

open PageTable (Plain)
open Function List Option Nat
open Run

/-- What a fault does: the page of the entry is in memory, and nothing else is
different for a process. -/
structure Served (k k' : Kernel) (slot : Slot) (page : Nat) (dirty : Bool) : Prop where
  sound : Sound k' none
  values : SameValues k k'
  here : place (k'.leaf slot) = .resident page dirty
  settled : ∀ other, Unsettled k' other → other ≠ slot ∧ Unsettled k other

variable {k : Kernel} {slot : Slot} {addr p page sec : Nat} {dirty : Bool} {s : System}

theorem Served.touch {k' : Kernel} {dirty' : Bool}
    (served : Served k k' slot page dirty) (e : Pte) (now : place e = .resident page dirty')
    (more : dirty = true → dirty' = true) (write : e.write = (k'.leaf slot).write) :
    Served k { k' with leaf := update k'.leaf slot e } slot page dirty' := by
  have self : update k'.leaf slot e slot = e := update_self _ _ _
  have rest : ∀ other, other ≠ slot → update k'.leaf slot e other = k'.leaf other :=
    fun other different => update_of_ne different _ _
  have same : ∀ other, Redirtied (place (k'.leaf other)) (place (update k'.leaf slot e other)) := by
    intro other
    by_cases own : other = slot
    · rw [own, self, served.here, now]
      cases dirty' with
      | true => exact .inr ⟨page, dirty, rfl, rfl⟩
      | false =>
        cases dirty with
        | true => cases more rfl
        | false => exact .inl rfl
    · rw [rest other own]
      exact Redirtied.refl _
  refine ⟨served.sound.leaf _ same ?_, ?_, ?_, ?_⟩
  · intro other
    by_cases own : other = slot
    · rw [own, self, write]
    · rw [rest other own]
  · refine served.values.trans ?_
    intro other x _
    by_cases own : other = slot
    · have here : place (({ k' with leaf := update k'.leaf slot e } : Kernel).leaf slot) =
          .resident page dirty' := (congrArg place self).trans now
      rw [own, value, value, served.here, here]
    · exact value_of_place k' { k' with leaf := update k'.leaf slot e }
        (congrArg place (rest other own)) rfl rfl x
  · exact (congrArg place self).trans now
  · intro other unsettled
    have different : other ≠ slot := by
      rintro rfl
      have onDevice : (update k'.leaf other e other).sd = true := unsettled.1
      rw [self, (place_resident_iff.mp now).1] at onDevice
      cases onDevice
    rw [Unsettled] at unsettled
    rw [show ({ k' with leaf := update k'.leaf slot e } : Kernel).leaf other =
      k'.leaf other from rest other different] at unsettled
    exact served.settled other unsettled

/-! ## The handlers -/

def CanTake (k : Kernel) : Prop :=
  if k.free.length < k.threshold then k.swapPageList ≠ [] ∧ k.swapOffset < 2 ^ 32
  else k.free ≠ []

instance (k : Kernel) : Decidable (CanTake k) := by
  unfold CanTake
  infer_instance

/-- Where `deal_in_SD` gets its page. -/
def takePage (k : Kernel) : Option (Nat × Kernel) :=
  if k.free.length < k.threshold then clockAlgorithm k else allocPage k

theorem takePage_spec (k : Kernel) (sound : Sound k none) (can : CanTake k) :
    ∃ page k', takePage k = some (page, k') ∧ Sound k' (some page) ∧ Moves k k' ∧
      k'.second = k.second ∧ k'.third = k.third := by
  rw [CanTake] at can
  rw [takePage]
  by_cases low : k.free.length < k.threshold
  · rw [if_pos low] at can
    obtain ⟨page, k', run, held, moves, -, second, third⟩ :=
      clockAlgorithm_spec k sound can.1 can.2
    exact ⟨page, k', by rw [if_pos low, run], held, moves, second, third⟩
  · rw [if_neg low] at can
    obtain ⟨page, k', run, grown, free, second, third, -⟩ := allocPage_spec k can
    exact ⟨page, k', by rw [if_neg low, run], sound.take grown free, sound.grown_moves grown,
      second, third⟩

theorem Sound.serve {k₁ : Kernel} (sound : Sound k₁ (some page)) (moves : Moves k k₁)
    (away : Away k slot) (content : Nat → UInt8) (enough : tablesNeeded k₁ slot ≤ k₁.free.length)
    (copy : sec = 0 ∨ place (k.leaf slot) = .swapped sec)
    (right : ∀ x < 4096, content x = value k slot x) :
    ∃ k₂, checkTables { k₁ with bytes := update k₁.bytes page content } slot = some k₂ ∧
      Served k (mapped k₂ slot page sec) slot page false ∧ page ∉ k₂.free := by
  obtain ⟨filled, kept⟩ := sound.fill content
  obtain ⟨k₂, run, grown, second, third, -⟩ :=
    checkTables_spec { k₁ with bytes := update k₁.bytes page content } slot enough
  have sound₂ := filled.grown grown
  have moves₂ := (moves.trans kept).trans (filled.grown_moves grown)
  have samePlace : place (k₂.leaf slot) = place (k.leaf slot) := moves₂.elsewhere slot away
  have bytes : k₂.bytes page = content := by
    rw [grown.bytes page (filled.apart page rfl).1]
    exact update_self _ _ _
  have full : ∀ x < 4096, k₂.bytes page x = value k₂ slot x := by
    intro x inside
    rw [bytes, right x inside, moves₂.values slot x inside]
  refine ⟨k₂, run, ⟨?_, ?_, mapped_place_self, ?_⟩, (sound₂.apart page rfl).1⟩
  · exact sound₂.map (by rw [Away, samePlace]; exact away) second third
      (by rw [samePlace]; exact copy) full
  · exact moves₂.values.trans (mapped_values full)
  · intro other unsettled
    obtain ⟨different, before⟩ := mapped_settled unsettled
    exact ⟨different, moves₂.settled other before⟩

theorem dealInSD_eq (k : Kernel) (slot : Slot) : dealInSD k slot = (takePage k).bind fun taken =>
    (allocPagePointPhyc { taken.2 with
      bytes := update taken.2.bytes taken.1 (readPage taken.2.disk (k.leaf slot).pfn) }
      slot taken.1).bind fun k₂ =>
        some { k₂ with sdSec := update k₂.sdSec taken.1 (k.leaf slot).pfn } := by
  rw [dealInSD, takePage]
  split <;> rfl

theorem dealInSD_spec (k : Kernel) (sound : Sound k none)
    (swapped : place (k.leaf slot) = .swapped sec) (can : CanTake k) :
    ∃ page k', dealInSD k slot = some k' ∧ Served k k' slot page false := by
  obtain ⟨page, k₁, take, held, moves, second, third⟩ := takePage_spec k sound can
  have away : Away k slot := by
    intro page' dirty here
    rw [swapped] at here
    cases here
  have tables := sound.tables slot (by rw [swapped]; exact nofun)
  have none_needed : tablesNeeded k₁ slot = 0 := by
    rw [tablesNeeded, second, third, tables.1, tables.2]
    rfl
  have there : place (k₁.leaf slot) = .swapped sec := (moves.elsewhere slot away).trans swapped
  have right : ∀ x < 4096, readPage k₁.disk sec x = value k slot x := by
    intro x inside
    rw [← moves.values slot x inside, value, there]
  obtain ⟨k₂, run, served, -⟩ := held.serve moves away (readPage k₁.disk sec)
    (by rw [none_needed]; exact Nat.zero_le _) (.inr swapped) right
  refine ⟨page, mapped k₂ slot page sec, ?_, served⟩
  simp only [dealInSD_eq, take, bind_eq_bind, bind_some,
    (place_swapped_iff.mp swapped).2, allocPagePointPhyc, run]
  exact congrArg some (setMapped_sdSec k₂ slot page sec)

theorem Served.addAttribute {k' : Kernel}
    (served : Served k k' slot page dirty) (back : k'.pagePte page = some slot) (mode : Mode) :
    ∃ dirty' k₂, addAttribute k' page mode = some k₂ ∧ Served k k₂ slot page dirty' := by
  obtain ⟨sd, present, pfn, bit⟩ := place_resident_iff.mp served.here
  cases mode with
  | store =>
    refine ⟨true, { k' with
      leaf := update k'.leaf slot { k'.leaf slot with dirty := true } },
      by rw [Swap.addAttribute, back]; rfl, served.touch _ ?_ (fun _ => rfl) rfl⟩
    exact place_resident_iff.mpr ⟨sd, present, pfn, rfl⟩
  | load =>
    refine ⟨dirty, { k' with
      leaf := update k'.leaf slot { k'.leaf slot with accessed := true } },
      by rw [Swap.addAttribute, back]; rfl, served.touch _ ?_ id rfl⟩
    exact place_resident_iff.mpr ⟨sd, present, pfn, bit⟩

def CanMake (k : Kernel) (slot : Slot) : Prop :=
  if k.free.length < k.threshold then
    k.swapPageList ≠ [] ∧ k.swapOffset < 2 ^ 32 ∧ tablesNeeded k slot ≤ k.free.length
  else tablesNeeded k slot < k.free.length

instance (k : Kernel) (slot : Slot) : Decidable (CanMake k slot) := by
  unfold CanMake
  infer_instance

theorem dealNoAlloc_spec (k : Kernel) (sound : Sound k none) (mode : Mode)
    (nowhere : place (k.leaf slot) = .nowhere) (can : CanMake k slot) :
    ∃ page dirty k', dealNoAlloc k slot mode = some k' ∧ Served k k' slot page dirty := by
  have away : Away k slot := by
    intro page dirty here
    rw [nowhere] at here
    cases here
  have zero : ∀ x < 4096, (0 : UInt8) = value k slot x := by
    intro x _
    rw [value, nowhere]
  rw [CanMake] at can
  by_cases low : k.free.length < k.threshold
  · rw [if_pos low] at can
    obtain ⟨page, k₁, take, held, moves, free, second, third⟩ :=
      clockAlgorithm_spec k sound can.1 can.2.1
    have enough : tablesNeeded k₁ slot ≤ k₁.free.length := by
      rw [tablesNeeded, second, third, free]
      exact can.2.2
    obtain ⟨k₂, run, served, -⟩ := held.serve moves away (fun _ => 0) enough (.inl rfl) zero
    obtain ⟨dirty, k₃, add, done⟩ := served.addAttribute (update_self _ _ _) mode
    refine ⟨page, dirty, k₃, ?_, done⟩
    simp only [dealNoAlloc, if_pos low, take, bind_eq_bind, bind_some, allocPagePointPhyc, run]
    exact add
  · rw [if_neg low] at can
    -- `alloc_page_helper` makes the tables first
    obtain ⟨k₁, run, grown, second, third, count⟩ := checkTables_spec k slot (by omega)
    have sound₁ := sound.grown grown
    have left : k₁.free ≠ [] := by
      intro empty
      rw [empty] at count
      simp only [length_nil] at count
      omega
    obtain ⟨page, k₂, take, grown₂, free, second₂, third₂, cleared⟩ := allocPage_spec k₁ left
    have held := sound₁.take grown₂ free
    have moves := (sound.grown_moves grown).trans (sound₁.grown_moves grown₂)
    have samePlace : place (k₂.leaf slot) = place (k.leaf slot) := moves.elsewhere slot away
    have full : ∀ x < 4096, k₂.bytes page x = value k₂ slot x := by
      intro x inside
      rw [cleared x, moves.values slot x inside]
      exact zero x inside
    have sound₃ : Sound (mapped k₂ slot page 0) none :=
      held.map (by rw [Away, samePlace]; exact away) (by rw [second₂]; exact second)
        (by rw [third₂]; exact third) (.inl rfl) full
    have member : page ∈ k₁.free := free ▸ mem_cons_self
    have fresh : page ∉ k₂.swapPageList := by
      rw [grown₂.swapPageList]
      exact sound₁.unlisted page member
    have back : (mapped k₂ slot page 0).pagePte page = some slot := update_self _ _ _
    have here : place ((mapped k₂ slot page 0).leaf slot) = .resident page false :=
      mapped_place_self
    have served : Served k { mapped k₂ slot page 0 with
        swapPageList := (mapped k₂ slot page 0).swapPageList ++ [page] } slot page false := by
      refine ⟨sound₃.append back here mapped_sdSec_self fresh, ?_, here, ?_⟩
      · have kept : SameValues k₂ (mapped k₂ slot page 0) := mapped_values full
        exact moves.values.trans kept
      · intro other unsettled
        have unsettled' : Unsettled (mapped k₂ slot page 0) other := unsettled
        obtain ⟨different, before⟩ := mapped_settled unsettled'
        exact ⟨different, moves.settled other before⟩
    obtain ⟨dirty, k₃, add, done⟩ := served.addAttribute back mode
    refine ⟨page, dirty, k₃, ?_, done⟩
    have absent : (k₁.leaf slot).present = false := by
      rw [grown.leaf]
      exact (place_nowhere_iff.mp nowhere).2
    simp only [dealNoAlloc, if_neg low, allocPageHelper, run, bind_eq_bind, bind_some, absent, take]
    exact add

/-! ## Loads and stores -/

/-- No entry on the device is marked present, as between two faults. -/
def Settled (k : Kernel) : Prop := ∀ slot, ¬ Unsettled k slot

/-- The address is outside the boot map and, if its page is not in memory, there is
what the handler needs to bring it there. -/
def Serves (k : Kernel) (p addr : Nat) (mode : Mode) : Prop :=
  Plain addr ∧ match place (k.leaf (p, addr / 4096)) with
    | .resident _ _ => True
    | .swapped _ => CanTake k
    | .nowhere => (mode = .load → isLegalAddr (k.pcb p) addr = true) ∧ CanMake k (p, addr / 4096)

/-- The condition on one access. -/
def AccessServes (s : System) : Access → Prop
  | .load p addr => Serves s.kernel p addr .load
  | .store p addr _ => Serves s.kernel p addr .store

instance decidableServes (k : Kernel) (p addr : Nat) (mode : Mode) :
    Decidable (Serves k p addr mode) := by
  unfold Serves
  cases place (k.leaf (p, addr / 4096)) <;> infer_instance

instance decidableAccessServes (s : System) : (a : Access) → Decidable (AccessServes s a)
  | .load p addr => decidableServes s.kernel p addr .load
  | .store p addr _ => decidableServes s.kernel p addr .store

theorem handlePageFault_swapped (sound : Sound k none) (mode : Mode)
    (swapped : place (k.leaf (p, addr / 4096)) = .swapped sec) (can : CanTake k)
    (settled : Settled k) : ∃ page k', handlePageFault k p addr mode = some k' ∧
    Served k k' (p, addr / 4096) page false := by
  have placed : place (k.leaf (p, addr / 4096)) ≠ .nowhere := by
    rw [swapped]
    exact nofun
  obtain ⟨second, third⟩ := sound.tables _ placed
  have write := sound.writable _ placed
  obtain ⟨sd, pfn⟩ := place_swapped_iff.mp swapped
  -- `check_W_SD_and_set_AD` marks the entry present before `deal_in_SD` looks at it
  let marked : Pte := { setAD (k.leaf (p, addr / 4096)) mode with present := true }
  let k₁ : Kernel := { k with leaf := update k.leaf (p, addr / 4096) marked }
  have check : checkWSDAndSetAD k (p, addr / 4096) mode = (.inSD, k₁) := by
    simp [checkWSDAndSetAD, second, third, sd, write, k₁, marked]
  have samePlace : ∀ slot, place (k₁.leaf slot) = place (k.leaf slot) := by
    intro slot
    by_cases same : slot = (p, addr / 4096)
    · rw [same, swapped]
      show place (update k.leaf (p, addr / 4096) marked (p, addr / 4096)) = _
      rw [update_self]
      exact place_swapped_iff.mpr ⟨sd, pfn⟩
    · show place (update k.leaf (p, addr / 4096) marked slot) = _
      rw [update_of_ne same]
  have sound₁ : Sound k₁ none := by
    refine sound.leaf _ (fun slot => .inl (samePlace slot)) fun slot => ?_
    by_cases same : slot = (p, addr / 4096)
    · rw [same, update_self]
      rfl
    · rw [update_of_ne same]
  obtain ⟨page, k', run, served⟩ :=
    dealInSD_spec k₁ sound₁ ((samePlace _).trans swapped) can
  refine ⟨page, k', ?_, served.sound, ?_, served.here, ?_⟩
  · simp only [handlePageFault, check]
    exact run
  · intro slot x inside
    rw [served.values slot x inside]
    exact value_of_place k k₁ (samePlace slot) rfl rfl x
  · intro other unsettled
    obtain ⟨different, before⟩ := served.settled other unsettled
    have unchanged : k₁.leaf other = k.leaf other := update_of_ne different _ _
    rw [Unsettled, unchanged] at before
    exact absurd before (settled other)

theorem handlePageFault_nowhere (sound : Sound k none) (mode : Mode)
    (nowhere : place (k.leaf (p, addr / 4096)) = .nowhere)
    (legal : mode = .load → isLegalAddr (k.pcb p) addr = true) (can : CanMake k (p, addr / 4096)) :
    ∃ page dirty k', handlePageFault k p addr mode = some k' ∧
      Served k k' (p, addr / 4096) page dirty := by
  obtain ⟨sd, absent⟩ := place_nowhere_iff.mp nowhere
  have check : checkWSDAndSetAD k (p, addr / 4096) mode = (.noAlloc, k) := by
    simp [checkWSDAndSetAD, sd, absent]
  obtain ⟨page, dirty, k', run, served⟩ := dealNoAlloc_spec k sound mode nowhere can
  refine ⟨page, dirty, k', ?_, served⟩
  have allowed : ¬ (mode = .load ∧ isLegalAddr (k.pcb p) addr = false) := by
    rintro ⟨loads, illegal⟩
    rw [legal loads] at illegal
    cases illegal
  simp only [handlePageFault, check, if_neg allowed]
  exact run

def bring (k : Kernel) (p addr : Nat) (mode : Mode) : Option Kernel :=
  if (k.leaf (p, addr / 4096)).present then some k else handlePageFault k p addr mode

theorem reach_eq (k : Kernel) (mode : Mode) (plain : Plain addr) :
    reach k p addr mode = (bring k p addr mode).bind fun k₁ =>
      if (k₁.leaf (p, addr / 4096)).present then
        some { k₁ with
          leaf := update k₁.leaf (p, addr / 4096) (setAD (k₁.leaf (p, addr / 4096)) mode) }
      else none := by
  rw [reach, if_pos plain, bring]
  dsimp only
  split <;> rfl

section
variable (sound : Sound k none) (settled : Settled k) (mode : Mode) (serves : Serves k p addr mode)
include sound settled mode serves

theorem bring_spec :
    ∃ page dirty k', bring k p addr mode = some k' ∧ Served k k' (p, addr / 4096) page dirty := by
  obtain ⟨-, rest⟩ := serves
  rw [bring]
  cases found : place (k.leaf (p, addr / 4096)) with
  | resident page dirty =>
    have present := (place_resident_iff.mp found).2.1
    refine ⟨page, dirty, k, by rw [if_pos present], sound, fun _ _ _ => rfl, found, ?_⟩
    exact fun other unsettled => absurd unsettled (settled other)
  | swapped sec =>
    rw [found] at rest
    have absent : ¬ (k.leaf (p, addr / 4096)).present = true :=
      fun present => settled _ ⟨(place_swapped_iff.mp found).1, present⟩
    obtain ⟨page, k', run, served⟩ := handlePageFault_swapped sound mode found rest settled
    exact ⟨page, false, k', by rw [if_neg absent, run], served⟩
  | nowhere =>
    rw [found] at rest
    have absent : ¬ (k.leaf (p, addr / 4096)).present = true := by
      rw [(place_nowhere_iff.mp found).2]
      exact Bool.false_ne_true
    obtain ⟨page, dirty, k', run, served⟩ :=
      handlePageFault_nowhere sound mode found rest.1 rest.2
    exact ⟨page, dirty, k', by rw [if_neg absent, run], served⟩

theorem reach_spec :
    ∃ page dirty k', reach k p addr mode = some k' ∧ (mode = .store → dirty = true) ∧
      Sound k' none ∧ Settled k' ∧ SameValues k k' ∧
      place (k'.leaf (p, addr / 4096)) = .resident page dirty := by
  obtain ⟨page, dirty, k₁, run, served⟩ := bring_spec sound settled mode serves
  obtain ⟨sd, present, pfn, bit⟩ := place_resident_iff.mp served.here
  have touched := served.touch (setAD (k₁.leaf (p, addr / 4096)) mode)
    (place_resident_iff.mpr ⟨sd, present, pfn, rfl⟩) (by intro was; rw [setAD, bit, was]; rfl) rfl
  refine ⟨page, _, _, ?_, ?_, touched.sound, ?_, touched.values, touched.here⟩
  · rw [reach_eq k mode serves.1, run, bind_some, if_pos present]
  · intro stores
    rw [setAD, stores]
    simp
  · intro other unsettled
    exact settled other (touched.settled other unsettled).2

end

/-! ## Runs -/

/-- Every page holds the last values stored in it. -/
def Agrees (s : System) : Prop :=
  ∀ p addr, Plain addr → value s.kernel (p, addr / 4096) (addr % 4096) = s.last p addr

structure Transparent (s : System) : Prop where
  sound : Sound s.kernel none
  settled : Settled s.kernel
  agrees : Agrees s

def SectorsApart (s : System) : Prop :=
  ∀ slot slot' sec sec', slot ≠ slot' → place (s.kernel.leaf slot) = .swapped sec →
    place (s.kernel.leaf slot') = .swapped sec' → sec + 8 ≤ sec' ∨ sec' + 8 ≤ sec

def LoadsLast (s : System) : Access → System → Prop
  | .load p addr, s' => s'.result = s.last p addr
  | .store _ _ _, _ => True

theorem Transparent.sectorsApart (transparent : Transparent s) : SectorsApart s := by
  intro slot slot' sec sec' different here there
  have ⟨aligned, _⟩ := transparent.sound.sectors slot sec (.inl here)
  have ⟨aligned', _⟩ := transparent.sound.sectors slot' sec' (.inl there)
  have unequal : sec ≠ sec' := by
    rintro rfl
    exact different (transparent.sound.alone slot slot' sec (.inl here) (.inl there))
  omega

theorem Sound.putByte (sound : Sound k none)
    (here : place (k.leaf slot) = .resident page true) (offset : Nat) (v : UInt8) :
    Sound (putByte k page offset v) none := by
  refine { sound with clean := ?_ }
  intro other page' member there copy x inside
  have different : page' ≠ page := by
    rintro rfl
    have same := sound.distinct other slot page' false true there here
    have both := here.symm.trans ((congrArg (fun s => place (k.leaf s)) same).symm.trans there)
    cases both
  show update k.bytes page _ page' x = readPage k.disk (k.sdSec page') x
  rw [update_of_ne different]
  exact sound.clean other page' member there copy x inside

theorem value_putByte_self
    (here : place (k.leaf slot) = .resident page dirty) (offset : Nat) (v : UInt8) (x : Nat) :
    value (putByte k page offset v) slot x = if x = offset then v else value k slot x := by
  have unchanged : place ((putByte k page offset v).leaf slot) = .resident page dirty := here
  rw [value, value, unchanged, here]
  show update k.bytes page (update (k.bytes page) offset v) page x = _
  rw [update_self, update_apply]

theorem value_putByte_other (sound : Sound k none) {other : Slot}
    (here : place (k.leaf slot) = .resident page dirty) (different : other ≠ slot)
    (offset : Nat) (v : UInt8) (x : Nat) :
    value (putByte k page offset v) other x = value k other x := by
  have unchanged : (putByte k page offset v).leaf other = k.leaf other := rfl
  rw [value, value, unchanged]
  cases there : place (k.leaf other) with
  | nowhere => rfl
  | resident page' dirty' =>
    have apart : page' ≠ page := by
      rintro rfl
      exact different (sound.distinct other slot page' dirty' dirty there here)
    show update k.bytes page _ page' x = k.bytes page' x
    rw [update_of_ne apart]
  | swapped sec => rfl

theorem Transparent.load (transparent : Transparent s) (serves : Serves s.kernel p addr .load) :
    ∃ s', accessStep s (.load p addr) = some s' ∧ Transparent s' ∧ s'.result = s.last p addr := by
  obtain ⟨page, dirty, k', run, -, sound, settled, values, here⟩ :=
    reach_spec transparent.sound transparent.settled .load serves
  have inside : addr % 4096 < 4096 := mod_lt _ (by decide)
  refine ⟨{ s with kernel := k', result := k'.bytes page (addr % 4096) }, ?_,
    ⟨sound, settled, ?_⟩, ?_⟩
  · simp [accessStep, run, bind_eq_bind, bind_some, (place_resident_iff.mp here).2.2.1]
  · intro p' addr' plain
    rw [values _ _ (mod_lt _ (by decide))]
    exact transparent.agrees p' addr' plain
  · show k'.bytes page (addr % 4096) = s.last p addr
    rw [← transparent.agrees p addr serves.1, ← values _ _ inside, value, here]

theorem Transparent.store (transparent : Transparent s)
    (serves : Serves s.kernel p addr .store) (v : UInt8) :
    ∃ s', accessStep s (.store p addr v) = some s' ∧ Transparent s' := by
  obtain ⟨page, dirty, k', run, dirtied, sound, settled, values, here⟩ :=
    reach_spec transparent.sound transparent.settled .store serves
  rw [dirtied rfl] at here
  refine ⟨{ s with
    kernel := putByte k' page (addr % 4096) v
    last := update s.last p (update (s.last p) addr v) }, ?_, ⟨sound.putByte here _ _, settled, ?_⟩⟩
  · simp [accessStep, run, bind_eq_bind, bind_some, (place_resident_iff.mp here).2.2.1]
  · intro p' addr' plain
    show value (putByte k' page (addr % 4096) v) (p', addr' / 4096) (addr' % 4096) =
      update s.last p (update (s.last p) addr v) p' addr'
    have before : value k' (p', addr' / 4096) (addr' % 4096) = s.last p' addr' := by
      rw [values _ _ (mod_lt _ (by decide))]
      exact transparent.agrees p' addr' plain
    by_cases samePage : (p', addr' / 4096) = (p, addr / 4096)
    · obtain ⟨rfl, pages⟩ := Prod.mk.inj samePage
      rw [update_self, update_apply, samePage, value_putByte_self here, ← samePage, before]
      have offsets : addr' % 4096 = addr % 4096 ↔ addr' = addr := by omega
      simp [offsets]
    · rw [value_putByte_other sound here samePage, before]
      rcases eq_or_ne p' p with rfl | sameProcess
      · have other : addr' ≠ addr := by
          rintro rfl
          exact samePage rfl
        rw [update_self, update_of_ne other]
      · rw [update_of_ne sameProcess]

theorem Transparent.step (transparent : Transparent s) (a : Access) (serves : AccessServes s a) :
    ∃ s', accessStep s a = some s' ∧ Transparent s' ∧ LoadsLast s a s' := by
  cases a with
  | load p addr => exact transparent.load serves
  | store p addr v =>
    obtain ⟨s', run, kept⟩ := transparent.store serves v
    exact ⟨s', run, kept, trivial⟩

theorem Transparent.along (s : System) (acts : List Access) (transparent : Transparent s)
    (serves : StepsMeet accessStep AccessServes s acts) :
    (∃ final, runActs accessStep s acts = some final) ∧
      StepsGive accessStep LoadsLast s acts ∧ HoldsAlong accessStep SectorsApart s acts := by
  have keeps : ∀ s a next, Transparent s → AccessServes s a → accessStep s a = some next →
      Transparent next ∧ LoadsLast s a next := by
    intro s a next good ok run
    obtain ⟨s', run', good', last⟩ := good.step a ok
    cases Option.some.inj (run.symm.trans run')
    exact ⟨good', last⟩
  refine ⟨?_, ?_, ?_⟩
  · refine runActs_returns accessStep AccessServes Transparent ?_ s acts transparent serves
    intro s a good ok
    obtain ⟨s', run, good', -⟩ := good.step a ok
    exact ⟨s', run, good'⟩
  · exact stepsGive_of_stepsMeet accessStep AccessServes Transparent LoadsLast keeps s acts
      transparent serves
  · exact holdsAlong_of_stepsMeet accessStep AccessServes Transparent SectorsApart
      (fun _ good => good.sectorsApart)
      (fun s a next good ok run => (keeps s a next good ok run).1) s acts transparent serves

/-- Processes as `do_exec` leaves them as long as no page was put on `swapPageList`: an entry
that is present is one for writing, has its tables, and shares its page with no other. -/
structure Started (s : System) : Prop where
  writable : ∀ slot, place (s.kernel.leaf slot) ≠ .nowhere → (s.kernel.leaf slot).write = true
  tables : ∀ slot, place (s.kernel.leaf slot) ≠ .nowhere →
    s.kernel.second (slot.1, slot.2 / 512 / 512) = true ∧
      s.kernel.third (slot.1, slot.2 / 512) = true
  distinct : ∀ slot slot' page dirty dirty', place (s.kernel.leaf slot) = .resident page dirty →
    place (s.kernel.leaf slot') = .resident page dirty' → slot = slot'
  used : ∀ slot page dirty, place (s.kernel.leaf slot) = .resident page dirty →
    page ∉ s.kernel.free
  inMemory : ∀ slot, (s.kernel.leaf slot).sd = false
  freeOnce : s.kernel.free.Nodup
  empty : s.kernel.swapPageList = []
  clock : s.kernel.clockPointer = none
  offset : s.kernel.swapOffset % 8 = 4
  image : Agrees s

theorem Started.owns (fresh : Started s) : ¬ Owns s.kernel slot sec := by
  rintro (swapped | ⟨page, member, -⟩)
  · rw [place, fresh.inMemory slot, if_neg Bool.false_ne_true] at swapped
    split at swapped <;> cases swapped
  · rw [fresh.empty] at member
    cases member

theorem Started.transparent (fresh : Started s) : Transparent s where
  sound := by
    have unlisted : ∀ page, page ∉ s.kernel.swapPageList := by
      intro page
      rw [fresh.empty]
      exact not_mem_nil
    constructor
    case writable => exact fresh.writable
    case tables => exact fresh.tables
    case distinct => exact fresh.distinct
    case used => exact fresh.used
    case apart =>
      intro page held
      cases held
    case listed => exact fun page member => absurd member (unlisted page)
    case listOnce => rw [fresh.empty]; exact nodup_nil
    case freeOnce => exact fresh.freeOnce
    case unlisted => exact fun page _ => unlisted page
    case clock =>
      intro page points
      rw [fresh.clock] at points
      cases points
    case offset => exact fresh.offset
    case sectors => exact fun _ _ own => absurd own fresh.owns
    case alone => exact fun _ _ _ own => absurd own fresh.owns
    case clean => exact fun _ page member => absurd member (unlisted page)
  settled := by
    intro slot unsettled
    simp [Unsettled, fresh.inMemory slot] at unsettled
  agrees := fresh.image

/-- The one page of a small program. -/
def imageByte (x : Nat) : UInt8 := if x = 0 then 0x13 else 0

/-- A process whose image is one page at `0x10000` and whose heap starts at
`0x13000`.  `do_exec` puts no page of the image on `swapPageList`. -/
def started (threshold : Nat) : System where
  kernel :=
    { threshold
      pcb := fun _ => ⟨0x15000, 0x12000, 0x11000⟩
      free := [20, 21]
      second := fun slot => decide (slot = (1, 0))
      third := fun slot => decide (slot = (1, 0))
      leaf := fun slot => ⟨7, decide (slot = (1, 16)), true, false, false, false⟩
      pagePte := fun _ => none
      sdSec := fun _ => 0
      swapPageList := []
      clockPointer := none
      swapOffset := 4
      bytes := fun page x => if page = 7 then imageByte x else 0
      disk := fun _ _ => 0 }
  last := fun p addr => if (p, addr / 4096) = (1, 16) then imageByte (addr % 4096) else 0
  result := 0

theorem started_place (threshold : Nat) (slot : Slot) :
    place ((started threshold).kernel.leaf slot) =
      if slot = (1, 16) then .resident 7 false else .nowhere := by
  by_cases image : slot = (1, 16) <;> simp [started, place, image]

theorem started_resident {threshold : Nat}
    (here : place ((started threshold).kernel.leaf slot) = .resident page dirty) :
    slot = (1, 16) ∧ page = 7 := by
  rw [started_place] at here
  split at here
  · cases here
    exact ⟨‹_›, rfl⟩
  · cases here

theorem started_fresh (threshold : Nat) : Started (started threshold) where
  writable _ _ := rfl
  tables slot placed := by
    have image : slot = (1, 16) := by
      by_contra other
      exact placed (by rw [started_place, if_neg other])
    rw [image]
    exact ⟨rfl, rfl⟩
  distinct slot slot' page dirty dirty' here there := by
    rw [(started_resident here).1, (started_resident there).1]
  used slot page dirty here := by
    rw [(started_resident here).2]
    exact show 7 ∉ [20, 21] by decide
  inMemory _ := rfl
  freeOnce := show [20, 21].Nodup by decide
  empty := rfl
  clock := rfl
  offset := rfl
  image := by
    intro p addr _
    rw [value, started_place]
    show _ = if (p, addr / 4096) = (1, 16) then imageByte (addr % 4096) else 0
    by_cases image : (p, addr / 4096) = (1, 16)
    · rw [if_pos image, if_pos image]
      rfl
    · rw [if_neg image, if_neg image]

end CCore.Swap
