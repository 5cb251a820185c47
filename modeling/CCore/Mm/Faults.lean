import CCore.Mm.Counts

/-!
# What a page fault does

The first touch of a page, and the store to a page without `W`, in terms of the
moves of `Moves` and of the page contents.  `check_W_SD_and_set_AD` changes only
the flags `A` and `D`, on which nothing below depends.
-/
namespace CCore.Mm

open Sleep Holders Mem
open Relation (ReflTransGen)

/-- Two memories that differ in the flags `A` and `D` only. -/
structure SameMap (m m' : Mem) : Prop where
  free : m'.free = m.free
  sourceNum : m'.sourceNum = m.sourceNum
  shareNum : m'.shareNum = m.shareNum
  bytes : m'.bytes = m.bytes
  entry : ∀ slot, (m'.entry slot).map (fun e => (e.frame, e.write)) =
    (m.entry slot).map fun e => (e.frame, e.write)

variable {slot : Slot}

namespace SameMap

theorem refl (m : Mem) : SameMap m m := ⟨rfl, rfl, rfl, rfl, fun _ => rfl⟩

theorem trans {m m' m'' : Mem} (first : SameMap m m') (second : SameMap m' m'') : SameMap m m'' :=
  ⟨second.free.trans first.free, second.sourceNum.trans first.sourceNum,
    second.shareNum.trans first.shareNum, second.bytes.trans first.bytes,
    fun slot => (second.entry slot).trans (first.entry slot)⟩

theorem put {m : Mem} {e : Pte} (found : m.entry slot = some e)
    (accessed dirty : Bool) : SameMap m (m.put slot { e with accessed, dirty }) := by
  refine ⟨rfl, rfl, rfl, rfl, ?_⟩
  intro other
  by_cases same : other = slot
  · rw [same, put_entry_self, found]
    rfl
  · rw [put_entry_of_ne m _ same]

variable {m m' : Mem} (same : SameMap m m')
include same

theorem frameAt : m'.frameAt = m.frameAt := by
  funext slot
  have fst := congrArg (Option.map Prod.fst) (same.entry slot)
  rwa [Option.map_map, Option.map_map] at fst

theorem writable : m'.writable = m.writable := by
  funext slot
  have snd := congrArg (Option.map Prod.snd) (same.entry slot)
  rw [Option.map_map, Option.map_map] at snd
  exact congrArg (Option.getD · false) snd

theorem isSome (slot : Slot) : (m'.entry slot).isSome = (m.entry slot).isSome := by
  rw [← frameAt_isSome, same.frameAt, frameAt_isSome]

theorem absent : m'.entry slot = none ↔ m.entry slot = none := by
  rw [← frameAt_eq_none, same.frameAt, frameAt_eq_none]

theorem content (o : Owner) (page : Nat) : m'.content o page = m.content o page := by
  rw [Mem.content, same.frameAt, same.bytes]
  rfl

theorem sound (start : Sound m) : Sound m' :=
  start.congr same.frameAt same.writable same.shareNum same.free

theorem found {e : Pte} (there : m.entry slot = some e) :
    ∃ e' : Pte, m'.entry slot = some e' ∧ e'.frame = e.frame ∧ e'.write = e.write := by
  have value := same.entry slot
  rw [there] at value
  obtain ⟨e', there', pair⟩ := Option.map_eq_some_iff.mp value
  exact ⟨e', there', congrArg Prod.fst pair, congrArg Prod.snd pair⟩

end SameMap

section Check
variable {p page : Nat} {mode : Access} {m : Mem}

theorem checkLeaf_same (leaf : Slot) : SameMap m (checkLeaf leaf mode m).2 := by
  unfold checkLeaf
  cases found : m.entry leaf with
  | none => exact .refl m
  | some e =>
    simp only
    split
    · exact .put found true true
    · split
      · exact .refl m
      · exact .put found true _

theorem checkMiddle_same (middle leaf : Slot) : SameMap m (checkMiddle middle leaf mode m).2 := by
  unfold checkMiddle
  cases found : m.entry middle with
  | none => exact .refl m
  | some third => exact (SameMap.put found true third.dirty).trans (checkLeaf_same leaf)

theorem checkWSDAndSetAD_same (p page : Nat) (mode : Access) (m : Mem) :
    SameMap m (checkWSDAndSetAD p page mode m).2 := by
  unfold checkWSDAndSetAD
  cases found : m.entry (.root (owner p page) (page / 512 / 512)) with
  | none => exact .refl m
  | some second => exact (SameMap.put found true second.dirty).trans (checkMiddle_same _ _)

theorem checkWSDAndSetAD_unmapped (unmapped : getPTEOf m p page = none) :
    (checkWSDAndSetAD p page mode m).1 = .noAlloc := by
  unfold checkWSDAndSetAD
  cases root : m.entry (.root (owner p page) (page / 512 / 512)) with
  | none => rfl
  | some second =>
    simp only [checkMiddle, put_entry_of_ne m _ (show Slot.middle _ _ ≠ .root _ _ by simp)]
    cases middle : m.entry (.middle (owner p page) (page / 512)) with
    | none => rfl
    | some third =>
      have leaf : m.entry (.leaf (owner p page) page) = none := by
        simpa [getPTEOf, root, middle] using unmapped
      simp [checkLeaf, leaf, put_entry_of_ne]

theorem checkWSDAndSetAD_noW {e : Pte} (mapped : getPTEOf m p page = some e)
    (readOnly : e.write = false) : (checkWSDAndSetAD p page .store m).1 = .noW := by
  obtain ⟨root, middle, leaf⟩ := getPTEOf_eq_some mapped
  obtain ⟨second, root⟩ := Option.isSome_iff_exists.mp root
  obtain ⟨third, middle⟩ := Option.isSome_iff_exists.mp middle
  unfold checkWSDAndSetAD checkMiddle checkLeaf
  simp [root, middle, leaf, put_entry_of_ne, readOnly]

theorem handlePageFault_eq : handlePageFault p page mode m =
    (match (checkWSDAndSetAD p page mode m).1 with
      | .noAlloc => dealNoAlloc p page
      | .noW => dealNoW p page
      | .allocNoAD | .nothing => pure ()) (checkWSDAndSetAD p page mode m).2 := rfl

theorem handlePageFault_unmapped (mode : Access) (unmapped : getPTEOf m p page = none) :
    ∃ m₁, SameMap m m₁ ∧ handlePageFault p page mode m = dealNoAlloc p page m₁ := by
  refine ⟨_, checkWSDAndSetAD_same p page mode m, ?_⟩
  rw [handlePageFault_eq, checkWSDAndSetAD_unmapped unmapped]

theorem handlePageFault_noW {e : Pte} (mapped : getPTEOf m p page = some e)
    (readOnly : e.write = false) :
    ∃ m₁, SameMap m m₁ ∧ handlePageFault p page .store m = dealNoW p page m₁ := by
  refine ⟨_, checkWSDAndSetAD_same p page .store m, ?_⟩
  rw [handlePageFault_eq, checkWSDAndSetAD_noW mapped readOnly]

end Check

variable {f : Nat} {rest : List Nat}

/-- The entry of a page that has been copied to frame `f`. -/
abbrev Pte.copied (e : Pte) (f : Nat) : Pte := { e with frame := f, write := true, dirty := true }

section NoW
variable {p page : Nat} {m : Mem} {e : Pte} (mapped : getPTEOf m p page = some e)
include mapped

theorem dealNoW_mine (one : m.shareNum e.frame = 1) :
    dealNoW p page m = .ok () (m.put (.leaf (owner p page) page) { e with write := true }) := by
  rw [dealNoW, get_bind, mapped]
  simp only
  rw [get_bind, if_pos one]
  rfl

theorem dealNoW_copy (shared : m.shareNum e.frame ≠ 1) (free : m.free = f :: rest) :
    dealNoW p page m = .ok () ((m.shareSub e.frame).take (.leaf (owner p page) page) (e.copied f) rest
      (Function.update m.bytes f (fun _ => 0) e.frame)) := by
  rw [dealNoW, get_bind, mapped]
  simp only
  rw [get_bind, if_neg shared, modify_bind]
  unfold copyPage
  have free' : (m.shareSub e.frame).free = f :: rest := free
  rw [bind_of_ok (allocPage_ok (.copy page) free'), modify_bind]
  show EStateM.Result.ok () _ = _
  simp [Mem.take, Mem.shareAdd, Mem.shareSub, Mem.fillPage, Mem.put]

theorem dealNoW_sleep (shared : m.shareNum e.frame ≠ 1) (free : m.free = []) :
    dealNoW p page m = .error (.copy page) (m.shareSub e.frame) := by
  rw [dealNoW, get_bind, mapped]
  simp only
  rw [get_bind, if_neg shared, modify_bind]
  have free' : (m.shareSub e.frame).free = [] := free
  exact bind_of_error (allocPage_sleep (.copy page) free')

end NoW

theorem Touches.effect {o : Owner} {page : Nat} {m m' : Mem} (start : Sound m)
    (touches : Touches o page m m') : Sound m' ∧
    (∀ o' page', Slot.leaf o' page' ≠ .leaf o page → m'.content o' page' = m.content o' page') ∧
    (m'.content o page = m.content o page ∨
      m.content o page = none ∧ m'.content o page = some fun _ => 0) ∧
    ∀ slot : Slot, slot.holder ≠ o → m'.entry slot = m.entry slot := by
  induction touches with
  | refl => exact ⟨start, fun _ _ _ => rfl, .inl rfl, fun _ _ => rfl⟩
  | tail _ move ih =>
    rename_i m₁ m₂
    obtain ⟨sound, others, here, entries⟩ := ih
    cases move with
    | table move =>
      cases move with
      | mk vacant inner free =>
      refine ⟨sound.take _ vacant free _, ?_, ?_, ?_⟩
      · intro o' page' ne
        rw [sound.content_take _ free _ (inner o' page').symm, others o' page' ne]
      · rw [sound.content_take _ free _ (inner o page).symm]
        exact here
      · intro slot other
        rw [take_entry_of_ne, entries slot other]
        rintro rfl
        exact other vacant.mine
    | leaf vacant free =>
      refine ⟨sound.take _ vacant free _, ?_, ?_, ?_⟩
      · intro o' page' ne
        rw [sound.content_take _ free _ ne, others o' page' ne]
      · have before := Mem.content_eq_none.mpr vacant.absent
        rcases here with same | ⟨_, zeros⟩
        · exact .inr ⟨same.symm.trans before, content_take_self ..⟩
        · rw [zeros] at before
          cases before
      · intro slot other
        rw [take_entry_of_ne, entries slot other]
        rintro rfl
        exact other rfl

section NoWEffect
variable {p page : Nat} {m : Mem} {e : Pte} (start : Sound m)
  (mapped : m.entry (.leaf (owner p page) page) = some e)

include start mapped

theorem Sound.mine (one : m.shareNum e.frame = 1) :
    Sound (m.put (.leaf (owner p page) page) { e with write := true }) := by
  refine start.put _ mapped rfl ?_
  intro _ v holds
  have count := start.counts e.frame
  rw [one] at count
  exact held_once (by exact_mod_cast count) (frameAt_of_entry mapped) holds

theorem Sound.copy (shared : m.shareNum e.frame ≠ 1)
    (free : m.free = f :: rest) (fill : Nat → Nat) :
    let m' := (m.shareSub e.frame).take (.leaf (owner p page) page) (e.copied f) rest fill
    Sound m' ∧ (∀ o' page', Slot.leaf o' page' ≠ .leaf (owner p page) page →
      m'.content o' page' = m.content o' page') := by
  have small := start.small e.frame
  have given : m.freePage e.frame = m.shareSub e.frame := by
    rw [Mem.freePage, if_pos (by omega)]
  have bare : ∀ below : Slot, below.above = some (.leaf (owner p page) page) →
      m.entry below = none := by
    intro below link
    cases below <;> cases link
  have released := start.free mapped bare
  rw [given] at released
  have parts : (m.shareSub e.frame).take (.leaf (owner p page) page) (e.copied f) rest fill =
      ((m.shareSub e.frame).clear (.leaf (owner p page) page)).take (.leaf (owner p page) page)
        (e.copied f) rest fill := by
    simp [Mem.take, Mem.clear]
  have vacant : Vacant (owner p page) (.leaf (owner p page) page)
      ((m.shareSub e.frame).clear (.leaf (owner p page) page)) := by
    refine ⟨rfl, clear_entry_self .., ?_, fun _ _ same => by cases same⟩
    intro up link
    rw [clear_entry_of_ne]
    · show (m.entry up).isSome
      rw [← frameAt_isSome]
      refine start.tree _ up link ?_
      rw [frameAt_of_entry mapped]
      rfl
    · rintro rfl
      cases link
  rw [parts]
  refine ⟨released.take (e.copied f) vacant free fill, ?_⟩
  intro o' page' ne
  rw [released.content_take (e.copied f) free fill ne]
  rw [Mem.content, frameAt_clear, Function.update_of_ne ne]
  rfl

end NoWEffect

/-! ## Which loads are legal -/

/-- The heap, the data segment of `memsz` bytes and the stack down to `low`. -/
def ExeLoad.Within (load : ExeLoad) (memsz low va : Nat) : Prop :=
  (load.elfEdata ≤ va ∧ va < load.edata) ∨
    (load.dataVaddr ≤ va ∧ va < load.dataVaddr + memsz) ∨ low ≤ va ∧ va < userStackTop * 4096

/-- With fewer than three free pages the process may still sleep for the page. -/
def GetsPage (s : Sys) (p page : Nat) (after : Sys) : Prop :=
  (getPTEOf after.mem p page).isSome ∨ s.mem.free.length < 3 ∧ after.life p = .live (.touch page)

/-- `handle_other` stops the kernel, so that a load which ends there has no next state. -/
def LoadRight (load : ExeLoad) (memsz low : Nat) (s : Sys) (p va : Nat) : Prop :=
  (load.Within memsz low va →
      ∃ after, step load s (.load p va) = some after ∧ GetsPage s p (va / 4096) after) ∧
    (¬ load.Within memsz low va → step load s (.load p va) = none)

theorem checkPageSetFlag_ends (again : Task) (slot : Slot) (write : Bool) (m : Mem) :
    Ends (checkPageSetFlag again slot write m)
      (fun _ m' => (m'.entry slot).isSome ∧ m.free.length ≤ m'.free.length + 1 ∧
        ∀ other, (m.entry other).isSome → (m'.entry other).isSome)
      (fun task _ => task = again ∧ m.free.length = 0) := by
  cases entry : m.entry slot with
  | some e =>
    rw [checkPageSetFlag_present again write entry]
    exact ⟨by rw [entry]; rfl, Nat.le_succ _, fun _ => id⟩
  | none =>
    cases free : m.free with
    | nil =>
      rw [checkPageSetFlag_sleep again write entry free]
      exact ⟨rfl, rfl⟩
    | cons f rest =>
      rw [checkPageSetFlag_take again write entry free]
      refine ⟨by rw [take_entry_self]; rfl, le_rfl, ?_⟩
      intro other present
      rw [take_entry_of_ne m _ _ _ fun same => by simp [same, entry] at present]
      exact present

theorem dealNoAlloc_ends (p page : Nat) (m : Mem) : Ends (dealNoAlloc p page m)
    (fun _ m' => (getPTEOf m' p page).isSome)
    (fun task _ => task = .touch page ∧ m.free.length < 3) := by
  simp only [dealNoAlloc, allocPageHelper, bind_assoc]
  refine Ends.bind _ ((checkPageSetFlag_ends _ _ _ m).weaken (fun _ _ done => done) ?_) ?_
  · exact fun _ _ asleep => ⟨asleep.1, by omega⟩
  rintro _ m₁ ⟨root, room, _⟩
  refine Ends.bind _ ((checkPageSetFlag_ends _ _ _ m₁).weaken (fun _ _ done => done) ?_) ?_
  · exact fun _ _ asleep => ⟨asleep.1, by omega⟩
  rintro _ m₂ ⟨middle, room', kept⟩
  refine Ends.bind _ ((checkPageSetFlag_ends _ _ _ m₂).weaken (fun _ _ done => done) ?_) ?_
  · exact fun _ _ asleep => ⟨asleep.1, by omega⟩
  rintro _ m₃ ⟨leaf, _, kept'⟩
  obtain ⟨_, root⟩ := Option.isSome_iff_exists.mp (kept' _ (kept _ root))
  obtain ⟨_, middle⟩ := Option.isSome_iff_exists.mp (kept' _ middle)
  show (getPTEOf m₃ p page).isSome
  rwa [getPTEOf, root, Option.bind_some, middle, Option.bind_some]

section Loads
variable {load : ExeLoad} {s : Sys} {p va : Nat} (live : s.life p = .live .user)
  (user : userAddr va = true) (unmapped : getPTEOf s.mem p (va / 4096) = none)

include live user unmapped

theorem step_load_legal (legal : load.isLegalAddr va = true) :
    ∃ after, step load s (.load p va) = some after ∧ GetsPage s p (va / 4096) after := by
  obtain ⟨m₁, same, run⟩ := handlePageFault_unmapped .load unmapped
  have ends := dealNoAlloc_ends p (va / 4096) m₁
  rw [← run, same.free] at ends
  refine ⟨s.ran p (handlePageFault p (va / 4096) .load s.mem), ?_, ?_⟩
  · simp [step, live, user, unmapped, legal]
  cases result : handlePageFault p (va / 4096) .load s.mem with
  | ok _ m =>
    rw [result] at ends
    exact .inl ends
  | error task m =>
    rw [result] at ends
    exact .inr ⟨ends.2, by simp [Sys.ran, ends.1]⟩

/-- A load is handled right unless it lies above the start of the data segment, or has one of
the bits of `USER_STACK_HIGN`, and is in none of the three areas. -/
theorem load_right_iff {memsz low : Nat} (two : load.elfEdata = load.dataVaddr + memsz)
    (high : 0xf00000000 ≤ low) : LoadRight load memsz low s p va ↔
    load.Within memsz low va ∨ va < load.dataVaddr ∧ va / 2 ^ 32 % 16 = 0 := by
  have legal : load.isLegalAddr va = true ↔ load.dataVaddr ≤ va ∨ va / 2 ^ 32 % 16 ≠ 0 := by
    simp [ExeLoad.isLegalAddr]
    omega
  have inside : load.Within memsz low va → load.isLegalAddr va = true := by
    rw [legal]
    unfold ExeLoad.Within userStackTop
    omega
  constructor
  · rintro ⟨_, outside⟩
    by_contra neither
    obtain ⟨out, wrong⟩ := not_or.mp neither
    obtain ⟨after, run, _⟩ := step_load_legal live user unmapped (legal.mpr (by omega))
    rw [outside out] at run
    cases run
  · rintro right
    refine ⟨fun within => step_load_legal live user unmapped (inside within), fun out => ?_⟩
    have illegal : load.isLegalAddr va = false := by
      rw [← Bool.not_eq_true, legal]
      have := right.resolve_left out
      omega
    simp [step, live, user, unmapped, illegal]

end Loads

def untouched : Sys := ⟨⟨[1, 2, 3], 3, fun _ => 0, fun _ _ => 0, fun _ => none⟩, fun _ => .live .user⟩

def twoSegments : ExeLoad := ⟨0x10000, 0x1000, 0x20000, 0x21000, 0x22000, none⟩

theorem load_right_below : LoadRight twoSegments 0x1000 0xf00000000 untouched 0 0x8000 :=
  (load_right_iff rfl (by decide) rfl rfl (le_refl _)).mpr (.inr (by decide))

/-- A load far above the break gets a page. -/
theorem wild_load_gets_page : ∃ after, step twoSegments untouched (.load 0 0x40000000) = some after ∧
    GetsPage untouched 0 0x40000 after ∧
    ¬ LoadRight twoSegments 0x1000 0xf00000000 untouched 0 0x40000000 := by
  obtain ⟨after, run, gets⟩ :=
    @step_load_legal twoSegments untouched 0 0x40000000 rfl rfl rfl (by decide)
  refine ⟨after, run, gets, ?_⟩
  rintro ⟨_, outside⟩
  have out : ¬ twoSegments.Within 0x1000 0xf00000000 0x40000000 := by
    unfold ExeLoad.Within
    decide
  rw [outside out] at run
  cases run

end CCore.Mm
