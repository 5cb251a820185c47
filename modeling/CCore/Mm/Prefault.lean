import CCore.Mm.Faults

/-!
# The page-fault loops in front of `fat32_read` and `fat32_write`

Both calls run `handle_page_fault_store` at `buf`, `buf + PAGE_SIZE`, … before the kernel
copies to or from the user buffer.  The steps start at `buf` and not at a page boundary, so
the last page of the buffer can be missed; `prefault_covers_iff` has the exact condition for
either end test.
-/
namespace CCore.Mm

open Sleep List Mem Nat

/-! ## What a store fault leaves -/

/-- A table that is not there has no entries. -/
def Mem.Hangs (m : Mem) : Prop :=
  ∀ u up : Slot, u.above = some up → (m.frameAt u).isSome → (m.frameAt up).isSome

def storeFlags : Option Pte → Bool × Bool
  | none => (false, false)
  | some e =>
    if e.write = true ∧ (e.accessed = true ∨ e.dirty = true) then (e.accessed, e.dirty)
    else (true, true)

def Blank (entry : Option Pte) : Prop :=
  ∀ e, entry = some e → e.write = true ∧ e.accessed = false ∧ e.dirty = false

def Writable (m : Mem) (p page : Nat) : Prop :=
  ∃ e, getPTEOf m p page = some e ∧ e.write = true

/-- What a call leaves that makes the page writable with these flags. -/
structure Stored (p page : Nat) (flags : Bool × Bool) (m m' : Mem) : Prop where
  hangs : m'.Hangs
  leaf : ∃ e, getPTEOf m' p page = some e ∧ e.write = true ∧ (e.accessed, e.dirty) = flags
  kept : ∀ other, Writable m p other → Writable m' p other

/-- What a call that sleeps will leave once it goes on. -/
def Owes (p page : Nat) (flags : Bool × Bool) (task : Task) (m : Mem) : Prop :=
  task = .touch page ∧ Blank (getPTEOf m p page) ∧ flags = (false, false) ∨
    task = .copy page ∧ (∃ e, getPTEOf m p page = some e ∧ e.accessed = true) ∧ flags = (true, true)

variable {o : Owner} {e : Pte} {test : Nat → Bool} {buf count : Nat}

section Store
variable {p page : Nat} {m m' : Mem}

theorem TouchMove.keeps (move : TouchMove o page m m') (hangs : m.Hangs) :
    m'.Hangs ∧ ∀ slot e, m.entry slot = some e → m'.entry slot = some e := by
  obtain ⟨slot, e, rest, fill, vacant, rfl⟩ : ∃ slot e rest fill, Vacant o slot m ∧
      m' = m.take slot e rest fill := by
    cases move with
    | table move =>
      cases move with
      | mk vacant _ _ => exact ⟨_, _, _, _, vacant, rfl⟩
    | leaf vacant _ => exact ⟨_, _, _, _, vacant, rfl⟩
  have kept : ∀ other e', m.entry other = some e' →
      (m.take slot e rest fill).entry other = some e' := by
    intro other e' found
    rw [take_entry_of_ne, found]
    rintro rfl
    rw [vacant.absent] at found
    cases found
  have stays : ∀ other, (m.entry other).isSome →
      ((m.take slot e rest fill).entry other).isSome := by
    intro other present
    obtain ⟨e', found⟩ := Option.isSome_iff_exists.mp present
    rw [kept other e' found]
    rfl
  refine ⟨?_, kept⟩
  intro u up link present
  rw [frameAt_isSome] at present ⊢
  rcases eq_or_ne u slot with rfl | same
  · exact stays up (vacant.above up link)
  · rw [take_entry_of_ne _ _ _ _ same, ← frameAt_isSome] at present
    have above := hangs u up link present
    rw [frameAt_isSome] at above
    exact stays up above

theorem TouchMove.blank (move : TouchMove o page m m')
    (blank : Blank (m.entry (.leaf o page))) : Blank (m'.entry (.leaf o page)) := by
  cases move with
  | table move =>
    cases move with
    | mk _ inner _ => rwa [take_entry_of_ne _ _ _ _ (inner o page).symm]
  | leaf _ _ =>
    rintro e found
    rw [take_entry_self] at found
    cases found
    exact ⟨rfl, rfl, rfl⟩

theorem Touches.keeps (touches : Touches o page m m') (hangs : m.Hangs) :
    (m'.Hangs ∧ ∀ slot e, m.entry slot = some e → m'.entry slot = some e) ∧
      (Blank (m.entry (.leaf o page)) → Blank (m'.entry (.leaf o page))) := by
  induction touches with
  | refl => exact ⟨⟨hangs, fun _ _ found => found⟩, id⟩
  | tail _ move ih =>
    obtain ⟨hangsNext, kept⟩ := move.keeps ih.1.1
    exact ⟨⟨hangsNext, fun slot e found => kept slot e (ih.1.2 slot e found)⟩,
      fun blank => move.blank (ih.2 blank)⟩

theorem dealNoAlloc_stores (low : page / 512 / 512 < 512) (hangs : m.Hangs)
    (blank : Blank (getPTEOf m p page)) :
    Ends (dealNoAlloc p page m) (fun _ m' => Stored p page (false, false) m m')
      (Owes p page (false, false)) := by
  rw [getPTEOf_of_tree hangs] at blank
  refine (dealNoAlloc_touches (p := p) m low).weaken ?_ ?_
  · rintro _ m' ⟨touches, present⟩
    obtain ⟨⟨hangsNext, kept⟩, blankNext⟩ := touches.keeps hangs
    obtain ⟨e, found⟩ := Option.isSome_iff_exists.mp present
    obtain ⟨write, accessed, dirty⟩ := blankNext blank e found
    refine ⟨hangsNext, ⟨e, (getPTEOf_of_tree hangsNext p page).trans found, write, ?_⟩, ?_⟩
    · rw [accessed, dirty]
    · rintro other ⟨e', mapped, write'⟩
      rw [getPTEOf_of_tree hangs] at mapped
      exact ⟨e', (getPTEOf_of_tree hangsNext p other).trans (kept _ e' mapped), write'⟩
  · rintro task m' ⟨place, touches⟩
    obtain ⟨⟨hangsNext, -⟩, blankNext⟩ := touches.keeps hangs
    refine .inl ⟨place, ?_, rfl⟩
    rw [getPTEOf_of_tree hangsNext]
    exact blankNext blank

theorem Stored.of_put {flags : Bool × Bool} (hangs : m.Hangs)
    (mapped : (getPTEOf m p page).isSome) (write : e.write = true)
    (set : (e.accessed, e.dirty) = flags)
    (entry : m'.entry = (m.put (.leaf (owner p page) page) e).entry) : Stored p page flags m m' := by
  have self : m'.entry (.leaf (owner p page) page) = some e := by rw [entry, put_entry_self]
  have other : ∀ slot, slot ≠ .leaf (owner p page) page → m'.entry slot = m.entry slot := by
    intro slot ne
    rw [entry, put_entry_of_ne _ _ ne]
  have stays : ∀ slot, (m'.entry slot).isSome = (m.entry slot).isSome := by
    intro slot
    by_cases same : slot = .leaf (owner p page) page
    · rw [getPTEOf_of_tree hangs] at mapped
      rw [same, self, mapped]
      rfl
    · rw [other slot same]
  have hangsNext : m'.Hangs := by
    intro u up link present
    rw [frameAt_isSome, stays, ← frameAt_isSome] at present ⊢
    exact hangs u up link present
  refine ⟨hangsNext, ⟨e, (getPTEOf_of_tree hangsNext p page).trans self, write, set⟩, ?_⟩
  rintro page' ⟨e', found, write'⟩
  rw [getPTEOf_of_tree hangs] at found
  by_cases same : Slot.leaf (owner p page') page' = .leaf (owner p page) page
  · exact ⟨e, by rw [getPTEOf_of_tree hangsNext, same, self], write⟩
  · exact ⟨e', by rw [getPTEOf_of_tree hangsNext, other _ same, found], write'⟩

theorem copyPage_stores (hangs : m.Hangs) (mapped : getPTEOf m p page = some e)
    (accessed : e.accessed = true) :
    Ends (copyPage p page e m) (fun _ m' => Stored p page (true, true) m m')
      (Owes p page (true, true)) := by
  unfold copyPage
  cases free : m.free with
  | nil =>
    rw [bind_of_error (allocPage_sleep _ free)]
    exact .inr ⟨rfl, ⟨e, mapped, accessed⟩, rfl⟩
  | cons f rest =>
    rw [bind_of_ok (allocPage_ok _ free)]
    exact Stored.of_put (e := e.copied f) hangs
      (by rw [mapped]; rfl) rfl (by rw [accessed]) rfl

theorem checkWSDAndSetAD_store (mapped : getPTEOf m p page = some e) :
    (checkWSDAndSetAD p page .store m).1 = (if e.write = false then .noW
        else if e.accessed = true ∨ e.dirty = true then .nothing else .allocNoAD) ∧
    ∃ e', getPTEOf (checkWSDAndSetAD p page .store m).2 p page = some e' ∧
      e'.write = e.write ∧ (e'.accessed, e'.dirty) = storeFlags (some e) := by
  obtain ⟨root, middle, leaf⟩ := getPTEOf_eq_some mapped
  obtain ⟨second, root⟩ := Option.isSome_iff_exists.mp root
  obtain ⟨third, middle⟩ := Option.isSome_iff_exists.mp middle
  unfold checkWSDAndSetAD checkMiddle checkLeaf storeFlags
  cases write : e.write <;> cases accessed : e.accessed <;> cases dirty : e.dirty <;>
    simp [root, middle, leaf, put_entry_of_ne, put_entry_self, getPTEOf, write, accessed, dirty]

theorem dealNoW_stores (hangs : m.Hangs) (mapped : getPTEOf m p page = some e)
    (accessed : e.accessed = true) (dirty : e.dirty = true) :
    Ends (dealNoW p page m) (fun _ m' => Stored p page (true, true) m m')
      (Owes p page (true, true)) := by
  have present : (getPTEOf m p page).isSome := by
    rw [mapped]
    rfl
  by_cases one : m.shareNum e.frame = 1
  · rw [dealNoW_mine mapped one]
    exact Stored.of_put (e := { e with write := true }) hangs present rfl
      (by rw [accessed, dirty]) rfl
  · rw [dealNoW, get_bind, mapped]
    dsimp only
    rw [get_bind, if_neg one, modify_bind]
    exact (copyPage_stores (m := m.shareSub e.frame) hangs mapped accessed).weaken
      (fun _ _ stored => ⟨stored.hangs, stored.leaf, stored.kept⟩) (fun _ _ owes => owes)

theorem handlePageFault_stores (low : page / 512 / 512 < 512) (hangs : m.Hangs) :
    Ends (handlePageFault p page .store m)
      (fun _ m' => Stored p page (storeFlags (getPTEOf m p page)) m m')
      (Owes p page (storeFlags (getPTEOf m p page))) := by
  have same := checkWSDAndSetAD_same p page .store m
  have hangsSet : (checkWSDAndSetAD p page .store m).2.Hangs := by
    intro u up link present
    rw [same.frameAt] at present ⊢
    exact hangs u up link present
  have back : ∀ {flags m'}, Stored p page flags (checkWSDAndSetAD p page .store m).2 m' →
      Stored p page flags m m' := by
    rintro flags m' ⟨hangs', leaf, kept⟩
    refine ⟨hangs', leaf, fun other writable => kept other ?_⟩
    obtain ⟨e, found, write⟩ := writable
    rw [getPTEOf_of_tree hangs] at found
    obtain ⟨e', found', -, write'⟩ := same.found found
    exact ⟨e', (getPTEOf_of_tree hangsSet p other).trans found', write'.trans write⟩
  rw [handlePageFault_eq]
  cases mapped : getPTEOf m p page with
  | none =>
    rw [checkWSDAndSetAD_unmapped mapped]
    have blank : Blank (getPTEOf (checkWSDAndSetAD p page .store m).2 p page) := by
      intro e found
      rw [getPTEOf_of_tree hangs, ← same.absent, ← getPTEOf_of_tree hangsSet, found] at mapped
      cases mapped
    exact (dealNoAlloc_stores low hangsSet blank).weaken (fun _ _ => back) (fun _ _ owes => owes)
  | some e =>
    obtain ⟨verdict, e', found, write, flags⟩ := checkWSDAndSetAD_store mapped
    rw [verdict]
    by_cases readOnly : e.write = false
    · have both : storeFlags (some e) = (true, true) := by simp [storeFlags, readOnly]
      rw [both, Prod.mk.injEq] at flags
      rw [if_pos readOnly, both]
      exact (dealNoW_stores hangsSet found flags.1 flags.2).weaken (fun _ _ => back)
        (fun _ _ owes => owes)
    · have stays : Stored p page (storeFlags (some e)) (checkWSDAndSetAD p page .store m).2
          (checkWSDAndSetAD p page .store m).2 :=
        ⟨hangsSet, ⟨e', found, by simpa [readOnly] using write, flags⟩, fun _ kept => kept⟩
      rw [if_neg readOnly]
      split_ifs <;> exact back stays

end Store

/-! ## The loops -/

/-- The addresses at which the loop `for (i = buf; test; i += PAGE_SIZE)` calls the handler;
`none` when the rounds do not suffice. -/
def prefaultFrom (test : Nat → Bool) : Nat → Nat → Option (List Nat)
  | 0, i => if test i then none else some []
  | fuel + 1, i =>
    if test i then (prefaultFrom test fuel ((i + 4096) % 2 ^ 64)).map (i :: ·) else some []

def readPrefault (fuel buf count : Nat) : Option (List Nat) :=
  prefaultFrom (fun i => decide (i < (buf + count) % 2 ^ 64)) fuel buf

def writePrefault (fuel buf count : Nat) : Option (List Nat) :=
  prefaultFrom (fun i => decide (i ≤ (buf + count) % 2 ^ 64)) fuel buf

/-- Every page of the buffer has an address of the list. -/
def Covers (buf count : Nat) (addrs : List Nat) : Prop :=
  ∀ a, buf ≤ a → a < buf + count → ∃ i ∈ addrs, i / 4096 = a / 4096

/-- The calls of the loop by process `p`. -/
def prefault (p : Nat) (addrs : List Nat) : Kernel PUnit :=
  addrs.forM fun i => handlePageFault p (i / 4096) .store

/-- The addresses of `n` rounds. -/
def steps (buf n : Nat) : List Nat := (List.range n).map fun j => buf + 4096 * j

theorem prefaultFrom_eq (n : Nat) {fuel : Nat} (runs : ∀ j < n, test (buf + 4096 * j) = true)
    (stop : test (buf + 4096 * n) = false) (small : buf + 4096 * n < 2 ^ 64) (enough : n ≤ fuel) :
    prefaultFrom test fuel buf = some (steps buf n) := by
  induction n generalizing fuel buf with
  | zero => cases fuel <;> simp_all [prefaultFrom, steps]
  | succ n ih =>
    obtain ⟨fuel, rfl⟩ : ∃ k, fuel = k + 1 := ⟨fuel - 1, by omega⟩
    have next : ∀ j, buf + 4096 + 4096 * j = buf + 4096 * (j + 1) := by omega
    have first : test buf = true := runs 0 (by omega)
    have rest : prefaultFrom test fuel (buf + 4096) = some (steps (buf + 4096) n) :=
      ih (fun j less => by rw [next]; exact runs (j + 1) (by omega)) (by rw [next]; exact stop)
        (by omega) (by omega)
    have step : buf + 4096 ≤ buf + 4096 * (n + 1) := by omega
    have below : buf + 4096 < 2 ^ 64 := Nat.lt_of_le_of_lt step small
    rw [prefaultFrom, if_pos first, mod_eq_of_lt below, rest, Option.map_some]
    refine congrArg some ?_
    unfold steps
    rw [range_succ_eq_map, map_cons, map_map, Nat.mul_zero, Nat.add_zero]
    refine congrArg (buf :: ·) (map_congr_left fun j _ => ?_)
    exact next j

theorem prefaultFrom_wraps
    (runs : ∀ i < 2 ^ 64, i % 4096 = buf % 4096 → test i = true) (fuel : Nat) {i : Nat}
    (word : i < 2 ^ 64) (aligned : i % 4096 = buf % 4096) : prefaultFrom test fuel i = none := by
  induction fuel generalizing i with
  | zero => rw [prefaultFrom, if_pos (runs i word aligned)]
  | succ fuel ih =>
    have next : (i + 4096) % 2 ^ 64 % 4096 = buf % 4096 := by omega
    rw [prefaultFrom, if_pos (runs i word aligned),
      ih (mod_lt _ (Nat.two_pow_pos 64)) next, Option.map_none]

theorem covers_steps_iff (buf count n : Nat) : Covers buf count (steps buf n) ↔
    count = 0 ∨ (buf + count - 1) / 4096 < buf / 4096 + n := by
  have page : ∀ j, (buf + 4096 * j) / 4096 = buf / 4096 + j := by omega
  constructor
  · intro covers
    by_cases empty : count = 0
    · exact .inl empty
    · obtain ⟨i, visited, same⟩ := covers (buf + count - 1) (by omega) (by omega)
      obtain ⟨j, less, rfl⟩ := mem_map.mp visited
      have bound := mem_range.mp less
      rw [page] at same
      exact .inr (by omega)
  · rintro (empty | last) a lower upper
    · omega
    · refine ⟨buf + 4096 * (a / 4096 - buf / 4096), ?_, by rw [page]; omega⟩
      exact mem_map.mpr ⟨_, mem_range.mpr (by omega), rfl⟩

theorem prefault_writable {p : Nat} {addrs : List Nat} {m m' : Mem} (hangs : m.Hangs)
    (user : ∀ i ∈ addrs, i < 2 ^ 39) (covers : Covers buf count addrs)
    (run : prefault p addrs m = .ok ⟨⟩ m') (a : Nat) (lower : buf ≤ a) (upper : a < buf + count) :
    Writable m' p (a / 4096) := by
  have round : ∀ i ∈ addrs, ∀ m : Mem, m.Hangs →
      Ends (handlePageFault p (i / 4096) .store m) (fun _ m' => m'.Hangs ∧
        Writable m' p (i / 4096) ∧
          ∀ b, Writable m p (b / 4096) → Writable m' p (b / 4096)) (fun _ _ => True) := by
    intro i visited m hangs
    have small := user i visited
    refine (handlePageFault_stores (by omega) hangs).weaken ?_ (fun _ _ _ => trivial)
    rintro _ m' ⟨hangs', ⟨e, found, write, -⟩, kept⟩
    exact ⟨hangs', ⟨e, found, write⟩, fun b => kept (b / 4096)⟩
  have loop := Ends.forM_each _ _ _ (fun i m => Writable m p (i / 4096)) addrs round m hangs
  obtain ⟨i, visited, same⟩ := covers a lower upper
  unfold prefault at run
  rw [run] at loop
  rw [← same]
  exact loop.2.1 i visited

theorem prefault_iff {n enough : Nat} (rounds : n ≤ enough)
    (tests : ∀ j, test (buf + 4096 * j) = decide (j < n)) (base : buf < 2 ^ 64)
    (wraps : 2 ^ 64 ≤ buf + 4096 * n → ∀ i < 2 ^ 64, i % 4096 = buf % 4096 → test i = true) :
    (∃ addrs, (∀ fuel ≥ enough, prefaultFrom test fuel buf = some addrs) ∧ Covers buf count addrs) ↔
      (count = 0 ∨ (buf + count - 1) / 4096 < buf / 4096 + n) ∧ buf + 4096 * n < 2 ^ 64 := by
  have returns : buf + 4096 * n < 2 ^ 64 → ∀ fuel ≥ enough,
      prefaultFrom test fuel buf = some (steps buf n) := by
    intro small fuel more
    refine prefaultFrom_eq n ?_ ?_ small (Nat.le_trans rounds more)
    · intro j less
      rw [tests, decide_eq_true less]
    · rw [tests, decide_eq_false (Nat.lt_irrefl n)]
  rw [← covers_steps_iff]
  constructor
  · rintro ⟨addrs, ends, covers⟩
    have once := ends enough (Nat.le_refl enough)
    have small : buf + 4096 * n < 2 ^ 64 := by
      by_contra large
      rw [prefaultFrom_wraps (wraps (Nat.le_of_not_lt large)) enough base rfl] at once
      cases once
    rw [returns small enough (Nat.le_refl enough)] at once
    cases once
    exact ⟨covers, small⟩
  · rintro ⟨covers, small⟩
    exact ⟨steps buf n, returns small, covers⟩

/-- The loop of `fat32_read` reaches every page of the buffer exactly when the offset in the
first page and the rest of the length fit into one page; the loop of `fat32_write` does so also
for a whole number of pages.  The step past the end must not wrap.  After the calls every page
of a buffer that was covered is writable. -/
theorem prefault_covers_iff (buf count : Nat) (fits : buf + count < 2 ^ 64) :
    ((∃ addrs, (∀ fuel ≥ count / 4096 + 1, readPrefault fuel buf count = some addrs) ∧
        Covers buf count addrs) ↔ (count = 0 ∨ buf % 4096 + (count - 1) % 4096 < 4096) ∧
        buf + 4096 * ((count + 4095) / 4096) < 2 ^ 64) ∧
    ((∃ addrs, (∀ fuel ≥ count / 4096 + 1, writePrefault fuel buf count = some addrs) ∧
        Covers buf count addrs) ↔ (count % 4096 = 0 ∨ buf % 4096 + (count - 1) % 4096 < 4096) ∧
        buf + 4096 * (count / 4096 + 1) < 2 ^ 64) ∧
    ∀ p addrs m m', m.Hangs → (∀ i ∈ addrs, i < 2 ^ 39) → Covers buf count addrs →
      prefault p addrs m = .ok ⟨⟩ m' →
        ∀ a, buf ≤ a → a < buf + count → Writable m' p (a / 4096) := by
  unfold readPrefault writePrefault
  rw [mod_eq_of_lt fits]
  refine ⟨?_, ?_, fun _ _ _ _ hangs user covers run => prefault_writable hangs user covers run⟩
  · rw [prefault_iff (n := (count + 4095) / 4096) (by omega) ?_ (by omega) ?_]
    · refine and_congr_left fun _ => ?_
      omega
    · intro j
      exact decide_eq_decide.mpr (by omega)
    · intro large i word aligned
      exact decide_eq_true (by omega)
  · rw [prefault_iff (n := count / 4096 + 1) (by omega) ?_ (by omega) ?_]
    · refine and_congr_left fun _ => ?_
      omega
    · intro j
      exact decide_eq_decide.mpr (by omega)
    · intro large i word aligned
      exact decide_eq_true (by omega)

theorem prefault_covers_iff_page : (4096 + 4096 < 2 ^ 64) ∧
    ∃ addrs, (∀ fuel ≥ 2, readPrefault fuel 4096 4096 = some addrs) ∧ Covers 4096 4096 addrs :=
  ⟨by decide, (prefault_covers_iff 4096 4096 (by decide)).1.mpr (by decide)⟩

/-- Two bytes across the page boundary: the read calls the handler at `0x1fff` only. -/
theorem prefault_misses_page :
    readPrefault 9 0x1fff 2 = some [0x1fff] ∧ writePrefault 9 0x1fff 2 = some [0x1fff] ∧
      ¬ Covers 0x1fff 2 [0x1fff] := by
  refine ⟨by decide, by decide, fun covers => ?_⟩
  obtain ⟨i, visited, same⟩ := covers 0x2000 (by decide) (by decide)
  rw [mem_singleton.mp visited] at same
  exact absurd same (by decide)

end CCore.Mm
