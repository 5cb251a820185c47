import CCore.Fat.Unlink

/-!
# The entries that a search looks at

`search`, `search2` and `search3` go over the same entries of a directory, whatever is on
the disk, and differ in the entry at which they stop.  The entries are numbered by the calls of
`next_entry` that lead to them: `Looks` are the numbers at which the loop begins to read a
name if it has found nothing before, and each search returns the first of them that it takes.
-/
namespace CCore.Fat

open Option

section Entries
variable (fat : FatSb) (d : Disk) (start : Cursor)

def entryAt (n : Nat) : Cursor := (nextEntry fat d)^[n] start

def entrySlot (n : Nat) : Slot := (entryAt fat d start n).slot

def longsRead (n : Nat) : Nat :=
  if (entrySlot fat d start n).startsLong then (entrySlot fat d start n).longEntryNum else 0

def behind (n : Nat) : Nat := n + longsRead fat d start n + 1

structure Skips (a b : Nat) : Prop where
  le : a ≤ b
  deleted : ∀ j, a ≤ j → j < b → (entrySlot fat d start j).isDeleted = true
  live : (entrySlot fat d start b).isDeleted = false

/-- From the test of the loop at entry `a` on, a name is read from entry `b` on. -/
inductive Looks : Nat → Nat → Prop
  | first {a b : Nat} (used : dentryIsEmpty (entrySlot fat d start a) = false)
      (skips : Skips fat d start a b) : Looks a b
  | later {a b c : Nat} (used : dentryIsEmpty (entrySlot fat d start a) = false)
      (skips : Skips fat d start a b)
      (more : (entryAt fat d start (behind fat d start b)).clus ≠ cluserEnd)
      (rest : Looks (behind fat d start b) c) : Looks a c

def candidate (n : Nat) : Found :=
  ⟨entryAt fat d start n, entryAt fat d start (n + longsRead fat d start n),
    longsRead fat d start n + 1⟩

def takes (short : Slot → Str) (want : Slot → Bool) (name : Str) (n : Nat) : Bool :=
  want (candidate fat d start n).dentry.slot &&
    sameName (readName fat d short (entryAt fat d start n)).2.1 name

end Entries

variable {a b c fuel : Nat} {r : Option Found}

section Scan
variable {fat : FatSb} {d : Disk} {start : Cursor} {short : Slot → Str} {want : Slot → Bool}
  {name : Str}

theorem entryAt_succ (n : Nat) :
    nextEntry fat d (entryAt fat d start n) = entryAt fat d start (n + 1) :=
  (Function.iterate_succ_apply' _ _ _).symm

theorem Skips.unique (left : Skips fat d start a b) (right : Skips fat d start a c) : b = c := by
  rcases Nat.lt_trichotomy b c with less | same | more
  · have gone := right.deleted b left.le less
    rw [left.live] at gone
    cases gone
  · exact same
  · have gone := left.deleted c right.le more
    rw [right.live] at gone
    cases gone

theorem skipDeleted_skips {cur : Cursor}
    (run : skipDeleted fat d fuel (entryAt fat d start a) = some cur) :
    ∃ b, cur = entryAt fat d start b ∧ Skips fat d start a b := by
  induction fuel generalizing a with
  | zero => cases run
  | succ fuel ih =>
    rw [skipDeleted] at run
    by_cases deleted : (entryAt fat d start a).slot.isDeleted = true
    · rw [if_pos deleted, entryAt_succ] at run
      obtain ⟨b, same, skips⟩ := ih run
      refine ⟨b, same, Nat.le_of_succ_le skips.le, ?_, skips.live⟩
      intro j from' before
      rcases Nat.eq_or_lt_of_le from' with here | later
      · rw [← here]
        exact deleted
      · exact skips.deleted j later before
    · rw [if_neg deleted] at run
      refine ⟨a, (Option.some.inj run).symm, Nat.le_refl a, ?_, Bool.eq_false_iff.mpr deleted⟩
      intro j from' before
      omega

theorem readLong_entryAt (n a : Nat) (filename : List UInt8) :
    (readLong fat d n (entryAt fat d start a) filename).1 = entryAt fat d start (a + n) := by
  induction n generalizing a filename with
  | zero => rfl
  | succ n ih =>
    rw [readLong, entryAt_succ, ih]
    congr 1
    omega

theorem readName_entryAt (short : Slot → Str) (a : Nat) :
    readName fat d short (entryAt fat d start a) =
      ((candidate fat d start a).dentry, (readName fat d short (entryAt fat d start a)).2.1,
        (candidate fat d start a).entryNum) := by
  unfold readName candidate longsRead entrySlot
  cases long : (entryAt fat d start a).slot.startsLong with
  | false => simp
  | true => simp [readLong_entryAt]

theorem Looks.cases_of_skips (looks : Looks fat d start a c) (skips : Skips fat d start a b) :
    c = b ∨ (entryAt fat d start (behind fat d start b)).clus ≠ cluserEnd ∧
      Looks fat d start (behind fat d start b) c := by
  cases looks with
  | first used skips' => exact .inl (skips'.unique skips)
  | later used skips' more rest =>
    rw [skips'.unique skips] at more rest
    exact .inr ⟨more, rest⟩

theorem Looks.used (looks : Looks fat d start a c) :
    dentryIsEmpty (entrySlot fat d start a) = false := by
  cases looks with
  | first used _ => exact used
  | later used _ _ _ => exact used

theorem Looks.le (looks : Looks fat d start a c) : a ≤ c := by
  induction looks with
  | first _ skips => exact skips.le
  | later _ skips _ _ ih =>
    have from' := skips.le
    unfold behind at ih
    omega

structure Stops (fat : FatSb) (d : Disk) (start : Cursor) (takes : Nat → Bool) (a n : Nat) :
    Prop where
  looks : Looks fat d start a n
  taken : takes n = true
  first : ∀ m, Looks fat d start a m → takes m = true → n ≤ m

theorem searchLoop_returns
    (run : searchLoop fat d short want name fuel (entryAt fat d start a) = some r) : match r with
    | none => ∀ n, Looks fat d start a n → takes fat d start short want name n = false
    | some found => ∃ n, found = candidate fat d start n ∧
        Stops fat d start (takes fat d start short want name) a n := by
  induction fuel generalizing a with
  | zero => cases run
  | succ fuel ih =>
    rw [searchLoop] at run
    by_cases empty : dentryIsEmpty (entryAt fat d start a).slot = true
    · rw [if_pos empty] at run
      cases run
      intro n looks
      have used := looks.used
      rw [entrySlot, empty] at used
      cases used
    · rw [if_neg empty] at run
      obtain ⟨cur, skipped, run⟩ := bind_eq_some_iff.mp run
      obtain ⟨b, rfl, skips⟩ := skipDeleted_skips skipped
      have used : dentryIsEmpty (entrySlot fat d start a) = false := Bool.eq_false_iff.mpr empty
      rw [readName_entryAt] at run
      dsimp only at run
      have atB : (want (candidate fat d start b).dentry.slot &&
          sameName (readName fat d short (entryAt fat d start b)).2.1 name) =
          takes fat d start short want name b := rfl
      rw [atB] at run
      cases taken : takes fat d start short want name b with
      | true =>
        rw [taken, if_pos rfl] at run
        cases run
        refine ⟨b, rfl, .first used skips, taken, ?_⟩
        intro m looks _
        rcases looks.cases_of_skips skips with same | ⟨_, rest⟩
        · exact Nat.le_of_eq same.symm
        · have later := rest.le
          unfold behind at later
          omega
      | false =>
        rw [taken, if_neg Bool.false_ne_true] at run
        have next : nextEntry fat d (candidate fat d start b).dentry =
            entryAt fat d start (behind fat d start b) := entryAt_succ _
        rw [next] at run
        by_cases ended : (entryAt fat d start (behind fat d start b)).clus = cluserEnd
        · rw [if_pos ended] at run
          cases run
          intro n looks
          rcases looks.cases_of_skips skips with same | ⟨more, _⟩
          · rw [same]
            exact taken
          · exact absurd ended more
        · rw [if_neg ended] at run
          have rest := ih run
          cases r with
          | none =>
            intro n looks
            rcases looks.cases_of_skips skips with same | ⟨_, later⟩
            · rw [same]
              exact taken
            · exact rest n later
          | some found =>
            obtain ⟨n, same, stops⟩ := rest
            refine ⟨n, same, .later used skips ended stops.looks, stops.taken, ?_⟩
            intro m looks takenM
            rcases looks.cases_of_skips skips with same | ⟨_, later⟩
            · rw [same, taken] at takenM
              cases takenM
            · exact stops.first m later takenM

theorem searchLoop_cases (start : Cursor)
    (run : searchLoop fat d short want name fuel start = some r) :
    (r = none ∧ ∀ n, Looks fat d start 0 n → takes fat d start short want name n = false) ∨
      ∃ n, r = some (candidate fat d start n) ∧
        Stops fat d start (takes fat d start short want name) 0 n := by
  have fromFirst : searchLoop fat d short want name fuel (entryAt fat d start 0) = some r := run
  have returned := searchLoop_returns fromFirst
  cases r with
  | none => exact .inl ⟨rfl, returned⟩
  | some found =>
    obtain ⟨n, same, stops⟩ := returned
    exact .inr ⟨n, congrArg some same, stops⟩

end Scan

/-- `pos` of `search` and `search3`: the sector of the entry and its place there. -/
def Found.pos (found : Found) : Nat × Nat :=
  (u32 (found.dentry.sec + found.dentry.entry / 512), found.dentry.entry % 512)

/-- The type of an entry. -/
def typeOf (s : Slot) : FileType := if s.isDirectory then .dir else .file

theorem fits_iff (mode : FileType) (s : Slot) : mode.fits s = true ↔ mode = typeOf s := by
  unfold typeOf
  cases mode <;> cases dir : s.isDirectory <;> simp [FileType.fits, dir]

def ReachedBefore (fat : FatSb) (d : Disk) (dirFirstClus : Nat) (before after : Found) : Prop :=
  ∃ n m, n < m ∧ Looks fat d (openDir fat d dirFirstClus) 0 n ∧
    Looks fat d (openDir fat d dirFirstClus) 0 m ∧
    before = candidate fat d (openDir fat d dirFirstClus) n ∧
    after = candidate fat d (openDir fat d dirFirstClus) m

section Types
variable {fat : FatSb} {d : Disk} {start : Cursor} {short : Slot → Str} {name : Str}

theorem takes_fits (mode : FileType) (n : Nat) : takes fat d start short mode.fits name n = true ↔
    takes fat d start short (fun _ => true) name n = true ∧
      mode = typeOf (candidate fat d start n).dentry.slot := by
  unfold takes
  rw [Bool.and_eq_true, fits_iff, Bool.true_and]
  exact And.comm

/-- `search3` finds nothing exactly if the searches for both types find nothing; what it finds
is found by one of them, at the same position, and before anything that the other finds. -/
theorem search3_first_of_types {dirFirstClus fuel : Nat} {fuels : FileType → Nat} {r : Option Found}
    {rs : FileType → Option Found} (run : search3 fat d fuel name dirFirstClus = some r)
    (runs : ∀ mode, search fat d (fuels mode) name dirFirstClus mode = some (rs mode)) :
    (r = none ↔ rs .file = none ∧ rs .dir = none) ∧
    ∀ found, r = some found → ∃ mode result, rs mode = some result ∧
      result.dentry = found.dentry ∧ result.pos = found.pos ∧
      ∀ other, other ≠ mode → ∀ late, rs other = some late →
        ReachedBefore fat d dirFirstClus found late := by
  rcases searchLoop_cases (openDir fat d dirFirstClus) run with ⟨rfl, nothing⟩ | ⟨n, rfl, stops⟩
  · -- no file has the name, whatever its type
    have none : ∀ mode, rs mode = none := by
      intro mode
      rcases searchLoop_cases (openDir fat d dirFirstClus) (runs mode) with ⟨missing, _⟩ | ⟨m, _, stops⟩
      · exact missing
      · have named := ((takes_fits mode m).mp stops.taken).1
        rw [nothing m stops.looks] at named
        cases named
    exact ⟨⟨fun _ => ⟨none .file, none .dir⟩, fun _ => rfl⟩, nofun⟩
  · have own : rs (typeOf (candidate fat d (openDir fat d dirFirstClus) n).dentry.slot) =
        some (candidate fat d (openDir fat d dirFirstClus) n) := by
      have taken := (takes_fits _ n).mpr ⟨stops.taken, rfl⟩
      rcases searchLoop_cases (openDir fat d dirFirstClus)
        (runs (typeOf (candidate fat d (openDir fat d dirFirstClus) n).dentry.slot)) with
        ⟨_, nothing⟩ | ⟨m, same, stopsM⟩
      · rw [nothing n stops.looks] at taken
        cases taken
      · -- each of the two entries is the first that has the name
        have before := stopsM.first n stops.looks taken
        have after := stops.first m stopsM.looks ((takes_fits _ m).mp stopsM.taken).1
        rw [same, Nat.le_antisymm before after]
    refine ⟨⟨fun missing => (nomatch missing), ?_⟩, ?_⟩
    · rintro ⟨file, dir⟩
      cases mode : typeOf (candidate fat d (openDir fat d dirFirstClus) n).dentry.slot with
      | file =>
        rw [mode, file] at own
        cases own
      | dir =>
        rw [mode, dir] at own
        cases own
    · intro found same
      cases same
      refine ⟨_, _, own, rfl, rfl, ?_⟩
      intro other different late result
      rcases searchLoop_cases (openDir fat d dirFirstClus) (runs other) with ⟨missing, _⟩ | ⟨m, found, stopsM⟩
      · rw [missing] at result
        cases result
      · obtain ⟨named, type⟩ := (takes_fits other m).mp stopsM.taken
        have after := stops.first m stopsM.looks named
        have apart : n ≠ m := by
          intro same
          rw [← same] at type
          exact different type
        rw [found] at result
        exact ⟨n, m, Nat.lt_of_le_of_ne after apart, stops.looks, stopsM.looks, rfl,
          (Option.some.inj result).symm⟩

end Types

/-- The searches for `B.C` in a small directory. -/
theorem search3_first_sample : ∃ (r : Option Found) (rs : FileType → Option Found),
    search3 smallVolume.fat (dirDisk (slotsOf sampleItems)) 66 (ascii ['B', '.', 'C']) 5 =
      some r ∧
    (∀ mode, search smallVolume.fat (dirDisk (slotsOf sampleItems)) 66 (ascii ['B', '.', 'C']) 5
      mode = some (rs mode)) ∧ (r = none ↔ rs .file = none ∧ rs .dir = none) ∧
    ∀ found, r = some found → ∃ mode result, rs mode = some result ∧
      result.dentry = found.dentry ∧ result.pos = found.pos ∧
      ∀ other, other ≠ mode → ∀ late, rs other = some late →
        ReachedBefore smallVolume.fat (dirDisk (slotsOf sampleItems)) 5 found late := by
  have ends3 : (search3 smallVolume.fat (dirDisk (slotsOf sampleItems)) 66
      (ascii ['B', '.', 'C']) 5).isSome = true := by
    decide +kernel
  have ends : ∀ mode, (search smallVolume.fat (dirDisk (slotsOf sampleItems)) 66
      (ascii ['B', '.', 'C']) 5 mode).isSome = true := by
    intro mode
    cases mode <;> decide +kernel
  obtain ⟨r, run⟩ := isSome_iff_exists.mp ends3
  choose rs runs using fun mode => isSome_iff_exists.mp (ends mode)
  exact ⟨r, rs, run, runs, search3_first_of_types run runs⟩

end CCore.Fat
