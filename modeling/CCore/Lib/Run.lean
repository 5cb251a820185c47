import Mathlib.Data.List.Basic

/-!
# Runs of a deterministic labelled machine

A machine is a partial step function on states and actions.  An action that is
not enabled has no successor.  `StepsMeet` carries a side condition on the
state before each step, and `runActs_invariant` is the only induction over a
run that the safety proofs of this development use.
-/
namespace CCore.Run

open List Option

section Machine
variable {S A : Type} (step : S → A → Option S)

/-- Execute the actions from left to right; a disabled action stops the run. -/
def runActs : S → List A → Option S
  | s, [] => some s
  | s, a :: rest => (step s a).bind fun next => runActs next rest

/-- Every step of the run starts in a state that meets `ok` for its action. -/
def StepsMeet (ok : S → A → Prop) : S → List A → Prop
  | _, [] => True
  | s, a :: rest => ok s a ∧ ∀ next, step s a = some next → StepsMeet ok next rest

/-- `holds` is true in every state the run passes through, the first included. -/
def HoldsAlong (holds : S → Prop) : S → List A → Prop
  | s, [] => holds s
  | s, a :: rest => holds s ∧ ∀ next, step s a = some next → HoldsAlong holds next rest

/-- Every step of the run relates the states before and after it by `rel`. -/
def StepsGive (rel : S → A → S → Prop) : S → List A → Prop
  | _, [] => True
  | s, a :: rest => ∀ next, step s a = some next → rel s a next ∧ StepsGive rel next rest

instance decidableStepsMeet (ok : S → A → Prop) [∀ s a, Decidable (ok s a)] :
    (s : S) → (acts : List A) → Decidable (StepsMeet step ok s acts)
  | _, [] => isTrue trivial
  | s, a :: rest =>
    match stepRun : step s a with
    | none =>
      decidable_of_iff (ok s a)
        ⟨fun meets => ⟨meets, fun _ run => nomatch stepRun.symm.trans run⟩, And.left⟩
    | some next =>
      have := decidableStepsMeet ok next rest
      decidable_of_iff (ok s a ∧ StepsMeet step ok next rest)
        ⟨fun meets => ⟨meets.1, fun _ run =>
          Option.some.inj (stepRun.symm.trans run) ▸ meets.2⟩,
          fun meets => ⟨meets.1, meets.2 next stepRun⟩⟩

/-- An evaluation shows `P` of the end of a run, and `Q` follows. -/
theorem exists_evaluated {run : Option S} {P Q : S → Prop} [DecidablePred P]
    (evaluated : (run.any fun s => P s) = true) (reads : ∀ s, P s → Q s) :
    ∃ s, run = some s ∧ Q s := by
  cases run with
  | none => cases evaluated
  | some s => exact ⟨s, rfl, reads s (of_decide_eq_true evaluated)⟩

theorem runActs_cons (s : S) (a : A) (rest : List A) :
    runActs step s (a :: rest) = (step s a).bind fun next => runActs step next rest := rfl

theorem runActs_append (s : S) (front back : List A) : runActs step s (front ++ back) =
    (runActs step s front).bind fun middle => runActs step middle back := by
  induction front generalizing s with
  | nil => rfl
  | cons a rest ih =>
    rw [cons_append, runActs_cons, runActs_cons]
    cases step s a with
    | none => rfl
    | some next => simpa using ih next

theorem runActs_invariant_always (inv : S → Prop)
    (keeps : ∀ s a next, inv s → step s a = some next → inv next) (s final : S) (acts : List A)
    (start : inv s) (run : runActs step s acts = some final) : inv final := by
  induction acts generalizing s with
  | nil =>
    cases run
    exact start
  | cons a rest ih =>
    obtain ⟨next, stepRun, restRun⟩ := bind_eq_some_iff.mp run
    exact ih next (keeps s a next start stepRun) restRun

theorem runActs_returns (ok : S → A → Prop) (inv : S → Prop)
    (live : ∀ s a, inv s → ok s a → ∃ next, step s a = some next ∧ inv next)
    (s : S) (acts : List A) (start : inv s) (meets : StepsMeet step ok s acts) :
    ∃ final, runActs step s acts = some final := by
  induction acts generalizing s with
  | nil => exact ⟨s, rfl⟩
  | cons a rest ih =>
    obtain ⟨next, stepRun, invNext⟩ := live s a start meets.1
    obtain ⟨final, restRun⟩ := ih next invNext (meets.2 next stepRun)
    exact ⟨final, by rw [runActs_cons, stepRun]; exact restRun⟩

theorem holdsAlong_always (holds : S → Prop)
    (keeps : ∀ s a next, holds s → step s a = some next → holds next)
    (s : S) (acts : List A) (start : holds s) : HoldsAlong step holds s acts := by
  induction acts generalizing s with
  | nil => exact start
  | cons a rest ih =>
    refine ⟨start, ?_⟩
    intro next stepRun
    exact ih next (keeps s a next start stepRun)

theorem holdsAlong_mono {strong weak : S → Prop} (implies : ∀ s, strong s → weak s) (s : S)
    (acts : List A) (along : HoldsAlong step strong s acts) : HoldsAlong step weak s acts := by
  induction acts generalizing s with
  | nil => exact implies s along
  | cons a rest ih =>
    refine ⟨implies s along.1, ?_⟩
    intro next stepRun
    exact ih next (along.2 next stepRun)

theorem stepsGive_of_stepsMeet (ok : S → A → Prop) (inv : S → Prop) (rel : S → A → S → Prop)
    (keeps : ∀ s a next, inv s → ok s a → step s a = some next → inv next ∧ rel s a next)
    (s : S) (acts : List A) (start : inv s) (meets : StepsMeet step ok s acts) :
    StepsGive step rel s acts := by
  induction acts generalizing s with
  | nil => trivial
  | cons a rest ih =>
    intro next stepRun
    obtain ⟨invNext, related⟩ := keeps s a next start meets.1 stepRun
    exact ⟨related, ih next invNext (meets.2 next stepRun)⟩

theorem HoldsAlong.here {holds : S → Prop} {s : S} {acts : List A}
    (along : HoldsAlong step holds s acts) : holds s := by
  cases acts with
  | nil => exact along
  | cons _ _ => exact along.1

theorem HoldsAlong.last {holds : S → Prop} {s final : S} {acts : List A}
    (along : HoldsAlong step holds s acts) (run : runActs step s acts = some final) :
    holds final := by
  induction acts generalizing s with
  | nil =>
    cases run
    exact along
  | cons a rest ih =>
    obtain ⟨next, stepRun, restRun⟩ := bind_eq_some_iff.mp run
    exact ih (along.2 next stepRun) restRun

section Admissible
variable (ok : S → A → Prop) (inv holds : S → Prop) (sound : ∀ s, inv s → holds s)
  (keeps : ∀ s a next, inv s → ok s a → step s a = some next → inv next)

include sound keeps

theorem holdsAlong_of_stepsMeet (s : S) (acts : List A) (start : inv s)
    (meets : StepsMeet step ok s acts) : HoldsAlong step holds s acts := by
  induction acts generalizing s with
  | nil => exact sound s start
  | cons a rest ih =>
    refine ⟨sound s start, ?_⟩
    intro next stepRun
    exact ih next (keeps s a next start meets.1 stepRun) (meets.2 next stepRun)

variable (breaks : ∀ s a next, inv s → ¬ ok s a → step s a = some next → ¬ holds next)
include breaks

/-- If admissible steps keep an invariant that implies `holds`, and every other
step leads to a state where `holds` is false, then `holds` is true all along a
run exactly when all its steps are admissible. -/
theorem holdsAlong_iff_stepsMeet (s final : S) (acts : List A) (start : inv s)
    (run : runActs step s acts = some final) :
    HoldsAlong step holds s acts ↔ StepsMeet step ok s acts := by
  constructor
  · intro along
    induction acts generalizing s with
    | nil => trivial
    | cons a rest ih =>
      obtain ⟨next, stepRun, restRun⟩ := bind_eq_some_iff.mp run
      have admissible : ok s a := by
        by_contra other
        exact breaks s a next start other stepRun (along.2 next stepRun).here
      refine ⟨admissible, ?_⟩
      intro other otherRun
      rw [Option.some.inj (otherRun.symm.trans stepRun)]
      exact ih next (keeps s a next start admissible stepRun) restRun (along.2 next stepRun)
  · exact holdsAlong_of_stepsMeet step ok inv holds sound keeps s acts start

theorem holdsAlong_iff_stepsMeet_of_disabled
    (disabled : ∀ s a, inv s → step s a = none → ok s a) (s : S) (acts : List A)
    (start : inv s) : HoldsAlong step holds s acts ↔ StepsMeet step ok s acts := by
  constructor
  · intro along
    induction acts generalizing s with
    | nil => trivial
    | cons a rest ih =>
      have admissible : ok s a := by
        cases stepRun : step s a with
        | none => exact disabled s a start stepRun
        | some next =>
          by_contra other
          exact breaks s a next start other stepRun (along.2 next stepRun).here
      refine ⟨admissible, ?_⟩
      intro next stepRun
      exact ih next (keeps s a next start admissible stepRun) (along.2 next stepRun)
  · exact holdsAlong_of_stepsMeet step ok inv holds sound keeps s acts start

end Admissible

/-- A machine whose steps are always enabled: each of its runs returns, with the invariant all
along it and `rel` between the states of each step. -/
theorem run_total (inv : S → Prop) (rel : S → A → S → Prop)
    (total : ∀ s a, inv s → ∃ next, step s a = some next ∧ inv next ∧ rel s a next)
    (s : S) (acts : List A) (start : inv s) :
    (∃ final, runActs step s acts = some final) ∧ HoldsAlong step inv s acts ∧
      StepsGive step rel s acts := by
  induction acts generalizing s with
  | nil => exact ⟨⟨s, rfl⟩, start, trivial⟩
  | cons a rest ih =>
    obtain ⟨next, stepRun, invNext, related⟩ := total s a start
    obtain ⟨⟨final, restRun⟩, along, gives⟩ := ih next invNext
    refine ⟨⟨final, ?_⟩, ⟨start, ?_⟩, ?_⟩
    · rw [runActs_cons, stepRun]
      exact restRun
    · intro other otherRun
      rw [Option.some.inj (otherRun.symm.trans stepRun)]
      exact along
    · intro other otherRun
      rw [Option.some.inj (otherRun.symm.trans stepRun)]
      exact ⟨related, gives⟩

theorem stepsMeet_action_iff (good : A → Prop) (s final : S) (acts : List A)
    (run : runActs step s acts = some final) :
    StepsMeet step (fun _ a => good a) s acts ↔ ∀ a ∈ acts, good a := by
  induction acts generalizing s with
  | nil => exact ⟨fun _ _ mem => absurd mem not_mem_nil, fun _ => trivial⟩
  | cons a rest ih =>
    obtain ⟨next, stepRun, restRun⟩ := bind_eq_some_iff.mp run
    rw [forall_mem_cons, ← ih next restRun]
    constructor
    · exact fun meets => ⟨meets.1, meets.2 next stepRun⟩
    · rintro ⟨first, others⟩
      refine ⟨first, ?_⟩
      intro other otherRun
      rw [Option.some.inj (otherRun.symm.trans stepRun)]
      exact others

end Machine
end CCore.Run
