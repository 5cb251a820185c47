import Mathlib.Init

/-!
# While loops with a round counter

`whileLoop` runs a partial body while a condition holds and answers `none` when
the rounds given to it do not suffice.  Two rules cover the loops of this
development: a loop whose `j`-th state is known returns the last one, and a
loop whose condition never turns false does not return.  What every round keeps
holds of the state the loop returns.
-/
namespace CCore.Loop

open Option

universe u

variable {S : Type u}

def whileLoop (cond : S → Bool) (body : S → Option S) : Nat → S → Option S
  | 0, s => if cond s then none else some s
  | fuel + 1, s => if cond s then (body s).bind (whileLoop cond body fuel) else some s

variable {cond : S → Bool} {body : S → Option S}
variable {fuel : Nat} {s : S}

theorem whileLoop_counted {P : Nat → S → Prop} {rounds : Nat}
    (step : ∀ j s, j < rounds → P j s → cond s = true ∧ ∃ s', body s = some s' ∧ P (j + 1) s')
    (stop : ∀ s, P rounds s → cond s = false) {j : Nat}
    (enough : rounds ≤ j + fuel) (early : j ≤ rounds) (now : P j s) :
    ∃ s', whileLoop cond body fuel s = some s' ∧ P rounds s' := by
  induction fuel generalizing j s with
  | zero =>
    obtain rfl : j = rounds := by omega
    refine ⟨s, ?_, now⟩
    simp [whileLoop, stop s now]
  | succ fuel ih =>
    rcases Nat.lt_or_ge j rounds with more | last
    · obtain ⟨holds, s', ran, next⟩ := step j s more now
      obtain ⟨final, finished, result⟩ := ih (by omega) more next
      refine ⟨final, ?_, result⟩
      simp [whileLoop, holds, ran, finished]
    · obtain rfl : j = rounds := by omega
      refine ⟨s, ?_, now⟩
      simp [whileLoop, stop s now]

variable {I : S → Prop}

theorem whileLoop_diverges (step : ∀ s, I s → cond s = true ∧ ∀ s', body s = some s' → I s')
    (now : I s) : whileLoop cond body fuel s = none := by
  induction fuel generalizing s with
  | zero => simp [whileLoop, (step s now).1]
  | succ fuel ih =>
    obtain ⟨holds, next⟩ := step s now
    rw [whileLoop, if_pos holds]
    cases ran : body s with
    | none => rfl
    | some s' => exact ih (next s' ran)

theorem whileLoop_invariant (step : ∀ s s', I s → body s = some s' → I s') {final : S} (now : I s)
    (run : whileLoop cond body fuel s = some final) : I final := by
  induction fuel generalizing s with
  | zero =>
    rw [whileLoop] at run
    split at run
    · cases run
    · exact Option.some.inj run ▸ now
  | succ fuel ih =>
    rw [whileLoop] at run
    split at run
    · obtain ⟨s', ran, rest⟩ := bind_eq_some_iff.mp run
      exact ih (step s s' now ran) rest
    · exact Option.some.inj run ▸ now

end CCore.Loop
