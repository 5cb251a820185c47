import Mathlib.Data.BitVec

/-!
# Machine words as sets of bits

Inclusion and disjointness of words, read bit by bit, and the move of some of the
bits of one word into another that is coded with an exclusive or of the old and the
new value of the target.
-/
namespace CCore.BitSets

variable {w : Nat} {a b c : BitVec w}

/-- Every bit of `a` is a bit of `b`. -/
def Within (a b : BitVec w) : Prop := a &&& ~~~b = 0

/-- No bit is in both. -/
def Apart (a b : BitVec w) : Prop := a &&& b = 0

instance (a b : BitVec w) : Decidable (Within a b) := inferInstanceAs (Decidable (_ = _))

instance (a b : BitVec w) : Decidable (Apart a b) := inferInstanceAs (Decidable (_ = _))

theorem within_iff : Within a b ↔ ∀ i, a.getLsbD i = true → b.getLsbD i = true := by
  constructor
  · intro within i inside
    have bit := congrArg (BitVec.getLsbD · i) within
    have small : i < w := BitVec.lt_of_getLsbD inside
    simpa [inside, small] using bit
  · intro bits
    apply BitVec.eq_of_getLsbD_eq
    intro i small
    have bit := bits i
    cases inside : a.getLsbD i with
    | false => simp [inside]
    | true => simp [inside, bit inside]

theorem apart_iff : Apart a b ↔ ∀ i, a.getLsbD i = true → b.getLsbD i = false := by
  constructor
  · intro apart i inside
    have bit := congrArg (BitVec.getLsbD · i) apart
    simpa [inside] using bit
  · intro bits
    apply BitVec.eq_of_getLsbD_eq
    intro i small
    cases inside : a.getLsbD i with
    | false => simp [inside]
    | true => simp [inside, bits i inside]

/-- The target after the bits of `source` outside `keep` have been moved into it. -/
def gained (target source keep : BitVec w) : BitVec w := target ||| (source &&& ~~~keep)

/-- The source after the bits by which the target has changed were taken out of it. -/
def left (target source keep : BitVec w) : BitVec w :=
  source &&& ~~~(target ^^^ gained target source keep)

theorem getLsbD_left (target source keep : BitVec w) (i : Nat) :
    (left target source keep).getLsbD i =
      (source.getLsbD i && (keep.getLsbD i || target.getLsbD i)) := by
  by_cases small : i < w
  · simp only [left, gained, BitVec.getLsbD_and, BitVec.getLsbD_or, BitVec.getLsbD_not,
      BitVec.getLsbD_xor, small, decide_true, Bool.true_and]
    cases source.getLsbD i <;> cases keep.getLsbD i <;> cases target.getLsbD i <;> rfl
  · simp [left, BitVec.getLsbD_of_ge source i (by omega)]

theorem getLsbD_gained (target source keep : BitVec w) (i : Nat) :
    (gained target source keep).getLsbD i =
      (target.getLsbD i || (source.getLsbD i && !keep.getLsbD i)) := by
  by_cases small : i < w
  · simp [gained, small]
  · simp [gained, BitVec.getLsbD_of_ge source i (by omega)]

theorem left_or_gained (target source keep : BitVec w) (within : Within c (source ||| target)) :
    Within c (left target source keep ||| gained target source keep) := by
  rw [within_iff] at within ⊢
  intro i inside
  have somewhere := within i inside
  rw [BitVec.getLsbD_or] at somewhere ⊢
  rw [getLsbD_left, getLsbD_gained]
  revert somewhere
  cases source.getLsbD i <;> cases target.getLsbD i <;> cases keep.getLsbD i <;> simp

theorem left_within (keep : BitVec w) (apart : Apart a b) : Within (left b a keep) keep := by
  rw [apart_iff] at apart
  rw [within_iff]
  intro i inside
  rw [getLsbD_left, Bool.and_eq_true] at inside
  simpa [apart i inside.1] using inside.2

theorem gained_apart (source : BitVec w) (apart : Apart a b) : Apart (gained a source b) b := by
  rw [apart_iff] at apart ⊢
  intro i inside
  rw [getLsbD_gained, Bool.or_eq_true, Bool.and_eq_true, Bool.not_eq_true'] at inside
  rcases inside with old | new
  · exact apart i old
  · exact new.2

theorem Within.apart (within : Within a b) (apart : Apart c b) : Apart a c := by
  rw [within_iff] at within
  rw [apart_iff] at apart ⊢
  intro i inside
  have masked := within i inside
  cases other : c.getLsbD i with
  | false => rfl
  | true => rw [apart i other] at masked; cases masked

theorem Within.or_right (within : Within a (b ||| c)) (d : BitVec w) :
    Within (a ||| d) ((b ||| d) ||| c) ∧ Within (a ||| d) (b ||| (c ||| d)) := by
  rw [within_iff] at within
  constructor
  all_goals
    rw [within_iff]
    intro i inside
    have old := within i
    revert inside old
    simp only [BitVec.getLsbD_or]
    cases a.getLsbD i <;> cases b.getLsbD i <;> cases c.getLsbD i <;> cases d.getLsbD i <;> simp

theorem Within.clear (within : Within a (b ||| c)) (d : BitVec w) :
    Within (a &&& ~~~d) (b ||| (c &&& ~~~d)) := by
  rw [within_iff] at within ⊢
  intro i inside
  rw [BitVec.getLsbD_and, Bool.and_eq_true] at inside
  have old := within i inside.1
  rw [BitVec.getLsbD_or, Bool.or_eq_true] at old ⊢
  rcases old with left | right
  · exact .inl left
  · exact .inr (by rw [BitVec.getLsbD_and, right, inside.2]; rfl)

theorem Apart.clear_right (apart : Apart a b) (d : BitVec w) : Apart a (b &&& ~~~d) := by
  rw [apart_iff] at apart ⊢
  intro i inside
  rw [BitVec.getLsbD_and, apart i inside]
  rfl

theorem Apart.clear_left (apart : Apart a b) (d : BitVec w) : Apart (a &&& ~~~d) b := by
  rw [apart_iff] at apart ⊢
  intro i inside
  rw [BitVec.getLsbD_and, Bool.and_eq_true] at inside
  exact apart i inside.1

end CCore.BitSets
