import CCore.Time.Timers
import Mathlib.Data.Nat.ModEq
import Mathlib.Tactic.Linarith
import Mathlib.Tactic.Ring

/-!
# Ticks, seconds and digits

The conversions of `kernel/time/utlis.c` and `kernel/time/time.c`.  Fractions are made digit by
digit.  Some of them divide by the variable `time_base`, some by the macro `TIMEBASE`, whose text
for the k210 is a quotient without parentheses.
-/
namespace CCore.Time

open List Nat

structure Timespec where
  tvSec : Nat
  tvNsec : Nat
  deriving DecidableEq

def nano : Nat := 9

/-- `n` digits of a fraction, and what is left. -/
def appendDigits (div mod : Nat → Nat) (n left : Nat) : Nat × Nat :=
  (List.range n).foldl (fun d _ =>
    ((10 * d.1 + div (d.2 * 10 % 2 ^ 64)) % 2 ^ 64, mod (d.2 * 10 % 2 ^ 64))) (0, left)

/-- The ticks of a fraction of `n` digits, and the digits not used yet. -/
def digitTicks (base n digits : Nat) : Nat × Nat :=
  (List.range n).foldl (fun d _ => (d.1 / 10, (d.2 + base * (d.1 % 10)) % 2 ^ 64 / 10)) (digits, 0)

def ticksToTimespec (timeBase time : Nat) : Timespec :=
  ⟨time / timeBase, (appendDigits (· / timeBase) (· % timeBase) nano (time % timeBase)).1⟩

def timespecToTicks (timeBase : Nat) (ts : Timespec) : Nat :=
  ((digitTicks timeBase nano ts.tvNsec).2 + ts.tvSec * timeBase) % 2 ^ 64

def tickToTimeval (timeBase time : Nat) : Timeval :=
  ⟨time / timeBase, (appendDigits (· / timeBase) (· % timeBase) micro (time % timeBase)).1⟩

inductive Target
  | k210
  | qemu

/-- The value of `TIMEBASE`. -/
def Target.timebase : Target → Nat
  | .k210 => 403000000 / 55
  | .qemu => 12500000

/-- `x / TIMEBASE`. -/
def Target.div : Target → Nat → Nat
  | .k210, x => x / 403000000 / 55
  | .qemu, x => x / 12500000

/-- `x % TIMEBASE`. -/
def Target.mod : Target → Nat → Nat
  | .k210, x => x % 403000000 / 55
  | .qemu, x => x % 12500000

/-- `x * TIMEBASE`. -/
def Target.mul : Target → Nat → Nat
  | .k210, x => x * 403000000 % 2 ^ 64 / 55
  | .qemu, x => x * 12500000 % 2 ^ 64

def ticksToTimeval (target : Target) (time : Nat) : Timeval :=
  ⟨target.div time, (appendDigits target.div target.mod micro (target.mod time)).1⟩

def timevalToTicks (target : Target) (tms : Timeval) : Nat :=
  ((digitTicks target.timebase micro tms.tvUsec).2 + target.mul tms.tvSec) % 2 ^ 64

variable {base n left digits : Nat}

theorem appendDigits_succ (div mod : Nat → Nat) (n left : Nat) : appendDigits div mod (n + 1) left =
    ((10 * (appendDigits div mod n left).1 + div ((appendDigits div mod n left).2 * 10 % 2 ^ 64)) %
      2 ^ 64, mod ((appendDigits div mod n left).2 * 10 % 2 ^ 64)) := by
  simp [appendDigits, range_succ, foldl_append, foldl_cons, foldl_nil]

/-- Long division: the digits so far and the remainder are those of `left * 10 ^ n`. -/
theorem appendDigits_eq (small : base ≤ 10 ^ 9) (below : left < base) (short : n ≤ 9) :
    appendDigits (· / base) (· % base) n left = (left * 10 ^ n / base, left * 10 ^ n % base) := by
  induction n with
  | zero => simp [appendDigits, div_eq_of_lt below, mod_eq_of_lt below]
  | succ n ih =>
    rw [appendDigits_succ, ih (by omega)]
    have rest := mod_lt (left * 10 ^ n) (zero_lt_of_lt below)
    have split : left * 10 ^ (n + 1) =
        base * (10 * (left * 10 ^ n / base)) + left * 10 ^ n % base * 10 := by
      calc left * 10 ^ (n + 1)
          = (base * (left * 10 ^ n / base) + left * 10 ^ n % base) * 10 := by
            rw [div_add_mod, pow_succ, mul_assoc]
        _ = _ := by ring
    have quotient : 10 * (left * 10 ^ n / base) + left * 10 ^ n % base * 10 / base =
        left * 10 ^ (n + 1) / base := by
      rw [split, mul_add_div (zero_lt_of_lt below)]
    have fits : left * 10 ^ (n + 1) / base < 2 ^ 64 := by
      apply Nat.div_lt_of_lt_mul
      calc left * 10 ^ (n + 1) ≤ left * 10 ^ 9 := by gcongr; omega
        _ < base * 2 ^ 64 := by nlinarith
    rw [mod_eq_of_lt (show left * 10 ^ n % base * 10 < 2 ^ 64 by omega), quotient,
      mod_eq_of_lt fits, split, mul_add_mod]

/-- Nested floors lose nothing: the low `n` digits have been turned into ticks. -/
theorem digitTicks_eq (small : base < 2 ^ 32) :
    digitTicks base n digits = (digits / 10 ^ n, digits % 10 ^ n * base / 10 ^ n) := by
  induction n with
  | zero => simp [digitTicks, mod_one]
  | succ n ih =>
    have step : digitTicks base (n + 1) digits = ((digitTicks base n digits).1 / 10,
        ((digitTicks base n digits).2 + base * ((digitTicks base n digits).1 % 10)) % 2 ^ 64 / 10) := by
      simp [digitTicks, range_succ, foldl_append, foldl_cons, foldl_nil]
    have power : 0 < 10 ^ n := Nat.pow_pos (by decide)
    have part : digits % 10 ^ n * base / 10 ^ n ≤ base := by
      apply Nat.div_le_of_le_mul
      gcongr
      exact (mod_lt _ power).le
    have scaled : base * (digits / 10 ^ n % 10) ≤ base * 9 := by gcongr; omega
    rw [step, ih]
    dsimp only
    rw [mod_eq_of_lt (by omega), ← add_mul_div_left _ _ power, Nat.div_div_eq_div_mul,
      Nat.div_div_eq_div_mul, ← pow_succ, mod_pow_succ]
    congr 3
    ring

theorem ticksToTimespec_eq (small : base ≤ 10 ^ 9) (positive : 0 < base) (time : Nat) :
    ticksToTimespec base time = ⟨time / base, time % base * 10 ^ 9 / base⟩ := by
  rw [ticksToTimespec, nano, appendDigits_eq small (mod_lt _ positive) le_rfl]

theorem timespecToTicks_eq (small : base ≤ 10 ^ 9) (ts : Timespec) (valid : ts.tvNsec < 10 ^ 9) :
    timespecToTicks base ts = (ts.tvSec * base + ts.tvNsec * base / 10 ^ 9) % 2 ^ 64 := by
  rw [timespecToTicks, nano, digitTicks_eq (by omega), mod_eq_of_lt valid, add_comm]

/-- A timespec is a time of the clock to one tick, in both directions. -/
theorem tick_conversion_exact (timeBase time : Nat) (positive : 0 < timeBase)
    (small : timeBase ≤ 10 ^ 9) (word : time < 2 ^ 64) : (ticksToTimespec timeBase time =
        ⟨time / timeBase, time % timeBase * 10 ^ 9 / timeBase⟩ ∧
      time % timeBase * 10 ^ 9 / timeBase < 10 ^ 9) ∧ (∀ ts : Timespec, ts.tvNsec < 10 ^ 9 →
      ts.tvSec * timeBase + ts.tvNsec * timeBase / 10 ^ 9 < 2 ^ 64 →
      timespecToTicks timeBase ts = ts.tvSec * timeBase + ts.tvNsec * timeBase / 10 ^ 9) ∧
    (timespecToTicks timeBase (ticksToTimespec timeBase time) = time ∨
      timespecToTicks timeBase (ticksToTimespec timeBase time) + 1 = time) := by
  have rest := mod_lt time positive
  have nsec : time % timeBase * 10 ^ 9 / timeBase < 10 ^ 9 := by
    apply Nat.div_lt_of_lt_mul
    exact Nat.mul_lt_mul_of_pos_right rest (by decide)
  refine ⟨⟨ticksToTimespec_eq small positive time, nsec⟩, ?_, ?_⟩
  · intro ts valid fits
    rw [timespecToTicks_eq small ts valid, mod_eq_of_lt fits]
  · rw [ticksToTimespec_eq small positive, timespecToTicks_eq small _ nsec]
    dsimp only
    generalize half : time % timeBase * 10 ^ 9 / timeBase = tvNsec at nsec
    have whole := div_add_mod' time timeBase
    -- the nanoseconds are too small by less than one, so the ticks by less than two
    have upper : tvNsec * timeBase ≤ time % timeBase * 10 ^ 9 := half ▸ div_mul_le_self ..
    have lower : time % timeBase * 10 ^ 9 < (tvNsec + 1) * timeBase := by
      rw [← half]
      exact lt_mul_of_div_lt (lt_succ_self _) positive
    have back : tvNsec * timeBase / 10 ^ 9 ≤ time % timeBase ∧
        time % timeBase ≤ tvNsec * timeBase / 10 ^ 9 + 1 := by
      rw [add_mul, one_mul] at lower
      omega
    omega

theorem tick_conversion_exact_quarter : (ticksToTimespec 12500000 3125000 = ⟨0, 250000000⟩) ∧
    timespecToTicks 12500000 ⟨0, 250000000⟩ = 3125000 := by
  obtain ⟨⟨there, -⟩, back, -⟩ := tick_conversion_exact 12500000 3125000 (by decide) (by decide)
    (by decide)
  exact ⟨there, back ⟨0, 250000000⟩ (by decide) (by decide)⟩

/-- The product with the seconds fits in 64 bits, and the sum does not. -/
theorem timespecToTicks_wraps : (1475739525896 * Target.qemu.timebase < 2 ^ 64) ∧
    timespecToTicks Target.qemu.timebase ⟨1475739525896, 999999999⟩ ≠
      1475739525896 * Target.qemu.timebase + 999999999 * Target.qemu.timebase / 10 ^ 9 := by
  rw [timespecToTicks_eq (by decide) _ (by decide)]
  decide

/-- The conversions by `TIMEBASE` give what those by `time_base` give. -/
def ClocksAgree (target : Target) (time : Nat) (tv : Timeval) : Prop :=
  ticksToTimeval target time = tickToTimeval target.timebase time ∧
    tickToTimeval target.timebase time = ⟨(ticksToTimespec target.timebase time).tvSec,
        (ticksToTimespec target.timebase time).tvNsec / 1000⟩ ∧
    timevalToTicks target tv = timevalToTick target.timebase tv

theorem Target.timebase_small (target : Target) :
    0 < target.timebase ∧ target.timebase ≤ 10 ^ 9 := by
  cases target <;> decide

theorem tickToTimeval_eq (small : base ≤ 10 ^ 9) (positive : 0 < base) (time : Nat) :
    tickToTimeval base time = ⟨time / base, time % base * 10 ^ 6 / base⟩ := by
  rw [tickToTimeval, micro, appendDigits_eq small (mod_lt _ positive) (by decide)]

theorem tickToTimeval_nsec (small : base ≤ 10 ^ 9) (positive : 0 < base) (time : Nat) :
    tickToTimeval base time =
      ⟨(ticksToTimespec base time).tvSec, (ticksToTimespec base time).tvNsec / 1000⟩ := by
  rw [tickToTimeval_eq small positive, ticksToTimespec_eq small positive]
  rw [Nat.div_div_eq_div_mul, show 10 ^ 9 = 10 ^ 6 * 1000 from rfl, ← mul_assoc,
    Nat.mul_div_mul_right _ _ (by decide)]

/-- On the k210 no digit is ever produced: a second has fewer ticks than the first number of
the quotient. -/
theorem appendDigits_k210 (small : left < 40300000) :
    (appendDigits Target.k210.div Target.k210.mod n left).1 = 0 ∧
      (appendDigits Target.k210.div Target.k210.mod n left).2 < 40300000 := by
  induction n with
  | zero => exact ⟨rfl, small⟩
  | succ n ih =>
    obtain ⟨none, few⟩ := ih
    rw [appendDigits_succ, none]
    generalize (appendDigits Target.k210.div Target.k210.mod n left).2 = rest at few
    have fits : rest * 10 % 2 ^ 64 = rest * 10 := mod_eq_of_lt (by omega)
    simp only [Target.div, Target.mod, fits]
    omega

theorem ticksToTimeval_k210 (time : Nat) :
    ticksToTimeval .k210 time = ⟨time / 403000000 / 55, 0⟩ := by
  have small : Target.k210.mod time < 40300000 := by
    simp only [Target.mod]
    omega
  rw [ticksToTimeval, (appendDigits_k210 small).1]
  rfl

theorem ticksToTimeval_k210_iff (time : Nat) :
    ticksToTimeval .k210 time = tickToTimeval Target.k210.timebase time ↔ time < 8 := by
  rw [ticksToTimeval_k210, tickToTimeval_eq (by decide) (by decide), Timeval.mk.injEq]
  simp only [Target.timebase, Nat.reduceDiv]
  omega

/-- The quotient of the wrapped product is the wrapped product with the quotient for two
seconds of every `2 ^ 61`: the difference of the two is `40 * sec / 55`. -/
theorem mul_k210_iff (sec : Nat) :
    sec * 403000000 % 2 ^ 64 / 55 ≡ sec * (403000000 / 55) [MOD 2 ^ 64] ↔ sec % 2 ^ 61 ≤ 1 := by
  -- the factors are multiples of eight
  have low : sec * 403000000 % 2 ^ 64 = sec % 2 ^ 61 * 403000000 % 2 ^ 64 ∧
      sec * 7327272 % 2 ^ 64 = sec % 2 ^ 61 * 7327272 % 2 ^ 64 := by omega
  have below : sec % 2 ^ 61 < 2 ^ 61 := mod_lt _ (by decide)
  rw [Nat.ModEq, low.1, show 403000000 / 55 = 7327272 from rfl, low.2]
  clear low
  generalize sec % 2 ^ 61 = s at below
  have product := div_add_mod (s * 403000000) (2 ^ 64)
  have ticks := div_add_mod (s * 7327272) (2 ^ 64)
  have lower : s * 403000000 % 2 ^ 64 < 2 ^ 64 := mod_lt _ (by decide)
  rw [mod_eq_of_lt (by omega)]
  constructor
  · intro same
    -- the remainder of the division by 55 is `40 * s`, so `5 * s` is small modulo `2 ^ 61`
    obtain ⟨t, few, shifted⟩ : ∃ t ≤ 6, 5 * s + 2 ^ 61 * (55 * (s * 7327272 / 2 ^ 64)) =
        t + 2 ^ 61 * (s * 403000000 / 2 ^ 64) :=
      ⟨5 * s + 2 ^ 61 * (55 * (s * 7327272 / 2 ^ 64)) - 2 ^ 61 * (s * 403000000 / 2 ^ 64),
        by omega, by omega⟩
    have small : 5 * s % 2 ^ 61 = t := by
      rw [← add_mul_mod_self_left (5 * s) (2 ^ 61), shifted, add_mul_mod_self_left]
      exact mod_eq_of_lt (by omega)
    clear shifted
    have candidates : s = 0 ∨ s = 1 ∨ s = 922337203685477581 ∨ s = 1844674407370955162 ∨
        s = 461168601842738791 ∨ s = 1383505805528216372 ∨ s = 922337203685477582 := by
      clear same product ticks lower
      have turn : 5 * s / 2 ^ 61 = 0 ∨ 5 * s / 2 ^ 61 = 1 ∨ 5 * s / 2 ^ 61 = 2 ∨
        5 * s / 2 ^ 61 = 3 ∨ 5 * s / 2 ^ 61 = 4 := by omega
      rcases turn with turn | turn | turn | turn | turn <;> omega
    rcases candidates with rfl | rfl | rfl | rfl | rfl | rfl | rfl
    · decide
    · decide
    all_goals exact absurd same (by decide)
  · intro few
    have cases : s = 0 ∨ s = 1 := by omega
    rcases cases with rfl | rfl
    · decide
    · decide

theorem clocks_agree_iff (target : Target) (time : Nat) (tv : Timeval) :
    ClocksAgree target time tv ↔ target = .qemu ∨ (time < 8 ∧ tv.tvSec % 2 ^ 61 ≤ 1) := by
  have nsec := tickToTimeval_nsec target.timebase_small.2 target.timebase_small.1 time
  cases target with
  | qemu =>
    refine iff_of_true ⟨rfl, nsec, ?_⟩ (.inl rfl)
    show ((digitTicks _ micro tv.tvUsec).2 + tv.tvSec * 12500000 % 2 ^ 64) % 2 ^ 64 = _
    rw [add_mod_mod]
    rfl
  | k210 =>
    have sums : timevalToTicks .k210 tv = timevalToTick Target.k210.timebase tv ↔
        tv.tvSec * 403000000 % 2 ^ 64 / 55 ≡ tv.tvSec * (403000000 / 55) [MOD 2 ^ 64] := by
      refine Iff.trans Iff.rfl (Nat.ModEq.add_iff_left (Nat.ModEq.refl (digitTicks _ micro tv.tvUsec).2))
    rw [ClocksAgree, ticksToTimeval_k210_iff, sums, mul_k210_iff]
    exact ⟨fun agree => .inr ⟨agree.1, agree.2.2⟩,
      fun agree => ⟨(agree.resolve_left nofun).1, nsec, (agree.resolve_left nofun).2⟩⟩

/-- One second on the k210, and two seconds turned into ticks. -/
theorem clocks_differ :
    ticksToTimeval .k210 7327272 = ⟨0, 0⟩ ∧ tickToTimeval Target.k210.timebase 7327272 = ⟨1, 0⟩ ∧
    timevalToTicks .k210 ⟨2, 0⟩ = 14654545 ∧
    timevalToTick Target.k210.timebase ⟨2, 0⟩ = 14654544 := by
  decide

end CCore.Time
