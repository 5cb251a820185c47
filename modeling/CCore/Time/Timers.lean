import CCore.Lib.Ring
import CCore.Lib.Run
import Mathlib.Algebra.Group.Nat.Defs

/-!
# The list of interval timers

`do_setitimer`, `itimer_check` and the part of `recycle_pcb_default` that takes the timer of an
exiting process off `timers`.  Arming links the node of the process in at the end whether or not
it is linked already; `timers_proper_along` says that nothing else harms the list.
-/
namespace CCore.Time

open Intrusive Run Function List

structure Timeval where
  tvSec : Nat
  tvUsec : Nat
  deriving DecidableEq

structure Itimerval where
  itInterval : Timeval
  itValue : Timeval
  deriving DecidableEq

/-- `timer_t` without its node; the field `process` is always the owner. -/
structure Timer where
  setItime : Itimerval
  addTick : Nat
  lastSendTick : Nat
  valueValid : Bool
  deriving DecidableEq

def Timer.zero : Timer := ⟨⟨⟨0, 0⟩, ⟨0, 0⟩⟩, 0, 0, false⟩

/-- `head` is `timers`. -/
inductive Node (P : Type)
  | head
  | of (p : P)
  deriving DecidableEq

structure State (P : Type) where
  timeBase : Nat
  links : Links (Node P)
  itimer : P → Timer

def micro : Nat := 6

/-- `timeval_to_tick`, in 64 bits. -/
def timevalToTick (timeBase : Nat) (tv : Timeval) : Nat :=
  let digits := (List.range micro).foldl
    (fun (d : Nat × Nat) _ => (d.1 / 10, (d.2 + timeBase * (d.1 % 10)) % 2 ^ 64 / 10))
    (tv.tvUsec, 0)
  (digits.2 + tv.tvSec * timeBase) % 2 ^ 64

section Calls
variable {P : Type} [DecidableEq P]

/-- `do_setitimer` of process `p` at time `ticks`: the result, what is stored in `old_value`,
and the new state.  `old` says that `old_value` is not null. -/
def doSetitimer (s : State P) (p : P) (newValue : Itimerval) (old : Bool) (ticks : Nat) :
    Int × Option Itimerval × State P :=
  if timevalToTick s.timeBase newValue.itValue = 0 then
    (0, none, { s with
      links := if listEmpty s.links (.of p) then s.links else listDel s.links (.of p) })
  else if old = false then (-14, none, s)
  else
    (0, if (s.itimer p).addTick ≠ 0 then some (s.itimer p).setItime else none, { s with
        links := listAddTail s.links (.of p) .head
        itimer := update s.itimer p ⟨newValue, ticks, (s.itimer p).lastSendTick, true⟩ })

/-- The timer in `recycle_pcb_default`; `kmemset` clears the node too. -/
def recycleTimer (s : State P) (p : P) : State P :=
  if (s.itimer p).addTick ≠ 0 then
    let links := listDel s.links (.of p)
    { s with
      links := ⟨update links.next (.of p) none, update links.prev (.of p) none⟩
      itimer := update s.itimer p .zero }
  else s

/-- The body of the loop of `itimer_check`: whether `SIGALRM` is sent. -/
def checkTimer (timeBase now : Nat) (t : Timer) : Bool × Timer :=
  let interval := timevalToTick timeBase t.setItime.itInterval
  let value := timevalToTick timeBase t.setItime.itValue
  if t.addTick ≠ 0 then
    if t.valueValid then
      if (value + t.addTick) % 2 ^ 64 ≤ now then
        (true, { t with valueValid := false, lastSendTick := now })
      else (false, t)
    else if interval = 0 then (false, t)
    else if interval ≤ (now + 2 ^ 64 - t.lastSendTick) % 2 ^ 64 then
      (true, { t with lastSendTick := now })
    else (false, t)
  else (false, t)

/-- The loop from a node on: the processes that get a signal.  `none` does not come back to
the head within `fuel` nodes, or follows a null pointer. -/
def checkFrom (now : Nat) : Nat → Option (Node P) → State P → Option (List P × State P)
  | _, some .head, s => some ([], s)
  | fuel + 1, some (.of p), s => do
    let checked := checkTimer s.timeBase now (s.itimer p)
    let (sent, s) ← checkFrom now fuel (s.links.next (.of p))
      { s with itimer := update s.itimer p checked.2 }
    some (if checked.1 then p :: sent else sent, s)
  | _, _, _ => none

def itimerCheck (now fuel : Nat) (s : State P) : Option (List P × State P) :=
  checkFrom now fuel (s.links.next .head) s

inductive Act (P : Type)
  | setitimer (p : P) (newValue : Itimerval) (old : Bool) (ticks : Nat)
  | exit (p : P)

/-- `armed` is what the calls have asked for. -/
structure Watched (P : Type) where
  state : State P
  armed : P → Bool

def step (w : Watched P) : Act P → Option (Watched P)
  | .setitimer p newValue old ticks =>
    let (ret, _, s) := doSetitimer w.state p newValue old ticks
    let armed := decide (timevalToTick w.state.timeBase newValue.itValue ≠ 0)
    some ⟨s, if ret = 0 then update w.armed p armed else w.armed⟩
  | .exit p => some ⟨recycleTimer w.state p, update w.armed p false⟩

/-- The list is a ring through the timers that are armed, and a check comes to its end and
signals no process twice. -/
structure Proper (w : Watched P) : Prop where
  ring : ∃ xs : List P, Ring w.state.links .head (xs.map .of) ∧ ∀ p, p ∈ xs ↔ w.armed p = true
  checks : ∀ now, ∃ enough sent s, sent.Nodup ∧
    ∀ fuel ≥ enough, itimerCheck now fuel w.state = some (sent, s)

/-- A timer is armed only while it is not, and not at time 0. -/
def Act.Fresh (w : Watched P) : Act P → Prop
  | .setitimer p newValue old ticks =>
    timevalToTick w.state.timeBase newValue.itValue = 0 ∨ old = false ∨
      w.armed p = false ∧ ticks ≠ 0
  | .exit _ => True

instance (w : Watched P) : (a : Act P) → Decidable (a.Fresh w)
  | .setitimer .. => inferInstanceAs (Decidable (_ ∨ _ ∨ _ ∧ _))
  | .exit _ => inferInstanceAs (Decidable True)

def boot (timeBase : Nat) : Watched P :=
  ⟨⟨timeBase, initList ⟨fun _ => none, fun _ => none⟩ .head, fun _ => .zero⟩, fun _ => false⟩

/-! ## The invariant -/

structure Inv (w : Watched P) (xs : List P) : Prop where
  ring : Ring w.state.links .head (xs.map .of)
  armed : ∀ p, p ∈ xs ↔ w.armed p = true
  unlinked : ∀ p, p ∉ xs → w.state.links.next (.of p) = none ∧ w.state.links.prev (.of p) = none
  ticking : ∀ p ∈ xs, (w.state.itimer p).addTick ≠ 0

variable {w : Watched P} {p : P} {xs : List P}
omit [DecidableEq P] in
theorem mem_nodes : Node.of p ∈ Node.head :: xs.map .of ↔ p ∈ xs := by simp

theorem checkFrom_returns (now : Nat) {ys : List P} {a : Node P} {s : State P}
    (segment : Segment s.links a (ys.map .of) .head) (nodup : ys.Nodup) :
    ∃ sent s', sent.Sublist ys ∧
      ∀ fuel ≥ ys.length, checkFrom now fuel (s.links.next a) s = some (sent, s') := by
  induction ys generalizing a s with
  | nil =>
    refine ⟨[], s, .slnil, fun fuel _ => ?_⟩
    rw [segment.1]
    cases fuel <;> rfl
  | cons p ys ih =>
    obtain ⟨sent, s', sub, run⟩ := ih (a := .of p)
      (s := { s with itimer := update s.itimer p (checkTimer s.timeBase now (s.itimer p)).2 })
      segment.2 (nodup_cons.mp nodup).2
    refine ⟨if (checkTimer s.timeBase now (s.itimer p)).1 then p :: sent else sent, s', ?_, ?_⟩
    · split
      · exact sub.cons_cons p
      · exact sub.cons p
    · intro fuel enough
      obtain ⟨fuel, rfl⟩ : ∃ k, fuel = k + 1 := ⟨fuel - 1, by simp at enough; omega⟩
      rw [segment.1.1, checkFrom, run fuel (by simpa using enough)]
      rfl

section
variable (inv : Inv w xs)
include inv

theorem Inv.proper : Proper w := by
  have nodup : xs.Nodup := (nodup_cons.mp inv.ring.nodup).2.of_map
  refine ⟨⟨xs, inv.ring, inv.armed⟩, fun now => ?_⟩
  obtain ⟨sent, s, sub, run⟩ := checkFrom_returns now inv.ring.segment nodup
  exact ⟨xs.length, sent, s, sub.nodup nodup, run⟩

theorem Inv.arm (idle : w.armed p = false) {t : Timer} (ticks : t.addTick ≠ 0) : Inv ⟨{ w.state with
    links := listAddTail w.state.links (.of p) .head
    itimer := update w.state.itimer p t }, update w.armed p true⟩ (xs ++ [p]) := by
  have fresh : p ∉ xs := by simp [inv.armed, idle]
  refine ⟨?_, ?_, ?_, ?_⟩
  · simpa using inv.ring.addTail (mem_nodes.not.mpr fresh)
  · intro q
    by_cases same : q = p <;> simp [same, inv.armed]
  · intro q outside
    rw [mem_append, mem_singleton, not_or] at outside
    have other : Node.of q ≠ .of p := by simpa using outside.2
    obtain ⟨next, prev⟩ := listAddTail_outside inv.ring other (mem_nodes.not.mpr outside.1)
    exact ⟨next.trans (inv.unlinked q outside.1).1, prev.trans (inv.unlinked q outside.1).2⟩
  · intro q member
    by_cases same : q = p
    · simpa [same] using ticks
    · simpa [same] using inv.ticking q (by simpa [same] using member)

/-- The node is off the list afterwards, whether or not it was on it. -/
theorem Inv.del (p : P) :
    Inv ⟨{ w.state with links := listDel w.state.links (.of p) }, update w.armed p false⟩
      (xs.filter (· ≠ p)) := by
  by_cases member : p ∈ xs
  · obtain ⟨front, back, rfl⟩ := append_of_mem member
    have ring : Ring w.state.links Node.head (front.map .of ++ .of p :: back.map .of) := by
      simpa using inv.ring
    have nodup := (nodup_cons.mp inv.ring.nodup).2.of_map
    have apart := (nodup_cons.mp (nodup_middle.mp nodup)).1
    have kept : (front ++ p :: back).filter (· ≠ p) = front ++ back := by
      have others : ∀ q ∈ front ++ back, q ≠ p := by
        rintro q inside rfl
        exact apart inside
      rw [filter_append, filter_cons_of_neg (by simp), ← filter_append, filter_eq_self]
      simpa using others
    rw [kept]
    refine ⟨by simpa using ring.del, ?_, ?_, ?_⟩
    · intro q
      by_cases same : q = p
      · simpa [same] using apart
      · simpa [same] using inv.armed q
    · intro q outside
      by_cases same : q = p
      · obtain ⟨before, after, prev, next, -⟩ := ring.around
        simp [same, listDel, prev, next]
      · have away : q ∉ front ++ p :: back := by simpa [same] using outside
        obtain ⟨next, prev⟩ := listDel_outside ring (x := .of q)
          (by simpa using mem_nodes.not.mpr away)
        exact ⟨next.trans (inv.unlinked q away).1, prev.trans (inv.unlinked q away).2⟩
    · intro q inside
      exact inv.ticking q (by simp only [mem_append, mem_cons] at inside ⊢; tauto)
  · obtain ⟨next, prev⟩ := inv.unlinked p member
    have same : listDel w.state.links (.of p) = w.state.links := by rw [listDel, prev]
    have kept : xs.filter (· ≠ p) = xs := by
      rw [filter_eq_self]
      rintro q inside
      simpa using fun equal : q = p => member (equal ▸ inside)
    rw [same, kept]
    refine ⟨inv.ring, ?_, inv.unlinked, inv.ticking⟩
    intro q
    by_cases same : q = p <;> simp [same, inv.armed]
    simpa [inv.armed] using member

theorem Inv.linked (p : P) : listEmpty w.state.links (.of p) = false := by
  refine decide_eq_false fun self => ?_
  by_cases member : p ∈ xs
  · obtain ⟨front, back, rfl⟩ := append_of_mem member
    have ring : Ring w.state.links Node.head (front.map .of ++ .of p :: back.map .of) := by
      simpa using inv.ring
    obtain ⟨before, after, -, next, -, last⟩ := ring.around
    obtain rfl : after = .of p := Option.some.inj (next.symm.trans self)
    have inside := head_mem (l := back.map Node.of ++ [.head]) (by simp)
    rw [← last] at inside
    exact ring.gone (by simp at inside ⊢; exact .inr inside)
  · rw [(inv.unlinked p member).1] at self
    cases self

theorem Inv.exit (p : P) : ∃ ys, Inv ⟨recycleTimer w.state p, update w.armed p false⟩ ys := by
  unfold recycleTimer
  split
  · have gone : p ∉ xs.filter (· ≠ p) := by simp
    have deleted := inv.del p
    obtain ⟨next, prev⟩ := deleted.unlinked p gone
    dsimp only at next prev ⊢
    have cleared : (⟨update (listDel w.state.links (.of p)).next (.of p) none,
        update (listDel w.state.links (.of p)).prev (.of p) none⟩ : Links (Node P)) =
        listDel w.state.links (.of p) := by
      rw [← next, update_eq_self, next, ← prev, update_eq_self]
    rw [cleared]
    refine ⟨_, deleted.ring, deleted.armed, deleted.unlinked, fun q inside => ?_⟩
    have other : q ≠ p := fun same => gone (same ▸ inside)
    simpa [other] using deleted.ticking q inside
  · have idle : w.armed p = false := by
      have away : p ∉ xs := fun inside => by simp_all [inv.ticking p inside]
      simpa [inv.armed] using away
    rw [← idle, update_eq_self]
    exact ⟨xs, inv⟩

theorem Inv.step {a : Act P} (fresh : a.Fresh w) {next : Watched P}
    (ran : step w a = some next) : ∃ ys, Inv next ys := by
  cases a with
  | exit p =>
    cases ran
    exact inv.exit p
  | setitimer p newValue old ticks =>
    unfold Time.step doSetitimer at ran
    by_cases zero : timevalToTick w.state.timeBase newValue.itValue = 0
    · simp only [zero, if_true, inv.linked, Bool.false_eq_true, if_false] at ran
      cases ran
      exact ⟨_, inv.del p⟩
    · cases old with
      | false =>
        simp only [zero, if_true, if_false] at ran
        cases ran
        exact ⟨xs, inv⟩
      | true =>
        simp only [zero, Bool.true_eq_false, if_true, if_false, ne_eq, not_false_eq_true,
          decide_true] at ran
        cases ran
        obtain ⟨idle, now⟩ := (fresh.resolve_left zero).resolve_left (by simp)
        exact ⟨_, inv.arm (t := ⟨newValue, ticks, _, true⟩) idle now⟩

end

theorem inv_boot (timeBase : Nat) : Inv (boot timeBase : Watched P) [] where
  ring := ring_initList _ _
  armed := by simp [boot]
  unlinked := by simp [boot, initList]
  ticking := by simp

/-- Along every run in which no timer is armed twice the list is a ring of the armed timers,
and each check of it ends and signals no process twice. -/
theorem timers_proper_along (timeBase : Nat) (acts : List (Act P))
    (fresh : StepsMeet step (fun w a => Act.Fresh w a) (boot timeBase) acts) :
    HoldsAlong step Proper (boot timeBase) acts :=
  holdsAlong_of_stepsMeet step _ (fun w => ∃ xs, Inv w xs) Proper
    (fun _ inv => inv.choose_spec.proper) (fun _ _ _ inv fresh ran => inv.choose_spec.step fresh ran)
    _ acts ⟨[], inv_boot timeBase⟩ fresh

end Calls

theorem checkFrom_self {P : Type} [DecidableEq P] (now fuel : Nat) {p : P} {s : State P}
    (self : s.links.next (.of p) = some (.of p)) : checkFrom now fuel (some (.of p)) s = none := by
  induction fuel generalizing s with
  | zero => rfl
  | succ fuel ih =>
    rw [checkFrom, self]
    rw [ih (s := { s with itimer := update s.itimer p _ }) self]
    rfl

/-- One second, once. -/
def oneSecond : Itimerval := ⟨⟨0, 0⟩, ⟨1, 0⟩⟩

theorem timers_proper_rearmed :
    StepsMeet step (fun w a => Act.Fresh w a) (boot 10000000 : Watched (Fin 100))
      [.setitimer 3 oneSecond true 5, .setitimer 3 ⟨⟨0, 0⟩, ⟨0, 0⟩⟩ true 6,
        .setitimer 3 oneSecond true 7, .exit 3] ∧
    HoldsAlong step Proper (boot 10000000 : Watched (Fin 100))
      [.setitimer 3 oneSecond true 5, .setitimer 3 ⟨⟨0, 0⟩, ⟨0, 0⟩⟩ true 6,
        .setitimer 3 oneSecond true 7, .exit 3] :=
  ⟨by decide, timers_proper_along 10000000 _ (by decide)⟩

/-- Armed twice, the node of the process is its own successor and a check never comes back to
the head. -/
theorem armed_twice_check_hangs : ∃ w : Watched (Fin 100), runActs step (boot 10000000)
      [.setitimer 3 oneSecond true 5, .setitimer 3 oneSecond true 6] = some w ∧
    w.state.links.next (.of 3) = some (.of 3) ∧ ¬ Proper w ∧
    ∀ now fuel, itimerCheck now fuel w.state = none := by
  refine exists_evaluated (P := fun w => w.state.links.next .head = some (.of 3) ∧
    w.state.links.next (.of 3) = some (.of 3)) (by decide) ?_
  intro w pointers
  have hangs : ∀ now fuel, itimerCheck now fuel w.state = none := by
    intro now fuel
    rw [itimerCheck, pointers.1]
    exact checkFrom_self now fuel pointers.2
  refine ⟨pointers.2, ?_, hangs⟩
  intro proper
  obtain ⟨enough, sent, s, -, returns⟩ := proper.checks 0
  have once := returns enough (Nat.le_refl enough)
  rw [hangs] at once
  cases once

end CCore.Time
