import CCore.Locking.FutexQueues

/-!
# No waiter on a futex is lost

From boot on, every sleeper is in the queue of the one node that `get_node` finds for its
address exactly as long as no process exits while others sleep on a node that it made
itself.  A wake-up or a requeue then reaches as many sleepers as it asks for, or all.
-/
namespace CCore.Futex

open Run List Option

/-- Process `q` is once in the queue of the node that `get_node` finds for `a`, and in no
other queue. -/
def Found (s : State) (q : Nat) (a : Addr) : Prop :=
  ∃ i, findNode s a = some i ∧ (s.queue i).count q = 1 ∧ ∀ j, q ∈ s.queue j → j = i

structure WaitersFound (s : State) : Prop where
  found : ∀ q a, s.waiting q = some a → Found s q a
  asleep : ∀ q i, q ∈ s.queue i → s.waiting q = some (s.node i).futexKey

def sleepers (s : State) (a : Addr) : Set Nat := {q | s.waiting q = some a}

/-- Of the sleepers on `a` exactly `n`, or all if there are fewer, now wait for `next`. -/
def Reached (s : State) (a : Addr) (n : Nat) (next : Option Addr) (s' : State) : Prop :=
  (sleepers s a).Finite ∧ ∃ chosen : List Nat, chosen.Nodup ∧
    chosen.length = min n (sleepers s a).ncard ∧ (∀ q ∈ chosen, s.waiting q = some a) ∧
    ∀ q, s'.waiting q = if q ∈ chosen then next else s.waiting q

def Counted (s : State) : Act → State → Prop
  | .wakeup _ a n, s' => Reached s a n none s'
  | .requeue _ a b n, s' => Reached s a n (some b) s'
  | _, _ => True

/-- A process exits only when nobody sleeps on the nodes that it made. -/
def Safe (s : State) : Act → Prop
  | .exit p => Awake s p → ∀ i, s.used i = p → s.queue i = []
  | _ => True

instance (s : State) : DecidablePred (Safe s)
  | .exit _ => inferInstanceAs (Decidable (_ → ∀ _, _ → _))
  | .wait _ _ _ _ | .wakeup _ _ _ | .requeue _ _ _ _ | .interrupt _ | .tick _ => isTrue trivial

variable {s s' : State} {loc : Nat → Option Index} {a b : Addr} {p : Nat}

section
variable (base : Base s loc) (kept : Kept s loc)
include base kept

theorem Base.mem_line_iff {q : Nat} : q ∈ line s a ↔ s.waiting q = some a := by
  constructor
  · intro member
    cases found : findNode s a with
    | none => simp [line_of_none found] at member
    | some i =>
      rw [line_of_some found] at member
      rw [base.waits q i ((base.queued.mem q i).mp member), (base.findNode_iff.mp found).2]
  · intro sleeps
    obtain ⟨i, there, used⟩ := kept q a sleeps
    have key : (s.node i).futexKey = a :=
      Option.some.inj ((base.waits q i there).symm.trans sleeps)
    rw [line_of_some (base.findNode_iff.mpr ⟨used, key⟩)]
    exact (base.queued.mem q i).mpr there

theorem Base.sleepers_eq (a : Addr) : sleepers s a = ↑(line s a).toFinset := by
  ext q
  rw [coe_toFinset]
  exact (base.mem_line_iff kept).symm

theorem Base.reached {n : Nat} {next : Option Addr}
    (waiting : ∀ q, s'.waiting q = if q ∈ (line s a).take n then next else s.waiting q) :
    Reached s a n next s' := by
  rw [Reached, base.sleepers_eq kept a]
  refine ⟨Finset.finite_toSet _, (line s a).take n, ?_, ?_, ?_, waiting⟩
  · exact (base.line_nodup a).sublist (take_sublist n _)
  · rw [Set.ncard_coe_finset, toFinset_card_of_nodup (base.line_nodup a), List.length_take]
  · intro q chosen
    exact (base.mem_line_iff kept).mp (mem_of_mem_take chosen)

theorem Base.waitersFound : WaitersFound s := by
  constructor
  · intro q a sleeps
    obtain ⟨i, there, used⟩ := kept q a sleeps
    have key : (s.node i).futexKey = a :=
      Option.some.inj ((base.waits q i there).symm.trans sleeps)
    refine ⟨i, base.findNode_iff.mpr ⟨used, key⟩, ?_, ?_⟩
    · exact count_eq_one_of_mem (base.queued.nodup i) ((base.queued.mem q i).mpr there)
    · intro j member
      exact Option.some.inj (((base.queued.mem q j).mp member).symm.trans there)
  · intro q i member
    exact base.waits q i ((base.queued.mem q i).mp member)

end

def Orderly (s : State) : Prop := ∃ loc, Base s loc ∧ Kept s loc

theorem recycle_kept (base : Base s loc) (kept : Kept s loc)
    (idle : ∀ i, s.used i = p → s.queue i = []) : Kept (recycle s p) loc := by
  intro q a sleeps
  obtain ⟨i, there, used⟩ := kept q a sleeps
  have other : s.used i ≠ p := by
    intro owned
    have member := (base.queued.mem q i).mpr there
    rw [idle i owned] at member
    cases member
  refine ⟨i, there, ?_⟩
  simpa [recycle, other] using used

theorem step_orderly (s : State) (act : Act) (next : State) (orderly : Orderly s)
    (safe : Safe s act) (run : step s act = some next) : Orderly next ∧ Counted s act next := by
  obtain ⟨loc, base, kept⟩ := orderly
  cases act with
  | wait p a timeout now =>
    obtain ⟨awake, run⟩ := ite_none_right_eq_some.mp run
    obtain ⟨loc', base', kept', _⟩ := wait_base base awake run
    exact ⟨⟨loc', base', kept' kept⟩, trivial⟩
  | wakeup p a n =>
    obtain ⟨awake, run⟩ := ite_none_right_eq_some.mp run
    cases run
    obtain ⟨loc', base', kept', waiting⟩ := wakeup_base base a n
    exact ⟨⟨loc', base', kept' kept⟩, base.reached kept waiting⟩
  | requeue p a b n =>
    obtain ⟨awake, run⟩ := ite_none_right_eq_some.mp run
    obtain ⟨loc', base', kept', waiting⟩ := requeue_base base awake.1 run
    exact ⟨⟨loc', base', kept' kept⟩, base.reached kept waiting⟩
  | exit p =>
    obtain ⟨awake, run⟩ := ite_none_right_eq_some.mp run
    cases run
    exact ⟨⟨loc, recycle_base base p, recycle_kept base kept (safe awake)⟩, trivial⟩
  | interrupt q =>
    cases run
    exact ⟨⟨_, unblock_base base q, unblock_kept kept q⟩, trivial⟩
  | tick now =>
    cases Option.some.inj run
    obtain ⟨loc', base', kept'⟩ := checkFutexTimeout_base base now
    exact ⟨⟨loc', base', kept' kept⟩, trivial⟩

theorem exit_loses_sleeper (s : State) (act : Act) (next : State) (orderly : Orderly s)
    (careless : ¬ Safe s act) (run : step s act = some next) : ¬ WaitersFound next := by
  obtain ⟨loc, base, kept⟩ := orderly
  cases act with
  | exit p =>
    simp only [Safe, not_forall] at careless
    obtain ⟨awake, i, owned, busy⟩ := careless
    simp only [step, if_pos awake, some.injEq] at run
    subst run
    obtain ⟨q, member⟩ := exists_mem_of_ne_nil _ busy
    have there := (base.queued.mem q i).mp member
    intro all
    obtain ⟨j, found, -⟩ := all.found q _ (base.waits q i there)
    obtain ⟨usedJ, keyJ⟩ := (recycle_base base p).findNode_iff.mp found
    have usedBefore : s.used j ≠ 0 ∧ s.used j ≠ p := by
      by_cases owned : s.used j = p
      · simp [recycle, owned] at usedJ
      · exact ⟨by simpa [recycle, owned] using usedJ, owned⟩
    have same : j = i := base.keys j i usedBefore.1 (by rw [owned]; exact awake.1) keyJ
    exact usedBefore.2 (same ▸ owned)
  | wait p a timeout now => exact absurd trivial careless
  | wakeup p a n => exact absurd trivial careless
  | requeue p a b n => exact absurd trivial careless
  | interrupt q => exact absurd trivial careless
  | tick now => exact absurd trivial careless

theorem safe_of_none (s : State) (act : Act) (run : step s act = none) : Safe s act := by
  cases act with
  | exit p =>
    intro awake
    simp [step, awake] at run
  | wait p a timeout now => trivial
  | wakeup p a n => trivial
  | requeue p a b n => trivial
  | interrupt q => trivial
  | tick now => trivial

theorem orderly_along (acts : List Act) (safe : StepsMeet step Safe boot acts) :
    HoldsAlong step Orderly boot acts :=
  holdsAlong_of_stepsMeet step Safe Orderly _ (fun _ orderly => orderly)
    (fun s a next orderly safe run => (step_orderly s a next orderly safe run).1) boot acts
    ⟨fun _ => none, boot_base, nofun⟩ safe

/-- Along every run from boot, all sleepers are found exactly when processes exit only with
nobody asleep on their nodes, and then every wake-up and requeue reaches its number of
sleepers. -/
theorem waiters_found_along_iff (acts : List Act) :
    (HoldsAlong step WaitersFound boot acts ↔ StepsMeet step Safe boot acts) ∧
      (StepsMeet step Safe boot acts → StepsGive step Counted boot acts) := by
  have start : Orderly boot := ⟨fun _ => none, boot_base, nofun⟩
  constructor
  · refine holdsAlong_iff_stepsMeet_of_disabled step Safe Orderly WaitersFound ?_ ?_
      exit_loses_sleeper (fun s a _ run => safe_of_none s a run) boot acts start
    · rintro s ⟨loc, base, kept⟩
      exact base.waitersFound kept
    · intro s a next orderly safe run
      exact (step_orderly s a next orderly safe run).1
  · exact stepsGive_of_stepsMeet step Safe Orderly Counted step_orderly boot acts start

theorem waiters_found_along_requeued : StepsMeet step Safe boot
    [.wait 1 16 none .zero, .wait 2 16 none .zero, .requeue 3 16 32 1, .wakeup 3 32 1,
      .wakeup 3 16 7, .exit 1] ∧ StepsGive step Counted boot
    [.wait 1 16 none .zero, .wait 2 16 none .zero, .requeue 3 16 32 1, .wakeup 3 32 1,
      .wakeup 3 16 7, .exit 1] := by
  refine ⟨?safe, (waiters_found_along_iff _).2 ?safe⟩
  decide +kernel

/-- The first user of an address exits while another process sleeps on it: the sleeper is
found no more, and a wake-up does not reach it. -/
theorem exit_of_maker_loses_waiter :
    ∃ s, runActs step boot [.wait 1 16 none .zero, .wakeup 3 16 1, .wait 2 16 none .zero, .exit 1,
          .wakeup 3 16 1] = some s ∧
      s.waiting 2 = some 16 ∧ findNode s 16 = none ∧ ¬ WaitersFound s := by
  refine exists_evaluated (P := fun s => s.waiting 2 = some 16 ∧ findNode s 16 = none)
    (by decide +kernel) ?_
  rintro s ⟨asleep, missing⟩
  refine ⟨asleep, missing, ?_⟩
  intro all
  obtain ⟨i, found, -⟩ := all.found 2 16 asleep
  exact nomatch missing.symm.trans found

end CCore.Futex
