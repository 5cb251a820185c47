import CCore.Locking.FutexWaiters

/-!
# Futexes of different address spaces

The key of a node is a virtual address, so processes with different page tables meet in
the queue of one node.  A call of `do_futex` leaves the sleepers of another address space
alone exactly when none of them is among the processes that it reaches, and a timer wakes
none of them exactly when none is in the queue of its node.
-/
namespace CCore.Futex

open Run List Option Function

/-- A wait with this timeout leaves the timer of the node as it is. -/
def KeepsTimer (n : Node) (now : Timespec) : Option Timespec → Prop
  | none => n.setTs = .zero
  | some ts => ts = .zero ∨ n.setTs = ts ∧ n.addTs = now

/-- The processes with page table `d` sleep as before, on nodes with the same timers. -/
structure Undisturbed (pgdir : Nat → Nat) (d : Nat) (s s' : State) : Prop where
  waiting : ∀ q, pgdir q = d → s'.waiting q = s.waiting q
  timers : ∀ i, s.used i ≠ 0 → (∃ q ∈ s.queue i, pgdir q = d) → s'.node i = s.node i

def reach (c : Call) : Nat :=
  if c.futexOp &&& 3 = 3 ∧ c.uaddr ≠ c.uaddr2 then
    rounds c.val + rounds (c.timeout.setWidth 32)
  else rounds c.val

/-- No process with page table `d` is reached by a wake-up or requeue, or has its timer
replaced by a wait. -/
def Clear (pgdir : Nat → Nat) (d : Nat) (s : State) (c : Call) : Prop :=
  if c.futexOp &&& 1 = 1 then ∀ q ∈ (line s c.uaddr).take (reach c), pgdir q ≠ d
  else c.word = c.val → ∀ i, findNode s c.uaddr = some i → (∃ q ∈ s.queue i, pgdir q = d) →
    KeepsTimer (s.node i) c.now (if c.timeout = 0 then none else some c.ts)

variable {s s' : State} {loc : Nat → Option Index} {i : Index} {a b : Addr} {p d : Nat}
  {pgdir : Nat → Nat}

section
variable (base : Base s loc)
include base

theorem line_waits {q : Nat} (member : q ∈ line s a) : s.waiting q = some a := by
  cases found : findNode s a with
  | none => simp [line_of_none found] at member
  | some i =>
    rw [line_of_some found] at member
    rw [base.waits q i ((base.queued.mem q i).mp member), (base.findNode_iff.mp found).2]

theorem undisturbed_iff {n : Nat} {next : Option Addr} (differs : next ≠ some a)
    (waiting : ∀ q, s'.waiting q = if q ∈ (line s a).take n then next else s.waiting q)
    (nodes : ∀ i, s.used i ≠ 0 → s'.node i = s.node i) :
    Undisturbed pgdir d s s' ↔ ∀ q ∈ (line s a).take n, pgdir q ≠ d := by
  constructor
  · intro same q reached there
    have after := same.waiting q there
    rw [waiting q, if_pos reached, line_waits base (mem_of_mem_take reached)] at after
    exact differs after
  · intro clear
    refine ⟨?_, fun i used _ => nodes i used⟩
    intro q there
    rw [waiting q, if_neg fun reached => clear q reached there]

theorem wakeup_line (a : Addr) (n : Nat) : line (doFutexWakeup s a n) a = (line s a).drop n ∧
    (doFutexWakeup s a n).node = s.node ∧ (doFutexWakeup s a n).used = s.used := by
  unfold doFutexWakeup
  cases found : findNode s a with
  | none =>
    rw [line_of_none found, drop_nil]
    exact ⟨rfl, rfl, rfl⟩
  | some i =>
    obtain ⟨loc', woke⟩ := wakeLoop_woke base i n
    refine ⟨?_, woke.node, woke.used⟩
    have still : findNode (wakeLoop i n s) a = some i := by
      rw [woke.base.findNode_iff, woke.node, woke.used]
      exact base.findNode_iff.mp found
    have split : (s.queue i).take n ++ (s.queue i).drop n =
        (s.queue i).take n ++ (wakeLoop i n s).queue i := by
      rw [take_append_drop, ← woke.queue]
    rw [line_of_some found, append_cancel_left split]
    exact line_of_some still

theorem requeue_nodes {n : Nat} (real : p ≠ 0)
    (run : doFutexRequeue s p a b n = some s') (i : Index) (used : s.used i ≠ 0) :
    s'.node i = s.node i := by
  obtain ⟨⟨j, s₁⟩, first, rest⟩ := bind_eq_some_iff.mp run
  obtain ⟨⟨k, s₂⟩, second, result⟩ := bind_eq_some_iff.mp rest
  cases result
  obtain ⟨loc₁, got₁⟩ := getNode_got base real first
  obtain ⟨loc₂, got₂⟩ := getNode_got got₁.base real second
  obtain ⟨used₁, node₁, -⟩ := got₁.others i used
  obtain ⟨-, node₂, -⟩ := got₂.others i used₁
  have moved : (moveLoop j k n s₂).node = s₂.node := by
    rcases eq_or_ne j k with rfl | same
    · rw [moveLoop_self got₂.base]
    · obtain ⟨loc₃, moved⟩ := moveLoop_moved got₂.base same n
      exact moved.node
  rw [moved, node₂, node₁]

theorem wakeup_undisturbed_iff (a : Addr) (n : Nat) :
    Undisturbed pgdir d s (doFutexWakeup s a n) ↔ ∀ q ∈ (line s a).take n, pgdir q ≠ d := by
  obtain ⟨loc', base', -, waiting⟩ := wakeup_base base a n
  obtain ⟨-, node, -⟩ := wakeup_line base a n
  exact undisturbed_iff base (some_ne_none a).symm waiting fun i _ => by rw [node]

theorem wakeup_requeue_undisturbed_iff (real : p ≠ 0) {n m : Nat}
    (run : doFutexRequeue (doFutexWakeup s a n) p a b m = some s') : Undisturbed pgdir d s s' ↔
    ∀ q ∈ (line s a).take (if a ≠ b then n + m else n), pgdir q ≠ d := by
  obtain ⟨loc₁, base₁, -, waiting₁⟩ := wakeup_base base a n
  obtain ⟨line₁, node₁, used₁⟩ := wakeup_line base a n
  obtain ⟨loc₂, base₂, -, waiting₂⟩ := requeue_base base₁ real run
  have nodes : ∀ i, s.used i ≠ 0 → s'.node i = s.node i := by
    intro i used
    rw [requeue_nodes base₁ real run i (by rwa [used₁]), node₁]
  rw [line₁] at waiting₂
  have woken : ∀ q ∈ (line s a).take n, q ∉ ((line s a).drop n).take m := by
    intro q front back
    exact disjoint_take_drop (base.line_nodup a) le_rfl front (mem_of_mem_take back)
  rcases eq_or_ne a b with rfl | same
  · rw [if_neg (not_not.mpr rfl)]
    refine undisturbed_iff base (some_ne_none a).symm ?_ nodes
    intro q
    rw [waiting₂ q]
    split
    case isTrue back =>
      have front : q ∉ (line s a).take n := fun front => woken q front back
      rw [if_neg front, line_waits base (mem_of_mem_drop (mem_of_mem_take back))]
    case isFalse => exact waiting₁ q
  · rw [if_pos same]
    constructor
    · intro undisturbed q reached there
      have after := undisturbed.waiting q there
      rw [line_waits base (mem_of_mem_take reached), waiting₂ q] at after
      split at after
      case isTrue => exact same (Option.some.inj after).symm
      case isFalse behind =>
        rw [take_add, mem_append] at reached
        rw [waiting₁ q, if_pos (reached.resolve_right behind)] at after
        cases after
    · intro clear
      refine ⟨?_, fun i used _ => nodes i used⟩
      intro q there
      have out : q ∉ (line s a).take (n + m) := fun reached => clear q reached there
      rw [take_add, mem_append, not_or] at out
      rw [waiting₂ q, if_neg out.2, waiting₁ q, if_neg out.1]

end

theorem setTimer_node_iff (s : State) (p : Nat) (i : Index) (now : Timespec)
    (timeout : Option Timespec) :
    (setTimer s p i now timeout).node i = s.node i ↔ KeepsTimer (s.node i) now timeout := by
  cases timeout with
  | none =>
    simp only [setTimer, update_self, KeepsTimer]
    constructor
    · intro same
      rw [← same]
    · intro zero
      rw [← zero]
  | some ts =>
    simp only [setTimer, KeepsTimer]
    by_cases zero : ts = .zero
    · simp [zero]
    · rw [if_neg zero]
      simp only [update_self, zero, false_or]
      constructor
      · intro same
        rw [← same]
        exact ⟨rfl, rfl⟩
      · rintro ⟨set, add⟩
        rw [← set, ← add]

theorem setTimer_node_of_ne (s : State) (p : Nat) (now : Timespec) (timeout : Option Timespec)
    {j : Index} (ne : j ≠ i) : (setTimer s p i now timeout).node j = s.node j := by
  obtain ⟨addTs, setTs, timerBy, timed⟩ := setTimer_cases s p i now timeout
  rw [timed]
  simp [retime, ne]

theorem wait_undisturbed_iff (base : Base s loc) {timeout : Option Timespec} {now : Timespec}
    (awake : Awake s p) (apart : d ≠ pgdir p) (run : doFutexWait s p a timeout now = some s') :
    Undisturbed pgdir d s s' ↔ ∀ i, findNode s a = some i → (∃ q ∈ s.queue i, pgdir q = d) →
        KeepsTimer (s.node i) now timeout := by
  obtain ⟨-, -, -, waiting⟩ := wait_base base awake run
  obtain ⟨⟨i, s₁⟩, made, rest⟩ := bind_eq_some_iff.mp run
  cases rest
  obtain ⟨loc₁, got⟩ := getNode_got base awake.1 made
  -- A node that is found is the node of the state before.
  have found_eq : ∀ j, findNode s a = some j → j = i ∧ s₁ = s := by
    intro j found
    simp only [getNode, found, some.injEq, Prod.mk.injEq] at made
    exact ⟨made.1, made.2.symm⟩
  constructor
  · intro undisturbed j found sleeper
    obtain ⟨rfl, rfl⟩ := found_eq j found
    exact (setTimer_node_iff s₁ p j now timeout).mp (undisturbed.timers j got.used sleeper)
  · intro keeps
    constructor
    · intro q there
      rw [waiting q, if_neg]
      rintro rfl
      exact apart there.symm
    · intro j used sleeper
      obtain ⟨-, node, queue⟩ := got.others j used
      rcases eq_or_ne j i with rfl | same
      · have found : findNode s a = some j :=
          base.findNode_iff.mpr ⟨used, by rw [← node]; exact got.key⟩
        obtain ⟨-, rfl⟩ := found_eq j found
        exact (setTimer_node_iff s₁ p j now timeout).mpr (keeps j found sleeper)
      · exact (setTimer_node_of_ne s₁ p now timeout same).trans node

/-- A tick wakes the processes in the queues of the nodes of `nodes` whose timers have run
out, and leaves the other nodes alone. -/
structure Ticked (s : State) (now : Timespec) (nodes : List Index) (s' : State) : Prop where
  used : s'.used = s.used
  others : ∀ j, j ∉ nodes → s'.node j = s.node j ∧ s'.queue j = s.queue j
  woken : ∀ q, (∃ i ∈ nodes, q ∈ s.queue i ∧ s.used i ≠ 0 ∧ expired now (s.node i) = true) →
    s'.waiting q = none
  asleep : ∀ q, (∀ i ∈ nodes, q ∈ s.queue i → s.used i ≠ 0 → expired now (s.node i) = false) →
    s'.waiting q = s.waiting q

section
variable (base : Base s loc) (now : Timespec)
include base now

theorem checkNode_ticked (i : Index) : Ticked s now [i] (checkNode now s i) := by
  unfold checkNode
  split
  case isTrue due =>
    obtain ⟨loc', woke⟩ := wakeLoop_woke (retime_base base i .zero .zero) i (s.queue i).length
    have queue_eq : (retime s i .zero .zero).queue i = s.queue i := rfl
    rw [queue_eq, take_length] at woke
    refine ⟨woke.used, ?_, ?_, ?_⟩
    · intro j other
      have ne : j ≠ i := fun same => other (mem_singleton.mpr same)
      refine ⟨?_, woke.others j ne⟩
      exact (congrFun woke.node j).trans (by simp [retime, ne])
    · rintro q ⟨j, single, member, -⟩
      rw [mem_singleton.mp single] at member
      exact (woke.waiting q).trans (if_pos member)
    · intro q quiet
      refine (woke.waiting q).trans (if_neg ?_)
      intro member
      have late := quiet i (mem_singleton.mpr rfl) member due.1
      cases due.2.symm.trans late
  case isFalse early =>
    refine ⟨rfl, fun _ _ => ⟨rfl, rfl⟩, ?_, fun _ _ => rfl⟩
    rintro q ⟨j, single, -, used, due⟩
    rw [mem_singleton.mp single] at used due
    exact absurd ⟨used, due⟩ early

theorem foldl_ticked (nodes : List Index)
    (nodup : nodes.Nodup) : Ticked s now nodes (nodes.foldl (checkNode now) s) := by
  induction nodes generalizing s loc with
  | nil =>
    refine ⟨rfl, fun _ _ => ⟨rfl, rfl⟩, ?_, fun _ _ => rfl⟩
    rintro q ⟨i, member, -⟩
    cases member
  | cons i rest ih =>
    obtain ⟨fresh, nodup⟩ := nodup_cons.mp nodup
    obtain ⟨loc₁, base₁, -⟩ := checkNode_base base now i
    have first := checkNode_ticked base now i
    have later := ih base₁ nodup
    have same : ∀ j ∈ rest, (checkNode now s i).node j = s.node j ∧
        (checkNode now s i).queue j = s.queue j := by
      intro j member
      apply first.others j
      rw [mem_singleton]
      rintro rfl
      exact fresh member
    have alone : ∀ q j k, q ∈ s.queue j → q ∈ s.queue k → j = k := by
      intro q j k here there
      exact base.queued.one here there
    refine ⟨later.used.trans first.used, ?_, ?_, ?_⟩
    · intro j other
      obtain ⟨ne, out⟩ := not_or.mp (mem_cons.not.mp other)
      obtain ⟨node₁, queue₁⟩ := first.others j (by simpa using ne)
      obtain ⟨node₂, queue₂⟩ := later.others j out
      exact ⟨node₂.trans node₁, queue₂.trans queue₁⟩
    · rintro q ⟨j, member, queued, used, due⟩
      rcases mem_cons.mp member with rfl | member
      · have awake := first.woken q ⟨j, mem_singleton.mpr rfl, queued, used, due⟩
        rw [foldl_cons, later.asleep q, awake]
        intro k inRest queuedK
        rw [(same k inRest).2] at queuedK
        exact absurd inRest (alone q j k queued queuedK ▸ fresh)
      · apply later.woken q
        obtain ⟨node, queue⟩ := same j member
        exact ⟨j, member, by rwa [queue], by rwa [first.used], by rwa [node]⟩
    · intro q quiet
      rw [foldl_cons, later.asleep q, first.asleep q]
      · intro j single
        rw [mem_singleton.mp single]
        exact quiet i mem_cons_self
      · intro j member
        obtain ⟨node, queue⟩ := same j member
        rw [node, queue, first.used]
        exact quiet j (mem_cons_of_mem i member)

theorem checkFutexTimeout_ticked : Ticked s now (List.finRange 60) (checkFutexTimeout s now) :=
  foldl_ticked base now _ (nodup_finRange 60)

theorem tick_undisturbed_iff :
    (∀ q i, pgdir q = d → q ∈ s.queue i → s.used i ≠ 0 → s.timerBy i = p →
        (checkFutexTimeout s now).waiting q = s.waiting q) ↔
      ∀ i, s.used i ≠ 0 → s.timerBy i = p → expired now (s.node i) = true →
        ∀ q ∈ s.queue i, pgdir q ≠ d := by
  have ticked := checkFutexTimeout_ticked base now
  constructor
  · intro same i used timer due q member there
    have after := same q i there member used timer
    rw [ticked.woken q ⟨i, mem_finRange i, member, used, due⟩,
      base.waits q i ((base.queued.mem q i).mp member)] at after
    cases after
  · intro clear q i there member used timer
    apply ticked.asleep q
    intro j _ queued _
    rw [base.queued.one queued member]
    rw [Bool.eq_false_iff]
    intro due
    exact clear i used timer due q member there

end

theorem doFutex_undisturbed_iff (base : Base s loc) (awake : Awake s p) (apart : d ≠ pgdir p)
    (c : Call) (run : doFutex s p c = some s') : Undisturbed pgdir d s s' ↔ Clear pgdir d s c := by
  unfold doFutex at run
  unfold Clear reach
  split at run
  case isTrue wake =>
    rw [if_pos wake]
    split at run
    case isTrue requeue =>
      simp only [requeue, true_and]
      exact wakeup_requeue_undisturbed_iff base awake.1 run
    case isFalse plain =>
      cases run
      simp only [plain, false_and, if_false]
      exact wakeup_undisturbed_iff base c.uaddr _
  case isFalse wait =>
    rw [if_neg wait]
    split at run
    case isTrue current =>
      rw [wait_undisturbed_iff base awake apart run]
      exact ⟨fun keeps _ => keeps, fun keeps => keeps current⟩
    case isFalse stale =>
      cases run
      exact ⟨fun _ current => absurd current stale, fun _ => ⟨fun _ _ => rfl, fun _ _ _ => rfl⟩⟩

/-- As long as no process exits while others sleep on a node that it made, a process is in at
most one queue, that of the used node with its address, and each address has at most one node,
in its own bucket. -/
theorem queues_sound_along (acts : List Act) (safe : StepsMeet step Safe boot acts) :
    HoldsAlong step (fun s => ∃ loc, Base s loc ∧ Kept s loc) boot acts :=
  orderly_along acts safe

theorem queues_sound_requeued : HoldsAlong step (fun s => ∃ loc, Base s loc ∧ Kept s loc) boot
    [.wait 1 16 none .zero, .wait 2 16 none .zero, .requeue 3 16 32 1, .wakeup 3 32 7, .exit 3] :=
  queues_sound_along _ (by decide +kernel)

/-- In every state reached without the exit of a process on whose nodes others sleep, a call of
a process leaves the processes with another page table alone exactly when it is clear of them,
and its timers wake none of them exactly when none is in the queue of such a node. -/
theorem futex_isolation_iff (pgdir : Nat → Nat) (acts : List Act) (s : State) (p d : Nat)
    (safe : StepsMeet step Safe boot acts) (reached : runActs step boot acts = some s)
    (apart : d ≠ pgdir p) :
    (∀ c s', Awake s p → doFutex s p c = some s' → (Undisturbed pgdir d s s' ↔ Clear pgdir d s c)) ∧
    ∀ now, (∀ q i, pgdir q = d → q ∈ s.queue i → s.used i ≠ 0 → s.timerBy i = p →
        (checkFutexTimeout s now).waiting q = s.waiting q) ↔
      ∀ i, s.used i ≠ 0 → s.timerBy i = p → expired now (s.node i) = true →
        ∀ q ∈ s.queue i, pgdir q ≠ d := by
  obtain ⟨loc, base, -⟩ := (orderly_along acts safe).last step reached
  refine ⟨?_, tick_undisturbed_iff base⟩
  intro c s' awake run
  exact doFutex_undisturbed_iff base awake apart c run

def wakeOne (a : Addr) : Call := ⟨a, 1, 1, 0, 0, 0, .zero, .zero⟩

theorem futex_isolation_other_address :
    ∃ s s', runActs step boot [.wait 1 16 none .zero] = some s ∧ Awake s 2 ∧
      doFutex s 2 (wakeOne 32) = some s' ∧ Undisturbed id 1 s s' := by
  have evaluated : ((runActs step boot [.wait 1 16 none .zero]).map fun s =>
      (s.waiting 2, line s 32, (doFutex s 2 (wakeOne 32)).isSome)) = some (none, [], true) := by
    decide +kernel
  obtain ⟨s, reached, fields⟩ := map_eq_some_iff.mp evaluated
  simp only [Prod.mk.injEq] at fields
  obtain ⟨awake, empty, returns⟩ := fields
  obtain ⟨s', run⟩ := isSome_iff_exists.mp returns
  refine ⟨s, s', reached, ⟨by decide, awake⟩, run, ?_⟩
  have isolated := futex_isolation_iff id [.wait 1 16 none .zero] s 2 1 (by decide +kernel) reached
    (by decide)
  refine (isolated.1 (wakeOne 32) s' ⟨by decide, awake⟩ run).mpr ?_
  have wakes : (wakeOne 32).futexOp &&& 1 = 1 := rfl
  have nobody : line s (wakeOne 32).uaddr = [] := empty
  rw [Clear, if_pos wakes, nobody]
  simp

/-- Process 1 sleeps on an address of its own; process 2, with another page table, wakes it
with the same virtual address. -/
theorem wake_crosses_spaces :
    ∃ s s', runActs step boot [.wait 1 16 none .zero] = some s ∧ Awake s 2 ∧
      doFutex s 2 (wakeOne 16) = some s' ∧ s.waiting 1 = some 16 ∧ s'.waiting 1 = none ∧
      ¬ Undisturbed id 1 s s' := by
  have evaluated : ((runActs step boot [.wait 1 16 none .zero]).bind fun s =>
      (doFutex s 2 (wakeOne 16)).map fun s' => (s.waiting 2, s.waiting 1, s'.waiting 1)) =
      some (none, some 16, none) := by
    decide +kernel
  obtain ⟨s, reached, called⟩ := bind_eq_some_iff.mp evaluated
  obtain ⟨s', run, fields⟩ := map_eq_some_iff.mp called
  simp only [Prod.mk.injEq] at fields
  obtain ⟨awake, asleep, woken⟩ := fields
  refine ⟨s, s', reached, ⟨by decide, awake⟩, run, asleep, woken, ?_⟩
  intro undisturbed
  have same := undisturbed.waiting 1 rfl
  rw [asleep, woken] at same
  cases same

end CCore.Futex
