import CCore.Lib.Run

/-!
# The kernel mutex of `kernel/locking/lock.c`

One lock and any number of processes.  A process leaves the processor only in
`do_block`, so a call runs to its next `do_block` or to its return in one
step.  `do_mutex_lock_release` keeps the lock `LOCKED` when it wakes a waiter,
and the woken process tests `status == LOCKED` again: it blocks a second time
and nobody is left to release the lock.  `lawAlong_iff_no_resume` says that
this is the only way in which the state law of the lock fails.
-/
namespace CCore.Mutex

open Run Function List

inductive LockStatus where
  | unlocked
  | locked
  deriving DecidableEq, Repr

/-- `mutex_lock_t`; `none` is the source's `pid = 0`. -/
structure MutexLock (P : Type) where
  pid : Option P
  status : LockStatus
  blockQueue : List P
  deriving DecidableEq, Repr

/-- Where a process stands with respect to the lock. -/
inductive Place where
  | outside
  | queued
  | woken
  | inside
  deriving DecidableEq, Repr

structure MutexState (P : Type) where
  lock : MutexLock P
  place : P → Place

inductive Act (P : Type) where
  | acquire (p : P)
  | resume (p : P)
  | release (p : P)
  deriving DecidableEq, Repr

section Model
variable {P : Type} [DecidableEq P]

def doMutexLockInit : MutexLock P := ⟨none, .unlocked, []⟩

def boot : MutexState P := ⟨doMutexLockInit, fun _ => .outside⟩

/-- `list_add` puts the node right behind the queue head. -/
def doBlock (s : MutexState P) (p : P) : MutexState P :=
  { lock := { s.lock with blockQueue := p :: s.lock.blockQueue }
    place := update s.place p .queued }

def doUnblock (s : MutexState P) (p : P) : MutexState P :=
  { lock := { s.lock with blockQueue := s.lock.blockQueue.erase p }
    place := update s.place p .woken }

/-- One evaluation of the loop test: either the process blocks again or the
call returns with the lock. -/
def doMutexLockAcquire (s : MutexState P) (p : P) : MutexState P :=
  if s.lock.status = .locked then doBlock s p
  else
    { lock := { s.lock with status := .locked, pid := some p }
      place := update s.place p .inside }

def doMutexLockRelease (s : MutexState P) (p : P) : MutexState P :=
  let left := { s with place := update s.place p .outside }
  -- `block_queue.prev` is the last node of the circular list
  match s.lock.blockQueue.getLast? with
  | some q => doUnblock left q
  | none => { left with lock := { s.lock with status := .unlocked, pid := none } }

/-- `acquire` enters the call, `resume` is the next run of a process that
`do_unblock` made ready: it returns from `do_block` into the loop test. -/
def step (s : MutexState P) : Act P → Option (MutexState P)
  | .acquire p => if s.place p = .outside then some (doMutexLockAcquire s p) else none
  | .resume p => if s.place p = .woken then some (doMutexLockAcquire s p) else none
  | .release p => if s.place p = .inside then some (doMutexLockRelease s p) else none

/-- In the section, or woken by the last release and still to run. -/
def Engaged (s : MutexState P) (p : P) : Prop :=
  s.place p = .inside ∨ s.place p = .woken

/-- The state law of the lock. -/
structure Law (s : MutexState P) : Prop where
  exclusive : ∀ p q, s.place p = .inside → s.place q = .inside → p = q
  locked_iff : s.lock.status = .locked ↔ ∃ p, Engaged s p
  idle_queue : (∀ p, ¬ Engaged s p) → s.lock.blockQueue = []

/-- What every reachable state satisfies. -/
structure Sound (s : MutexState P) : Prop where
  nodup : s.lock.blockQueue.Nodup
  queued_iff : ∀ p, p ∈ s.lock.blockQueue ↔ s.place p = .queued
  engaged_unique : ∀ p q, Engaged s p → Engaged s q → p = q
  engaged_locked : ∀ p, Engaged s p → s.lock.status = .locked
  queue_locked : s.lock.blockQueue ≠ [] → s.lock.status = .locked

/-- What a state satisfies as long as no woken process has run. -/
structure Fresh (s : MutexState P) : Prop extends Sound s where
  locked_engaged : s.lock.status = .locked → ∃ p, Engaged s p

/-! ## The effect of one step -/

abbrev MutexState.taken (s : MutexState P) (p : P) : MutexState P where
  lock := { s.lock with status := .locked, pid := some p }
  place := update s.place p .inside

theorem doMutexLockAcquire_cases (s : MutexState P) (p : P) :
    (s.lock.status = .locked ∧ doMutexLockAcquire s p = doBlock s p) ∨
    (s.lock.status = .unlocked ∧ doMutexLockAcquire s p = s.taken p) := by
  cases status : s.lock.status with
  | locked => exact .inl ⟨rfl, by rw [doMutexLockAcquire, if_pos status]⟩
  | unlocked => exact .inr ⟨rfl, by rw [doMutexLockAcquire, if_neg (by rw [status]; decide)]⟩

variable {s next : MutexState P} {a : Act P}

theorem step_cases (run : step s a = some next) :
    (∃ p, (a = .acquire p ∧ s.place p = .outside ∨ a = .resume p ∧ s.place p = .woken) ∧
      s.lock.status = .locked ∧ next = doBlock s p) ∨
    (∃ p, (a = .acquire p ∧ s.place p = .outside ∨ a = .resume p ∧ s.place p = .woken) ∧
      s.lock.status = .unlocked ∧ next = s.taken p) ∨
    (∃ p q, a = .release p ∧ s.place p = .inside ∧ s.lock.blockQueue.getLast? = some q ∧
      next = doUnblock { s with place := update s.place p .outside } q) ∨
    (∃ p, a = .release p ∧ s.place p = .inside ∧ s.lock.blockQueue = [] ∧
      next = { lock := { s.lock with status := .unlocked, pid := none }
               place := update s.place p .outside }) := by
  cases a with
  | acquire p | resume p =>
    simp only [step] at run
    split at run
    · rename_i placed
      cases run
      rcases doMutexLockAcquire_cases s p with waits | enters
      · exact .inl ⟨p, by simp [placed], waits⟩
      · exact .inr (.inl ⟨p, by simp [placed], enters⟩)
    · cases run
  | release p =>
    simp only [step] at run
    split at run
    · rename_i placed
      cases run
      cases last : s.lock.blockQueue.getLast? with
      | some q =>
        refine .inr (.inr (.inl ⟨p, q, rfl, placed, rfl, ?_⟩))
        simp [doMutexLockRelease, last]
      | none =>
        refine .inr (.inr (.inr ⟨p, rfl, placed, ?_, ?_⟩))
        · exact List.getLast?_eq_none_iff.mp last
        · simp [doMutexLockRelease, last]
    · cases run

omit [DecidableEq P] in
theorem sound_boot : Fresh (boot : MutexState P) where
  nodup := nodup_nil
  queued_iff := by intro p; simp [boot, doMutexLockInit]
  engaged_unique := by intro p q engaged; simp [Engaged, boot] at engaged
  engaged_locked := by intro p engaged; simp [Engaged, boot] at engaged
  queue_locked := by intro queue; simp [boot, doMutexLockInit] at queue
  locked_engaged := by intro status; simp [boot, doMutexLockInit] at status

variable {p q : P}

theorem engaged_update {lock : MutexLock P} {place : Place} :
    Engaged { lock := lock, place := update s.place p place } q ↔
      if q = p then place = .inside ∨ place = .woken else Engaged s q := by
  rcases eq_or_ne q p with rfl | same
  · simp [Engaged]
  · simp [Engaged, same]

section
variable (sound : Sound s)
include sound

theorem sound_doBlock
    (notQueued : s.place p ≠ .queued) (status : s.lock.status = .locked) : Sound (doBlock s p) where
  nodup := nodup_cons.mpr ⟨fun mem => notQueued ((sound.queued_iff p).mp mem), sound.nodup⟩
  queued_iff := by
    intro q
    rcases eq_or_ne q p with rfl | same
    · simp [doBlock]
    · simp [doBlock, same, sound.queued_iff]
  engaged_unique := by
    intro q r engagedQ engagedR
    simp only [doBlock, engaged_update] at engagedQ engagedR
    split at engagedQ
    · simp at engagedQ
    · split at engagedR
      · simp at engagedR
      · exact sound.engaged_unique q r engagedQ engagedR
  engaged_locked := fun _ _ => status
  queue_locked := fun _ => status

theorem sound_take (notQueued : s.place p ≠ .queued) (status : s.lock.status = .unlocked) :
    Fresh (s.taken p) where
  nodup := sound.nodup
  queued_iff := by
    intro q
    rcases eq_or_ne q p with rfl | same
    · simpa using fun mem => notQueued ((sound.queued_iff q).mp mem)
    · simp [update_of_ne same, sound.queued_iff]
  engaged_unique := by
    -- nobody is engaged while the lock is `UNLOCKED`
    have none : ∀ q, ¬ Engaged s q := by
      intro q engaged
      have locked := sound.engaged_locked q engaged
      rw [status] at locked
      cases locked
    intro q r engagedQ engagedR
    rw [engaged_update] at engagedQ engagedR
    split at engagedQ
    · rename_i sameQ
      split at engagedR
      · rename_i sameR
        rw [sameQ, sameR]
      · exact absurd engagedR (none r)
    · exact absurd engagedQ (none q)
  engaged_locked := fun _ _ => rfl
  queue_locked := fun _ => rfl
  locked_engaged := fun _ => ⟨p, by simp [Engaged]⟩

theorem sound_handOver (inside : s.place p = .inside) (last : s.lock.blockQueue.getLast? = some q) :
    Fresh (doUnblock { s with place := update s.place p .outside } q) := by
  have queued : s.place q = .queued :=
    (sound.queued_iff q).mp (List.mem_of_getLast? last)
  have locked : s.lock.status = .locked := sound.engaged_locked p (.inl inside)
  have onlyWoken : ∀ r, Engaged (doUnblock
      { s with place := update s.place p .outside } q) r → r = q := by
    intro r engaged
    simp only [doUnblock, engaged_update (s := { s with place := _ })] at engaged
    split at engaged
    · assumption
    · split at engaged
      · simp at engaged
      · rename_i _ notP
        exact absurd (sound.engaged_unique r p engaged (.inl inside)) notP
  refine ⟨⟨?_, ?_, ?_, fun _ _ => locked, fun _ => locked⟩, fun _ => ⟨q, ?_⟩⟩
  · exact sound.nodup.erase q
  · intro r
    rcases eq_or_ne r q with rfl | isQ
    · simpa [doUnblock] using sound.nodup.not_mem_erase
    · simp only [doUnblock, update_of_ne isQ, mem_erase_of_ne isQ]
      rcases eq_or_ne r p with rfl | isP
      · simp [sound.queued_iff, inside]
      · rw [update_of_ne isP]
        exact sound.queued_iff r
  · intro r t engagedR engagedT
    rw [onlyWoken r engagedR, onlyWoken t engagedT]
  · simp [Engaged, doUnblock]

theorem sound_unlock (inside : s.place p = .inside) (empty : s.lock.blockQueue = []) :
    Fresh { lock := { s.lock with status := .unlocked, pid := none }
            place := update s.place p .outside } := by
  have nobody : ∀ r, ¬ Engaged (P := P)
      { lock := { s.lock with status := .unlocked, pid := none }
        place := update s.place p .outside } r := by
    intro r engaged
    rw [engaged_update] at engaged
    split at engaged
    · simp at engaged
    · rename_i notP
      exact notP (sound.engaged_unique r p engaged (.inl inside))
  refine ⟨⟨sound.nodup, ?_, ?_, ?_, ?_⟩, ?_⟩
  · intro r
    rcases eq_or_ne r p with rfl | isP
    · simp [empty]
    · simp [update_of_ne isP, sound.queued_iff]
  · intro r t engaged
    exact absurd engaged (nobody r)
  · intro r engaged
    exact absurd engaged (nobody r)
  · intro queue
    exact absurd empty queue
  · intro status
    cases status

theorem sound_step (run : step s a = some next) : Sound next := by
  have apart : ∀ p, (a = .acquire p ∧ s.place p = .outside ∨
      a = .resume p ∧ s.place p = .woken) → s.place p ≠ .queued := by
    rintro p (⟨_, placed⟩ | ⟨_, placed⟩) queued <;> rw [placed] at queued <;> cases queued
  obtain ⟨p, called, status, rfl⟩ | ⟨p, called, status, rfl⟩ | ⟨p, q, _, inside, last, rfl⟩ |
    ⟨p, _, inside, empty, rfl⟩ := step_cases run
  · exact sound_doBlock sound (apart p called) status
  · exact (sound_take sound (apart p called) status).toSound
  · exact (sound_handOver sound inside last).toSound
  · exact (sound_unlock sound inside empty).toSound

end

theorem fresh_step (fresh : Fresh s)
    (first : ∀ p, a ≠ .resume p) (run : step s a = some next) : Fresh next := by
  refine ⟨sound_step fresh.toSound run, ?_⟩
  obtain ⟨p, called, status, rfl⟩ | ⟨p, called, status, rfl⟩ | ⟨p, q, _, inside, last, rfl⟩ |
    ⟨p, _, inside, empty, rfl⟩ := step_cases run
  · intro _
    obtain ⟨_, outside⟩ | ⟨resumed, _⟩ := called
    · obtain ⟨q, engaged⟩ := fresh.locked_engaged status
      refine ⟨q, ?_⟩
      have different : q ≠ p := by
        rintro rfl
        rcases engaged with h | h <;> rw [outside] at h <;> cases h
      simpa [doBlock, engaged_update, different] using engaged
    · exact absurd resumed (first p)
  · exact fun _ => ⟨p, by simp [Engaged]⟩
  · exact (sound_handOver fresh.toSound inside last).locked_engaged
  · exact (sound_unlock fresh.toSound inside empty).locked_engaged

omit [DecidableEq P] in
theorem law_of_fresh (fresh : Fresh s) : Law s where
  exclusive := fun p q hp hq => fresh.engaged_unique p q (.inl hp) (.inl hq)
  locked_iff := ⟨fresh.locked_engaged, fun ⟨p, engaged⟩ => fresh.engaged_locked p engaged⟩
  idle_queue := by
    intro nobody
    by_contra queue
    obtain ⟨p, engaged⟩ := fresh.locked_engaged (fresh.queue_locked queue)
    exact nobody p engaged

theorem resume_breaks_law (sound : Sound s) (run : step s (.resume p) = some next) :
    ¬ Law next := by
  intro law
  have woken : s.place p = .woken := by
    by_contra other
    simp [step, other] at run
  have locked : s.lock.status = .locked := sound.engaged_locked p (.inr woken)
  have result : next = doBlock s p := by
    simpa [step, woken, doMutexLockAcquire, locked] using run.symm
  subst result
  obtain ⟨q, engaged⟩ := law.locked_iff.mp locked
  simp only [doBlock, engaged_update] at engaged
  split at engaged
  · simp at engaged
  · rename_i different
    exact different (sound.engaged_unique q p engaged (.inr woken))

/-- The law holds all along a run of any number of processes exactly when no
process that a release woke runs again. -/
theorem lawAlong_iff_no_resume (acts : List (Act P)) (final : MutexState P)
    (run : runActs step boot acts = some final) :
    HoldsAlong step Law boot acts ↔ ∀ p, Act.resume p ∉ acts := by
  rw [holdsAlong_iff_stepsMeet step (fun _ a => ∀ p, a ≠ .resume p) Fresh Law
    (fun _ fresh => law_of_fresh fresh)
    (fun _ _ _ fresh first stepRun => fresh_step fresh first stepRun)
    ?breaks boot final acts sound_boot run,
    stepsMeet_action_iff step (fun a => ∀ p, a ≠ .resume p) boot final acts run]
  case breaks =>
    intro s a next fresh resumed stepRun
    push Not at resumed
    obtain ⟨p, rfl⟩ := resumed
    exact resume_breaks_law fresh.toSound stepRun
  constructor
  · intro clean p mem
    exact clean _ mem p rfl
  · rintro clean a mem p rfl
    exact clean p mem

theorem lawAlong_contended_release :
    HoldsAlong step Law (boot : MutexState Nat) [.acquire 1, .acquire 2, .release 1] :=
  (lawAlong_iff_no_resume [.acquire 1, .acquire 2, .release 1] _ rfl).mpr (by simp)

/-- Two processes are enough: once the woken one runs, the lock is `LOCKED`
with nobody in the section and a process on the queue. -/
theorem hand_over_deadlocks : ∃ final, runActs step (boot : MutexState Nat)
      [.acquire 1, .acquire 2, .release 1, .resume 2] = some final ∧
    final.lock.status = .locked ∧ final.lock.blockQueue = [2] ∧
    (∀ p, ¬ Engaged final p) ∧ ¬ Law final := by
  have nobody : ∀ p, ¬ Engaged (P := Nat)
      { lock := ⟨some 1, .locked, [2]⟩
        place := update (update (update (update
          (update (fun _ => .outside) 1 .inside) 2 .queued) 1 .outside) 2 .woken)
            2 .queued } p := by
    intro p
    rw [Engaged]
    rcases eq_or_ne p 2 with rfl | two
    · simp
    · rcases eq_or_ne p 1 with rfl | one
      · simp
      · simp [update_of_ne, one, two]
  refine ⟨_, rfl, rfl, rfl, nobody, fun law => ?_⟩
  obtain ⟨p, engaged⟩ := law.locked_iff.mp rfl
  exact nobody p engaged

/-- Nobody is in the section, and nobody can enter. -/
def Stuck (s : MutexState P) : Prop := s.lock.status = .locked ∧ ∀ p, ¬ Engaged s p

theorem stuck_step (stuck : Stuck s) (run : step s a = some next) : Stuck next := by
  obtain ⟨locked, nobody⟩ := stuck
  obtain ⟨p, -, -, rfl⟩ | ⟨p, -, free, -⟩ | ⟨p, q, -, inside, -⟩ | ⟨p, -, inside, -⟩ :=
    step_cases run
  · refine ⟨locked, ?_⟩
    intro q engaged
    rw [doBlock, engaged_update] at engaged
    split at engaged
    · simp at engaged
    · exact nobody q engaged
  · cases locked.symm.trans free
  · exact absurd (.inl inside) (nobody p)
  · exact absurd (.inl inside) (nobody p)

theorem stuck_of_resume (sound : Sound s) (run : step s (.resume p) = some next) : Stuck next := by
  by_contra moves
  refine resume_breaks_law sound run (law_of_fresh ⟨sound_step sound run, ?_⟩)
  intro locked
  by_contra nobody
  exact moves ⟨locked, not_exists.mp nobody⟩

/-- Along every run at most one process is in the section or woken, and as soon as a woken
process runs again, nobody will ever enter. -/
theorem exclusive_until_stuck (acts : List (Act P)) :
    HoldsAlong step (fun s => Sound s ∧ ∀ p next, step s (.resume p) = some next →
      ∀ later, HoldsAlong step Stuck next later) (boot : MutexState P) acts := by
  refine holdsAlong_mono step ?_ boot acts (holdsAlong_always step Sound
    (fun _ _ _ => sound_step) boot acts sound_boot.toSound)
  intro s sound
  refine ⟨sound, ?_⟩
  intro p next run later
  exact holdsAlong_always step Stuck (fun _ _ _ => stuck_step) next later (stuck_of_resume sound run)

end Model
end CCore.Mutex
