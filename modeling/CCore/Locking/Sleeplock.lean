import CCore.Lib.Run

/-!
# The sleep lock of `kernel/smp/sleeplock.c`

One lock and any number of processes, which give up the processor in `do_block` only.
`releasesleep` clears `locked` and wakes the whole queue, and every process that was woken,
by a release or by a signal, tests `locked` again.  `held` records who has acquired the lock
and has not released it; the code does not read it.
-/
namespace CCore.Smp

open Run Function List

/-- `sleeplock_t`; `none` is the source's `pid = 0`. -/
structure Sleeplock (P : Type) where
  locked : UInt32
  pid : Option P
  sleepQueue : List P
  deriving DecidableEq, Repr

/-- A process that is `ready` was taken off the queue and has not run since. -/
inductive Place where
  | running
  | blocked
  | ready
  deriving DecidableEq, Repr

structure LockState (P : Type) where
  lock : Sleeplock P
  place : P → Place
  held : P → Bool

/-- `leaves` says that a signal is handled at the start of `do_block` in a way that does
not come back: the process exits, or goes on in its handler. -/
inductive Act (P : Type) where
  | acquire (p : P) (leaves : Bool)
  | resume (p : P) (leaves : Bool)
  | release (p : P)
  | signal (p : P)
  deriving DecidableEq, Repr

section Model
variable {P : Type} [DecidableEq P]

def initsleeplock : Sleeplock P := ⟨0, none, []⟩

def boot : LockState P := ⟨initsleeplock, fun _ => .running, fun _ => false⟩

def doBlock (s : LockState P) (p : P) (leaves : Bool) : LockState P :=
  if leaves then { s with place := update s.place p .running }
  else
    { s with
      lock := { s.lock with sleepQueue := p :: s.lock.sleepQueue }
      place := update s.place p .blocked }

def doUnblock (s : LockState P) (p : P) : LockState P :=
  { s with
    lock := { s.lock with sleepQueue := s.lock.sleepQueue.erase p }
    place := update s.place p .ready }

/-- One evaluation of the loop test: the process sleeps, or the call returns with the lock. -/
def acquiresleep (s : LockState P) (p : P) (leaves : Bool) : LockState P :=
  if s.lock.locked ≠ 0 then doBlock s p leaves
  else
    { lock := { s.lock with locked := 1, pid := some p }
      place := update s.place p .running
      held := update s.held p true }

/-- Each round of the loop takes the first process of the queue. -/
def wakeup (s : LockState P) : LockState P := s.lock.sleepQueue.foldl doUnblock s

def releasesleep (s : LockState P) (p : P) : LockState P :=
  wakeup
    { s with
      lock := { s.lock with locked := 0, pid := none }
      held := update s.held p false }

def sendSignal (s : LockState P) (p : P) : LockState P :=
  if s.place p = .blocked then doUnblock s p else s

def step (s : LockState P) : Act P → Option (LockState P)
  | .acquire p leaves => if s.place p = .running then some (acquiresleep s p leaves) else none
  | .resume p leaves => if s.place p = .ready then some (acquiresleep s p leaves) else none
  | .release p => if s.place p = .running ∧ s.held p = true then some (releasesleep s p) else none
  | .signal p => some (sendSignal s p)

/-- What the lock promises in one state. -/
structure Law (s : LockState P) : Prop where
  exclusive : ∀ p q, s.held p = true → s.held q = true → p = q
  locked_iff : s.lock.locked = 1 ↔ ∃ p, s.held p = true
  queued : ∀ p ∈ s.lock.sleepQueue, ∃ q, s.held q = true

/-- The law, with what it rests on: no third value of `locked`. -/
structure Sound (s : LockState P) : Prop extends Law s where
  two_values : s.lock.locked = 0 ∨ s.lock.locked = 1

omit [DecidableEq P] in
theorem sound_boot : Sound (boot : LockState P) where
  exclusive := by
    intro p q holds
    cases holds
  locked_iff := by simp [boot, initsleeplock]
  queued := fun p mem => absurd mem not_mem_nil
  two_values := .inl rfl

variable {s : LockState P}
omit [DecidableEq P] in
theorem Sound.nobody (sound : Sound s) (free : s.lock.locked = 0) (p : P) : s.held p = false := by
  cases holds : s.held p with
  | false => rfl
  | true =>
    have locked := sound.locked_iff.mpr ⟨p, holds⟩
    rw [free] at locked
    cases locked

theorem wakeup_eq (s : LockState P) :
    (wakeup s).lock = { s.lock with sleepQueue := [] } ∧ (wakeup s).held = s.held := by
  -- the head of the queue is what the next round erases
  have rounds : ∀ (queue : List P) (t : LockState P), t.lock.sleepQueue = queue →
      (queue.foldl doUnblock t).lock = { t.lock with sleepQueue := [] } ∧
        (queue.foldl doUnblock t).held = t.held := by
    intro queue
    induction queue with
    | nil =>
      intro t empty
      refine ⟨?_, rfl⟩
      rw [foldl_nil, ← empty]
    | cons p rest ih =>
      intro t queued
      have left : (doUnblock t p).lock.sleepQueue = rest := by simp [doUnblock, queued]
      exact ih (doUnblock t p) left
  exact rounds _ s rfl

section
variable (sound : Sound s)
include sound

theorem sound_doBlock (p : P) (leaves : Bool)
    (locked : s.lock.locked ≠ 0) : Sound (doBlock s p leaves) := by
  have taken : s.lock.locked = 1 := sound.two_values.resolve_left locked
  cases leaves with
  | true => exact ⟨⟨sound.exclusive, sound.locked_iff, sound.queued⟩, sound.two_values⟩
  | false =>
    exact ⟨⟨sound.exclusive, sound.locked_iff, fun _ _ => sound.locked_iff.mp taken⟩,
      sound.two_values⟩

theorem sound_acquiresleep (p : P) (leaves : Bool) : Sound (acquiresleep s p leaves) := by
  unfold acquiresleep
  split
  · rename_i locked
    exact sound_doBlock sound p leaves locked
  · rename_i unlocked
    have nobody := sound.nobody (not_not.mp unlocked)
    have only : ∀ q, update s.held p true q = true ↔ q = p := by
      intro q
      by_cases same : q = p
      · simp [same]
      · simp [same, nobody q]
    refine ⟨⟨?_, ?_, ?_⟩, .inr rfl⟩
    · intro q r holdsQ holdsR
      rw [(only q).mp holdsQ, (only r).mp holdsR]
    · exact ⟨fun _ => ⟨p, (only p).mpr rfl⟩, fun _ => rfl⟩
    · exact fun _ _ => ⟨p, (only p).mpr rfl⟩

theorem sound_releasesleep {p : P} (holds : s.held p = true) : Sound (releasesleep s p) := by
  obtain ⟨lock_eq, held_eq⟩ := wakeup_eq { s with
      lock := { s.lock with locked := 0, pid := none }
      held := update s.held p false }
  have nobody : ∀ q, (releasesleep s p).held q = false := by
    intro q
    rw [releasesleep, held_eq]
    dsimp only
    by_cases same : q = p
    · simp [same]
    · rw [update_of_ne same]
      cases other : s.held q with
      | false => rfl
      | true => exact absurd (sound.exclusive q p other holds) same
  refine ⟨⟨?_, ?_, ?_⟩, .inl ?_⟩
  · intro q r holdsQ
    rw [nobody q] at holdsQ
    cases holdsQ
  · rw [releasesleep, lock_eq, ← releasesleep]
    simp [nobody]
  · intro q mem
    rw [releasesleep, lock_eq] at mem
    exact absurd mem not_mem_nil
  · rw [releasesleep, lock_eq]

theorem sound_sendSignal (p : P) : Sound (sendSignal s p) := by
  unfold sendSignal
  split
  · exact ⟨⟨sound.exclusive, sound.locked_iff,
      fun q mem => sound.queued q (mem_of_mem_erase mem)⟩, sound.two_values⟩
  · exact sound

theorem sound_step {next : LockState P} {a : Act P} (run : step s a = some next) : Sound next := by
  cases a with
  | acquire p leaves | resume p leaves =>
    simp only [step] at run
    split at run
    · cases run
      exact sound_acquiresleep sound p leaves
    · cases run
  | release p =>
    simp only [step] at run
    split at run
    · rename_i ready
      cases run
      exact sound_releasesleep sound ready.2
    · cases run
  | signal p =>
    cases run
    exact sound_sendSignal sound p

end

/-- In every state of every run there is at most one holder, `locked` is 1 exactly while
there is one, and only then does a process sleep on the queue. -/
theorem sleeplock_law_along (acts : List (Act P)) : HoldsAlong step Law (boot : LockState P) acts :=
  holdsAlong_mono step (fun _ sound => sound.toLaw) boot acts
    (holdsAlong_always step Sound (fun _ _ _ sound run => sound_step sound run) boot acts
      sound_boot)

end Model
end CCore.Smp
