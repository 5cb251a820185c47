import CCore.Sched.WaitRuns

/-!
# Waiting for the dead

A process that becomes a zombie tells its parent by `SIGCHLD`, if it was cloned with that
flag, and leaves its wait list alone.  Only the parent sleeps on that list, so with the
flag nobody is left there.
-/
namespace CCore.Sched

open Shelves Run List Option
variable {s s' : State} {loc loc' : Index → Option Head} {p x : Index}
  {gone given opened : List Index}

/-- Nobody sleeps on the wait list of a zombie or of a process that has exited. -/
def DeadUnawaited (s : State) : Prop :=
  ∀ w i, w ∈ s.lists (.wait (.child i)) → (s.pcb i).status ≠ .zombie ∧ (s.pcb i).status ≠ .exited

/-- Who becomes a zombie was cloned with `SIGCHLD`, or nobody waits for it. -/
def Heard (s : State) : Act → Prop
  | .exit _ => ∀ p, s.current = some p → (s.pcb p).mode = .enterZombieOnExit →
    (s.pcb p).sigchld = true ∨ s.lists (.wait (.child p)) = []
  | _ => True

def Tends (s : State) (w i : Index) : Prop :=
  (s.pcb i).status.stage = .alive ∧ (s.pcb i).parent = some w

/-- Only the parent of a living process sleeps on its wait list. -/
def Tended (s : State) : Prop := ∀ w i, w ∈ s.lists (.wait (.child i)) → Tends s w i

theorem Tended.deadUnawaited (tended : Tended s) : DeadUnawaited s := by
  intro w i sleeps
  have alive := (tended w i sleeps).1
  constructor <;> intro dead <;> simp [dead, Status.stage] at alive

theorem Moves.tended (moves : Moves s s' gone given opened) (giving : ∀ j ∈ given, j ∈ gone)
    (mid : Mid s' loc') (before : ∀ w i, w ∈ s'.lists (.wait (.child i)) → Tends s w i) :
    Tended s' := by
  intro w i sleeps
  have there := (mid.linked.mem w _).mp sleeps
  obtain ⟨alive, son⟩ := before w i sleeps
  have stays : i ∉ gone := by
    intro exits
    have stage := (moves.stage i).trans (if_pos exits)
    exact (mid.watched w i there).1 (stage_exited.mp stage)
  have keeps : w ∉ given := by
    intro gives
    have stage := (moves.stage w).trans (if_pos (giving w gives))
    rw [mid.status_of_loc there] at stage
    cases stage
  exact ⟨(moves.stage i).trans ((if_neg stays).trans alive), moves.parent i w son keeps⟩

theorem Tended.moves (tended : Tended s) (moves : Moves s s' gone gone opened)
    (mid : Mid s' loc') : Tended s' :=
  moves.tended (fun _ => id) mid fun w i sleeps => tended w i (moves.woken w i sleeps)

theorem signalParent_moves (mid : Mid s loc) (p : Index) :
    Moves s (signalParent s p) [] [] (List.finRange 100) := by
  unfold signalParent
  split
  · exact sendSignal_moves mid fun j _ => mem_finRange j
  · exact (Moves.refl s).weaken (fun _ => Iff.rfl) nofun nofun

theorem signalParent_wakes_parent {w : Index} (mid : Mid s loc) (sigchld : (s.pcb p).sigchld = true)
    (son : (s.pcb p).parent = some w) {q : Queue} (sleeps : w ∈ s.lists (.wait q)) (q' : Queue) :
    w ∉ (signalParent s p).lists (.wait q') := by
  have there := (mid.linked.mem w _).mp sleeps
  have sent : signalParent s p = doUnblock s w := by
    simp [signalParent, sigchld, son, sendSignal, mid.status_of_loc there]
  rw [sent, (doUnblock_wakes mid there).mid.linked.mem]
  simp

theorem Tended.zombie (tended : Tended s) (mid : Mid s loc) (running : (s.pcb p).status = .running)
    (plain : (s.task p).Plain)
    (heard : (s.pcb p).sigchld = true ∨ s.lists (.wait (.child p)) = []) :
    Tended (doScheduler (signalParent (s.setStatus p .zombie) p)) := by
  have mid₁ := mid.enterZombie running plain
  obtain ⟨loc₂, woken⟩ := signalParent_wakes mid₁ p
  obtain ⟨loc₃, mid₃, -⟩ := doScheduler_inv woken.mid
  have signal := signalParent_moves mid₁ p
  have schedule := doScheduler_moves woken.mid
  refine (signal.trans schedule).tended (fun _ => id) mid₃ ?_
  intro w i sleeps
  have left := schedule.woken w i sleeps
  have asleep : w ∈ s.lists (.wait (.child i)) := signal.woken w i left
  obtain ⟨alive, son⟩ := tended w i asleep
  have other : i ≠ p := by
    rintro rfl
    rcases heard with sigchld | nobody
    · refine signalParent_wakes_parent mid₁ ?_ ?_ asleep _ left
      · simpa [State.setStatus] using sigchld
      · simpa [State.setStatus] using son
    · rw [nobody] at asleep
      cases asleep
  rw [Tends, State.setStatus, setPcb_of_ne other]
  exact ⟨alive, son⟩

theorem doExit_tended (freed : Freed) (tended : Tended s) (mid : Mid s loc)
    (running : (s.pcb p).status = .running) (plain : (s.task p).Plain)
    (heard : (s.pcb p).mode = .enterZombieOnExit →
      (s.pcb p).sigchld = true ∨ s.lists (.wait (.child p)) = [])
    (run : doExit freed s p = some s') : Tended s' := by
  have left : Mid (s.setTask p .user) loc := mid.setTask plain plain_user
  have user : ((s.setTask p .user).task p).Plain := by
    rw [setTask_self]
    exact plain_user
  unfold doExit at run
  cases mode : (s.pcb p).mode with
  | autoCleanupOnExit =>
    rw [mode] at run
    obtain ⟨s₁, exited, rest⟩ := bind_eq_some_iff.mp run
    cases rest
    obtain ⟨_, loc₁, _, exits, moves⟩ := handleExitPcb_exits freed 101 left ⟨user, .inr running⟩ exited
    obtain ⟨loc₂, mid₂, -⟩ := doScheduler_inv exits.mid
    have before : Tended (s.setTask p .user) := tended
    exact before.moves (moves.trans (doScheduler_moves exits.mid)) mid₂
  | enterZombieOnExit =>
    rw [mode] at run
    cases run
    exact Tended.zombie tended left running user (heard mode)

theorem Tended.sleep {i : Index} (tended : Tended s) (running : (s.pcb p).status = .running)
    (tends : Tends s p i) :
    Tended { s.setStatus p .blocked with lists := push s.lists (.wait (.child i)) p } := by
  have same : ∀ w j, Tends s w j → Tends (s.setStatus p .blocked) w j := by
    intro w j
    by_cases own : j = p
    · simp [Tends, own, State.setStatus, running, Status.stage]
    · simp [Tends, State.setStatus, setPcb_of_ne own]
  intro w j sleeps
  refine same w j ?_
  by_cases here : j = i
  · have either : w = p ∨ w ∈ s.lists (.wait (.child i)) := by
      simpa [push, here] using sleeps
    rw [here]
    rcases either with rfl | asleep
    · exact tends
    · exact tended w i asleep
  · exact tended w j (by simpa [push, here] using sleeps)

theorem WaitEnds.tended {pid : Option Nat} (tended : Tended s) (ends : WaitEnds s s' p pid) :
    Tended s' := by
  obtain ⟨loc', mid', -⟩ := ends.inv
  obtain ⟨s₁, loc, gone, mid, waits, moves, ends⟩ := ends
  have before : Tended s₁ := tended.moves moves mid
  rcases ends with rfl | ⟨i, son, alive, rfl⟩
  · exact before
  · have asleep := Tended.sleep (s := s₁.setTask p (.wait4 pid i)) before waits.running ⟨alive, son⟩
    exact asleep.moves (doScheduler_moves (waits.sleeps_mid mid son alive pid)) mid'

theorem Tended.init (tended : Tended s) (p x : Index) (mode : Mode) (sigchld : Bool) :
    Tended (initPcb s p x mode sigchld) := by
  intro w i sleeps
  by_cases here : i = x
  · simp [initPcb, initList, here] at sleeps
  · have asleep : w ∈ s.lists (.wait (.child i)) := by
      simpa [initPcb, initList, here] using sleeps
    have same : (initPcb s p x mode sigchld).pcb i = s.pcb i := setPcb_of_ne here
    rw [Tends, same]
    exact tended w i asleep

theorem step_tended (a : Act) (inv : Inv s) (tended : Tended s) (safe : Safe s a)
    (heard : Heard s a) (run : step s a = some s') : Tended s' := by
  obtain ⟨loc', mid', -⟩ := step_inv a inv safe run
  obtain ⟨loc, mid, running⟩ := inv
  cases a with
  | schedule =>
    cases run
    exact tended.moves (doScheduler_moves mid) mid'
  | block q =>
    obtain ⟨p, current, rest⟩ := bind_eq_some_iff.mp run
    cases q with
    | child j => cases rest
    | _ =>
      cases rest
      exact tended.moves (doBlock_moves mid (running p current) nofun) mid'
  | unblock q p =>
    obtain ⟨member, run⟩ := ite_none_right_eq_some.mp run
    cases run
    have opens := doUnblock_moves mid ((mid.linked.mem p _).mp member) fun j _ => mem_finRange j
    exact tended.moves opens mid'
  | signal p =>
    cases run
    exact tended.moves (sendSignal_moves mid fun j _ => mem_finRange j) mid'
  | clone =>
    obtain ⟨p, current, rest⟩ := bind_eq_some_iff.mp run
    obtain ⟨outside, rest⟩ := ite_none_right_eq_some.mp rest
    cases rest
    have plain : (s.task p).Plain ∧ (s.task p).entry = none := by
      rcases outside with task | task <;> rw [task]
      · exact ⟨plain_user, rfl⟩
      · exact ⟨plain_takePcb, rfl⟩
    exact tended.moves (clone_moves mid ⟨current, running p current, plain.1⟩ plain.2) mid'
  | init mode sigchld =>
    obtain ⟨p, current, rest⟩ := bind_eq_some_iff.mp run
    split at rest
    next x making =>
      cases rest
      exact tended.init p x mode sigchld
    next => cases rest
  | enqueue =>
    obtain ⟨p, current, rest⟩ := bind_eq_some_iff.mp run
    split at rest
    next x made =>
      cases rest
      exact tended.moves (enqueue_moves mid made) mid'
    next => cases rest
  | exit freed =>
    obtain ⟨p, current, rest⟩ := bind_eq_some_iff.mp run
    exact doExit_tended freed tended mid (running p current) (safe p current) (heard p current) rest
  | wait4 pid freed =>
    obtain ⟨p, current, rest⟩ := bind_eq_some_iff.mp run
    obtain ⟨user, rest⟩ := ite_none_right_eq_some.mp rest
    exact (wait4Loop_ends freed pid _ mid
      ⟨current, running p current, user.symm ▸ plain_user⟩ rest).tended tended
  | resume freed =>
    obtain ⟨p, current, rest⟩ := bind_eq_some_iff.mp run
    split at rest
    next pid i waiting =>
      exact (wait4Resume_ends freed pid mid
        ⟨current, running p current, waiting.symm ▸ plain_wait4 pid i⟩ rest).tended tended
    next => cases rest
  | divert =>
    obtain ⟨p, current, rest⟩ := bind_eq_some_iff.mp run
    cases rest
    exact tended

instance (s : State) : DecidablePred (Heard s)
  | .exit _ => inferInstanceAs (Decidable (∀ _, _ → _ → _))
  | .schedule | .block _ | .unblock _ _ | .signal _ | .clone | .init _ _ | .enqueue
  | .wait4 _ _ | .resume _ | .divert => isTrue trivial

/-- Along every run from boot in which no process leaves a `do_clone` or `do_exec` it has not
finished, and none becomes a zombie unheard, nobody waits for the dead. -/
theorem dead_unawaited_along (acts : List Act)
    (heard : StepsMeet step (fun s a => Safe s a ∧ Heard s a) boot acts) :
    HoldsAlong step DeadUnawaited boot acts :=
  holdsAlong_of_stepsMeet step (fun s a => Safe s a ∧ Heard s a) (fun s => Inv s ∧ Tended s)
    DeadUnawaited (fun _ both => both.2.deadUnawaited)
    (fun _ a _ both ok run => ⟨step_inv a both.1 ok.1 run, step_tended a both.1 both.2 ok.1 ok.2 run⟩)
    boot acts ⟨boot_inv, nofun⟩ heard

theorem dead_unawaited_reaped :
    StepsMeet step (fun s a => Safe s a ∧ Heard s a) boot [.schedule, .clone,
        .init .enterZombieOnExit true, .enqueue, .wait4 none noPages, .exit noPages,
        .resume noPages] ∧
      HoldsAlong step DeadUnawaited boot [.schedule, .clone, .init .enterZombieOnExit true,
        .enqueue, .wait4 none noPages, .exit noPages, .resume noPages] := by
  refine ⟨?heard, dead_unawaited_along _ ?heard⟩
  decide +kernel

/-- The shell waits for a process that was cloned without `SIGCHLD`; it exits, and the shell
sleeps on the wait list of a zombie. -/
theorem zombie_awaited :
    ∃ s, runActs step boot [.schedule, .clone, .init .enterZombieOnExit false, .enqueue,
        .wait4 none noPages, .exit noPages] = some s ∧
      s.lists (.wait (.child 1)) = [0] ∧ (s.pcb 1).status = .zombie ∧ ¬ DeadUnawaited s := by
  refine exists_evaluated (P := fun s => s.lists (.wait (.child 1)) = [0] ∧
    (s.pcb 1).status = .zombie) (by decide +kernel) ?_
  rintro s ⟨sleeper, zombie⟩
  refine ⟨sleeper, zombie, ?_⟩
  intro unawaited
  exact (unawaited 0 1 (by simp [sleeper])).1 zombie

end CCore.Sched
