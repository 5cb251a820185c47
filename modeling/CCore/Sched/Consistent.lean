import CCore.Lib.Run
import CCore.Sched.Exits

/-!
# The queues are consistent

The runs from boot in which no process leaves a `do_clone` or `do_exec` unfinished.
-/
namespace CCore.Sched

open Shelves Run Function List Option
variable {s s' : State} {loc loc' : Index → Option Head} {i p x : Index}

theorem Mid.enterZombie (mid : Mid s loc) (running : (s.pcb p).status = .running)
    (plain : (s.task p).Plain) : Mid (s.setStatus p .zombie) loc := by
  have same : update loc p none = loc := by
    rw [← (mid.loc_running running).1]
    exact update_eq_self p loc
  have used : (s.pcb p).used = true := mid.used_of (by simp [running])
  have moved := mid.move (i := p) (l := none) (b := { s.pcb p with status := .zombie })
    (same.symm ▸ mid.linked) (mid.settled (by simp [running]) (by simp [running])) rfl
    (by simp [used]) (.inl plain) (by simp) (by simp)
  exact same ▸ moved

theorem doExit_inv (freed : Freed) (mid : Mid s loc) (running : (s.pcb p).status = .running)
    (plain : (s.task p).Plain) (run : doExit freed s p = some s') : Inv s' := by
  have left : Mid (s.setTask p .user) loc := mid.setTask plain plain_user
  have leaves : Leaves (s.setTask p .user) p :=
    ⟨by rw [setTask_self]; exact plain_user, .inr running⟩
  unfold doExit at run
  cases mode : (s.pcb p).mode with
  | autoCleanupOnExit =>
    rw [mode] at run
    obtain ⟨s₁, exited, rest⟩ := bind_eq_some_iff.mp run
    cases rest
    obtain ⟨_, loc₁, _, exits, _⟩ := handleExitPcb_exits freed 101 left leaves exited
    exact doScheduler_inv exits.mid
  | enterZombieOnExit =>
    rw [mode] at run
    cases run
    obtain ⟨loc₁, woken⟩ := signalParent_wakes (left.enterZombie running leaves.plain) p
    exact doScheduler_inv woken.mid

structure Waits (s : State) (p : Index) : Prop where
  current : s.current = some p
  running : (s.pcb p).status = .running
  plain : (s.task p).Plain

theorem reap_waits (freed : Freed) (mid : Mid s loc) (waits : Waits s p)
    (zombie : (s.pcb i).status = .zombie) (run : handleExitPcb freed 101 i s = some s') :
    ∃ loc' gone, Mid s' loc' ∧ Waits s' p ∧ Moves s s' gone gone gone := by
  obtain ⟨path, loc', trail, exits, moves⟩ :=
    handleExitPcb_exits freed 101 mid (mid.leaves_of_zombie zombie) run
  have stays : p ∉ i :: path := by
    intro member
    have gone : (s.pcb p).status = .zombie := by
      rcases mem_cons.mp member with rfl | later
      · exact zombie
      · exact trail_zombies trail p later
    rw [waits.running] at gone
    cases gone
  refine ⟨loc', _, exits.mid, ⟨exits.current.trans waits.current, ?_, ?_⟩, moves⟩
  · exact (exits.status p stays (by simp [waits.running])).trans waits.running
  · rw [exits.task]
    exact waits.plain

/-- What a call of `do_wait4` by `p` has done when it returns or sleeps. -/
def WaitEnds (s s' : State) (p : Index) (pid : Option Nat) : Prop :=
  ∃ s₁ loc gone, Mid s₁ loc ∧ Waits s₁ p ∧ Moves s s₁ gone gone gone ∧
    (s' = s₁.setTask p .user ∨ ∃ i, (s₁.pcb i).parent = some p ∧ (s₁.pcb i).status.stage = .alive ∧
      s' = doBlock (s₁.setTask p (.wait4 pid i)) p (.child i))

theorem WaitEnds.after {pid : Option Nat} {s₁ : State} {gone : List Index}
    (moves : Moves s s₁ gone gone gone) : WaitEnds s₁ s' p pid → WaitEnds s s' p pid := by
  rintro ⟨s₂, loc, gone', mid, waits, moves', ends⟩
  exact ⟨s₂, loc, _, mid, waits, moves.trans moves', ends⟩

theorem wait4Loop_ends (freed : Freed) (pid : Option Nat) (entries : List Index)
    (mid : Mid s loc) (waits : Waits s p) (run : wait4Loop freed pid p entries s = some s') :
    WaitEnds s s' p pid := by
  induction entries generalizing s loc with
  | nil =>
    cases run
    exact ⟨s, loc, [], mid, waits, .refl s, .inl rfl⟩
  | cons i rest ih =>
    rw [wait4Loop] at run
    split at run
    case isFalse => exact ih mid waits run
    case isTrue son =>
      split at run
      case isTrue alive =>
        cases run
        refine ⟨s, loc, [], mid, waits, .refl s, .inr ⟨i, son.1, ?_, rfl⟩⟩
        cases status : (s.pcb i).status <;> simp_all [Status.stage]
      case isFalse =>
        split at run
        case isFalse => exact ih mid waits run
        case isTrue zombie =>
          obtain ⟨s₁, exited, others⟩ := bind_eq_some_iff.mp run
          obtain ⟨loc₁, gone, mid₁, waits₁, moves⟩ := reap_waits freed mid waits zombie exited
          exact (ih mid₁ waits₁ others).after moves

theorem wait4Resume_ends (freed : Freed) (pid : Option Nat) (mid : Mid s loc) (waits : Waits s p)
    (run : wait4Resume freed s p pid i = some s') : WaitEnds s s' p pid := by
  unfold wait4Resume at run
  split at run
  case isTrue zombie =>
    obtain ⟨s₁, reaped, others⟩ := bind_eq_some_iff.mp run
    obtain ⟨loc₁, gone, mid₁, waits₁, moves⟩ := reap_waits freed mid waits zombie reaped
    exact (wait4Loop_ends freed pid _ mid₁ waits₁ others).after moves
  case isFalse => exact wait4Loop_ends freed pid _ mid waits run

theorem Waits.sleeps_mid (mid : Mid s loc) (waits : Waits s p) (son : (s.pcb i).parent = some p)
    (alive : (s.pcb i).status.stage = .alive) (pid : Option Nat) :
    Mid { (s.setTask p (.wait4 pid i)).setStatus p .blocked with
        lists := push s.lists (.wait (.child i)) p }
      (update loc p (some (.wait (.child i)))) := by
  have plain := plain_wait4 pid i
  refine blocked_mid (mid.setTask waits.plain plain) waits.running ?_
  rintro j ⟨⟩
  have notExited : (s.pcb i).status ≠ .exited := by
    intro exited
    rw [exited] at alive
    cases alive
  refine ⟨notExited, ?_⟩
  rw [settingUp_setTask waits.plain plain]
  -- whoever sets `i` up would be its parent, and so this process
  rintro ⟨m, making | made⟩
  · exact notExited (mid.making m i making)
  · cases son.symm.trans (mid.made m i made).2
    exact waits.plain i (.inr made)

theorem WaitEnds.inv {pid : Option Nat} : WaitEnds s s' p pid → Inv s' := by
  rintro ⟨s₁, loc, gone, mid, waits, -, rfl | ⟨i, son, alive, rfl⟩⟩
  · refine ⟨loc, mid.setTask waits.plain plain_user, ?_⟩
    intro i same
    cases waits.current.symm.trans same
    exact waits.running
  · exact doScheduler_inv (waits.sleeps_mid mid son alive pid)

theorem getFreePcb_inv (mid : Mid s loc) (waits : Waits s p) : Inv (getFreePcb s p) := by
  unfold getFreePcb
  cases line : s.lists .free with
  | nil => exact doBlock_inv (mid.setTask waits.plain plain_takePcb) waits.running nofun
  | cons x rest =>
    have there : loc x = some .free := by
      rw [← mid.linked.mem, line]
      exact mem_cons_self
    refine ⟨_, mid.take there waits.plain waits.running, ?_⟩
    intro i same
    cases waits.current.symm.trans same
    exact waits.running

theorem initPcb_inv (mid : Mid s loc) (current : s.current = some p)
    (running : (s.pcb p).status = .running) (making : s.task p = .making x) (mode : Mode)
    (sigchld : Bool) : Inv (initPcb s p x mode sigchld) := by
  refine ⟨loc, mid.init making mode sigchld, ?_⟩
  intro i same
  cases current.symm.trans same
  have other : p ≠ x := by
    rintro rfl
    rw [mid.making p p making] at running
    cases running
  exact (congrArg Pcb.status (setPcb_of_ne other)).trans running

theorem addReady_inv (mid : Mid s loc) (current : s.current = some p)
    (running : (s.pcb p).status = .running) (made : s.task p = .made x) : Inv (addReady s p x) := by
  rw [mid.addReady_eq made]
  refine ⟨_, mid.enqueue made, ?_⟩
  intro i same
  cases current.symm.trans same
  exact running

/-- No process leaves the kernel code in which it sets up a PCB. -/
def Safe (s : State) : Act → Prop
  | .exit _ | .divert => ∀ p, s.current = some p → (s.task p).Plain
  | _ => True

theorem step_inv (a : Act) (inv : Inv s) (safe : Safe s a) (run : step s a = some s') : Inv s' := by
  obtain ⟨loc, mid, running⟩ := inv
  cases a with
  | schedule =>
    cases run
    exact doScheduler_inv mid
  | block q =>
    obtain ⟨p, current, rest⟩ := bind_eq_some_iff.mp run
    cases q with
    | child j => cases rest
    | _ =>
      cases rest
      exact doBlock_inv mid (running p current) nofun
  | unblock q p =>
    obtain ⟨member, run⟩ := ite_none_right_eq_some.mp run
    cases run
    have woken := doUnblock_wakes mid ((mid.linked.mem p _).mp member)
    exact ⟨_, woken.mid, woken.keeps_running running⟩
  | signal p =>
    cases run
    obtain ⟨loc', woken⟩ := sendSignal_wakes mid p
    exact ⟨loc', woken.mid, woken.keeps_running running⟩
  | clone =>
    obtain ⟨p, current, rest⟩ := bind_eq_some_iff.mp run
    obtain ⟨outside, rest⟩ := ite_none_right_eq_some.mp rest
    cases rest
    refine getFreePcb_inv mid ⟨current, running p current, ?_⟩
    rcases outside with task | task
    · exact task.symm ▸ plain_user
    · exact task.symm ▸ plain_takePcb
  | init mode sigchld =>
    obtain ⟨p, current, rest⟩ := bind_eq_some_iff.mp run
    split at rest
    next x making =>
      cases rest
      exact initPcb_inv mid current (running p current) making mode sigchld
    next => cases rest
  | enqueue =>
    obtain ⟨p, current, rest⟩ := bind_eq_some_iff.mp run
    split at rest
    next x made =>
      cases rest
      exact addReady_inv mid current (running p current) made
    next => cases rest
  | exit freed =>
    obtain ⟨p, current, rest⟩ := bind_eq_some_iff.mp run
    exact doExit_inv freed mid (running p current) (safe p current) rest
  | wait4 pid freed =>
    obtain ⟨p, current, rest⟩ := bind_eq_some_iff.mp run
    obtain ⟨user, rest⟩ := ite_none_right_eq_some.mp rest
    exact (wait4Loop_ends freed pid _ mid
      ⟨current, running p current, user.symm ▸ plain_user⟩ rest).inv
  | resume freed =>
    obtain ⟨p, current, rest⟩ := bind_eq_some_iff.mp run
    split at rest
    next pid i waiting =>
      exact (wait4Resume_ends freed pid mid
        ⟨current, running p current, waiting.symm ▸ plain_wait4 pid i⟩ rest).inv
    next => cases rest
  | divert =>
    obtain ⟨p, current, rest⟩ := bind_eq_some_iff.mp run
    cases rest
    exact ⟨loc, mid.setTask (safe p current) plain_user, running⟩

theorem boot_inv : Inv boot := by
  refine ⟨fun i => if i = 0 then some .ready else some .free, ?_, nofun⟩
  have none : ∀ x, ¬ SettingUp boot x := fun x ⟨_, sets⟩ => plain_user x sets
  have place : ∀ i h, i ∈ boot.lists h ↔ (if i = 0 then some .ready else some .free) = some h := by
    intro i h
    cases h with
    | ready =>
      revert i
      decide +kernel
    | free =>
      revert i
      decide +kernel
    | wait q => by_cases shell : i = 0 <;> simp [boot, shell]
  refine ⟨⟨?_, place⟩, ?_, ?_, fun i up => absurd up (none i), fun p x making => ?_,
    fun p x made => ?_, fun p _ x sets => absurd sets (plain_user x),
    fun p x sets => absurd sets (plain_user x), ?_⟩
  · intro h
    cases h with
    | wait q => exact nodup_nil
    | _ => decide +kernel
  · intro i _
    by_cases shell : i = 0 <;> simp [boot, shell, Fits]
  · intro i
    by_cases shell : i = 0 <;> simp [boot, shell]
  · cases making
  · cases made
  · intro w j waits
    by_cases shell : w = 0 <;> simp [shell] at waits

instance (t : Task) : Decidable t.Plain :=
  inferInstanceAs (Decidable (∀ _, ¬ (_ ∨ _)))

instance (s : State) : DecidablePred (Safe s)
  | .exit _ | .divert => inferInstanceAs (Decidable (∀ _, _ → _))
  | .schedule | .block _ | .unblock _ _ | .signal _ | .clone | .init _ _ | .enqueue
  | .wait4 _ _ | .resume _ => isTrue trivial

/-- Along every run from boot in which no process leaves a `do_clone` or `do_exec` it has
not finished, the queues are consistent. -/
theorem queues_consistent (acts : List Act) (safe : StepsMeet step Safe boot acts) :
    HoldsAlong step Consistent boot acts :=
  holdsAlong_of_stepsMeet step Safe Inv Consistent (fun _ => Inv.consistent)
    (fun _ a _ inv safe run => step_inv a inv safe run) boot acts boot_inv safe

def noPages : Freed := ⟨fun _ => 0, fun _ => 0⟩

theorem queues_consistent_reaped :
    ((runActs step boot [.schedule, .clone, .init .enterZombieOnExit true, .enqueue,
        .wait4 none noPages, .exit noPages, .resume noPages]).map fun s =>
          (s.current, (s.pcb 1).status, (s.lists .free).head?)) = some (some 0, .exited, some 1) ∧
      HoldsAlong step Consistent boot [.schedule, .clone, .init .enterZombieOnExit true, .enqueue,
        .wait4 none noPages, .exit noPages, .resume noPages] :=
  ⟨by decide +kernel, queues_consistent _ (by decide +kernel)⟩

/-- The shell sleeps in a `do_clone` for a page and is woken by a signal that ends it: the
PCB it had taken is neither in use nor free. -/
theorem killed_maker_loses_pcb :
    ∃ s, runActs step boot [.schedule, .clone, .block .pages, .signal 0, .schedule,
        .exit noPages] = some s ∧
      ¬ SettingUp s 1 ∧ (s.pcb 1).used = false ∧ (s.lists .free).count 1 = 0 ∧ ¬ Consistent s := by
  refine exists_evaluated (P := fun s => (∀ p, s.task p = .user) ∧ (s.pcb 1).used = false ∧
    (s.lists .free).count 1 = 0) (by decide +kernel) ?_
  rintro s ⟨tasks, unused, lost⟩
  have settled : ¬ SettingUp s 1 := by
    rintro ⟨p, sets⟩
    rw [tasks p] at sets
    exact plain_user 1 sets
  refine ⟨settled, unused, lost, ?_⟩
  intro consistent
  have found := (consistent 1 settled).unused unused
  rw [lost] at found
  cases found

end CCore.Sched
