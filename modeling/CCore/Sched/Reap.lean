import CCore.Sched.Consistent

/-!
# What `do_wait4` returns and frees

The machine of `Queues` with `exit_status`, the local variables of the calls of `do_wait4`
that are in progress, and a record of the processes that have called `do_exit` and of the
PCBs that `free_pcb` has given up.  `watchStep_sched` says that the record changes nothing.
-/
namespace CCore.Sched

open Function Option

/-- The macro `WEXITSTATUS`, stored through a `uint16_t *`. -/
def wexitstatus (exitStatus : BitVec 32) : BitVec 16 := ((exitStatus <<< 8) &&& 0xff00).setWidth 16

/-- A call of `do_wait4`: its argument, the children the caller had when it made it, `ret`
and `*status` so far, and the pids of the children of the caller that it has freed. -/
structure Wait where
  pid : Option Nat
  children : List Nat
  ret : Option Nat
  stored : Option (BitVec 16)
  freed : List Nat

/-- `returned` is the call that the last step has returned from. -/
structure Watched where
  sched : State
  exitStatus : Index → BitVec 32
  exited : List (Nat × BitVec 32)
  freed : List Nat
  call : Index → Option Wait
  returned : Option Wait

namespace Watched

def pid (w : Watched) (i : Index) : Nat := (w.sched.pcb i).pid

/-- The PCBs that were in use and are not in `s`. -/
def gone (w : Watched) (s : State) : List Index :=
  (List.finRange 100).filter fun i => (w.sched.pcb i).used && !(s.pcb i).used

def children (w : Watched) (p : Index) : List Nat :=
  ((List.finRange 100).filter fun i =>
    (w.sched.pcb i).used && decide ((w.sched.pcb i).parent = some p)).map w.pid

/-- The record after code that has led to `s`. -/
def advance (w : Watched) (s : State) : Watched :=
  { w with sched := s, freed := w.freed ++ (w.gone s).map w.pid }

/-- A change of the local variables of the call of `p`. -/
def note (w : Watched) (p : Index) (f : Wait → Wait) : Watched :=
  { w with call := update w.call p ((w.call p).map f) }

/-- `handle_exit_pcb(&pcb[i])` in a call of `p`. -/
def reap (w : Watched) (freed : Freed) (p i : Index) : Option Watched := do
  let s ← handleExitPcb freed 101 i w.sched
  let sons := (w.gone s).filter fun x => decide ((w.sched.pcb x).parent = some p)
  some ((w.advance s).note p fun c => { c with freed := c.freed ++ sons.map w.pid })

/-- The loop of `do_wait4`, as `wait4Loop`. -/
def loop (freed : Freed) (pid : Option Nat) (p : Index) : List Index → Watched → Option Watched
  | [], w =>
    some { w with
      sched := w.sched.setTask p .user
      call := update w.call p none
      returned := w.call p }
  | i :: rest, w =>
    let b := w.sched.pcb i
    if b.parent = some p ∧ (pid = none ∨ pid = some b.pid) then
      if b.status ≠ .exited ∧ b.status ≠ .zombie then
        some { w.note p fun c => { c with ret := some b.pid } with
          sched := doBlock (w.sched.setTask p (.wait4 pid i)) p (.child i) }
      else if b.status = .zombie then do
        let w ← (w.note p fun c => { c with
          ret := some b.pid, stored := some (wexitstatus (w.exitStatus i)) }).reap freed p i
        loop freed pid p rest w
      else loop freed pid p rest w
    else loop freed pid p rest w

/-- The rest of `do_wait4` after its `do_block`, as `wait4Resume`. -/
def resume (freed : Freed) (w : Watched) (p : Index) (pid : Option Nat) (i : Index) :
    Option Watched := do
  let w := w.note p fun c => { c with stored := some (wexitstatus (w.exitStatus i)) }
  let w ← if (w.sched.pcb i).status = .zombie then w.reap freed p i else some w
  loop freed pid p ((List.finRange 100).drop (i.val + 1)) w

end Watched

/-- An action, with the argument of `do_exit` if it is one. -/
structure Event where
  act : Act
  exitStatus : BitVec 32

/-- Only `release_wait_deal_son` takes processes off the wait list of a PCB. -/
def watchStep (w : Watched) (e : Event) : Option Watched :=
  match e.act with
  | .unblock (.child _) _ => none
  | .exit freed => do
    let p ← w.sched.current
    let s ← doExit freed w.sched p
    some { w.advance s with
      exitStatus := update w.exitStatus p e.exitStatus
      exited := (w.pid p, e.exitStatus) :: w.exited
      call := update w.call p none
      returned := none }
  | .wait4 pid freed => do
    let p ← w.sched.current
    if w.sched.task p = .user then
      Watched.loop freed pid p (List.finRange 100)
        { w with
          call := update w.call p (some ⟨pid, w.children p, none, none, []⟩)
          returned := none }
    else none
  | .resume freed => do
    let p ← w.sched.current
    match w.sched.task p with
    | .wait4 pid i => Watched.resume freed { w with returned := none } p pid i
    | _ => none
  | .divert => do
    let p ← w.sched.current
    some { w with
      sched := w.sched.setTask p .user
      call := update w.call p none
      returned := none }
  | act => (step w.sched act).map fun s => { w with sched := s, returned := none }

/-- After `init_shell`. -/
def watchBoot : Watched := ⟨boot, fun _ => 0, [], [], fun _ => none, none⟩

variable {w w' : Watched} {freed : Freed} {p i : Index}

theorem reap_sched
    (run : w.reap freed p i = some w') : handleExitPcb freed 101 i w.sched = some w'.sched := by
  obtain ⟨s, exited, rest⟩ := bind_eq_some_iff.mp run
  cases rest
  exact exited

theorem loop_sched (freed : Freed) (pid : Option Nat) (p : Index) (entries : List Index)
    (run : Watched.loop freed pid p entries w = some w') :
    wait4Loop freed pid p entries w.sched = some w'.sched := by
  induction entries generalizing w with
  | nil =>
    cases run
    rfl
  | cons i rest ih =>
    rw [Watched.loop] at run
    rw [wait4Loop]
    split_ifs at run ⊢ with son alive zombie
    · cases run
      rfl
    · obtain ⟨w₁, reaped, others⟩ := bind_eq_some_iff.mp run
      have exited := reap_sched reaped
      exact bind_eq_some_iff.mpr ⟨w₁.sched, exited, ih others⟩
    · exact ih run
    · exact ih run

theorem resume_sched {pid : Option Nat} (run : Watched.resume freed w p pid i = some w') :
    wait4Resume freed w.sched p pid i = some w'.sched := by
  unfold Watched.resume at run
  unfold wait4Resume
  dsimp only [Watched.note] at run
  split_ifs at run ⊢ with zombie
  · obtain ⟨w₁, reaped, others⟩ := bind_eq_some_iff.mp run
    have exited := reap_sched reaped
    exact bind_eq_some_iff.mpr ⟨w₁.sched, exited, loop_sched _ _ _ _ others⟩
  · have looped := loop_sched freed pid p _ run
    exact looped

theorem watchStep_sched {e : Event} (run : watchStep w e = some w') :
    step w.sched e.act = some w'.sched := by
  obtain ⟨act, exitStatus⟩ := e
  unfold watchStep at run
  cases act with
  | schedule =>
    cases run
    rfl
  | block _ | clone | init _ _ | enqueue =>
    obtain ⟨s, stepped, rfl⟩ := map_eq_some_iff.mp run
    exact stepped
  | unblock q p =>
    cases q with
    | child i => cases run
    | _ =>
      obtain ⟨s, stepped, rfl⟩ := map_eq_some_iff.mp run
      exact stepped
  | signal p =>
    cases run
    rfl
  | exit freed =>
    obtain ⟨p, current, rest⟩ := bind_eq_some_iff.mp run
    obtain ⟨s, exited, rest⟩ := bind_eq_some_iff.mp rest
    cases rest
    exact bind_eq_some_iff.mpr ⟨p, current, exited⟩
  | wait4 pid freed =>
    obtain ⟨p, current, rest⟩ := bind_eq_some_iff.mp run
    refine bind_eq_some_iff.mpr ⟨p, current, ?_⟩
    split_ifs at rest ⊢ with user
    have looped := loop_sched freed pid p _ rest
    exact looped
  | resume freed =>
    obtain ⟨p, current, rest⟩ := bind_eq_some_iff.mp run
    refine bind_eq_some_iff.mpr ⟨p, current, ?_⟩
    cases task : w.sched.task p with
    | wait4 pid i =>
      simp only [task] at rest ⊢
      have resumed := resume_sched rest
      exact resumed
    | _ => simp [task] at rest
  | divert =>
    obtain ⟨p, current, rest⟩ := bind_eq_some_iff.mp run
    cases rest
    exact bind_eq_some_iff.mpr ⟨p, current, rfl⟩

end CCore.Sched
