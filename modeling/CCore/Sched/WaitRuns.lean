import CCore.Sched.Promised

/-!
# Runs with `do_wait4`

The exit of a process and the other steps keep the invariant `Ghost`, so calls of `do_wait4`
keep their promise along every run whose steps are `Patient`.
-/
namespace CCore.Sched

open Shelves Run Function List Option
variable {w w' : Watched} {s s' : State} {loc : Index → Option Head} {p x : Index}

/-! ## Exit -/

def Task.entry : Task → Option Index
  | .wait4 _ i => some i
  | _ => none

/-- Whoever waits at `pcb[x]` waits for the process that is in it. -/
def Watched.Own (w : Watched) (x : Index) : Prop :=
  ∀ q, (w.sched.task q).entry = some x → ∀ c ∈ w.call q, c.ret = some (w.pid x)

variable {q : Index} {busy leaving : Option Index}

theorem Waiting.son_of_own {pid : Option Nat} {c : Wait} {n : Nat}
    (waiting : Waiting w q pid x c n) (ghost : Ghost w busy leaving)
    (used : (w.sched.pcb x).used = true) (own : c.ret = some (w.pid x)) : n ∉ w.freed := by
  cases waiting.ret.symm.trans own
  exact ghost.live x used

theorem Ghost.record (ghost : Ghost w none none) (running : (w.sched.pcb x).status = .running)
    (idle : ∀ pid j, w.sched.task x ≠ .wait4 pid j) (own : w.Own x) (e : BitVec 32) : Ghost { w with
    exitStatus := update w.exitStatus x e
    exited := (w.pid x, e) :: w.exited
    call := update w.call x none
    returned := none } none (some x) := by
  have alive : w.stage x = .alive := by simp [Watched.stage, running, Status.stage]
  have used : (w.sched.pcb x).used = true := (ghost.used_iff x).mpr (by rw [alive]; decide)
  have first := ghost.running x (some_ne_none x).symm alive
  refine ⟨ghost.mid, ghost.pidLt, ghost.pidOne, ghost.freedLt, ghost.freedOnce, ghost.live, ?_, ?_,
    ?_, ?_, ?_, ghost.caller, ghost.asleep, ?_⟩
  · intro n e' member
    rcases mem_cons.mp member with new | old
    · cases new
      exact ghost.pidLt x used
    · exact ghost.exitedLt n e' old
  · intro n e₁ e₂ member₁ member₂
    rcases mem_cons.mp member₁ with new₁ | old₁ <;>
      rcases mem_cons.mp member₂ with new₂ | old₂
    · cases new₁
      cases new₂
      rfl
    · cases new₁
      exact absurd old₂ (first e₂)
    · cases new₂
      exact absurd old₁ (first e₁)
    · exact ghost.exitedOne n e₁ e₂ old₁ old₂
  · intro j stays aliveJ e' member
    rcases mem_cons.mp member with new | old
    · have usedJ := (ghost.used_iff j).mpr (by rw [aliveJ]; decide)
      have same := ghost.pidOne j x usedJ used (Prod.mk.inj new).1
      exact stays (congrArg some same.symm)
    · exact ghost.running j (some_ne_none j).symm aliveJ e' old
  · intro j zombie
    have other : j ≠ x := by
      rintro rfl
      cases alive.symm.trans zombie
    refine mem_cons_of_mem _ ?_
    dsimp only
    rw [update_of_ne other]
    exact ghost.zombie j zombie
  · intro n member
    obtain ⟨e', exited⟩ := ghost.gone n member
    exact ⟨e', mem_cons_of_mem _ exited⟩
  · intro q pid j notBusy task
    have other : q ≠ x := by
      rintro rfl
      exact idle pid j task
    obtain ⟨c, n, call, waiting⟩ := ghost.waiting q pid j notBusy task
    refine ⟨c, n, (update_of_ne other ..).trans call, { waiting with awaited := ?_ }⟩
    rcases waiting.awaited with child | ⟨member, status, notZombie, awake⟩
    · exact .inl child
    · refine .inr ⟨member, mem_cons_of_mem _ ?_, notZombie, awake⟩
      have elsewhere : j ≠ x := by
        rintro rfl
        exact waiting.son_of_own ghost used (own q (congrArg Task.entry task) c call) member
      dsimp only
      rw [update_of_ne elsewhere]
      exact status

theorem Ghost.enterZombie (ghost : Ghost w none (some x)) (running : (w.sched.pcb x).status = .running)
    (idle : ∀ pid j, w.sched.task x ≠ .wait4 pid j) (own : w.Own x)
    (exited : (w.pid x, w.exitStatus x) ∈ w.exited)
    (mid : ∃ loc, Mid (w.sched.setStatus x .zombie) loc) :
    Ghost { w with sched := w.sched.setStatus x .zombie } none none := by
  have used : (w.sched.pcb x).used = true :=
    (ghost.used_iff x).mpr (by simp [Watched.stage, running, Status.stage])
  have pcb : ∀ j, j ≠ x → (w.sched.setStatus x .zombie).pcb j = w.sched.pcb j :=
    fun j other => setPcb_of_ne other
  have field : ∀ {F : Type} (f : Pcb → F), f { w.sched.pcb x with status := .zombie } =
      f (w.sched.pcb x) → ∀ j, f ((w.sched.setStatus x .zombie).pcb j) = f (w.sched.pcb j) := by
    intro F f same j
    rcases eq_or_ne j x with rfl | here
    · exact (congrArg f (setPcb_self ..)).trans same
    · rw [pcb j here]
  have usedEq := field Pcb.used rfl
  have pidEq := field Pcb.pid rfl
  have stage : ∀ j, j ≠ x → ((w.sched.setStatus x .zombie).pcb j).status.stage = w.stage j := by
    intro j other
    rw [pcb j other]
  have son : ∀ {q j n}, Son w.sched q j n → Son (w.sched.setStatus x .zombie) q j n :=
    fun {q j n} before => ⟨(usedEq j).trans before.used, (pidEq j).trans before.pid,
      (field Pcb.parent rfl j).trans before.parent⟩
  refine ⟨mid, ?_, ?_, ghost.freedLt, ghost.freedOnce, ?_, ghost.exitedLt, ghost.exitedOne, ?_, ?_,
    ghost.gone, ?_, ghost.asleep, ?_⟩
  · intro j after
    exact (pidEq j).trans_lt (ghost.pidLt j ((usedEq j).symm.trans after))
  · intro j k usedJ usedK same
    exact ghost.pidOne j k ((usedEq j).symm.trans usedJ) ((usedEq k).symm.trans usedK)
      ((pidEq j).symm.trans (same.trans (pidEq k)))
  · intro j after
    rw [Watched.pid, pidEq]
    exact ghost.live j ((usedEq j).symm.trans after)
  · intro j _ alive
    have other : j ≠ x := by
      rintro rfl
      simp [Watched.stage, State.setStatus, Status.stage] at alive
    rw [Watched.pid, pidEq]
    exact ghost.running j (fun eq => other (Option.some.inj eq).symm)
      ((stage j other).symm.trans alive)
  · intro j zombie
    rw [Watched.pid, pidEq]
    rcases eq_or_ne j x with rfl | here
    · exact exited
    · exact ghost.zombie j ((stage j here).symm.trans zombie)
  · intro q pid j task
    have other : q ≠ x := by
      rintro rfl
      exact idle pid j task
    exact (stage q other).trans (ghost.caller q pid j task)
  · intro q pid j notBusy task
    obtain ⟨c, n, call, waiting⟩ := ghost.waiting q pid j notBusy task
    refine ⟨c, n, call, waiting.keep (fun _ => id) ?_ fun k m before => .inr (son before)⟩
    rcases waiting.awaited with ⟨before, sleeps⟩ | ⟨member, status, notZombie, awake⟩
    · refine .inl ⟨son before, ?_⟩
      intro alive
      have other : j ≠ x := by
        rintro rfl
        simp [Watched.stage, State.setStatus, Status.stage] at alive
      exact sleeps ((stage j other).symm.trans alive)
    · have elsewhere : j ≠ x := by
        rintro rfl
        exact waiting.son_of_own ghost used (own q (congrArg Task.entry task) c call) member
      refine .inr ⟨member, status, ?_, awake⟩
      intro zombie
      exact notZombie ((stage j elsewhere).symm.trans zombie)

def Undisturbed (s : State) (q : Index) : Prop :=
  ∀ i, q ∈ s.lists (.wait (.child i)) → (s.pcb i).status = .zombie

theorem signal_ghost (ghost : Ghost w busy leaving) (quiet : Undisturbed w.sched q) :
    Ghost { w with sched := sendSignal w.sched q } busy leaving := by
  obtain ⟨loc, mid⟩ := ghost.mid
  obtain ⟨loc', woken⟩ := sendSignal_wakes mid q
  let opened := (List.finRange 100).filter fun i => decide (q ∈ w.sched.lists (.wait (.child i)))
  have moves : Moves w.sched (sendSignal w.sched q) [] [] opened := by
    refine sendSignal_moves mid ?_
    intro j sleeps
    simpa [opened] using sleeps
  refine ghost.stays moves ⟨loc', woken.mid⟩ ?_
  intro j taken
  have sleeps : q ∈ w.sched.lists (.wait (.child j)) := by simpa [opened] using taken
  exact stage_zombie.mpr (quiet j sleeps)

theorem schedule_ghost (ghost : Ghost w busy leaving) :
    Ghost { w with sched := doScheduler w.sched } busy leaving := by
  obtain ⟨loc, mid⟩ := ghost.mid
  obtain ⟨loc', mid', -⟩ := doScheduler_inv mid
  exact ghost.stays (doScheduler_moves mid) ⟨loc', mid'⟩ nofun

/-- What `do_exit` of `x` wakes sleeps on no process that lives, or on `x` itself. -/
def Quiet (s : State) (x : Index) : Prop :=
  (s.pcb x).mode = .enterZombieOnExit → (s.pcb x).sigchld = true →
    ∀ r, (s.pcb x).parent = some r → ∀ i, r ∈ s.lists (.wait (.child i)) →
      i = x ∨ (s.pcb i).status = .zombie

/-- The record after `do_exit(e)` of process `x` up to the handling of its PCB. -/
def Watched.leave (w : Watched) (x : Index) (e : BitVec 32) : Watched :=
  { w with
    sched := w.sched.setTask x .user
    exitStatus := update w.exitStatus x e
    exited := (w.pid x, e) :: w.exited
    call := update w.call x none
    returned := none }

theorem leave_own (own : w.Own x) (e : BitVec 32) : (w.leave x e).Own x := by
  intro q task c call
  have other : q ≠ x := by
    rintro rfl
    exact nomatch (congrArg Task.entry (setTask_self w.sched q .user)).symm.trans task
  exact own q ((congrArg Task.entry (setTask_of_ne other)).symm.trans task) c
    ((update_of_ne other ..).symm.trans call)

theorem leave_ghost (ghost : Ghost w none none) (waits : Waits w.sched x) (own : w.Own x)
    (e : BitVec 32) : Ghost (w.leave x e) none (some x) := by
  have dropped := (ghost.engage x).drop waits.running waits.plain
  have recorded := dropped.record (x := x) waits.running ?_ ?_ e
  · exact recorded
  · intro pid j task
    exact nomatch (setTask_self w.sched x .user).symm.trans task
  · intro q task c call
    have other : q ≠ x := by
      rintro rfl
      exact nomatch (congrArg Task.entry (setTask_self w.sched q .user)).symm.trans task
    exact own q ((congrArg Task.entry (setTask_of_ne other)).symm.trans task) c call

theorem signalParent_ghost (ghost : Ghost w none none)
    (quiet : (w.sched.pcb x).sigchld = true → ∀ r, (w.sched.pcb x).parent = some r →
      Undisturbed w.sched r) : Ghost { w with sched := signalParent w.sched x } none none ∧
    ∀ i, ((signalParent w.sched x).pcb i).used = (w.sched.pcb i).used := by
  obtain ⟨loc, mid⟩ := ghost.mid
  unfold signalParent
  split
  next r sigchld parent =>
    have moves : Moves w.sched (sendSignal w.sched r) [] [] (List.finRange 100) :=
      sendSignal_moves mid fun j _ => mem_finRange j
    exact ⟨signal_ghost ghost (quiet sigchld r parent), moves.used⟩
  next => exact ⟨ghost, fun _ => rfl⟩

theorem exit_ghost (freed : Freed) (ghost : Ghost w none none) (waits : Waits w.sched x)
    (own : w.Own x) (quiet : Quiet w.sched x) (e : BitVec 32)
    (run : doExit freed w.sched x = some s) : Ghost ((w.leave x e).advance s) none none := by
  have left := leave_ghost ghost waits own e
  obtain ⟨loc, mid⟩ := ghost.mid
  have mid₁ : Mid (w.leave x e).sched loc := mid.setTask waits.plain plain_user
  have user : (w.leave x e).sched.task x = .user := setTask_self ..
  have idle : ∀ pid j, (w.leave x e).sched.task x ≠ .wait4 pid j := by
    intro pid j task
    cases user.symm.trans task
  have exited : ((w.leave x e).pid x, (w.leave x e).exitStatus x) ∈ (w.leave x e).exited := by
    simp [Watched.leave, Watched.pid]
  unfold doExit at run
  cases mode : (w.sched.pcb x).mode with
  | autoCleanupOnExit =>
    rw [mode] at run
    obtain ⟨s₁, handled, rest⟩ := bind_eq_some_iff.mp run
    cases rest
    obtain ⟨path, loc₁, trail, exits, moves⟩ :=
      handleExitPcb_exits freed 101 mid₁ ⟨user ▸ plain_user, .inr waits.running⟩ handled
    have zombies := trail_zombies trail
    have all := moves.trans (doScheduler_moves exits.mid)
    obtain ⟨loc₂, mid₂, -⟩ := doScheduler_inv exits.mid
    refine left.moves all ⟨loc₂, mid₂⟩ ?_ ?_ (fun j taken => .inl taken) ?_
    · intro y member
      rcases mem_cons.mp member with rfl | later
      · exact ⟨mid.used_of (by simp [waits.running]), exited⟩
      · exact ⟨mid₁.used_of (by simp [zombies y later]),
          left.zombie y (stage_zombie.mpr (zombies y later))⟩
    · intro y member
      have inGone : y ∈ x :: path := by simpa using member
      rcases mem_cons.mp inGone with rfl | later
      · exact idle
      · intro pid j task
        have alive := left.caller y pid j task
        cases alive.symm.trans (stage_zombie.mpr (zombies y later))
    · rintro y leaves
      cases leaves
      exact .inl mem_cons_self
  | enterZombieOnExit =>
    rw [mode] at run
    cases run
    have midZ := mid₁.enterZombie (p := x) waits.running (user ▸ plain_user)
    have zombie := left.enterZombie waits.running idle (leave_own own e) exited ⟨loc, midZ⟩
    obtain ⟨signalled, used⟩ := signalParent_ghost zombie (x := x) (by
      intro sigchld r parent i sleeps
      rcases eq_or_ne i x with rfl | here
      · exact congrArg Pcb.status (setPcb_self ..)
      · have before := quiet mode ?_ r ?_ i sleeps
        · exact (congrArg Pcb.status (setPcb_of_ne here)).trans (before.resolve_left here)
        · simpa [State.setStatus, Watched.leave] using sigchld
        · simpa [State.setStatus, Watched.leave] using parent)
    have scheduled := schedule_ghost signalled
    have after := advance_eq (w := w.leave x e) (s := doScheduler (signalParent
      ((w.sched.setTask x .user).setStatus x .zombie) x)) ?_
    · rw [after]
      exact scheduled
    · intro i
      obtain ⟨loc₁, mid₂⟩ := signalled.mid
      refine ((doScheduler_moves mid₂).used i).trans ((used i).trans ?_)
      rcases eq_or_ne i x with rfl | here
      · simp [State.setStatus]
      · exact congrArg Pcb.used (setPcb_of_ne here)

/-! ## The other steps -/

theorem setTask_moves {t : Task} (was : (s.task p).entry = none) (is : t.entry = none) :
    Moves s (s.setTask p t) [] [] [] := by
  refine ⟨fun _ => rfl, fun _ => rfl, fun _ => rfl, fun _ _ son _ => son, fun _ _ _ sleeps => sleeps,
    fun _ _ sleeps => sleeps, ?_, rfl⟩
  intro q pid i
  rcases eq_or_ne q p with rfl | own
  · rw [setTask_self]
    constructor
    · rintro rfl
      cases is
    · intro task
      rw [task] at was
      cases was
  · rw [setTask_of_ne own]

theorem lists_moves {lists : Head → List Index}
    (same : ∀ q j, q ∈ lists (.wait (.child j)) ↔ q ∈ s.lists (.wait (.child j))) :
    Moves s { s with lists } [] [] [] :=
  ⟨fun _ => rfl, fun _ => rfl, fun _ => rfl, fun _ _ son _ => son,
    fun q j _ => (same q j).mpr, fun q j => (same q j).mp, fun _ _ _ => Iff.rfl, rfl⟩

theorem clone_moves (mid : Mid s loc) (waits : Waits s p) (outside : (s.task p).entry = none) :
    Moves s (getFreePcb s p) [] [] [] := by
  unfold getFreePcb
  cases line : s.lists .free with
  | nil =>
    have mid₁ := mid.setTask waits.plain plain_takePcb
    exact (setTask_moves outside rfl).trans (doBlock_moves (q := .pcbs) mid₁ waits.running nofun)
  | cons x rest =>
    have free : loc x = some .free := by
      rw [← mid.linked.mem, line]
      exact mem_cons_self
    refine (setTask_moves (p := p) (t := .making x) outside rfl).trans (lists_moves ?_)
    intro q j
    have awake : x ∉ s.lists (.wait (.child j)) := by
      intro sleeps
      exact nomatch free.symm.trans ((mid.linked.mem x _).mp sleeps)
    simp [unlink, erase_of_not_mem awake]

theorem enqueue_moves (mid : Mid s loc) (made : s.task p = .made x) :
    Moves s (addReady s p x) [] [] [] := by
  rw [mid.addReady_eq made]
  refine (setTask_moves (p := p) (t := .user) (by rw [made]; rfl) rfl).trans (lists_moves ?_)
  intro q j
  simp [push]

/-- What an action must leave alone for the calls of `do_wait4` to keep their promise. -/
def Calm (w : Watched) : Act → Prop
  | .signal q => Undisturbed w.sched q
  | .exit _ => ∀ x, w.sched.current = some x → Quiet w.sched x ∧ w.Own x
  | _ => True

/-- No process leaves the kernel code in which it sets up a PCB, none is woken out of
a `do_wait4` before its child has exited, and none exits in a PCB at which a process still
waits for the one before. -/
def Patient (w : Watched) (e : Event) : Prop := Safe w.sched e.act ∧ Calm w e.act

theorem unnoticed (ghost : Ghost w none none) (inv : Inv s) (moves : Moves w.sched s [] [] []) :
    Ghost { w with sched := s, returned := none } none none := by
  obtain ⟨loc, mid, -⟩ := inv
  exact (ghost.stays moves ⟨loc, mid⟩ nofun).congr rfl rfl rfl rfl fun _ _ => rfl

theorem promised_of_none (none : w.returned = none) : Promised w := fun _ returned =>
  nomatch none.symm.trans returned

theorem watchStep_ghost {e : Event} (ghost : Ghost w none none) (inv : Inv w.sched)
    (patient : Patient w e) (run : watchStep w e = some w') : Ghost w' none none ∧ Promised w' := by
  have inv' := step_inv e.act inv patient.1 (watchStep_sched run)
  obtain ⟨loc, mid, running⟩ := inv
  obtain ⟨safe, calm⟩ := patient
  obtain ⟨act, e⟩ := e
  unfold watchStep at run
  cases act with
  | schedule =>
    cases run
    exact ⟨unnoticed ghost inv' (doScheduler_moves mid), promised_of_none rfl⟩
  | block q =>
    obtain ⟨s, stepped, rfl⟩ := map_eq_some_iff.mp run
    obtain ⟨p, current, blocks⟩ := bind_eq_some_iff.mp stepped
    cases q with
    | child j => cases blocks
    | _ =>
      cases blocks
      refine ⟨unnoticed ghost inv' ?_, promised_of_none rfl⟩
      exact doBlock_moves mid (running p current) nofun
  | unblock q p =>
    cases q with
    | child j => cases run
    | _ =>
      obtain ⟨s, stepped, rfl⟩ := map_eq_some_iff.mp run
      obtain ⟨member, stepped⟩ := ite_none_right_eq_some.mp stepped
      cases stepped
      refine ⟨unnoticed ghost inv' ?_, promised_of_none rfl⟩
      exact doUnblock_moves mid ((mid.linked.mem p _).mp member) nofun
  | signal q =>
    cases run
    refine ⟨(signal_ghost ghost calm).congr rfl rfl rfl rfl fun _ _ => rfl, promised_of_none rfl⟩
  | clone =>
    obtain ⟨s, stepped, rfl⟩ := map_eq_some_iff.mp run
    obtain ⟨p, current, clones⟩ := bind_eq_some_iff.mp stepped
    obtain ⟨outside, clones⟩ := ite_none_right_eq_some.mp clones
    cases clones
    refine ⟨unnoticed ghost inv' ?_, promised_of_none rfl⟩
    rcases outside with task | task
    · exact clone_moves mid ⟨current, running p current, task.symm ▸ plain_user⟩
        (by rw [task]; rfl)
    · exact clone_moves mid ⟨current, running p current, task.symm ▸ plain_takePcb⟩
        (by rw [task]; rfl)
  | init mode sigchld =>
    obtain ⟨s, stepped, rfl⟩ := map_eq_some_iff.mp run
    obtain ⟨p, current, inits⟩ := bind_eq_some_iff.mp stepped
    split at inits
    next x making =>
      cases inits
      obtain ⟨loc', mid', -⟩ := inv'
      have made := ghost.init (running p current) making mode sigchld ⟨loc', mid'⟩
      exact ⟨made.congr rfl rfl rfl rfl fun _ _ => rfl, promised_of_none rfl⟩
    next => cases inits
  | enqueue =>
    obtain ⟨s, stepped, rfl⟩ := map_eq_some_iff.mp run
    obtain ⟨p, current, enqueues⟩ := bind_eq_some_iff.mp stepped
    split at enqueues
    next x made =>
      cases enqueues
      exact ⟨unnoticed ghost inv' (enqueue_moves mid made), promised_of_none rfl⟩
    next => cases enqueues
  | exit freed =>
    obtain ⟨x, current, rest⟩ := bind_eq_some_iff.mp run
    obtain ⟨s, exited, rest⟩ := bind_eq_some_iff.mp rest
    cases rest
    obtain ⟨quiet, own⟩ := calm x current
    have after := exit_ghost freed ghost ⟨current, running x current, safe x current⟩ own quiet e
      exited
    exact ⟨after, promised_of_none rfl⟩
  | wait4 pid freed =>
    obtain ⟨p, current, rest⟩ := bind_eq_some_iff.mp run
    obtain ⟨user, rest⟩ := ite_none_right_eq_some.mp rest
    exact wait4_ghost freed ghost ⟨current, running p current, user.symm ▸ plain_user⟩ rest
  | resume freed =>
    obtain ⟨p, current, rest⟩ := bind_eq_some_iff.mp run
    split at rest
    next pid i task =>
      have fresh : Ghost { w with returned := none } none none :=
        ghost.congr rfl rfl rfl rfl fun _ _ => rfl
      have waits : Waits w.sched p := ⟨current, running p current, task.symm ▸ plain_wait4 pid i⟩
      exact resume_ghost freed fresh waits task rfl rest
    next => cases rest
  | divert =>
    obtain ⟨p, current, rest⟩ := bind_eq_some_iff.mp run
    cases rest
    have cleared : Ghost { w with
        call := update w.call p none, returned := none } (some p) none := by
      refine (ghost.engage p).congr rfl rfl rfl rfl ?_
      intro q other
      exact update_of_ne (fun eq => other (congrArg some eq.symm)) ..
    exact ⟨cleared.drop (running p current) (safe p current), promised_of_none rfl⟩

theorem watchBoot_ghost : Ghost watchBoot none none := by
  obtain ⟨loc, mid, -⟩ := boot_inv
  have pcb : ∀ j, (boot.pcb j).used = true → j = 0 ∧ (boot.pcb j).pid = 1 := by
    intro j
    by_cases shell : j = 0 <;> simp [boot, shell]
  have unfreed : ∀ n, n ∉ watchBoot.freed := fun n => not_mem_nil
  have unexited : ∀ n, n ∉ watchBoot.exited := fun n => not_mem_nil
  have idle : ∀ p pid i, watchBoot.sched.task p ≠ .wait4 pid i := fun p pid i => Task.noConfusion
  refine ⟨⟨loc, mid⟩, ?_, ?_, fun n taken => absurd taken (unfreed n), nodup_nil,
    fun j _ => unfreed _, fun n e taken => absurd taken (unexited _),
    fun n e _ taken => absurd taken (unexited _), fun j _ _ e => unexited _, ?_,
    fun n taken => absurd taken (unfreed n), fun p pid i task => absurd task (idle p pid i),
    fun p i sleeps => absurd sleeps not_mem_nil, fun p pid i _ task => absurd task (idle p pid i)⟩
  · intro j used
    rw [Watched.pid, watchBoot, (pcb j used).2]
    decide
  · intro j k usedJ usedK _
    rw [(pcb j usedJ).1, (pcb k usedK).1]
  · intro j zombie
    by_cases shell : j = 0 <;> simp [Watched.stage, watchBoot, boot, shell, Status.stage] at zombie

/-- Along every run from boot whose steps are `Patient`, a call of `do_wait4` that returns has
kept its promise. -/
theorem wait4_promised_along (events : List Event)
    (patient : StepsMeet watchStep Patient watchBoot events) :
    HoldsAlong watchStep Promised watchBoot events := by
  refine holdsAlong_of_stepsMeet watchStep Patient
    (fun w => (Ghost w none none ∧ Inv w.sched) ∧ Promised w) Promised (fun _ inv => inv.2) ?_
    watchBoot events ⟨⟨watchBoot_ghost, boot_inv⟩, promised_of_none rfl⟩ patient
  intro w e w' inv patient run
  obtain ⟨ghost, promised⟩ := watchStep_ghost inv.1.1 inv.1.2 patient run
  exact ⟨⟨ghost, step_inv e.act inv.1.2 patient.1 (watchStep_sched run)⟩, promised⟩

instance (s : State) (q : Index) : Decidable (Undisturbed s q) :=
  inferInstanceAs (Decidable (∀ _, _ → _))

instance (s : State) (x : Index) : Decidable (Quiet s x) :=
  inferInstanceAs (Decidable (_ → _ → ∀ _, _ → ∀ _, _ → _))

instance (w : Watched) (x : Index) : Decidable (w.Own x) :=
  inferInstanceAs (Decidable (∀ q, _ → ∀ c ∈ w.call q, _))

instance (w : Watched) : DecidablePred (Calm w)
  | .signal q => inferInstanceAs (Decidable (Undisturbed _ q))
  | .exit _ => inferInstanceAs (Decidable (∀ _, _ → _))
  | .schedule | .block _ | .unblock _ _ | .clone | .init _ _ | .enqueue | .wait4 _ _ | .resume _
  | .divert => isTrue trivial

instance (w : Watched) (e : Event) : Decidable (Patient w e) :=
  inferInstanceAs (Decidable (_ ∧ _))

theorem wait4_promised_along_reaped :
    ((runActs watchStep watchBoot [⟨.schedule, 0⟩, ⟨.clone, 0⟩, ⟨.init .enterZombieOnExit true, 0⟩,
        ⟨.enqueue, 0⟩, ⟨.wait4 (some 2) noPages, 0⟩, ⟨.exit noPages, 3⟩, ⟨.resume noPages, 0⟩]).map
          fun w => (w.returned.map fun c => (c.ret, c.stored, c.freed), w.freed)) =
        some (some (some 2, some 0x300, [2]), [2]) ∧
      HoldsAlong watchStep Promised watchBoot [⟨.schedule, 0⟩, ⟨.clone, 0⟩,
        ⟨.init .enterZombieOnExit true, 0⟩, ⟨.enqueue, 0⟩, ⟨.wait4 (some 2) noPages, 0⟩,
        ⟨.exit noPages, 3⟩, ⟨.resume noPages, 0⟩] :=
  ⟨by decide +kernel, wait4_promised_along _ (by decide +kernel)⟩

/-- The shell waits for the process 2 and is woken by a signal: the call returns 2 while the
process lives, with the exit status of nobody. -/
theorem wait4_returns_early : ∃ w c, runActs watchStep watchBoot [⟨.schedule, 0⟩, ⟨.clone, 0⟩,
      ⟨.init .enterZombieOnExit true, 0⟩, ⟨.enqueue, 0⟩, ⟨.wait4 (some 2) noPages, 0⟩,
      ⟨.signal 0, 0⟩, ⟨.schedule, 0⟩, ⟨.resume noPages, 0⟩] = some w ∧
    w.returned = some c ∧ c.pid = some 2 ∧ c.ret = some 2 ∧ w.exited = [] ∧ w.freed = [] ∧
    (w.sched.pcb 1).pid = 2 ∧ (w.sched.pcb 1).status = .ready ∧ ¬ Promised w := by
  have read : ((runActs watchStep watchBoot [⟨.schedule, 0⟩, ⟨.clone, 0⟩,
      ⟨.init .enterZombieOnExit true, 0⟩, ⟨.enqueue, 0⟩, ⟨.wait4 (some 2) noPages, 0⟩,
      ⟨.signal 0, 0⟩, ⟨.schedule, 0⟩, ⟨.resume noPages, 0⟩]).map fun w =>
        (w.returned.map fun c => (c.pid, c.ret), w.exited.isEmpty, w.freed.isEmpty,
          (w.sched.pcb 1).pid, (w.sched.pcb 1).status)) =
      some (some (some 2, some 2), true, true, 2, .ready) := by
    decide +kernel
  obtain ⟨w, run, fields⟩ := map_eq_some_iff.mp read
  simp only [Prod.mk.injEq] at fields
  obtain ⟨result, exited, freed, child, ready⟩ := fields
  obtain ⟨c, returned, values⟩ := map_eq_some_iff.mp result
  obtain ⟨asked, ret⟩ := Prod.mk.inj values
  rw [List.isEmpty_iff] at exited freed
  refine ⟨w, c, run, returned, asked, ret, exited, freed, child, ready, ?_⟩
  intro promised
  obtain ⟨-, once, -⟩ := (promised c returned).one 2 asked ret
  rw [freed] at once
  cases once

end CCore.Sched
