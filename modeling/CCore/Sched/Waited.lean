import CCore.Sched.Reap

/-!
# `do_wait4` waits for its child

A call of `do_wait4` keeps its promise in every run in which a process that sleeps in it is
woken by nothing before its child has exited, and in which the PCB of a child that has freed
itself is not used for another exit before the call goes on.  `Ghost` is the invariant: of
every call in progress it says what has become of the child that it sleeps on.
-/
namespace CCore.Sched

open List Function Nat

/-- What a call that has returned promises. -/
structure Right (w : Watched) (c : Wait) : Prop where
  one : ∀ n, c.pid = some n → c.ret = some n →
    (∃ e, (n, e) ∈ w.exited ∧ (∀ e', (n, e') ∈ w.exited → e' = e) ∧
      c.stored = some (wexitstatus e)) ∧ w.freed.count n = 1 ∧ ∀ m ∈ c.freed, m = n
  all : c.pid = none → ∀ m ∈ c.children, (∃ e, (m, e) ∈ w.exited) ∧ w.freed.count m = 1

def Promised (w : Watched) : Prop := ∀ c, w.returned = some c → Right w c

/-! ## The invariant -/

abbrev Watched.stage (w : Watched) (i : Index) : Stage := (w.sched.pcb i).status.stage

abbrev Watched.SleepsOn (w : Watched) (p i : Index) : Prop := p ∈ w.sched.lists (.wait (.child i))

/-- A son of `p` with pid `n` in `pcb[j]`. -/
structure Son (s : State) (p j : Index) (n : Nat) : Prop where
  used : (s.pcb j).used = true
  pid : (s.pcb j).pid = n
  parent : (s.pcb j).parent = some p

/-- The child with pid `n` is in `pcb[i]`, and `p` sleeps as long as it lives; or it is gone,
with its exit status left in `pcb[i]`. -/
def Awaited (w : Watched) (p i : Index) (n : Nat) : Prop :=
  Son w.sched p i n ∧ (w.stage i = .alive → w.SleepsOn p i) ∨
    n ∈ w.freed ∧ (n, w.exitStatus i) ∈ w.exited ∧ w.stage i ≠ .zombie ∧ ¬ w.SleepsOn p i

/-- The call `c` of `p` is at `pcb[i]`, the child with pid `n`. -/
structure Waiting (w : Watched) (p : Index) (pid : Option Nat) (i : Index) (c : Wait) (n : Nat) :
    Prop where
  arg : c.pid = pid
  ret : c.ret = some n
  asked : pid = none ∨ pid = some n
  awaited : Awaited w p i n
  others : pid = none → ∀ m ∈ c.children, m = n ∨ m ∈ w.freed ∨ ∃ j, i < j ∧ Son w.sched p j m
  unfreed : pid ≠ none → c.freed = []

/-- `busy` is a process in the middle of its call, `leaving` one in the middle of its exit. -/
structure Ghost (w : Watched) (busy leaving : Option Index) : Prop where
  mid : ∃ loc, Mid w.sched loc
  pidLt : ∀ j, (w.sched.pcb j).used = true → w.pid j < w.sched.processId
  pidOne : ∀ j k, (w.sched.pcb j).used = true → (w.sched.pcb k).used = true →
    w.pid j = w.pid k → j = k
  freedLt : ∀ n ∈ w.freed, n < w.sched.processId
  freedOnce : w.freed.Nodup
  live : ∀ j, (w.sched.pcb j).used = true → w.pid j ∉ w.freed
  exitedLt : ∀ n e, (n, e) ∈ w.exited → n < w.sched.processId
  exitedOne : ∀ n e e', (n, e) ∈ w.exited → (n, e') ∈ w.exited → e' = e
  running : ∀ j, leaving ≠ some j → w.stage j = .alive → ∀ e, (w.pid j, e) ∉ w.exited
  zombie : ∀ j, w.stage j = .zombie → (w.pid j, w.exitStatus j) ∈ w.exited
  gone : ∀ n ∈ w.freed, ∃ e, (n, e) ∈ w.exited
  caller : ∀ p pid i, w.sched.task p = .wait4 pid i → w.stage p = .alive
  asleep : ∀ p i, w.SleepsOn p i → ∃ pid, w.sched.task p = .wait4 pid i
  waiting : ∀ p pid i, busy ≠ some p → w.sched.task p = .wait4 pid i →
    ∃ c n, w.call p = some c ∧ Waiting w p pid i c n

variable {w w' : Watched} {s s' : State} {loc : Index → Option Head} {p i : Index}
  {busy leaving : Option Index} {gone given opened : List Index}

theorem stage_zombie : (s.pcb i).status.stage = .zombie ↔ (s.pcb i).status = .zombie := by
  cases (s.pcb i).status <;> simp [Status.stage]

theorem stage_exited : (s.pcb i).status.stage = .exited ↔ (s.pcb i).status = .exited := by
  cases (s.pcb i).status <;> simp [Status.stage]

/-- The call goes on after a step that frees children or keeps them. -/
theorem Waiting.keep {pid : Option Nat} {c : Wait} {n : Nat} (waiting : Waiting w p pid i c n)
    (freed : ∀ m ∈ w.freed, m ∈ w'.freed) (awaited : Awaited w' p i n)
    (son : ∀ k m, Son w.sched p k m → m ∈ w'.freed ∨ Son w'.sched p k m) :
    Waiting w' p pid i c n := by
  refine ⟨waiting.arg, waiting.ret, waiting.asked, awaited, ?_, waiting.unfreed⟩
  intro all m child
  rcases waiting.others all m child with same | old | ⟨k, after, before⟩
  · exact .inl same
  · exact .inr (.inl (freed m old))
  · exact .inr ((son k m before).imp_right fun still => ⟨k, after, still⟩)

theorem Ghost.used_iff (ghost : Ghost w busy leaving) (j : Index) :
    (w.sched.pcb j).used = true ↔ w.stage j ≠ .exited := by
  obtain ⟨loc, mid⟩ := ghost.mid
  rw [ne_eq, stage_exited, ← mid.used j, Bool.not_eq_false]

theorem Ghost.not_asleep (ghost : Ghost w busy leaving) (running : (w.sched.pcb p).status = .running)
    (i : Index) : ¬ w.SleepsOn p i := by
  obtain ⟨loc, mid⟩ := ghost.mid
  intro sleeps
  rw [Watched.SleepsOn, mid.linked.mem, (mid.loc_running running).1] at sleeps
  cases sleeps

section
variable (moves : Moves w.sched s gone given opened)
  (used : ∀ y ∈ gone, (w.sched.pcb y).used = true)
include moves used

theorem mem_gone : i ∈ w.gone s ↔ i ∈ gone := by
  have after := moves.used i
  by_cases member : i ∈ gone
  · rw [if_pos member] at after
    simp [Watched.gone, after, used i member, member]
  · rw [if_neg member] at after
    simp [Watched.gone, after, member]

theorem mem_freed_advance {n : Nat} :
    n ∈ (w.advance s).freed ↔ n ∈ w.freed ∨ ∃ y ∈ gone, w.pid y = n := by
  simp only [Watched.advance, mem_append, mem_map, mem_gone moves used]

end

theorem Son.moves (moves : Moves s s' gone given opened) {n : Nat} (son : Son s p i n)
    (stays : i ∉ gone) (keeps : p ∉ given) : Son s' p i n := by
  refine ⟨?_, (moves.pid i).trans son.pid, moves.parent i p son.parent keeps⟩
  exact (moves.used i).trans ((if_neg stays).trans son.used)

/-- The processes of `gone` have exited before, and no process in `do_wait4` is among those
that are gone or give their sons away; only waiters of processes that have exited are woken. -/
theorem Ghost.moves (ghost : Ghost w busy leaving) (moves : Moves w.sched s gone given opened)
    (mid : ∃ loc, Mid s loc) {leaving' : Option Index}
    (dead : ∀ y ∈ gone, (w.sched.pcb y).used = true ∧ (w.pid y, w.exitStatus y) ∈ w.exited)
    (idle : ∀ y, y ∈ gone ∨ y ∈ given → ∀ pid j, w.sched.task y ≠ .wait4 pid j)
    (dull : ∀ j ∈ opened, j ∈ gone ∨ w.stage j = .zombie)
    (left : ∀ x, leaving = some x → x ∈ gone ∨ leaving' = some x) :
    Ghost (w.advance s) busy leaving' := by
  have used : ∀ y ∈ gone, (w.sched.pcb y).used = true := fun y member => (dead y member).1
  have pid : ∀ j, (w.advance s).pid j = w.pid j := moves.pid
  have usedBefore : ∀ j, ((w.advance s).sched.pcb j).used = true →
      (w.sched.pcb j).used = true ∧ j ∉ gone := by
    intro j after
    have eq : ((w.advance s).sched.pcb j).used = _ := moves.used j
    by_cases member : j ∈ gone
    · rw [eq, if_pos member] at after
      cases after
    · rw [eq, if_neg member] at after
      exact ⟨after, member⟩
  have stageBefore : ∀ j, (w.advance s).stage j ≠ .exited → (w.advance s).stage j = w.stage j ∧
      j ∉ gone := by
    intro j after
    have eq : (w.advance s).stage j = _ := moves.stage j
    by_cases member : j ∈ gone
    · rw [eq, if_pos member] at after
      exact absurd rfl after
    · exact ⟨eq.trans (if_neg member), member⟩
  have freed : ∀ n ∈ w.freed, n ∈ (w.advance s).freed := fun n member =>
    (mem_freed_advance moves used).mpr (.inl member)
  refine ⟨mid, ?_, ?_, ?_, ?_, ?_, ?_, ghost.exitedOne, ?_, ?_, ?_, ?_, ?_, ?_⟩
  · intro j after
    have before := ghost.pidLt j (usedBefore j after).1
    rw [pid]
    exact before.trans_eq moves.processId.symm
  · intro j k usedJ usedK same
    rw [pid, pid] at same
    exact ghost.pidOne j k (usedBefore j usedJ).1 (usedBefore k usedK).1 same
  · intro n member
    refine lt_of_lt_of_eq ?_ moves.processId.symm
    rcases (mem_freed_advance moves used).mp member with before | ⟨y, exits, rfl⟩
    · exact ghost.freedLt n before
    · exact ghost.pidLt y (used y exits)
  · refine List.nodup_append.mpr ⟨ghost.freedOnce, ?_, ?_⟩
    · refine List.Nodup.map_on ?_ ((nodup_finRange 100).filter _)
      intro y inGone z inGone' same
      exact ghost.pidOne y z (used y ((mem_gone moves used).mp inGone))
        (used z ((mem_gone moves used).mp inGone')) same
    · rintro n before m new rfl
      obtain ⟨y, inGone, rfl⟩ := mem_map.mp new
      exact ghost.live y (used y ((mem_gone moves used).mp inGone)) before
  · intro j after member
    obtain ⟨before, stays⟩ := usedBefore j after
    rw [pid] at member
    rcases (mem_freed_advance moves used).mp member with old | ⟨y, exits, same⟩
    · exact ghost.live j before old
    · exact stays (ghost.pidOne y j (used y exits) before same ▸ exits)
  · intro n e member
    exact (ghost.exitedLt n e member).trans_eq moves.processId.symm
  · intro j stays alive
    obtain ⟨same, notGone⟩ := stageBefore j (by rw [alive]; decide)
    rw [pid]
    refine ghost.running j ?_ (same.symm.trans alive)
    intro leaves
    rcases left j leaves with exits | still
    · exact notGone exits
    · exact stays still
  · intro j zombie
    obtain ⟨same, -⟩ := stageBefore j (by rw [zombie]; decide)
    rw [pid]
    exact ghost.zombie j (same.symm.trans zombie)
  · intro n member
    rcases (mem_freed_advance moves used).mp member with before | ⟨y, exits, rfl⟩
    · exact ghost.gone n before
    · exact ⟨_, (dead y exits).2⟩
  · intro q pid j task
    have before := (moves.task q pid j).mp task
    have stays : q ∉ gone := fun exits => idle q (.inl exits) pid j before
    exact (moves.stage q).trans ((if_neg stays).trans (ghost.caller q pid j before))
  · intro q j sleeps
    obtain ⟨pid, task⟩ := ghost.asleep q j (moves.woken q j sleeps)
    exact ⟨pid, (moves.task q pid j).mpr task⟩
  · intro q asked j notBusy task
    have before := (moves.task q asked j).mp task
    have keeps : q ∉ given := fun gives => idle q (.inr gives) asked j before
    obtain ⟨c, n, call, waiting⟩ := ghost.waiting q asked j notBusy before
    refine ⟨c, n, call, waiting.keep freed ?_ ?_⟩
    · rcases waiting.awaited with ⟨son, sleeps⟩ | ⟨member, status, notZombie, awake⟩
      · by_cases exits : j ∈ gone
        · -- the child has been freed, and its sleepers with it
          have stage : (w.advance s).stage j = .exited := (moves.stage j).trans (if_pos exits)
          refine .inr ⟨(mem_freed_advance moves used).mpr (.inr ⟨j, exits, son.pid⟩),
            son.pid ▸ (dead j exits).2, by rw [stage]; decide, ?_⟩
          intro sleeps
          obtain ⟨loc, mid⟩ := mid
          exact (mid.watched q j ((mid.linked.mem q _).mp sleeps)).1 (stage_exited.mp stage)
        · refine .inl ⟨Son.moves moves son exits keeps, ?_⟩
          intro alive
          have aliveBefore : w.stage j = .alive :=
            ((moves.stage j).trans (if_neg exits)).symm.trans alive
          refine moves.asleep q j ?_ (sleeps aliveBefore)
          intro wakes
          rcases dull j wakes with exits' | zombie
          · exact exits exits'
          · exact nomatch aliveBefore.symm.trans zombie
      · refine .inr ⟨freed n member, status, ?_, fun sleeps => awake (moves.woken q j sleeps)⟩
        intro zombie
        exact notZombie ((stageBefore j (by rw [zombie]; decide)).1.symm.trans zombie)
    · intro k m son
      by_cases exits : k ∈ gone
      · exact .inl ((mem_freed_advance moves used).mpr (.inr ⟨k, exits, son.pid⟩))
      · exact .inr (Son.moves moves son exits keeps)

theorem advance_eq (same : ∀ i, (s.pcb i).used = (w.sched.pcb i).used) :
    w.advance s = { w with sched := s } := by
  have none : w.gone s = [] := by simp [Watched.gone, same]
  simp [Watched.advance, none]

theorem Ghost.stays (ghost : Ghost w busy leaving) (moves : Moves w.sched s [] [] opened)
    (mid : ∃ loc, Mid s loc) (dull : ∀ j ∈ opened, w.stage j = .zombie) :
    Ghost { w with sched := s } busy leaving := by
  rw [← advance_eq moves.used]
  refine ghost.moves moves mid nofun ?_ (fun j taken => .inr (dull j taken))
    fun x leaves => .inr leaves
  rintro y (taken | taken)
  · cases taken
  · cases taken

theorem Ghost.congr (ghost : Ghost w busy leaving) (sched : w'.sched = w.sched)
    (status : w'.exitStatus = w.exitStatus) (exited : w'.exited = w.exited)
    (freed : w'.freed = w.freed) (call : ∀ q, busy ≠ some q → w'.call q = w.call q) :
    Ghost w' busy leaving := by
  obtain ⟨s, e, x, f, c, r⟩ := w
  obtain ⟨s', e', x', f', c', r'⟩ := w'
  dsimp only at sched status exited freed call
  subst sched status exited freed
  refine { ghost with waiting := ?_ }
  intro q pid j notBusy task
  obtain ⟨c, n, own, waiting⟩ := ghost.waiting q pid j notBusy task
  exact ⟨c, n, (call q notBusy).trans own, { waiting with }⟩

theorem Ghost.engage (ghost : Ghost w none leaving) (p : Index) : Ghost w (some p) leaving :=
  { ghost with waiting := fun q pid j _ => ghost.waiting q pid j (Option.some_ne_none q).symm }

theorem Ghost.settle (ghost : Ghost w (some p) leaving)
    (own : ∀ pid i, w.sched.task p = .wait4 pid i →
      ∃ c n, w.call p = some c ∧ Waiting w p pid i c n) : Ghost w none leaving := by
  refine { ghost with waiting := ?_ }
  intro q pid j _ task
  rcases eq_or_ne q p with rfl | same
  · exact own pid j task
  · exact ghost.waiting q pid j (fun eq => same (Option.some.inj eq).symm) task

structure Alters (s s' : State) (p : Index) : Prop where
  pid : ∀ i, (s'.pcb i).pid = (s.pcb i).pid
  used : ∀ i, (s'.pcb i).used = (s.pcb i).used
  parent : ∀ i, (s'.pcb i).parent = (s.pcb i).parent
  stage : ∀ i, (s'.pcb i).status.stage = (s.pcb i).status.stage
  processId : s'.processId = s.processId
  lists : ∀ q i, q ≠ p → (q ∈ s'.lists (.wait (.child i)) ↔ q ∈ s.lists (.wait (.child i)))
  task : ∀ q, q ≠ p → s'.task q = s.task q
  own : ∀ i, p ∈ s'.lists (.wait (.child i)) → ∃ pid, s'.task p = .wait4 pid i
  alive : (s.pcb p).status.stage = .alive

theorem Ghost.alters (ghost : Ghost w (some p) leaving) (alters : Alters w.sched s p)
    (mid : ∃ loc, Mid s loc) : Ghost { w with sched := s } (some p) leaving := by
  have used : ∀ j, (s.pcb j).used = true → (w.sched.pcb j).used = true := fun j after =>
    (alters.used j).symm.trans after
  have son : ∀ {q j n}, Son w.sched q j n → Son s q j n := fun {q j n} before =>
    ⟨(alters.used j).trans before.used, (alters.pid j).trans before.pid,
      (alters.parent j).trans before.parent⟩
  refine ⟨mid, ?_, ?_, ?_, ghost.freedOnce, ?_, ?_, ghost.exitedOne, ?_, ?_, ghost.gone, ?_, ?_, ?_⟩
  · intro j after
    exact (alters.pid j).trans_lt ((ghost.pidLt j (used j after)).trans_eq alters.processId.symm)
  · intro j k usedJ usedK same
    exact ghost.pidOne j k (used j usedJ) (used k usedK)
      ((alters.pid j).symm.trans (same.trans (alters.pid k)))
  · exact fun n member => (ghost.freedLt n member).trans_eq alters.processId.symm
  · intro j after
    have before := ghost.live j (used j after)
    rwa [Watched.pid, ← alters.pid j] at before
  · exact fun n e member => (ghost.exitedLt n e member).trans_eq alters.processId.symm
  · intro j stays alive e
    have before := ghost.running j stays ((alters.stage j).symm.trans alive) e
    rwa [Watched.pid, ← alters.pid j] at before
  · intro j zombie
    have before := ghost.zombie j ((alters.stage j).symm.trans zombie)
    rwa [Watched.pid, ← alters.pid j] at before
  · intro q pid j task
    refine (alters.stage q).trans ?_
    by_cases same : q = p
    · rw [same]
      exact alters.alive
    · exact ghost.caller q pid j ((alters.task q same).symm.trans task)
  · intro q j sleeps
    rcases eq_or_ne q p with rfl | same
    · exact alters.own j sleeps
    · obtain ⟨pid, task⟩ := ghost.asleep q j ((alters.lists q j same).mp sleeps)
      exact ⟨pid, (alters.task q same).trans task⟩
  · intro q pid j notBusy task
    have same : q ≠ p := fun eq => notBusy (congrArg some eq.symm)
    obtain ⟨c, n, call, waiting⟩ := ghost.waiting q pid j notBusy ((alters.task q same).symm.trans task)
    refine ⟨c, n, call, waiting.keep (fun _ => id) ?_ fun k m before => .inr (son before)⟩
    rcases waiting.awaited with ⟨before, sleeps⟩ | ⟨member, status, notZombie, awake⟩
    · refine .inl ⟨son before, ?_⟩
      intro alive
      exact (alters.lists q j same).mpr (sleeps ((alters.stage j).symm.trans alive))
    · refine .inr ⟨member, status, ?_, fun sleeps => awake ((alters.lists q j same).mp sleeps)⟩
      intro zombie
      exact notZombie ((alters.stage j).symm.trans zombie)

theorem setTask_alters (running : (s.pcb p).status = .running) (mid : Mid s loc) (t : Task) :
    Alters s (s.setTask p t) p := by
  refine ⟨fun _ => rfl, fun _ => rfl, fun _ => rfl, fun _ => rfl, rfl, fun _ _ _ => Iff.rfl,
    fun q other => setTask_of_ne other, ?_, by simp [running, Status.stage]⟩
  intro i sleeps
  rw [setTask_lists, mid.linked.mem, (mid.loc_running running).1] at sleeps
  cases sleeps

theorem Ghost.drop (ghost : Ghost w (some p) leaving) (running : (w.sched.pcb p).status = .running)
    (plain : (w.sched.task p).Plain) : Ghost
    { w with sched := w.sched.setTask p .user } none leaving := by
  obtain ⟨loc, mid⟩ := ghost.mid
  have alters := setTask_alters running mid .user
  refine (ghost.alters alters ⟨loc, mid.setTask plain plain_user⟩).settle ?_
  intro pid i task
  rw [setTask_self] at task
  cases task

theorem Ghost.init (ghost : Ghost w none none) {x : Index}
    (running : (w.sched.pcb p).status = .running)
    (making : w.sched.task p = .making x) (mode : Mode) (sigchld : Bool)
    (mid' : ∃ loc, Mid (initPcb w.sched p x mode sigchld) loc) :
    Ghost { w with sched := initPcb w.sched p x mode sigchld } none none := by
  obtain ⟨loc, mid⟩ := ghost.mid
  have exited := mid.making p x making
  have unused : (w.sched.pcb x).used ≠ true := by
    rw [(mid.used x).mpr exited]
    decide
  have awake : ∀ j, ¬ w.SleepsOn x j := by
    intro j sleeps
    rw [Watched.SleepsOn, mid.linked.mem, mid.apart x ⟨p, .inl making⟩] at sleeps
    cases sleeps
  have pcb : ∀ j, j ≠ x → (initPcb w.sched p x mode sigchld).pcb j = w.sched.pcb j :=
    fun j other => update_of_ne other ..
  have new : (initPcb w.sched p x mode sigchld).pcb x =
      ⟨.ready, true, mode, sigchld, some p, w.sched.processId⟩ := update_self ..
  have lists : ∀ q j, q ∈ (initPcb w.sched p x mode sigchld).lists (.wait (.child j)) →
      w.SleepsOn q j ∧ j ≠ x := by
    intro q j sleeps
    rcases eq_or_ne j x with rfl | own
    · simp [initPcb, initList] at sleeps
    · refine ⟨?_, own⟩
      have other : Head.wait (.child j) ≠ .wait (.child x) := fun same => own (by cases same; rfl)
      simpa [initPcb, initList, other] using sleeps
  have still : ∀ q j, j ≠ x → w.SleepsOn q j →
      q ∈ (initPcb w.sched p x mode sigchld).lists (.wait (.child j)) := by
    intro q j own sleeps
    have other : Head.wait (.child j) ≠ .wait (.child x) := fun same => own (by cases same; rfl)
    simpa [initPcb, initList, other] using sleeps
  have task : ∀ q pid j, (initPcb w.sched p x mode sigchld).task q = .wait4 pid j ↔
      w.sched.task q = .wait4 pid j ∧ q ≠ x := by
    intro q pid j
    rcases eq_or_ne q p with rfl | maker
    · simp [initPcb, making]
    · rcases eq_or_ne q x with rfl | own
      · simp [initPcb, maker]
      · simp [initPcb, maker, own]
  have son : ∀ {q j n}, Son w.sched q j n → Son (initPcb w.sched p x mode sigchld) q j n := by
    intro q j n before
    have other : j ≠ x := by
      rintro rfl
      exact unused before.used
    have same := pcb j other
    exact ⟨by rw [same]; exact before.used, by rw [same]; exact before.pid,
      by rw [same]; exact before.parent⟩
  have more : (initPcb w.sched p x mode sigchld).processId = w.sched.processId + 1 := rfl
  refine ⟨mid', ?_, ?_, ?_, ghost.freedOnce, ?_, ?_, ghost.exitedOne, ?_, ?_, ghost.gone, ?_, ?_, ?_⟩
  · intro j used
    rcases eq_or_ne j x with rfl | own
    · rw [Watched.pid, new, more]
      exact lt_succ_self _
    · rw [pcb j own] at used
      rw [Watched.pid, pcb j own, more]
      exact lt_succ_of_lt (ghost.pidLt j used)
  · intro j k usedJ usedK same
    by_cases ownJ : j = x <;> by_cases ownK : k = x
    · rw [ownJ, ownK]
    · subst ownJ
      rw [pcb k ownK] at usedK
      rw [Watched.pid, Watched.pid, new, pcb k ownK] at same
      exact absurd (ghost.pidLt k usedK) (by rw [Watched.pid, ← same]; exact lt_irrefl _)
    · subst ownK
      rw [pcb j ownJ] at usedJ
      rw [Watched.pid, Watched.pid, new, pcb j ownJ] at same
      exact absurd (ghost.pidLt j usedJ) (by rw [Watched.pid, same]; exact lt_irrefl _)
    · rw [pcb j ownJ] at usedJ
      rw [pcb k ownK] at usedK
      rw [Watched.pid, Watched.pid, pcb j ownJ, pcb k ownK] at same
      exact ghost.pidOne j k usedJ usedK same
  · exact fun n member => lt_succ_of_lt (ghost.freedLt n member)
  · intro j used member
    rcases eq_or_ne j x with rfl | own
    · rw [Watched.pid, new] at member
      exact lt_irrefl _ (ghost.freedLt _ member)
    · rw [pcb j own] at used
      rw [Watched.pid, pcb j own] at member
      exact ghost.live j used member
  · exact fun n e member => lt_succ_of_lt (ghost.exitedLt n e member)
  · intro j stays alive e member
    rcases eq_or_ne j x with rfl | own
    · rw [Watched.pid, new] at member
      exact lt_irrefl _ (ghost.exitedLt _ e member)
    · rw [Watched.stage, pcb j own] at alive
      rw [Watched.pid, pcb j own] at member
      exact ghost.running j stays alive e member
  · intro j zombie
    have own : j ≠ x := by
      rintro rfl
      rw [Watched.stage, new] at zombie
      cases zombie
    rw [Watched.stage, pcb j own] at zombie
    rw [Watched.pid, pcb j own]
    exact ghost.zombie j zombie
  · intro q pid j waits
    obtain ⟨before, own⟩ := (task q pid j).mp waits
    rw [Watched.stage, pcb q own]
    exact ghost.caller q pid j before
  · intro q j sleeps
    obtain ⟨before, -⟩ := lists q j sleeps
    obtain ⟨pid, waits⟩ := ghost.asleep q j before
    refine ⟨pid, (task q pid j).mpr ⟨waits, ?_⟩⟩
    rintro rfl
    exact awake j before
  · intro q pid j notBusy waits
    obtain ⟨before, own⟩ := (task q pid j).mp waits
    obtain ⟨c, n, call, waiting⟩ := ghost.waiting q pid j notBusy before
    refine ⟨c, n, call, waiting.keep (fun _ => id) ?_ fun k m before => .inr (son before)⟩
    rcases waiting.awaited with ⟨child, sleeps⟩ | ⟨member, status, notZombie, awake⟩
    · have other : j ≠ x := by
        rintro rfl
        exact unused child.used
      refine .inl ⟨son child, ?_⟩
      intro alive
      rw [Watched.stage, pcb j other] at alive
      exact still q j other (sleeps alive)
    · refine .inr ⟨member, status, ?_, fun sleeps => awake (lists q j sleeps).1⟩
      rcases eq_or_ne j x with rfl | reused
      · rw [Watched.stage, new]
        exact fun same => by cases same
      · rw [Watched.stage, pcb j reused]
        exact notZombie

end CCore.Sched
