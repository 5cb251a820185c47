import CCore.Lib.Chase
import CCore.Sched.Places

/-!
# Sleeping, waking and exiting

What each function of the scheduler does to the places of the PCBs, and what it leaves
alone: `Moves` is everything that a sleeper in `do_wait4` may rely on.
-/
namespace CCore.Sched

open Shelves Chase Function List
variable {s s' : State} {loc loc' : Index → Option Head} {i p x : Index}

inductive Stage
  | alive
  | zombie
  | exited
  deriving DecidableEq

def Status.stage : Status → Stage
  | .blocked | .running | .ready => .alive
  | .zombie => .zombie
  | .exited => .exited

/-- The processes of `gone` have exited, the sons of `given` may have another parent, and the
waiters of `opened` may have been woken.  All else about the PCBs that does not concern the
CPU is as before. -/
structure Moves (s s' : State) (gone given opened : List Index) : Prop where
  pid : ∀ i, (s'.pcb i).pid = (s.pcb i).pid
  used : ∀ i, (s'.pcb i).used = if i ∈ gone then false else (s.pcb i).used
  stage : ∀ i, (s'.pcb i).status.stage = if i ∈ gone then .exited else (s.pcb i).status.stage
  parent : ∀ i q, (s.pcb i).parent = some q → q ∉ given → (s'.pcb i).parent = some q
  asleep : ∀ w i, i ∉ opened → w ∈ s.lists (.wait (.child i)) → w ∈ s'.lists (.wait (.child i))
  woken : ∀ w i, w ∈ s'.lists (.wait (.child i)) → w ∈ s.lists (.wait (.child i))
  task : ∀ p pid i, s'.task p = .wait4 pid i ↔ s.task p = .wait4 pid i
  processId : s'.processId = s.processId

theorem Moves.refl (s : State) : Moves s s [] [] [] :=
  ⟨fun _ => rfl, fun _ => rfl, fun _ => rfl, fun _ _ same _ => same, fun _ _ _ => id,
    fun _ _ => id, fun _ _ _ => Iff.rfl, rfl⟩

variable {s'' : State} {given gone gone' opened : List Index} {q : Queue}
variable {given' opened' : List Index}

theorem Moves.trans
    (first : Moves s s' gone given opened) (second : Moves s' s'' gone' given' opened') :
    Moves s s'' (gone' ++ gone) (given' ++ given) (opened' ++ opened) := by
  constructor
  · intro i
    rw [second.pid, first.pid]
  · intro i
    rw [second.used, first.used]
    by_cases here : i ∈ gone <;> by_cases there : i ∈ gone' <;> simp [here, there]
  · intro i
    rw [second.stage, first.stage]
    by_cases here : i ∈ gone <;> by_cases there : i ∈ gone' <;> simp [here, there]
  · intro i q son stays
    obtain ⟨there, here⟩ := not_or.mp (mem_append.not.mp stays)
    exact second.parent i q (first.parent i q son here) there
  · intro w i shut sleeps
    obtain ⟨there, here⟩ := not_or.mp (mem_append.not.mp shut)
    exact second.asleep w i there (first.asleep w i here sleeps)
  · exact fun w i sleeps => first.woken w i (second.woken w i sleeps)
  · exact fun p pid i => (second.task p pid i).trans (first.task p pid i)
  · exact second.processId.trans first.processId

theorem Moves.change {b : Pcb} {lists : Head → List Index}
    (pid : b.pid = (s.pcb i).pid) (used : b.used = (s.pcb i).used)
    (stage : b.status.stage = (s.pcb i).status.stage) (parent : b.parent = (s.pcb i).parent)
    (asleep : ∀ w j, j ∉ opened → w ∈ s.lists (.wait (.child j)) → w ∈ lists (.wait (.child j)))
    (woken : ∀ w j, w ∈ lists (.wait (.child j)) → w ∈ s.lists (.wait (.child j))) :
    Moves s { s.setPcb i b with lists } [] [] opened := by
  have field : ∀ {F : Type} (f : Pcb → F), f b = f (s.pcb i) →
      ∀ j, f ((s.setPcb i b).pcb j) = f (s.pcb j) := by
    intro F f same j
    rcases eq_or_ne j i with rfl | own
    · rw [setPcb_self, same]
    · rw [setPcb_of_ne own]
  refine ⟨field Pcb.pid pid, field Pcb.used used, field (fun b => b.status.stage) stage, ?_,
    asleep, woken, fun _ _ _ => Iff.rfl, rfl⟩
  intro j q son _
  exact (field Pcb.parent parent j).trans son

theorem Moves.weaken (moves : Moves s s' gone given opened) (same : ∀ i, i ∈ gone ↔ i ∈ gone')
    (more : ∀ i ∈ given, i ∈ given') (wider : ∀ i ∈ opened, i ∈ opened') :
    Moves s s' gone' given' opened' := by
  refine ⟨moves.pid, ?_, ?_, ?_, ?_, moves.woken, moves.task, moves.processId⟩
  · intro i
    simp only [moves.used i, same i]
  · intro i
    simp only [moves.stage i, same i]
  · exact fun i q son stays => moves.parent i q son fun taken => stays (more q taken)
  · exact fun w i shut => moves.asleep w i fun taken => shut (wider i taken)

theorem Moves.switch (moves : Moves s s' gone given opened)
    (current : Option Index) : Moves s { s' with current } gone given opened :=
  { moves with }

theorem putBack_moves (s : State) : Moves s (putBack s) [] [] [] := by
  unfold putBack
  cases s.current with
  | none => exact .refl s
  | some p =>
    dsimp only
    split
    case isTrue running =>
      refine .change rfl rfl (by simp [running, Status.stage]) rfl ?_ ?_
      · intro w j _ sleeps
        simpa [append] using sleeps
      · intro w j sleeps
        simpa [append] using sleeps
    case isFalse => exact .refl s

section
variable (mid : Mid s loc)
include mid

theorem putBack_mid : ∃ loc', Mid (putBack s) loc' ∧ ∀ i, ((putBack s).pcb i).status ≠ .running := by
  have only : ∀ i, (s.pcb i).status = .running → s.current = some i :=
    fun i running => (mid.loc_running running).2
  unfold putBack
  cases current : s.current with
  | none =>
    refine ⟨loc, mid, ?_⟩
    intro i running
    exact nomatch current.symm.trans (only i running)
  | some p =>
    dsimp only
    split
    case isFalse idle =>
      refine ⟨loc, mid, ?_⟩
      intro i running
      cases current.symm.trans (only i running)
      exact idle running
    case isTrue running =>
      have settled := mid.settled (i := p) (by simp [running]) (by simp [running])
      have alive : (s.pcb p).used = true := mid.used_of (by simp [running])
      refine ⟨_, mid.move (mid.linked.append (mid.loc_running running).1 .ready) settled rfl
        (by simp [alive]) (.inr (by simp)) (by simp) (by simp), ?_⟩
      intro i running'
      rcases eq_or_ne i p with rfl | same
      · simp [State.setStatus] at running'
      · simp only [State.setStatus, setPcb_of_ne same] at running'
        cases current.symm.trans (only i running')
        exact same rfl

theorem pickNext_moves : Moves s (pickNext s) [] [] [] := by
  unfold pickNext
  cases line : s.lists .ready with
  | cons h rest =>
    have member : h ∈ s.lists .ready := line ▸ mem_cons_self
    have ready := mid.status_of_loc ((mid.linked.mem h _).mp member)
    have runs : Moves s { s.setStatus h .running with lists := unlink s.lists h } [] [] [] := by
      refine .change rfl rfl (by simp [ready, Status.stage]) rfl ?_ ?_
      · intro w j _ sleeps
        have other : w ≠ h := by
          rintro rfl
          cases mid.linked.one member sleeps
        exact (mem_erase_of_ne other).mpr sleeps
      · exact fun w j sleeps => mem_of_mem_erase sleeps
    exact runs.switch (some h)
  | nil =>
    cases s.current with
    | none => exact .refl s
    | some p =>
      dsimp only
      split
      · exact .refl s
      · exact (Moves.refl s).switch none

theorem doScheduler_moves : Moves s (doScheduler s) [] [] [] := by
  obtain ⟨loc₁, mid₁, _⟩ := putBack_mid mid
  exact (putBack_moves s).trans (pickNext_moves mid₁)

theorem doScheduler_inv : Inv (doScheduler s) := by
  obtain ⟨loc₁, mid₁, idle⟩ := putBack_mid mid
  unfold doScheduler
  generalize putBack s = s₁ at mid₁ idle
  unfold pickNext
  cases line : s₁.lists .ready with
  | cons h rest =>
    have there : loc₁ h = some .ready := by
      rw [← mid₁.linked.mem, line]
      exact mem_cons_self
    have ready := mid₁.status_of_loc there
    have alive : (s₁.pcb h).used = true := mid₁.used_of (by simp [ready])
    have switched := mid₁.switch idle (some h)
    refine ⟨_, switched.move (mid₁.linked.unlink h) (mid₁.settled_of_loc there) ⟨rfl, rfl⟩
      (b := { s₁.pcb h with status := .running }) (by simp [alive]) (.inr (by simp)) (by simp)
      (by simp), ?_⟩
    intro i same
    cases same
    exact congrArg Pcb.status (setPcb_self s₁ h _)
  | nil =>
    cases current : s₁.current with
    | none =>
      refine ⟨loc₁, mid₁, ?_⟩
      intro i same
      exact nomatch current.symm.trans same
    | some p =>
      dsimp only
      rw [if_neg (idle p)]
      exact ⟨loc₁, mid₁.switch idle none, nofun⟩

section
variable (running : (s.pcb p).status = .running)
include running

section
variable (watched : ∀ j, q = .child j → (s.pcb j).status ≠ .exited ∧ ¬ SettingUp s j)
include watched

theorem blocked_mid : Mid { s.setStatus p .blocked with lists := push s.lists (.wait q) p }
    (update loc p (some (.wait q))) := by
  have alive : (s.pcb p).used = true := mid.used_of (by simp [running])
  refine mid.move (mid.linked.push (mid.loc_running running).1 (.wait q))
    (mid.settled (by simp [running]) (by simp [running])) ⟨q, rfl⟩ (by simp [alive])
    (.inr (by simp)) ?_ (by simp)
  intro j same
  cases same
  exact watched j rfl

theorem doBlock_inv : Inv (doBlock s p q) :=
  doScheduler_inv (blocked_mid mid running watched)

end

theorem doBlock_moves (elsewhere : ∀ j, q ≠ .child j) : Moves s (doBlock s p q) [] [] [] := by
  have mid₁ := blocked_mid mid running fun j same => absurd same (elsewhere j)
  have other : ∀ j, Head.wait (.child j) ≠ .wait q := fun j same =>
    elsewhere j (Head.wait.inj same).symm
  have sleeps : Moves s { s.setStatus p .blocked with lists := push s.lists (.wait q) p }
      [] [] [] := by
    refine .change rfl rfl (by simp [running, Status.stage]) rfl ?_ ?_
    · intro w j _ sleeps
      simpa [push, other j] using sleeps
    · intro w j sleeps
      simpa [push, other j] using sleeps
  exact sleeps.trans (doScheduler_moves mid₁)

end
end

/-! ## Waking -/

/-- Some sleepers have been made ready, and parents of living processes changed. -/
structure Wakes (s : State) (loc : Index → Option Head) (s' : State)
    (loc' : Index → Option Head) : Prop where
  mid : Mid s' loc'
  current : s'.current = s.current
  task : s'.task = s.task
  status : ∀ i, (s'.pcb i).status = (s.pcb i).status ∨
    (s.pcb i).status = .blocked ∧ (s'.pcb i).status = .ready
  parent : ∀ i, (s.pcb i).status = .zombie → (s'.pcb i).parent = (s.pcb i).parent
  waits : ∀ w q, loc' w = some (.wait q) → loc w = some (.wait q)

theorem Wakes.refl (mid : Mid s loc) : Wakes s loc s loc :=
  ⟨mid, rfl, rfl, fun _ => .inl rfl, fun _ _ => rfl, fun _ _ => id⟩

theorem Wakes.keeps (wakes : Wakes s loc s' loc') (awake : (s.pcb i).status ≠ .blocked) :
    (s'.pcb i).status = (s.pcb i).status :=
  (wakes.status i).resolve_right fun woken => awake woken.1

theorem Wakes.keeps_running (wakes : Wakes s loc s' loc')
    (running : ∀ i, s.current = some i → (s.pcb i).status = .running) (i : Index)
    (current : s'.current = some i) : (s'.pcb i).status = .running := by
  have before := running i (wakes.current.symm.trans current)
  exact (wakes.keeps (by simp [before])).trans before

variable {loc'' : Index → Option Head}

theorem Wakes.trans (first : Wakes s loc s' loc')
    (second : Wakes s' loc' s'' loc'') : Wakes s loc s'' loc'' := by
  refine ⟨second.mid, second.current.trans first.current, second.task.trans first.task, ?_, ?_,
    fun w q waits => first.waits w q (second.waits w q waits)⟩
  · intro i
    rcases first.status i with same | ⟨blocked, ready⟩
    · rw [← same]
      exact second.status i
    · exact .inr ⟨blocked, (second.keeps (by simp [ready])).trans ready⟩
  · intro i zombie
    have still := (first.keeps (by simp [zombie])).trans zombie
    exact (second.parent i still).trans (first.parent i zombie)

section
variable (mid : Mid s loc)
include mid

theorem doUnblock_wakes (there : loc p = some (.wait q)) :
    Wakes s loc (doUnblock s p) (update loc p (some .ready)) := by
  have blocked := mid.status_of_loc there
  have alive : (s.pcb p).used = true := mid.used_of (by simp [blocked])
  refine ⟨mid.move (mid.linked.move p .ready) (mid.settled_of_loc there) rfl (by simp [alive])
    (.inr (by simp)) (by simp) (by simp), rfl, rfl, ?_, ?_, ?_⟩
  · intro i
    rcases eq_or_ne i p with rfl | same
    · exact .inr ⟨blocked, congrArg Pcb.status (setPcb_self s i _)⟩
    · exact .inl (congrArg Pcb.status (setPcb_of_ne same))
  · intro i zombie
    have same : i ≠ p := by
      rintro rfl
      rw [blocked] at zombie
      cases zombie
    exact congrArg Pcb.parent (setPcb_of_ne same)
  · intro w q waits
    by_cases same : w = p
    · rw [same, update_self] at waits
      cases waits
    · rwa [update_of_ne same] at waits

theorem doUnblock_moves (there : loc p = some (.wait q)) (opens : ∀ j, q = .child j → j ∈ opened) :
    Moves s (doUnblock s p) [] [] opened := by
  have blocked := mid.status_of_loc there
  refine .change rfl rfl (by simp [blocked, Status.stage]) rfl ?_ ?_
  · intro w j shut sleeps
    have other : w ≠ p := by
      rintro rfl
      have same := there.symm.trans ((mid.linked.mem w _).mp sleeps)
      cases same
      exact shut (opens j rfl)
    have kept : w ∈ (s.lists (.wait (.child j))).erase p := (mem_erase_of_ne other).mpr sleeps
    simpa [push, unlink] using kept
  · intro w j sleeps
    have kept : w ∈ (s.lists (.wait (.child j))).erase p := by simpa [push, unlink] using sleeps
    exact mem_of_mem_erase kept

theorem sendSignal_moves (opens : ∀ j, p ∈ s.lists (.wait (.child j)) → j ∈ opened) :
    Moves s (sendSignal s p) [] [] opened := by
  unfold sendSignal
  split
  case isTrue blocked =>
    obtain ⟨q, there⟩ := mid.loc_blocked blocked
    refine doUnblock_moves mid there ?_
    rintro j rfl
    exact opens j ((mid.linked.mem p _).mpr there)
  case isFalse => exact (Moves.refl s).weaken (fun _ => Iff.rfl) (fun _ => id) nofun

theorem sendSignal_wakes (p : Index) : ∃ loc', Wakes s loc (sendSignal s p) loc' := by
  unfold sendSignal
  split
  case isTrue blocked =>
    obtain ⟨q, there⟩ := mid.loc_blocked blocked
    exact ⟨_, doUnblock_wakes mid there⟩
  case isFalse => exact ⟨loc, .refl mid⟩

theorem wakeFirst_wakes (q : Queue) : ∃ loc', Wakes s loc (wakeFirst s q) loc' := by
  unfold wakeFirst
  cases line : s.lists (.wait q) with
  | nil => exact ⟨loc, .refl mid⟩
  | cons p rest =>
    have there : loc p = some (.wait q) := by
      rw [← mid.linked.mem, line]
      exact mem_cons_self
    exact ⟨_, doUnblock_wakes mid there⟩

theorem wakeFirst_moves (elsewhere : ∀ j, q ≠ .child j) : Moves s (wakeFirst s q) [] [] [] := by
  unfold wakeFirst
  cases line : s.lists (.wait q) with
  | nil => exact .refl s
  | cons p rest =>
    have member : p ∈ s.lists (.wait q) := line ▸ mem_cons_self
    exact doUnblock_moves mid ((mid.linked.mem p _).mp member) fun j same =>
      absurd same (elsewhere j)

theorem wakePages_moves (n : Nat) : Moves s (wakePages n s) [] [] [] := by
  induction n generalizing s loc with
  | zero => exact .refl s
  | succ n ih =>
    obtain ⟨loc₁, first⟩ := wakeFirst_wakes mid .pages
    exact (wakeFirst_moves (q := .pages) mid nofun).trans (ih first.mid)

theorem wakePages_wakes (n : Nat) : ∃ loc', Wakes s loc (wakePages n s) loc' := by
  induction n generalizing s loc with
  | zero => exact ⟨loc, .refl mid⟩
  | succ n ih =>
    obtain ⟨loc₁, first⟩ := wakeFirst_wakes mid .pages
    obtain ⟨loc₂, others⟩ := ih first.mid
    exact ⟨loc₂, first.trans others⟩

theorem signalParent_wakes (p : Index) : ∃ loc', Wakes s loc (signalParent s p) loc' := by
  unfold signalParent
  split
  · exact sendSignal_wakes mid _
  · exact ⟨loc, .refl mid⟩

theorem wakeWaiters_wakes (waiters : List Index)
    (all : ∀ w, loc w = some (.wait (.child x)) → w ∈ waiters) :
    ∃ loc', Wakes s loc (waiters.foldl wakeWaiter s) loc' ∧
      ∀ w, loc' w ≠ some (.wait (.child x)) := by
  induction waiters generalizing s loc with
  | nil => exact ⟨loc, .refl mid, fun w waits => nomatch all w waits⟩
  | cons w rest ih =>
    rw [foldl_cons]
    unfold wakeWaiter
    split
    case isTrue blocked =>
      obtain ⟨q, there⟩ := mid.loc_blocked blocked
      have woken := doUnblock_wakes mid there
      have left : ∀ v, update loc w (some .ready) v = some (.wait (.child x)) → v ∈ rest := by
        intro v waits
        have ne : v ≠ w := by
          rintro rfl
          rw [update_self] at waits
          cases waits
        rw [update_of_ne ne] at waits
        exact (mem_cons.mp (all v waits)).resolve_left ne
      obtain ⟨loc', others, none⟩ := ih woken.mid left
      exact ⟨loc', woken.trans others, none⟩
    case isFalse awake =>
      refine ih mid fun v waits => (mem_cons.mp (all v waits)).resolve_left ?_
      rintro rfl
      exact awake (mid.status_of_loc waits)

theorem wakeWaiters_moves (waiters : List Index) (nodup : waiters.Nodup)
    (each : ∀ w ∈ waiters, loc w = some (.wait (.child x))) :
    Moves s (waiters.foldl wakeWaiter s) [] [] [x] := by
  induction waiters generalizing s loc with
  | nil => exact (Moves.refl s).weaken (fun _ => Iff.rfl) (fun _ => id) nofun
  | cons w rest ih =>
    obtain ⟨fresh, nodup⟩ := nodup_cons.mp nodup
    have there := each w mem_cons_self
    have woken := doUnblock_wakes mid there
    have moves : Moves s (doUnblock s w) [] [] [x] := by
      refine doUnblock_moves mid there ?_
      intro j same
      cases same
      exact mem_singleton.mpr rfl
    rw [foldl_cons, wakeWaiter, if_pos (mid.status_of_loc there)]
    refine (moves.trans (ih woken.mid nodup ?_)).weaken (fun _ => Iff.rfl) (fun _ => id) ?_
    · intro v member
      have other : v ≠ w := by
        rintro rfl
        exact fresh member
      rw [update_of_ne other]
      exact each v (mem_cons_of_mem w member)
    · intro i taken
      simpa using taken

theorem releaseWait_moves (x : Index) : Moves s (releaseWait s x) [] [] [x] :=
  wakeWaiters_moves mid _ (mid.linked.nodup _) fun w member => (mid.linked.mem w _).mp member

theorem releaseWait_wakes (x : Index) :
    ∃ loc', Wakes s loc (releaseWait s x) loc' ∧ ∀ w, loc' w ≠ some (.wait (.child x)) :=
  wakeWaiters_wakes mid _ fun w waits => (mid.linked.mem w _).mpr waits

end

/-! ## Exit -/

/-- The process is on its way out and sets up nothing. -/
structure Leaves (s : State) (x : Index) : Prop where
  plain : (s.task x).Plain
  status : (s.pcb x).status = .zombie ∨ (s.pcb x).status = .running

theorem Mid.leaves_of_zombie (mid : Mid s loc) (zombie : (s.pcb x).status = .zombie) : Leaves s x :=
  ⟨fun y sets => (mid.alive x y sets).1 zombie, .inl zombie⟩

theorem Leaves.not_blocked (leaves : Leaves s x) : (s.pcb x).status ≠ .blocked := by
  rcases leaves.status with status | status <;> simp [status]

theorem Wakes.leaves (wakes : Wakes s loc s' loc') (leaves : Leaves s x) : Leaves s' x := by
  refine ⟨by rw [wakes.task]; exact leaves.plain, ?_⟩
  rw [wakes.keeps leaves.not_blocked]
  exact leaves.status

def isZombieSon (s : State) (x i : Index) : Bool :=
  decide ((s.pcb i).parent = some x ∧ (s.pcb i).used = true ∧ (s.pcb i).status = .zombie)

def firstZombie (s : State) (x : Index) : Option Index :=
  (List.finRange 100).find? (isZombieSon s x)

theorem Wakes.isZombieSon (wakes : Wakes s loc s' loc') (mid : Mid s loc) :
    isZombieSon s' = isZombieSon s := by
  funext x i
  have same : (s'.pcb i).status = .zombie ↔ (s.pcb i).status = .zombie := by
    rcases wakes.status i with same | ⟨blocked, ready⟩
    · rw [same]
    · simp [blocked, ready]
  unfold Sched.isZombieSon
  by_cases zombie : (s.pcb i).status = .zombie
  · rw [wakes.parent i zombie, mid.used_of (i := i) (by simp [zombie]),
      wakes.mid.used_of (i := i) (by simp [same.mpr zombie]), same.mpr zombie, zombie]
  · simp [zombie, mt same.mp zombie]

theorem Wakes.firstZombie (wakes : Wakes s loc s' loc') (mid : Mid s loc) :
    firstZombie s' = firstZombie s := by
  funext x
  unfold Sched.firstZombie
  rw [wakes.isZombieSon mid]

theorem firstZombie_zombie (first : firstZombie s x = some i) : (s.pcb i).status = .zombie := by
  have found : isZombieSon s x i = true := List.find?_some first
  exact (of_decide_eq_true found).2.2

theorem Mid.son_settled (mid : Mid s loc) (leaves : Leaves s x)
    (son : (s.pcb i).parent = some x) (used : (s.pcb i).used = true) : ¬ SettingUp s i := by
  rintro ⟨p, making | made⟩
  · rw [(mid.used i).mpr (mid.making p i making)] at used
    cases used
  · cases son.symm.trans (mid.made p i made).2
    exact leaves.plain i (.inr made)

theorem reparent_wakes (mid : Mid s loc) (settled : ¬ SettingUp s i)
    (notZombie : (s.pcb i).status ≠ .zombie) (used : (s.pcb i).used = true)
    (parent : Option Index) : Wakes s loc (s.setPcb i { s.pcb i with parent }) loc := by
  have notExited : (s.pcb i).status ≠ .exited := by
    intro exited
    rw [(mid.used i).mpr exited] at used
    cases used
  have same := update_eq_self i loc
  have moved := mid.move (i := i) (l := loc i) (b := { s.pcb i with parent })
    (same.symm ▸ mid.linked) settled (mid.fits i settled) (mid.used i)
    (.inr ⟨notZombie, notExited⟩) (fun j waits => mid.watched i j waits)
    fun exited => absurd exited notExited
  rw [same] at moved
  refine ⟨moved, rfl, rfl, ?_, ?_, fun _ _ => id⟩
  · intro j
    rcases eq_or_ne j i with rfl | own
    · exact .inl (by rw [setPcb_self])
    · exact .inl (congrArg Pcb.status (setPcb_of_ne own))
  · intro j zombie
    have own : j ≠ i := by
      rintro rfl
      exact notZombie zombie
    exact congrArg Pcb.parent (setPcb_of_ne own)

theorem reparent_moves (son : (s.pcb i).parent = some x) (parent : Option Index) :
    Moves s (s.setPcb i { s.pcb i with parent }) [] [x] [] := by
  have field : ∀ {F : Type} (f : Pcb → F), f { s.pcb i with parent } = f (s.pcb i) →
      ∀ j, f ((s.setPcb i { s.pcb i with parent }).pcb j) = f (s.pcb j) := by
    intro F f same j
    rcases eq_or_ne j i with rfl | own
    · rw [setPcb_self, same]
    · rw [setPcb_of_ne own]
  refine ⟨field Pcb.pid rfl, field Pcb.used rfl, field (fun b => b.status.stage) rfl, ?_,
    fun _ _ _ => id, fun _ _ => id, fun _ _ _ => Iff.rfl, rfl⟩
  intro j q before stays
  have other : j ≠ i := by
    rintro rfl
    cases son.symm.trans before
    exact stays (mem_singleton.mpr rfl)
  rwa [setPcb_of_ne other]

theorem dealSons_eq (mid : Mid s loc) (leaves : Leaves s x)
    (exitSon : Index → State → Option State) (sons : List Index) :
    ∃ s₁, Wakes s loc s₁ loc ∧ Moves s s₁ [] [x] [] ∧ dealSons exitSon x sons s =
        match sons.find? (isZombieSon s x) with
        | none => some s₁
        | some i => exitSon i s₁ := by
  have stays : Moves s s [] [x] [] :=
    (Moves.refl s).weaken (fun _ => Iff.rfl) nofun fun _ => id
  induction sons generalizing s with
  | nil => exact ⟨s, .refl mid, stays, rfl⟩
  | cons i rest ih =>
    rw [dealSons, List.find?_cons]
    by_cases son : (s.pcb i).parent = some x ∧ (s.pcb i).used = true
    · rw [if_pos son]
      by_cases zombie : (s.pcb i).status = .zombie
      · have found : isZombieSon s x i = true := decide_eq_true ⟨son.1, son.2, zombie⟩
        rw [if_pos zombie, found]
        exact ⟨s, .refl mid, stays, rfl⟩
      · have skipped : isZombieSon s x i = false :=
          decide_eq_false fun found => zombie found.2.2
        rw [if_neg zombie, skipped]
        have given := reparent_wakes mid (mid.son_settled leaves son.1 son.2) zombie son.2
          (s.pcb x).parent
        have gives := reparent_moves son.1 (s.pcb x).parent
        obtain ⟨s₁, wakes, moves, eq⟩ := ih given.mid (given.leaves leaves)
          ((Moves.refl _).weaken (fun _ => Iff.rfl) nofun fun _ => id)
        rw [given.isZombieSon mid] at eq
        refine ⟨s₁, given.trans wakes, (gives.trans moves).weaken (fun _ => Iff.rfl) ?_
          (fun _ => id), eq⟩
        intro q taken
        simpa using taken
    · have skipped : isZombieSon s x i = false :=
        decide_eq_false fun found => son ⟨found.1, found.2.1⟩
      rw [if_neg son, skipped]
      exact ih mid leaves stays

/-- The processes of `gone` have exited; of the others only sleepers have changed. -/
structure Exits (s : State) (loc : Index → Option Head) (s' : State)
    (loc' : Index → Option Head) (gone : List Index) : Prop where
  mid : Mid s' loc'
  current : s'.current = s.current
  task : s'.task = s.task
  status : ∀ i, i ∉ gone → (s.pcb i).status ≠ .blocked → (s'.pcb i).status = (s.pcb i).status
  waits : ∀ w q, loc' w = some (.wait q) → loc w = some (.wait q)

theorem Wakes.exits (wakes : Wakes s loc s' loc') : Exits s loc s' loc' [] :=
  ⟨wakes.mid, wakes.current, wakes.task, fun _ _ awake => wakes.keeps awake, wakes.waits⟩

theorem Exits.trans (first : Exits s loc s' loc' gone) (second : Exits s' loc' s'' loc'' gone') :
    Exits s loc s'' loc'' (gone' ++ gone) := by
  refine ⟨second.mid, second.current.trans first.current, second.task.trans first.task, ?_,
    fun w q waits => first.waits w q (second.waits w q waits)⟩
  intro i stays awake
  rw [mem_append, not_or] at stays
  have same := first.status i stays.2 awake
  rw [← same] at awake ⊢
  exact second.status i stays.1 awake

theorem giveUp_moves (s : State) (x : Index) :
    Moves s { s.setPcb x { s.pcb x with status := .exited, used := false } with
      lists := push s.lists .free x } [x] [] [] := by
  refine ⟨?_, ?_, ?_, ?_, ?_, ?_, fun _ _ _ => Iff.rfl, rfl⟩
  · intro i
    rcases eq_or_ne i x with rfl | own
    · rw [setPcb_self]
    · rw [setPcb_of_ne own]
  · intro i
    rcases eq_or_ne i x with rfl | own
    · simp
    · simp [setPcb_of_ne own, own]
  · intro i
    rcases eq_or_ne i x with rfl | own
    · simp [Status.stage]
    · simp [setPcb_of_ne own, own]
  · intro i q son _
    rcases eq_or_ne i x with rfl | own
    · rwa [setPcb_self]
    · rwa [setPcb_of_ne own]
  · intro w i _ sleeps
    simpa [push] using sleeps
  · intro w i sleeps
    simpa [push] using sleeps

section
variable (mid : Mid s loc) (leaves : Leaves s x) (released : ∀ w, loc w ≠ some (.wait (.child x)))
include mid leaves released

theorem freePcb_exits :
    ∃ loc', Exits s loc (freePcb s x) loc' [x] ∧ Moves s (freePcb s x) [x] [] [] := by
  have away : loc x = none ∧ ¬ SettingUp s x := by
    rcases leaves.status with status | status
    · exact ⟨mid.loc_zombie status, mid.settled (by simp [status]) (by simp [status])⟩
    · exact ⟨(mid.loc_running status).1, mid.settled (by simp [status]) (by simp [status])⟩
  have freed := mid.move (b := { s.pcb x with status := .exited, used := false })
    (mid.linked.push away.1 .free) away.2 rfl (by simp) (.inl leaves.plain) (by simp)
    fun _ => released
  obtain ⟨loc', woken⟩ := wakeFirst_wakes freed .pcbs
  have first : Exits s loc _ _ [x] :=
    ⟨freed, rfl, rfl, ?_, ?_⟩
  · refine ⟨loc', first.trans woken.exits, ?_⟩
    exact (giveUp_moves s x).trans (wakeFirst_moves (q := .pcbs) freed nofun)
  · intro i stays _
    exact congrArg Pcb.status (setPcb_of_ne (ne_of_not_mem_cons stays))
  · intro w q waits
    by_cases same : w = x
    · rw [same, update_self] at waits
      cases waits
    · rwa [update_of_ne same] at waits

theorem recycle_exits (freed : Freed) : ∃ loc', Exits s loc
    (wakePages (freed.after x) (freePcb (wakePages (freed.before x) s) x)) loc' [x] ∧
    Moves s (wakePages (freed.after x) (freePcb (wakePages (freed.before x) s) x)) [x] [] [] := by
  obtain ⟨loc₁, before⟩ := wakePages_wakes mid (freed.before x)
  obtain ⟨loc₂, exits, moves⟩ := freePcb_exits before.mid (before.leaves leaves)
    fun w waits => released w (before.waits w _ waits)
  obtain ⟨loc₃, after⟩ := wakePages_wakes exits.mid (freed.after x)
  exact ⟨loc₃, (before.exits.trans exits).trans after.exits,
    ((wakePages_moves mid _).trans moves).trans (wakePages_moves exits.mid _)⟩

end

theorem handleExitPcb_exits (freed : Freed) (depth : Nat) (mid : Mid s loc) (leaves : Leaves s x)
    (run : handleExitPcb freed depth x s = some s') :
    ∃ path loc', Trail (firstZombie s) x path ∧ Exits s loc s' loc' (x :: path) ∧
      Moves s s' (x :: path) (x :: path) (x :: path) := by
  induction depth generalizing s loc x s' with
  | zero => cases run
  | succ depth ih =>
    obtain ⟨loc₁, woken, released⟩ := releaseWait_wakes mid x
    have leaves₁ := woken.leaves leaves
    obtain ⟨s₂, given, gives, eq⟩ := dealSons_eq woken.mid leaves₁ (handleExitPcb freed depth)
      (List.finRange 100)
    rw [woken.isZombieSon mid] at eq
    have soFar := woken.trans given
    have opens := (releaseWait_moves mid x).trans gives
    have leaves₂ := given.leaves leaves₁
    obtain ⟨s₃, dealt, rest⟩ := Option.bind_eq_some_iff.mp run
    cases rest
    rw [eq] at dealt
    cases first : firstZombie s x with
    | none =>
      rw [← firstZombie, first] at dealt
      cases dealt
      obtain ⟨loc₃, exits, moves⟩ := recycle_exits given.mid leaves₂ released freed
      exact ⟨[], loc₃, first, soFar.exits.trans exits, opens.trans moves⟩
    | some i =>
      rw [← firstZombie, first] at dealt
      have zombie := (soFar.keeps (i := i) (by simp [firstZombie_zombie first])).trans
        (firstZombie_zombie first)
      obtain ⟨path, loc₃, trail, below, deeper⟩ :=
        ih given.mid (given.mid.leaves_of_zombie zombie) dealt
      rw [soFar.firstZombie mid] at trail
      have whole : Trail (firstZombie s) x (i :: path) := ⟨first, trail⟩
      have outside : x ∉ i :: path := (nodup_cons.mp (trail_nodup whole)).1
      have leaves₃ : Leaves s₃ x := by
        refine ⟨by rw [below.task]; exact leaves₂.plain, ?_⟩
        rw [below.status x outside leaves₂.not_blocked]
        exact leaves₂.status
      obtain ⟨loc₄, exits, moves⟩ := recycle_exits below.mid leaves₃
        (fun w waits => released w (below.waits w _ waits)) freed
      have all := (soFar.exits.trans below).trans exits
      rw [append_nil] at all
      refine ⟨i :: path, loc₄, whole, all, ((opens.trans deeper).trans moves).weaken ?_ ?_ ?_⟩
      · intro j
        simp
      all_goals
        intro j taken
        simpa [or_comm, or_assoc, or_left_comm] using taken

theorem trail_zombies {path : List Index} (trail : Trail (firstZombie s) x path) :
    ∀ a ∈ path, (s.pcb a).status = .zombie := by
  induction path generalizing x with
  | nil => exact nofun
  | cons i rest ih =>
    intro a member
    rcases mem_cons.mp member with rfl | later
    · exact firstZombie_zombie trail.1
    · exact ih trail.2 a later

end CCore.Sched
