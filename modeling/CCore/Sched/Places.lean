import CCore.Sched.Queues

/-!
# Statuses and places

`Mid` ties the status of every PCB to the list its node is in.  It holds inside the
functions of the scheduler too, where the current process may have stopped running;
`do_scheduler` then picks one that runs.  A PCB that is being set up is in no list and
known to its maker alone, so the maker must not leave before it is done.
-/
namespace CCore.Sched

open Shelves Function List

def Task.SetsUp (t : Task) (x : Index) : Prop := t = .making x ∨ t = .made x

def Task.Plain (t : Task) : Prop := ∀ x, ¬ t.SetsUp x

def SettingUp (s : State) (x : Index) : Prop := ∃ p, (s.task p).SetsUp x

structure ConsistentAt (s : State) (i : Index) : Prop where
  oneList : ∀ h h', i ∈ s.lists h → i ∈ s.lists h' → h = h'
  once : ∀ h, (s.lists h).count i ≤ 1
  ready : (s.pcb i).status = .ready → (s.lists .ready).count i = 1
  blocked : (s.pcb i).status = .blocked → ∃! q, i ∈ s.lists (.wait q)
  running : (s.pcb i).status = .running → s.current = some i ∧ ∀ h, i ∉ s.lists h
  unused : (s.pcb i).used = false → (s.lists .free).count i = 1

def Consistent (s : State) : Prop := ∀ i, ¬ SettingUp s i → ConsistentAt s i

/-! ## The invariant -/

/-- Where the node of a PCB with this status is. -/
def Fits (current : Option Index) (i : Index) : Status → Option Head → Prop
  | .ready, l => l = some .ready
  | .blocked, l => ∃ q, l = some (.wait q)
  | .running, l => l = none ∧ current = some i
  | .zombie, l => l = none
  | .exited, l => l = some .free

structure Mid (s : State) (loc : Index → Option Head) : Prop where
  linked : Linked s.lists loc
  fits : ∀ i, ¬ SettingUp s i → Fits s.current i (s.pcb i).status (loc i)
  used : ∀ i, (s.pcb i).used = false ↔ (s.pcb i).status = .exited
  apart : ∀ i, SettingUp s i → loc i = none
  making : ∀ p x, s.task p = .making x → (s.pcb x).status = .exited
  made : ∀ p x, s.task p = .made x → (s.pcb x).status = .ready ∧ (s.pcb x).parent = some p
  maker : ∀ p p' x, (s.task p).SetsUp x → (s.task p').SetsUp x → p = p'
  alive : ∀ p x, (s.task p).SetsUp x →
    (s.pcb p).status ≠ .zombie ∧ (s.pcb p).status ≠ .exited ∧ ¬ SettingUp s p
  watched : ∀ w j, loc w = some (.wait (.child j)) → (s.pcb j).status ≠ .exited ∧ ¬ SettingUp s j

def Inv (s : State) : Prop :=
  ∃ loc, Mid s loc ∧ ∀ i, s.current = some i → (s.pcb i).status = .running

section Fields
variable (s : State) (i : Index) (b : Pcb) (status : Status) (t : Task)

@[simp] theorem setPcb_lists : (s.setPcb i b).lists = s.lists := rfl
@[simp] theorem setPcb_current : (s.setPcb i b).current = s.current := rfl
@[simp] theorem setPcb_task : (s.setPcb i b).task = s.task := rfl
@[simp] theorem setPcb_self : (s.setPcb i b).pcb i = b := update_self ..
@[simp] theorem setTask_lists : (s.setTask i t).lists = s.lists := rfl
@[simp] theorem setTask_current : (s.setTask i t).current = s.current := rfl
@[simp] theorem setTask_pcb : (s.setTask i t).pcb = s.pcb := rfl
@[simp] theorem setTask_self : (s.setTask i t).task i = t := update_self ..

variable {s i b t}

theorem setPcb_of_ne {j : Index} (other : j ≠ i) : (s.setPcb i b).pcb j = s.pcb j :=
  update_of_ne other ..

theorem setTask_of_ne {j : Index} (other : j ≠ i) : (s.setTask i t).task j = s.task j :=
  update_of_ne other ..

end Fields

variable {i : Index}

section Status
variable {s : State} {loc : Index → Option Head}

section
variable (mid : Mid s loc)
include mid

theorem Mid.status_of_settingUp (up : SettingUp s i) :
    (s.pcb i).status = .exited ∨ (s.pcb i).status = .ready := by
  obtain ⟨p, making | made⟩ := up
  · exact .inl (mid.making p i making)
  · exact .inr (mid.made p i made).1

theorem Mid.settled (notExited : (s.pcb i).status ≠ .exited)
    (notReady : (s.pcb i).status ≠ .ready) : ¬ SettingUp s i :=
  fun up => (mid.status_of_settingUp up).elim notExited notReady

theorem Mid.settled_of_loc {h : Head} (there : loc i = some h) : ¬ SettingUp s i := by
  intro up
  rw [mid.apart i up] at there
  cases there

theorem Mid.status_of_loc {h : Head} (there : loc i = some h) :
    (s.pcb i).status = match h with | .ready => .ready | .free => .exited | .wait _ => .blocked := by
  have fits := mid.fits i (mid.settled_of_loc there)
  rw [there] at fits
  cases status : (s.pcb i).status <;> rw [status] at fits
  case blocked =>
      obtain ⟨q, at_⟩ := fits
      cases at_
      rfl
  case running => cases fits.1
  case zombie => cases fits
  all_goals
    cases fits
    rfl

theorem Mid.loc_running (running : (s.pcb i).status = .running) :
    loc i = none ∧ s.current = some i := by
  have fits := mid.fits i (mid.settled (by simp [running]) (by simp [running]))
  rw [running] at fits
  exact fits

theorem Mid.loc_zombie (zombie : (s.pcb i).status = .zombie) : loc i = none := by
  have fits := mid.fits i (mid.settled (by simp [zombie]) (by simp [zombie]))
  rw [zombie] at fits
  exact fits

theorem Mid.loc_blocked (blocked : (s.pcb i).status = .blocked) : ∃ q, loc i = some (.wait q) := by
  have fits := mid.fits i (mid.settled (by simp [blocked]) (by simp [blocked]))
  rw [blocked] at fits
  exact fits

theorem Mid.used_of (alive : (s.pcb i).status ≠ .exited) : (s.pcb i).used = true := by
  rw [← Bool.not_eq_false, mid.used]
  exact alive

end

theorem Inv.consistent (inv : Inv s) : Consistent s := by
  obtain ⟨loc, mid, _⟩ := inv
  intro i settled
  have fits := mid.fits i settled
  have once : ∀ {h : Head}, loc i = some h → (s.lists h).count i = 1 := fun {h} there =>
    count_eq_one_of_mem (mid.linked.nodup h) ((mid.linked.mem i h).mpr there)
  constructor
  · exact fun h h' here there => mid.linked.one here there
  · exact fun h => nodup_iff_count_le_one.mp (mid.linked.nodup h) i
  · intro ready
    rw [ready] at fits
    exact once fits
  · intro blocked
    obtain ⟨q, there⟩ := mid.loc_blocked blocked
    refine ⟨q, (mid.linked.mem i _).mpr there, ?_⟩
    intro q' member
    have same := there.symm.trans ((mid.linked.mem i _).mp member)
    cases same
    rfl
  · intro running
    obtain ⟨away, current⟩ := mid.loc_running running
    refine ⟨current, ?_⟩
    intro h member
    rw [mid.linked.mem, away] at member
    cases member
  · intro unused
    rw [(mid.used i).mp unused] at fits
    exact once fits

end Status

/-! ## What one change of a PCB keeps -/

section Changes
variable {s : State} {loc : Index → Option Head} {p x : Index}

theorem Mid.move (mid : Mid s loc) {b : Pcb} {lists : Head → List Index} {l : Option Head}
    (linked : Linked lists (update loc i l)) (settled : ¬ SettingUp s i)
    (fits : Fits s.current i b.status l) (used : b.used = false ↔ b.status = .exited)
    (alive : (s.task i).Plain ∨ b.status ≠ .zombie ∧ b.status ≠ .exited)
    (watched : ∀ j, l = some (.wait (.child j)) → (s.pcb j).status ≠ .exited ∧ ¬ SettingUp s j)
    (unwatched : b.status = .exited → ∀ w, loc w ≠ some (.wait (.child i))) :
    Mid { s.setPcb i b with lists } (update loc i l) := by
  have other : ∀ {j}, SettingUp s j → j ≠ i := by
    rintro j up rfl
    exact settled up
  refine ⟨linked, ?_, ?_, ?_, ?_, ?_, mid.maker, ?_, ?_⟩
  · intro j notUp
    rcases eq_or_ne j i with rfl | same
    · simpa using fits
    · rw [update_of_ne same]
      simpa [setPcb_of_ne same] using mid.fits j notUp
  · intro j
    rcases eq_or_ne j i with rfl | same
    · simpa using used
    · simpa [setPcb_of_ne same] using mid.used j
  · intro j up
    rw [update_of_ne (other up)]
    exact mid.apart j up
  · intro q y making
    have ne : y ≠ i := other ⟨q, .inl making⟩
    simpa [setPcb_of_ne ne] using mid.making q y making
  · intro q y made
    have ne : y ≠ i := other ⟨q, .inr made⟩
    simpa [setPcb_of_ne ne] using mid.made q y made
  · intro q y sets
    obtain ⟨notZombie, notExited, notUp⟩ := mid.alive q y sets
    rcases eq_or_ne q i with rfl | same
    · obtain ⟨zombie, exited⟩ := alive.resolve_left fun plain => plain y sets
      exact ⟨by simpa using zombie, by simpa using exited, notUp⟩
    · exact ⟨by simpa [setPcb_of_ne same] using notZombie,
        by simpa [setPcb_of_ne same] using notExited, notUp⟩
  · intro w j waits
    have before : (s.pcb j).status ≠ .exited ∧ ¬ SettingUp s j := by
      by_cases same : w = i
      · rw [same, update_self] at waits
        exact watched j waits
      · rw [update_of_ne same] at waits
        exact mid.watched w j waits
    refine ⟨?_, before.2⟩
    rcases eq_or_ne j i with rfl | same
    · simp only [setPcb_self]
      intro exited
      by_cases self : w = j
      · rw [self, update_self] at waits
        rw [exited, waits] at fits
        cases fits
      · rw [update_of_ne self] at waits
        exact unwatched exited w waits
    · simpa [setPcb_of_ne same] using before.1

theorem Mid.switch (mid : Mid s loc) (idle : ∀ i, (s.pcb i).status ≠ .running)
    (current : Option Index) : Mid { s with current } loc := by
  refine { mid with fits := ?_ }
  intro i notUp
  have fits := mid.fits i notUp
  cases status : (s.pcb i).status with
  | running => exact absurd status (idle i)
  | _ =>
    rw [status] at fits
    exact fits

theorem settingUp_setTask {t : Task} (was : (s.task p).Plain) (plain : t.Plain) (y : Index) :
    SettingUp (s.setTask p t) y ↔ SettingUp s y := by
  constructor
  · rintro ⟨q, sets⟩
    rcases eq_or_ne q p with rfl | same
    · rw [setTask_self] at sets
      exact absurd sets (plain y)
    · rw [setTask_of_ne same] at sets
      exact ⟨q, sets⟩
  · rintro ⟨q, sets⟩
    have same : q ≠ p := by
      rintro rfl
      exact was y sets
    exact ⟨q, by rwa [setTask_of_ne same]⟩

theorem Mid.setTask (mid : Mid s loc) {t : Task} (was : (s.task p).Plain) (plain : t.Plain) :
    Mid (s.setTask p t) loc := by
  have up := settingUp_setTask was plain
  have back : ∀ {q y}, ((s.setTask p t).task q).SetsUp y → (s.setTask p t).task q = s.task q := by
    intro q y sets
    rcases eq_or_ne q p with rfl | same
    · rw [setTask_self] at sets
      exact absurd sets (plain y)
    · exact setTask_of_ne same
  refine ⟨mid.linked, ?_, mid.used, ?_, ?_, ?_, ?_, ?_, ?_⟩
  · intro j notUp
    exact mid.fits j fun before => notUp ((up j).mpr before)
  · exact fun j after => mid.apart j ((up j).mp after)
  · intro q y making
    exact mid.making q y ((back (.inl making)).symm.trans making)
  · intro q y made
    exact mid.made q y ((back (.inr made)).symm.trans made)
  · intro q q' y sets sets'
    rw [back sets] at sets
    rw [back sets'] at sets'
    exact mid.maker q q' y sets sets'
  · intro q y sets
    rw [back sets] at sets
    obtain ⟨notZombie, notExited, notUp⟩ := mid.alive q y sets
    exact ⟨notZombie, notExited, fun after => notUp ((up q).mp after)⟩
  · intro w j waits
    obtain ⟨notExited, notUp⟩ := mid.watched w j waits
    exact ⟨notExited, fun after => notUp ((up j).mp after)⟩

theorem plain_user : Task.user.Plain := by
  rintro x (making | made)
  · cases making
  · cases made

theorem plain_takePcb : Task.takePcb.Plain := by
  rintro x (making | made)
  · cases making
  · cases made

theorem plain_wait4 (pid : Option Nat) (i : Index) : (Task.wait4 pid i).Plain := by
  rintro x (making | made)
  · cases making
  · cases made

section
variable (mid : Mid s loc)
include mid

theorem Mid.take (there : loc x = some .free) (plain : (s.task p).Plain)
    (running : (s.pcb p).status = .running) :
    Mid { s.setTask p (.making x) with lists := unlink s.lists x }
      (update loc x none) := by
  have exited := mid.status_of_loc there
  have settled := mid.settled_of_loc there
  have fresh : ∀ {q}, ¬ (s.task q).SetsUp x := fun sets => settled ⟨_, sets⟩
  have tasks : ∀ {q y}, ((s.setTask p (.making x)).task q).SetsUp y ↔
      q = p ∧ y = x ∨ q ≠ p ∧ (s.task q).SetsUp y := by
    intro q y
    rcases eq_or_ne q p with rfl | same
    · simp [Task.SetsUp, eq_comm]
    · simp [same, setTask_of_ne same]
  have up : ∀ {y}, SettingUp (s.setTask p (.making x)) y ↔ y = x ∨ SettingUp s y := by
    intro y
    constructor
    · rintro ⟨q, sets⟩
      rcases tasks.mp sets with ⟨_, new⟩ | ⟨_, old⟩
      · exact .inl new
      · exact .inr ⟨q, old⟩
    · rintro (rfl | ⟨q, old⟩)
      · exact ⟨p, tasks.mpr (.inl ⟨rfl, rfl⟩)⟩
      · have other : q ≠ p := by
          rintro rfl
          exact plain y old
        exact ⟨q, tasks.mpr (.inr ⟨other, old⟩)⟩
  have living : ∀ {q}, (s.pcb q).status ≠ .exited → ¬ SettingUp s q →
      ¬ SettingUp (s.setTask p (.making x)) q := by
    intro q notExited notUp after
    rcases up.mp after with rfl | before
    · exact notExited exited
    · exact notUp before
  refine ⟨mid.linked.unlink x, ?_, mid.used, ?_, ?_, ?_, ?_, ?_, ?_⟩
  · intro i notUp
    have parts := not_or.mp (mt up.mpr notUp)
    rw [update_of_ne parts.1]
    exact mid.fits i parts.2
  · intro i after
    by_cases same : i = x
    · rw [same, update_self]
    · rw [update_of_ne same]
      exact mid.apart i ((up.mp after).resolve_left same)
  · intro q y making
    rcases eq_or_ne q p with rfl | same
    · cases (setTask_self s q _).symm.trans making
      exact exited
    · exact mid.making q y ((setTask_of_ne same).symm.trans making)
  · intro q y made
    rcases eq_or_ne q p with rfl | same
    · cases (setTask_self s q _).symm.trans made
    · exact mid.made q y ((setTask_of_ne same).symm.trans made)
  · intro q q' y sets sets'
    rcases tasks.mp sets with ⟨rfl, rfl⟩ | ⟨_, old⟩
    · rcases tasks.mp sets' with ⟨rfl, _⟩ | ⟨_, old'⟩
      · rfl
      · exact absurd old' fresh
    · rcases tasks.mp sets' with ⟨_, rfl⟩ | ⟨_, old'⟩
      · exact absurd old fresh
      · exact mid.maker q q' y old old'
  · intro q y sets
    rcases tasks.mp sets with ⟨rfl, _⟩ | ⟨_, old⟩
    · have notExited : (s.pcb q).status ≠ .exited := by simp [running]
      exact ⟨by simp [running], notExited,
        living notExited (mid.settled notExited (by simp [running]))⟩
    · obtain ⟨notZombie, notExited, notUp⟩ := mid.alive q y old
      exact ⟨notZombie, notExited, living notExited notUp⟩
  · intro w j waits
    have other : w ≠ x := by
      rintro rfl
      rw [update_self] at waits
      cases waits
    rw [update_of_ne other] at waits
    obtain ⟨notExited, notUp⟩ := mid.watched w j waits
    exact ⟨notExited, living notExited notUp⟩

theorem Mid.initList_eq (up : SettingUp s x) : initList s (.wait (.child x)) = s := by
  have empty : s.lists (.wait (.child x)) = [] := by
    rw [eq_nil_iff_forall_not_mem]
    intro w member
    exact (mid.watched w x ((mid.linked.mem w _).mp member)).2 up
  rw [initList, ← empty, update_eq_self]

theorem Mid.fill (making : s.task p = .making x) {b : Pcb}
    (ready : b.status = .ready) (used : b.used = true) (parent : b.parent = some p)
    (processId : Nat) : Mid { (s.setPcb x b).setTask p (.made x) with processId } loc := by
  have sets : (s.task p).SetsUp x := .inl making
  have exited := mid.making p x making
  have tasks : ∀ {q y}, ((s.setTask p (.made x)).task q).SetsUp y ↔ (s.task q).SetsUp y := by
    intro q y
    rcases eq_or_ne q p with rfl | maker
    · rw [setTask_self, making]
      simp [Task.SetsUp]
    · rw [setTask_of_ne maker]
  have up : ∀ {y}, SettingUp (s.setTask p (.made x)) y ↔ SettingUp s y :=
    exists_congr fun _ => tasks
  have apart : ∀ {q y}, q ≠ p → (s.task q).SetsUp y → y ≠ x := by
    rintro q y other old rfl
    exact other (mid.maker q p y old sets)
  refine ⟨mid.linked, ?_, ?_, fun i after => mid.apart i (up.mp after), ?_, ?_,
    fun q q' y first second => mid.maker q q' y (tasks.mp first) (tasks.mp second), ?_, ?_⟩
  · intro i notUp
    have before := mt up.mpr notUp
    have ne : i ≠ x := by
      rintro rfl
      exact before ⟨p, sets⟩
    simpa [setPcb_of_ne ne] using mid.fits i before
  · intro i
    rcases eq_or_ne i x with rfl | new
    · simp [ready, used]
    · simpa [setPcb_of_ne new] using mid.used i
  · intro q y after
    rcases eq_or_ne q p with rfl | maker
    · cases (setTask_self s q _).symm.trans after
    · have old := (setTask_of_ne maker).symm.trans after
      simpa [setPcb_of_ne (apart maker (.inl old))] using mid.making q y old
  · intro q y after
    rcases eq_or_ne q p with rfl | maker
    · cases (setTask_self s q _).symm.trans after
      simp [ready, parent]
    · have old := (setTask_of_ne maker).symm.trans after
      simpa [setPcb_of_ne (apart maker (.inr old))] using mid.made q y old
  · intro q y after
    obtain ⟨notZombie, notExited, notUp⟩ := mid.alive q y (tasks.mp after)
    have ne : q ≠ x := by
      rintro rfl
      exact notExited exited
    exact ⟨by simpa [setPcb_of_ne ne] using notZombie, by simpa [setPcb_of_ne ne] using notExited,
      mt up.mp notUp⟩
  · intro w j waits
    obtain ⟨notExited, notUp⟩ := mid.watched w j waits
    have ne : j ≠ x := by
      rintro rfl
      exact notUp ⟨p, sets⟩
    exact ⟨by simpa [setPcb_of_ne ne] using notExited, mt up.mp notUp⟩

theorem Mid.init (making : s.task p = .making x) (mode : Mode)
    (sigchld : Bool) : Mid (initPcb s p x mode sigchld) loc := by
  have exited := mid.making p x making
  have idle : (s.task x).Plain := fun y sets => (mid.alive x y sets).2.1 exited
  have other : p ≠ x := by
    rintro rfl
    exact idle p (.inl making)
  rw [initPcb, mid.initList_eq ⟨p, .inl making⟩]
  exact (mid.setTask idle plain_user).fill ((setTask_of_ne other).trans making) rfl rfl rfl _

theorem Mid.addReady_eq (made : s.task p = .made x) :
    addReady s p x = { s.setTask p .user with lists := push s.lists .ready x } := by
  rw [addReady, mid.initList_eq ⟨p, .inr made⟩, ite_self]

theorem Mid.enqueue (made : s.task p = .made x) :
    Mid { s.setTask p .user with lists := push s.lists .ready x }
      (update loc x (some .ready)) := by
  have sets : (s.task p).SetsUp x := .inr made
  have away := mid.apart x ⟨p, sets⟩
  have tasks : ∀ {q y}, ((s.setTask p .user).task q).SetsUp y ↔ q ≠ p ∧ (s.task q).SetsUp y := by
    intro q y
    rcases eq_or_ne q p with rfl | maker
    · rw [setTask_self]
      simpa using plain_user y
    · simp [maker, setTask_of_ne maker]
  have up : ∀ {y}, SettingUp (s.setTask p .user) y ↔ y ≠ x ∧ SettingUp s y := by
    intro y
    constructor
    · rintro ⟨q, after⟩
      obtain ⟨other, old⟩ := tasks.mp after
      refine ⟨?_, q, old⟩
      rintro rfl
      exact other (mid.maker q p y old sets)
    · rintro ⟨ne, q, old⟩
      refine ⟨q, tasks.mpr ⟨?_, old⟩⟩
      rintro rfl
      rw [made] at old
      rcases old with making | same
      · cases making
      · cases same
        exact ne rfl
  refine ⟨mid.linked.push away .ready, ?_, mid.used, ?_, ?_, ?_, ?_, ?_, ?_⟩
  · intro i notUp
    rcases eq_or_ne i x with rfl | new
    · rw [update_self]
      exact (congrArg (Fits s.current i · _) (mid.made p i made).1).mpr rfl
    · rw [update_of_ne new]
      exact mid.fits i fun old => notUp (up.mpr ⟨new, old⟩)
  · intro i after
    obtain ⟨ne, old⟩ := up.mp after
    rw [update_of_ne ne]
    exact mid.apart i old
  · intro q y making
    have other : q ≠ p := (tasks.mp (.inl making)).1
    exact mid.making q y ((setTask_of_ne other).symm.trans making)
  · intro q y made'
    have other : q ≠ p := (tasks.mp (.inr made')).1
    exact mid.made q y ((setTask_of_ne other).symm.trans made')
  · intro q q' y first second
    exact mid.maker q q' y (tasks.mp first).2 (tasks.mp second).2
  · intro q y after
    obtain ⟨notZombie, notExited, notUp⟩ := mid.alive q y (tasks.mp after).2
    exact ⟨notZombie, notExited, fun later => notUp (up.mp later).2⟩
  · intro w j waits
    have other : w ≠ x := by
      rintro rfl
      rw [update_self] at waits
      cases waits
    rw [update_of_ne other] at waits
    obtain ⟨notExited, notUp⟩ := mid.watched w j waits
    exact ⟨notExited, fun later => notUp (up.mp later).2⟩

end
end Changes
end CCore.Sched
