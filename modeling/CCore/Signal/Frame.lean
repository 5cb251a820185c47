import CCore.Signal.Pending

/-!
# The frame of a handler

`handle_signal` raises `is_handle_signal` before it looks for a signal and lowers it only
on the path of a default action; a user handler lowers it with `do_rt_sigreturn`.  An
ignored signal, and a received signal above `NUM_SIG` alone, leave it raised although no
handler runs, and after an ignored signal the mask of its action stays in force.
-/
namespace CCore.Signal

open Run Option

/-- A process, whether a user handler of it has started and not returned, and the mask it
last set itself. -/
structure Framed where
  proc : Proc
  outstanding : Bool
  own : BitVec 64

/-- Whether `handle_signal` starts a user handler. -/
def startsUser (p : Proc) : Bool :=
  match startsSignal p with
  | none => false
  | some i =>
    match (p.sigactions i).handler with
    | .user _ => true
    | _ => false

/-- A handler ends with `do_rt_sigreturn`, and `do_rt_sigprocmask` is called outside
handlers. -/
def frameStep (s : Framed) : Act → Option Framed
  | .procmask how set =>
    if s.outstanding then none
    else do
      let own ← match set with
        | none => some s.own
        | some set => newMask s.own set how
      let proc ← doRtSigprocmask s.proc how set
      some { s with proc, own }
  | .sigreturn =>
    if s.outstanding then some { s with proc := doRtSigreturn s.proc, outstanding := false }
    else none
  | .handle => do
    let proc ← handleSignal s.proc
    some { s with proc, outstanding := s.outstanding || startsUser s.proc }
  | .send i => some { s with proc := sendSignal s.proc i }
  | .action i act => some { s with proc := doRtSigaction s.proc i act }

/-- `base`, or one frame below it. -/
def displaced (outstanding : Bool) (base : BitVec 64) : BitVec 64 :=
  if outstanding then base - frameSize else base

structure FrameRight (base : Proc) (s : Framed) : Prop where
  flag : s.proc.isHandleSignal = s.outstanding
  kernelSp : s.proc.kernelSp = displaced s.outstanding base.kernelSp
  saveContext : s.proc.saveContext = displaced s.outstanding base.saveContext
  switchContext : s.proc.switchContext = displaced s.outstanding base.switchContext
  mask : s.outstanding = false → s.proc.sigMask = s.own

/-- A call of `handle_signal` that finds a signal received and no handler running finds
one of the first `NUM_SIG` signals, and its action is not to ignore it. -/
def Attended (s : Framed) : Act → Prop
  | .handle =>
    s.proc.sigRecv = 0 ∨ s.proc.isHandleSignal = true ∨
      ∃ i, firstSignal s.proc = some i ∧ (s.proc.sigactions i).handler ≠ .ign
  | _ => True

/-- While a handler runs, the mask of the process is the saved one. -/
structure FrameInv (base : Proc) (s : Framed) : Prop where
  right : FrameRight base s
  saved : s.outstanding = true → s.proc.prevMask = s.own

section Fields
variable (p : Proc) (newmask : BitVec 64) (i : Fin 64)

@[simp] theorem changeSignalMask_mask : (changeSignalMask p newmask).sigMask = newmask := by
  rw [changeSignalMask_eq]

@[simp] theorem changeSignalMask_prev : (changeSignalMask p newmask).prevMask = p.prevMask := by
  rw [changeSignalMask_eq]

@[simp] theorem changeSignalMask_flag :
    (changeSignalMask p newmask).isHandleSignal = p.isHandleSignal := by
  rw [changeSignalMask_eq]

@[simp] theorem changeSignalMask_kernelSp : (changeSignalMask p newmask).kernelSp = p.kernelSp := by
  rw [changeSignalMask_eq]

@[simp] theorem changeSignalMask_saveContext :
    (changeSignalMask p newmask).saveContext = p.saveContext := by
  rw [changeSignalMask_eq]

@[simp] theorem changeSignalMask_switchContext :
    (changeSignalMask p newmask).switchContext = p.switchContext := by
  rw [changeSignalMask_eq]

@[simp] theorem changeSignalMask_sigactions :
    (changeSignalMask p newmask).sigactions = p.sigactions := by
  rw [changeSignalMask_eq]

end Fields

variable {base : Proc} {s next : Framed}

theorem FrameInv.of_fields (inv : FrameInv base s) {proc : Proc}
    (flag : proc.isHandleSignal = s.proc.isHandleSignal)
    (kernelSp : proc.kernelSp = s.proc.kernelSp)
    (saveContext : proc.saveContext = s.proc.saveContext)
    (switchContext : proc.switchContext = s.proc.switchContext)
    (mask : proc.sigMask = s.proc.sigMask) (prev : proc.prevMask = s.proc.prevMask) :
    FrameInv base { s with proc } := by
  refine ⟨⟨flag.trans inv.right.flag, kernelSp.trans inv.right.kernelSp,
    saveContext.trans inv.right.saveContext, switchContext.trans inv.right.switchContext, ?_⟩, ?_⟩
  · exact fun none => mask.trans (inv.right.mask none)
  · exact fun some => prev.trans (inv.saved some)

theorem send_frame (inv : FrameInv base s) (i : Fin 64) :
    FrameInv base { s with proc := sendSignal s.proc i } := by
  apply inv.of_fields
  all_goals
    unfold sendSignal
    split <;> rfl

theorem startsSignal_eq {p : Proc} (received : p.sigRecv ≠ 0) (idle : p.isHandleSignal = false) :
    startsSignal p = firstSignal p := by
  rw [startsSignal, if_neg]
  rintro (none | handling)
  · exact received none
  · rw [idle] at handling
    cases handling

theorem handleSignal_eq {p : Proc} {i : Fin numSig} (received : p.sigRecv ≠ 0)
    (idle : p.isHandleSignal = false) (first : firstSignal p = some i) :
    handleSignal p = runAction (takeSignal p i) i := by
  rw [handleSignal, if_neg, first]
  rintro (none | handling)
  · exact received none
  · rw [idle] at handling
    cases handling

section
variable (inv : FrameInv base s)
include inv

theorem action_frame {i : Fin numSig} {proc : Proc} (idle : s.proc.isHandleSignal = false)
    (starts : startsSignal s.proc = some i) (heeded : (s.proc.sigactions i).handler ≠ .ign)
    (run : runAction (takeSignal s.proc i) i = some proc) :
    FrameInv base { s with proc, outstanding := s.outstanding || startsUser s.proc } := by
  have outside : s.outstanding = false := inv.right.flag.symm.trans idle
  have right := inv.right
  have own := right.mask outside
  rw [startsUser, starts]
  simp only [runAction, takeSignal, changeSignalMask_sigactions] at run
  cases handler : (s.proc.sigactions i).handler with
  | ign => exact absurd handler heeded
  | dfl =>
    simp only [handler, defaultAction] at run ⊢
    obtain ⟨_, run⟩ := ite_none_right_eq_some.mp run
    cases run
    refine ⟨⟨?_, ?_, ?_, ?_, ?_⟩, ?_⟩
    · simp [outside]
    · simpa using right.kernelSp
    · simpa using right.saveContext
    · simpa using right.switchContext
    · simpa [outside] using own
    · simp [outside]
  | user entry =>
    simp only [handler] at run ⊢
    cases run
    have kernelSp := right.kernelSp
    have saveContext := right.saveContext
    have switchContext := right.switchContext
    rw [outside] at kernelSp saveContext switchContext
    refine ⟨⟨?_, ?_, ?_, ?_, ?_⟩, ?_⟩
    · simp [pushFrame]
    · simpa [pushFrame, displaced] using kernelSp
    · simpa [pushFrame, displaced] using saveContext
    · simpa [pushFrame, displaced] using switchContext
    · simp
    · simpa [pushFrame] using own

theorem handle_frame (attended : Attended s .handle)
    (run : frameStep s .handle = some next) : FrameInv base next := by
  obtain ⟨proc, handled, result⟩ := bind_eq_some_iff.mp run
  cases result
  by_cases busy : s.proc.sigRecv = 0 ∨ s.proc.isHandleSignal = true
  · have none : startsUser s.proc = false := by
      rw [startsUser, startsSignal, if_pos busy]
    rw [handleSignal, if_pos busy] at handled
    cases handled
    rw [none, Bool.or_false]
    exact inv
  · rw [not_or, Bool.not_eq_true] at busy
    obtain ⟨received, idle⟩ := busy
    rcases attended with none | handling | ⟨i, first, heeded⟩
    · exact absurd none received
    · rw [idle] at handling
      cases handling
    · rw [handleSignal_eq received idle first] at handled
      exact action_frame inv idle ((startsSignal_eq received idle).trans first) heeded handled

theorem sigreturn_frame (run : frameStep s .sigreturn = some next) : FrameInv base next := by
  obtain ⟨outstanding, run⟩ := ite_none_right_eq_some.mp run
  cases run
  have right := inv.right
  have kernelSp := right.kernelSp
  have saveContext := right.saveContext
  have switchContext := right.switchContext
  rw [outstanding] at kernelSp saveContext switchContext
  refine ⟨⟨rfl, ?_, ?_, ?_, ?_⟩, nofun⟩
  · simp [doRtSigreturn, kernelSp, displaced]
  · simp [doRtSigreturn, saveContext, displaced]
  · simp [doRtSigreturn, switchContext, displaced]
  · intro _
    simpa [doRtSigreturn] using inv.saved outstanding

theorem procmask_frame {how : How} {set : Option (BitVec 64)}
    (run : frameStep s (.procmask how set) = some next) : FrameInv base next := by
  obtain ⟨inside, run⟩ := ite_none_left_eq_some.mp run
  rw [Bool.not_eq_true] at inside
  have own := inv.right.mask inside
  cases set with
  | none =>
    cases run
    exact inv
  | some set =>
    obtain ⟨mask, new, rest⟩ := bind_eq_some_iff.mp run
    obtain ⟨proc, changed, result⟩ := bind_eq_some_iff.mp rest
    cases result
    rw [doRtSigprocmask, own, new] at changed
    cases changed
    exact ⟨{ inv.right with mask := fun _ => rfl },
      fun outstanding => nomatch inside.symm.trans outstanding⟩

end

theorem frame_step (s : Framed) (a : Act) (next : Framed) (inv : FrameInv base s)
    (attended : Attended s a) (run : frameStep s a = some next) : FrameInv base next := by
  cases a with
  | send i =>
    cases run
    exact send_frame inv i
  | procmask how set => exact procmask_frame inv run
  | action i act =>
    cases run
    exact inv.of_fields rfl rfl rfl rfl rfl rfl
  | handle => exact handle_frame inv attended run
  | sigreturn => exact sigreturn_frame inv run

theorem unattended_breaks (s : Framed) (a : Act) (next : Framed) (inv : FrameInv base s)
    (unattended : ¬ Attended s a) (run : frameStep s a = some next) : ¬ FrameRight base next := by
  cases a with
  | handle =>
    obtain ⟨received, others⟩ := not_or.mp unattended
    obtain ⟨idle, ignored⟩ := not_or.mp others
    rw [Bool.not_eq_true] at idle
    have outside : s.outstanding = false := inv.right.flag.symm.trans idle
    obtain ⟨proc, handled, result⟩ := bind_eq_some_iff.mp run
    cases result
    intro right
    have flag := right.flag
    have starts := startsSignal_eq received idle
    cases first : firstSignal s.proc with
    | none =>
      rw [handleSignal, if_neg (not_or.mpr ⟨received, by simp [idle]⟩), first] at handled
      cases handled
      simp [startsUser, starts, first, outside] at flag
    | some i =>
      have ign : (s.proc.sigactions i).handler = .ign := by
        by_contra heeded
        exact ignored ⟨i, first, heeded⟩
      rw [handleSignal_eq received idle first] at handled
      simp only [runAction, takeSignal, changeSignalMask_sigactions, ign] at handled
      cases handled
      simp [startsUser, starts, first, outside, ign] at flag
  | send i => exact absurd trivial unattended
  | procmask how set => exact absurd trivial unattended
  | action i act => exact absurd trivial unattended
  | sigreturn => exact absurd trivial unattended

theorem attended_of_none (s : Framed) (a : Act) (run : frameStep s a = none) : Attended s a := by
  cases a with
  | handle =>
    by_cases none : s.proc.sigRecv = 0
    · exact .inl none
    · right
      cases flag : s.proc.isHandleSignal with
      | true => exact .inl rfl
      | false =>
        right
        have busy : ¬ (s.proc.sigRecv = 0 ∨ s.proc.isHandleSignal = true) :=
          not_or.mpr ⟨none, by simp [flag]⟩
        simp only [frameStep, handleSignal, if_neg busy] at run
        cases first : firstSignal s.proc with
        | none => simp [first] at run
        | some i =>
          refine ⟨i, rfl, ?_⟩
          intro ign
          simp [first, runAction, takeSignal, ign] at run
  | send i => trivial
  | procmask how set => trivial
  | action i act => trivial
  | sigreturn => trivial

/-- From a process without a running handler, the flag, the pointers and the mask are right
all along a run exactly when every call of `handle_signal` finds a signal it attends to. -/
theorem frameRight_along_iff (p : Proc) (idle : p.isHandleSignal = false) (acts : List Act) :
    HoldsAlong frameStep (FrameRight p) ⟨p, false, p.sigMask⟩ acts ↔
      StepsMeet frameStep Attended ⟨p, false, p.sigMask⟩ acts := by
  have start : FrameInv p ⟨p, false, p.sigMask⟩ :=
    ⟨⟨idle, rfl, rfl, rfl, fun _ => rfl⟩, nofun⟩
  exact holdsAlong_iff_stepsMeet_of_disabled frameStep Attended (FrameInv p) (FrameRight p)
    (fun _ inv => inv.right) frame_step unattended_breaks (fun s a _ run => attended_of_none s a run)
    ⟨p, false, p.sigMask⟩ acts start

instance (s : Framed) : DecidablePred (Attended s)
  | .handle => inferInstanceAs (Decidable (_ ∨ _ ∨ ∃ _, _ ∧ _))
  | .send _ | .procmask _ _ | .action _ _ | .sigreturn => isTrue trivial

theorem frameRight_along_handled : newProc.isHandleSignal = false ∧
    HoldsAlong frameStep (FrameRight newProc) ⟨newProc, false, newProc.sigMask⟩
      [.send 9, .handle, .send 11, .handle, .sigreturn, .handle] :=
  ⟨rfl, (frameRight_along_iff newProc rfl _).mpr (by decide +kernel)⟩

/-- `SIGCHLD` is ignored: the flag stays raised, and the mask of the action stays. -/
theorem ignored_signal_raises_flag : ∃ s, runActs frameStep ⟨newProc, false, newProc.sigMask⟩
      [.action ⟨16, by decide⟩ ⟨.ign, 0xff⟩, .send 16, .handle] = some s ∧
    s.outstanding = false ∧ s.proc.isHandleSignal = true ∧ s.proc.sigMask = 0xff ∧
    s.own = 0 ∧ ¬ FrameRight newProc s := by
  refine exists_evaluated (P := fun s => s.outstanding = false ∧ s.proc.isHandleSignal = true ∧
    s.proc.sigMask = 0xff ∧ s.own = 0) (by decide +kernel) ?_
  rintro s ⟨outside, flag, mask, own⟩
  refine ⟨outside, flag, mask, own, ?_⟩
  intro right
  have same := right.flag
  rw [outside, flag] at same
  cases same

end CCore.Signal
