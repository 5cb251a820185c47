import CCore.Lib.Run
import CCore.Signal.Deliver

/-!
# Pending signals

A set of signals sent and not handled runs next to the process.  No operation loses
one of them.  That a pending signal is masked, and that `handle_signal` leaves masked
signals alone, is lost in three ways: `do_rt_sigprocmask` moves nothing between the
sets, a handler's mask replaces the mask of the process instead of adding to it, and a
signal that is both received and pending stays pending when it is unmasked.
-/
namespace CCore.Signal

open BitSets Run Option

/-- A process with the signals sent to it since they were last handled. -/
structure Watched where
  proc : Proc
  sent : BitVec 64

def sentAfter (s : Watched) : Act → BitVec 64
  | .send i => s.sent ||| sigValue i
  | .handle =>
    match startsSignal s.proc with
    | none => s.sent
    | some i => s.sent &&& ~~~sigValue i
  | _ => s.sent

def watch (s : Watched) (a : Act) : Option Watched :=
  (perform s.proc a).map fun p => ⟨p, sentAfter s a⟩

def NothingLost (s : Watched) : Prop := Within s.sent (s.proc.sigPend ||| s.proc.sigRecv)

def PendingMasked (s : Watched) : Prop := Within s.proc.sigPend s.proc.sigMask

/-- The signal that `handle_signal` would start now is not masked. -/
def StartsUnmasked (s : Watched) : Prop :=
  ∀ i, startsSignal s.proc = some i → s.proc.sigMask &&& sigValue i = 0

/-- `do_rt_sigprocmask` neither unblocks a pending signal nor blocks a received one; the
mask of the signal that `handle_signal` takes has no other received signal, and all
pending ones if the action is the default; no received signal is in the mask that
`do_rt_sigreturn` brings back. -/
def Orderly (s : Watched) : Act → Prop
  | .procmask how (some set) =>
    ∀ mask, newMask s.proc.sigMask set how = some mask →
      Within s.proc.sigPend mask ∧ Apart s.proc.sigRecv mask
  | .handle =>
    ∀ i, startsSignal s.proc = some i →
      Apart (s.proc.sigRecv &&& ~~~sigValue i) (s.proc.sigactions i).saMask ∧
        ((s.proc.sigactions i).handler = .dfl → Within s.proc.sigPend (s.proc.sigactions i).saMask)
  | .sigreturn => Apart s.proc.sigRecv s.proc.prevMask
  | _ => True

variable {p p' : Proc} {sent : BitVec 64}

theorem changeSignalMask_loses_nothing (newmask : BitVec 64)
    (within : Within sent (p.sigPend ||| p.sigRecv)) :
    Within sent ((changeSignalMask p newmask).sigPend ||| (changeSignalMask p newmask).sigRecv) := by
  rw [changeSignalMask_eq]
  exact left_or_gained p.sigRecv p.sigPend newmask within

theorem takeSignal_loses_nothing (i : Fin numSig) (within : Within sent (p.sigPend ||| p.sigRecv)) :
    Within (sent &&& ~~~sigValue i) ((takeSignal p i).sigPend ||| (takeSignal p i).sigRecv) :=
  changeSignalMask_loses_nothing _ (within.clear (sigValue i))

theorem runAction_loses_nothing (i : Fin numSig)
    (within : Within sent (p.sigPend ||| p.sigRecv)) (run : runAction p i = some p') :
    Within sent (p'.sigPend ||| p'.sigRecv) := by
  unfold runAction at run
  cases handler : (p.sigactions i).handler with
  | ign | user entry =>
    rw [handler] at run
    cases run
    exact within
  | dfl =>
    rw [handler] at run
    simp only [defaultAction] at run
    split at run
    · cases run
      exact changeSignalMask_loses_nothing _ within
    · cases run

theorem handleSignal_cases (run : handleSignal p = some p') :
    (startsSignal p = none ∧ p'.sigRecv = p.sigRecv ∧ p'.sigPend = p.sigPend ∧
        p'.sigMask = p.sigMask ∧ p'.prevMask = p.prevMask) ∨
      ∃ i, startsSignal p = some i ∧ runAction (takeSignal p i) i = some p' := by
  unfold handleSignal at run
  unfold startsSignal
  split at run
  case isTrue idle =>
    cases run
    rw [if_pos idle]
    exact .inl ⟨rfl, rfl, rfl, rfl, rfl⟩
  case isFalse busy =>
    rw [if_neg busy]
    cases first : firstSignal p with
    | none =>
      rw [first] at run
      cases run
      exact .inl ⟨rfl, rfl, rfl, rfl, rfl⟩
    | some i =>
      rw [first] at run
      exact .inr ⟨i, rfl, run⟩

theorem nothingLost_step (s : Watched) (a : Act) (next : Watched) (kept : NothingLost s)
    (run : watch s a = some next) : NothingLost next := by
  obtain ⟨p, performed, rfl⟩ := map_eq_some_iff.mp run
  cases a with
  | send i =>
    cases performed
    unfold NothingLost sendSignal
    split
    · exact (Within.or_right kept (sigValue i)).1
    · exact (Within.or_right kept (sigValue i)).2
  | procmask how set =>
    cases set with
    | none =>
      cases performed
      exact kept
    | some set =>
      obtain ⟨mask, _, rfl⟩ := map_eq_some_iff.mp performed
      exact kept
  | action i act =>
    cases performed
    exact kept
  | handle =>
    simp only [NothingLost, sentAfter]
    rcases handleSignal_cases performed with ⟨none, recv, pend, _⟩ | ⟨i, starts, ran⟩
    · rw [none, recv, pend]
      exact kept
    · rw [starts]
      exact runAction_loses_nothing i (takeSignal_loses_nothing i kept) ran
  | sigreturn =>
    cases performed
    exact changeSignalMask_loses_nothing _ kept

/-! ## Masked signals -/

/-- Pending signals are masked and received ones are not. -/
structure Sorted (p : Proc) : Prop where
  pend : Within p.sigPend p.sigMask
  recv : Apart p.sigRecv p.sigMask

theorem Sorted.apart (sorted : Sorted p) : Apart p.sigPend p.sigRecv :=
  sorted.pend.apart sorted.recv

theorem changeSignalMask_sorted (newmask : BitVec 64) (apart : Apart p.sigPend p.sigRecv)
    (clear : Apart p.sigRecv newmask) : Sorted (changeSignalMask p newmask) := by
  rw [changeSignalMask_eq]
  exact ⟨left_within newmask apart, gained_apart p.sigPend clear⟩

theorem changeSignalMask_of_within {newmask : BitVec 64} (within : Within p.sigPend newmask) :
    (changeSignalMask p newmask).sigRecv = p.sigRecv ∧
      (changeSignalMask p newmask).sigPend = p.sigPend := by
  rw [within_iff] at within
  rw [changeSignalMask_eq]
  constructor
  all_goals
    apply BitVec.eq_of_getLsbD_eq
    intro i _
    have masked := within i
    revert masked
    simp only [getLsbD_gained, getLsbD_left]
    cases p.sigPend.getLsbD i <;> simp +contextual

theorem getLsbD_sigValue (i j : Nat) (small : i < 64) : (sigValue i).getLsbD j = decide (i = j) := by
  rw [sigValue, ← BitVec.twoPow_eq, BitVec.getLsbD_twoPow]
  simp [small]

theorem sigValue_and_eq_zero_iff (a : BitVec 64) {i : Nat} (small : i < 64) :
    a &&& sigValue i = 0 ↔ a.getLsbD i = false := by
  constructor
  · intro none
    have bit := congrArg (BitVec.getLsbD · i) none
    simpa [getLsbD_sigValue i i small] using bit
  · intro clear
    apply BitVec.eq_of_getLsbD_eq
    intro j _
    rw [BitVec.getLsbD_and, getLsbD_sigValue i j small]
    by_cases same : i = j
    · simp [← same, clear]
    · simp [same]

theorem sendSignal_sorted (sorted : Sorted p) (i : Fin 64) : Sorted (sendSignal p i) := by
  have small := i.isLt
  rw [sendSignal, BitVec.and_comm]
  split
  case isTrue masked =>
    rw [Ne, sigValue_and_eq_zero_iff _ small, Bool.not_eq_false] at masked
    refine ⟨?_, sorted.recv⟩
    have within := within_iff.mp sorted.pend
    rw [within_iff]
    intro j inside
    rw [BitVec.getLsbD_or, Bool.or_eq_true, getLsbD_sigValue _ _ small] at inside
    rcases inside with old | new
    · exact within j old
    · exact of_decide_eq_true new ▸ masked
  case isFalse unmasked =>
    rw [not_not, sigValue_and_eq_zero_iff _ small] at unmasked
    refine ⟨sorted.pend, ?_⟩
    have apart := apart_iff.mp sorted.recv
    rw [apart_iff]
    intro j inside
    rw [BitVec.getLsbD_or, Bool.or_eq_true, getLsbD_sigValue _ _ small] at inside
    rcases inside with old | new
    · exact apart j old
    · exact of_decide_eq_true new ▸ unmasked

theorem handle_sorted (i : Fin numSig) (sorted : Sorted p)
    (clear : Apart (p.sigRecv &&& ~~~sigValue i) (p.sigactions i).saMask)
    (masked : (p.sigactions i).handler = .dfl → Within p.sigPend (p.sigactions i).saMask)
    (run : runAction (takeSignal p i) i = some p') : Sorted p' := by
  have taken : Sorted (takeSignal p i) :=
    changeSignalMask_sorted _ (sorted.apart.clear_right _) clear
  unfold runAction at run
  have actions : (takeSignal p i).sigactions = p.sigactions := by
    rw [takeSignal, changeSignalMask_eq]
  rw [actions] at run
  cases handler : (p.sigactions i).handler with
  | ign =>
    rw [handler] at run
    cases run
    exact taken
  | dfl =>
    rw [handler] at run
    obtain ⟨_, run⟩ := ite_none_right_eq_some.mp run
    cases run
    -- the mask of the action moved nothing, so the old mask fits again
    obtain ⟨recv, _⟩ := changeSignalMask_of_within (p := { p with
        isHandleSignal := true
        sigRecv := p.sigRecv &&& ~~~sigValue i
        prevMask := p.sigMask }) (masked handler)
    have saved : (takeSignal p i).prevMask = p.sigMask := by rw [takeSignal, changeSignalMask_eq]
    apply changeSignalMask_sorted
    · exact taken.apart
    · rw [saved]
      exact (recv.symm ▸ sorted.recv.clear_left (sigValue i) :
        Apart (takeSignal p i).sigRecv p.sigMask)
  | user entry =>
    rw [handler] at run
    cases run
    exact ⟨taken.pend, taken.recv⟩

theorem sorted_step (s next : Watched) (a : Act) (sorted : Sorted s.proc) (orderly : Orderly s a)
    (run : watch s a = some next) : Sorted next.proc := by
  obtain ⟨p, performed, rfl⟩ := map_eq_some_iff.mp run
  cases a with
  | send i =>
    cases performed
    exact sendSignal_sorted sorted i
  | procmask how set =>
    cases set with
    | none =>
      cases performed
      exact sorted
    | some set =>
      obtain ⟨mask, new, rfl⟩ := map_eq_some_iff.mp performed
      obtain ⟨within, apart⟩ := orderly mask new
      exact ⟨within, apart⟩
  | action i act =>
    cases performed
    exact ⟨sorted.pend, sorted.recv⟩
  | handle =>
    rcases handleSignal_cases performed with ⟨_, recv, pend, mask, _⟩ | ⟨i, starts, ran⟩
    · exact ⟨by rw [pend, mask]; exact sorted.pend, by rw [recv, mask]; exact sorted.recv⟩
    · obtain ⟨clear, masked⟩ := orderly i starts
      exact handle_sorted i sorted clear masked ran
  | sigreturn =>
    cases performed
    have changed := changeSignalMask_sorted s.proc.prevMask sorted.apart orderly
    exact ⟨changed.pend, changed.recv⟩

theorem startsSignal_received {i : Fin numSig} (starts : startsSignal p = some i) :
    p.sigRecv.getLsbD i = true := by
  unfold startsSignal at starts
  split at starts
  · cases starts
  · have found := List.find?_some starts
    have small : i.val < 64 := i.isLt.trans (by decide)
    rw [decide_eq_true_eq, Ne, sigValue_and_eq_zero_iff _ small, Bool.not_eq_false] at found
    exact found

theorem Sorted.starts_unmasked (sorted : Sorted p) {i : Fin numSig}
    (starts : startsSignal p = some i) : p.sigMask &&& sigValue i = 0 := by
  have small : i.val < 64 := i.isLt.trans (by decide)
  rw [sigValue_and_eq_zero_iff _ small]
  exact apart_iff.mp sorted.recv i (startsSignal_received starts)

theorem Fresh.sorted (fresh : Fresh p) : Sorted p := by
  constructor
  · rw [fresh.pend]
    exact BitVec.zero_and
  · rw [fresh.recv]
    exact BitVec.zero_and

/-- No run loses a signal; in an orderly run pending signals are masked and no action of a
masked signal is started. -/
theorem delivery_along (p : Proc) (fresh : Fresh p) (acts : List Act) :
    HoldsAlong watch NothingLost ⟨p, 0⟩ acts ∧ (StepsMeet watch Orderly ⟨p, 0⟩ acts →
        HoldsAlong watch PendingMasked ⟨p, 0⟩ acts ∧ HoldsAlong watch StartsUnmasked ⟨p, 0⟩ acts) := by
  have empty : NothingLost ⟨p, 0⟩ := BitVec.zero_and
  constructor
  · exact holdsAlong_always watch NothingLost nothingLost_step ⟨p, 0⟩ acts empty
  · intro orderly
    have sorted : HoldsAlong watch (fun s => Sorted s.proc) ⟨p, 0⟩ acts :=
      holdsAlong_of_stepsMeet watch Orderly _ _ (fun _ sorted => sorted)
        (fun s a next sorted orderly run => sorted_step s next a sorted orderly run)
        ⟨p, 0⟩ acts fresh.sorted orderly
    constructor
    · exact holdsAlong_mono watch (fun _ sorted => sorted.pend) _ acts sorted
    · refine holdsAlong_mono watch ?_ _ acts sorted
      intro s sorted i starts
      exact sorted.starts_unmasked starts

instance (s : Watched) : DecidablePred (Orderly s)
  | .procmask how (some set) =>
    match found : newMask s.proc.sigMask set how with
    | none => isTrue fun _ new => nomatch found.symm.trans new
    | some mask =>
      decidable_of_iff (Within s.proc.sigPend mask ∧ Apart s.proc.sigRecv mask)
        ⟨fun both _ new => Option.some.inj (found.symm.trans new) ▸ both, fun all => all mask found⟩
  | .handle => inferInstanceAs (Decidable (∀ _, _ → _ ∧ (_ → _)))
  | .sigreturn => inferInstanceAs (Decidable (Apart _ _))
  | .procmask _ none | .send _ | .action _ _ => isTrue trivial

/-- A process whose handlers mask the first twenty signals. -/
def newProc : Proc where
  sigRecv := 0
  sigPend := 0
  sigMask := 0
  prevMask := 0
  isHandleSignal := false
  sigactions := fun _ => ⟨.user 0x10000, 0xfffff⟩
  kernelSp := 0xffffffc080400d60
  saveContext := 0xffffffc080400dd0
  switchContext := 0xffffffc080400d60

theorem delivery_along_blocked : (HoldsAlong watch NothingLost ⟨newProc, 0⟩
        [.procmask .block (some (sigValue 9)), .send 9, .send 11, .handle, .sigreturn] ∧
      HoldsAlong watch PendingMasked ⟨newProc, 0⟩
        [.procmask .block (some (sigValue 9)), .send 9, .send 11, .handle, .sigreturn]) ∧
    HoldsAlong watch StartsUnmasked ⟨newProc, 0⟩
      [.procmask .block (some (sigValue 9)), .send 9, .send 11, .handle, .sigreturn] := by
  have along := delivery_along newProc ⟨rfl, rfl, rfl, rfl⟩
    [.procmask .block (some (sigValue 9)), .send 9, .send 11, .handle, .sigreturn]
  obtain ⟨masked, starts⟩ := along.2 (by decide +kernel)
  exact ⟨⟨along.1, masked⟩, starts⟩

/-- Signal 10 is blocked, sent and unblocked, and is still pending. -/
theorem unblocked_signal_stays_pending :
    ∃ s, runActs watch ⟨newProc, 0⟩ [.procmask .block (some (sigValue 9)), .send 9,
        .procmask .unblock (some (sigValue 9))] = some s ∧ ¬ PendingMasked s := by
  refine ⟨⟨{ newProc with sigPend := sigValue 9 }, sigValue 9⟩, ?_, by unfold PendingMasked; decide⟩
  rfl

end CCore.Signal
