import CCore.Lib.BitSets

/-!
# Delivery of signals (`kernel/sched/signal.c`)

The signal fields of one process: the sets of received and pending signals, the mask
and the saved mask, the flag of a running handler, the table of actions and the three
pointers that a handler's frame displaces.  Bit `i` of a set stands for signal `i + 1`.
A process that exits, and a kernel that stops at an `assert`, has no next state.
-/
namespace CCore.Signal

open BitSets

/-- `NUM_SIG`, the number of signals that have an action. -/
def numSig : Nat := 33

inductive Handler
  | dfl
  | ign
  | user (entry : BitVec 64)
  deriving DecidableEq

structure Sigaction where
  handler : Handler
  saMask : BitVec 64

structure Proc where
  sigRecv : BitVec 64
  sigPend : BitVec 64
  sigMask : BitVec 64
  prevMask : BitVec 64
  isHandleSignal : Bool
  sigactions : Fin numSig → Sigaction
  kernelSp : BitVec 64
  saveContext : BitVec 64
  switchContext : BitVec 64

/-- `1lu << i`. -/
def sigValue (i : Nat) : BitVec 64 := 1#64 <<< i

/-- The size of a `regs_context_t` and a `switchto_context_t`. -/
def frameSize : BitVec 64 := 560 + 112

def transPendedSignalToRecv (p : Proc) : Proc :=
  if p.sigPend ≠ 0 then
    let recv := p.sigRecv ||| (p.sigPend &&& ~~~p.sigMask)
    { p with sigRecv := recv, sigPend := p.sigPend &&& ~~~(p.sigRecv ^^^ recv) }
  else p

def changeSignalMask (p : Proc) (newmask : BitVec 64) : Proc :=
  transPendedSignalToRecv { p with sigMask := newmask }

/-- `send_signal` of signal `i + 1`; waking the receiver changes none of its sets. -/
def sendSignal (p : Proc) (i : Fin 64) : Proc :=
  if sigValue i &&& p.sigMask ≠ 0 then { p with sigPend := p.sigPend ||| sigValue i }
  else { p with sigRecv := p.sigRecv ||| sigValue i }

inductive How
  | block
  | unblock
  | setmask
  | other
  deriving DecidableEq

/-- The mask that `do_rt_sigprocmask` with a set stores; another `how` is an `assert(0)`. -/
def newMask (mask set : BitVec 64) : How → Option (BitVec 64)
  | .block => some (mask ||| set)
  | .unblock => some (mask &&& ~~~set)
  | .setmask => some set
  | .other => none

def doRtSigprocmask (p : Proc) (how : How) : Option (BitVec 64) → Option Proc
  | none => some p
  | some set => (newMask p.sigMask set how).map fun mask => { p with sigMask := mask }

def doRtSigaction (p : Proc) (i : Fin numSig) (act : Sigaction) : Proc :=
  { p with sigactions := Function.update p.sigactions i act }

/-- The first signal that the loop of `handle_signal` finds set. -/
def firstSignal (p : Proc) : Option (Fin numSig) :=
  (List.finRange numSig).find? fun i => p.sigRecv &&& sigValue i ≠ 0

def startsSignal (p : Proc) : Option (Fin numSig) :=
  if p.sigRecv = 0 ∨ p.isHandleSignal = true then none else firstSignal p

/-- Clear the signal, save the mask and take the mask of its action. -/
def takeSignal (p : Proc) (i : Fin numSig) : Proc :=
  changeSignalMask
    { p with
      isHandleSignal := true
      sigRecv := p.sigRecv &&& ~~~sigValue i
      prevMask := p.sigMask }
    (p.sigactions i).saMask

/-- The default actions: `SIGKILL`, `SIGSEGV` and `SIGALRM` exit, `SIGCHLD` and
`SIGCANCEL` do nothing, and any other signal is unknown. -/
def defaultAction (p : Proc) (signum : Nat) : Option Proc :=
  if signum = 17 ∨ signum = 33 then
    some (changeSignalMask { p with isHandleSignal := false } p.prevMask)
  else none

def pushFrame (p : Proc) : Proc :=
  { p with
    kernelSp := p.kernelSp - frameSize
    saveContext := p.saveContext - frameSize
    switchContext := p.switchContext - frameSize }

def runAction (p : Proc) (i : Fin numSig) : Option Proc :=
  match (p.sigactions i).handler with
  | .ign => some p
  | .dfl => defaultAction p (i.val + 1)
  | .user _ => some (pushFrame p)

def handleSignal (p : Proc) : Option Proc :=
  if p.sigRecv = 0 ∨ p.isHandleSignal = true then some p
  else
    match firstSignal p with
    | none => some { p with isHandleSignal := true }
    | some i => runAction (takeSignal p i) i

def doRtSigreturn (p : Proc) : Proc :=
  let p := { changeSignalMask p p.prevMask with isHandleSignal := false }
  { p with
    kernelSp := p.kernelSp + frameSize
    saveContext := p.saveContext + frameSize
    switchContext := p.switchContext + frameSize }

inductive Act
  | send (i : Fin 64)
  | procmask (how : How) (set : Option (BitVec 64))
  | action (i : Fin numSig) (act : Sigaction)
  | handle
  | sigreturn

def perform (p : Proc) : Act → Option Proc
  | .send i => some (sendSignal p i)
  | .procmask how set => doRtSigprocmask p how set
  | .action i act => some (doRtSigaction p i act)
  | .handle => handleSignal p
  | .sigreturn => some (doRtSigreturn p)

/-- A process that has just been made has no signal and an empty mask. -/
structure Fresh (p : Proc) : Prop where
  recv : p.sigRecv = 0
  pend : p.sigPend = 0
  mask : p.sigMask = 0
  handling : p.isHandleSignal = false

section Masks
variable (p : Proc) (newmask : BitVec 64)

theorem trans_recv : (transPendedSignalToRecv p).sigRecv = gained p.sigRecv p.sigPend p.sigMask := by
  unfold transPendedSignalToRecv
  split
  · rfl
  case isFalse empty => simp [gained, not_not.mp empty]

theorem trans_pend : (transPendedSignalToRecv p).sigPend = left p.sigRecv p.sigPend p.sigMask := by
  unfold transPendedSignalToRecv
  split
  · rfl
  case isFalse empty => simp [left, not_not.mp empty]

theorem trans_fields : transPendedSignalToRecv p = { p with
    sigRecv := gained p.sigRecv p.sigPend p.sigMask
    sigPend := left p.sigRecv p.sigPend p.sigMask } := by
  rw [← trans_recv, ← trans_pend]
  unfold transPendedSignalToRecv
  split <;> rfl

theorem changeSignalMask_eq : changeSignalMask p newmask = { p with
    sigMask := newmask
    sigRecv := gained p.sigRecv p.sigPend newmask
    sigPend := left p.sigRecv p.sigPend newmask } :=
  trans_fields { p with sigMask := newmask }

end Masks
end CCore.Signal
