import CCore.Lib.Run
import CCore.Lib.Shelves
import Mathlib.Data.BitVec

/-!
# Futexes (`kernel/locking/futex.c`)

A node of `futex_node` carries an address and the queue of the processes that sleep on
it, and is linked into the bucket of its address; `futex_node_used` holds the pid of the
process that made it.  `recycle_pcb_default` takes the nodes of an exiting process out of
their buckets, whoever sleeps on them.  A process is its pid, which is never 0 and never
used twice, and `waiting` records the address a process has gone to sleep on.
-/
namespace CCore.Futex

open Shelves Function

/-- An index of `futex_node`, which has `MAX_FUTEX_NUM` entries. -/
abbrev Index := Fin 60

/-- An index of `futex_buckets`, which has `FUTEX_BUCKETS` entries. -/
abbrev Bucket := Fin 100

abbrev Addr := BitVec 64

structure Timespec where
  tvSec : BitVec 64
  tvNsec : BitVec 64
  deriving DecidableEq

def Timespec.zero : Timespec := ⟨0, 0⟩

structure Node where
  futexKey : Addr
  addTs : Timespec
  setTs : Timespec

/-- `timerBy` is the process that last set the timer of a node. -/
structure State where
  buckets : Bucket → List Index
  node : Index → Node
  used : Index → Nat
  queue : Index → List Nat
  waiting : Nat → Option Addr
  timerBy : Index → Nat

def futexHash (x : Addr) : Bucket :=
  let x := (x ^^^ (x >>> 30)) * 0xbf58476d1ce4e5b9
  let x := (x ^^^ (x >>> 27)) * 0x94d049bb133111eb
  let x := x ^^^ (x >>> 31)
  ⟨x.toNat % 100, Nat.mod_lt _ (by decide)⟩

/-- `get_node(val_addr, 0)`. -/
def findNode (s : State) (a : Addr) : Option Index :=
  (s.buckets (futexHash a)).find? fun i => (s.node i).futexKey = a

def freeNode (s : State) : Option Index :=
  (List.finRange 60).find? fun i => s.used i = 0

/-- The node `i` is made for process `p`. -/
def makeNode (s : State) (p : Nat) (a : Addr) (i : Index) : State :=
  { s with
    used := update s.used i p
    node := update s.node i ⟨a, .zero, .zero⟩
    queue := update s.queue i []
    buckets := append s.buckets (futexHash a) i }

/-- `get_node(val_addr, 1)`; with all nodes in use an `assert` fails. -/
def getNode (s : State) (p : Nat) (a : Addr) : Option (Index × State) :=
  match findNode s a with
  | some i => some (i, s)
  | none => (freeNode s).map fun i => (i, makeNode s p a i)

/-- The timer of a node under the `timeout` of a wait at time `now`. -/
def setTimer (s : State) (p : Nat) (i : Index) (now : Timespec) : Option Timespec → State
  | none => { s with node := update s.node i { s.node i with setTs := .zero } }
  | some ts =>
    if ts = .zero then s
    else
      { s with
        node := update s.node i { s.node i with setTs := ts, addTs := now }
        timerBy := update s.timerBy i p }

/-- `do_block` of process `p` on the queue of node `i`. -/
def block (s : State) (p : Nat) (i : Index) : State :=
  { s with
    queue := push s.queue i p
    waiting := update s.waiting p (some (s.node i).futexKey) }

def unblock (s : State) (q : Nat) : State :=
  { s with
    queue := unlink s.queue q
    waiting := update s.waiting q none }

def doFutexWait (s : State) (p : Nat) (a : Addr) (timeout : Option Timespec) (now : Timespec) :
    Option State := do
  let (i, s) ← getNode s p a
  some (block (setTimer s p i now timeout) p i)

/-- The loop of `do_futex_wakeup`. -/
def wakeLoop (i : Index) : Nat → State → State
  | 0, s => s
  | n + 1, s =>
    match s.queue i with
    | [] => s
    | q :: _ => wakeLoop i n (unblock s q)

def doFutexWakeup (s : State) (a : Addr) (n : Nat) : State :=
  match findNode s a with
  | none => s
  | some i => wakeLoop i n s

/-- One process moves from the queue it is in to the front of the queue of node `j`. -/
def move (s : State) (q : Nat) (j : Index) : State :=
  { s with
    queue := push (unlink s.queue q) j q
    waiting := update s.waiting q (some (s.node j).futexKey) }

/-- The loop of `do_futex_requeue`. -/
def moveLoop (i j : Index) : Nat → State → State
  | 0, s => s
  | n + 1, s =>
    match s.queue i with
    | [] => s
    | q :: _ => moveLoop i j n (move s q j)

/-- Both nodes are looked up first and then made if they were missing; a node made for
the first address serves the second one too if they are equal. -/
def doFutexRequeue (s : State) (p : Nat) (a b : Addr) (n : Nat) : Option State := do
  let (i, s) ← getNode s p a
  let (j, s) ← getNode s p b
  some (moveLoop i j n s)

/-- The arguments of `do_futex`; `word` is what stands at `uaddr`, `ts` what stands at
`timeout`, and `now` the time of the call. -/
structure Call where
  uaddr : Addr
  futexOp : BitVec 32
  val : BitVec 32
  timeout : BitVec 64
  uaddr2 : Addr
  word : BitVec 32
  ts : Timespec
  now : Timespec

/-- The rounds of a loop that counts an `int` up from 0. -/
def rounds (n : BitVec 32) : Nat := n.toInt.toNat

/-- A requeue takes its number from the pointer `timeout`. -/
def doFutex (s : State) (p : Nat) (c : Call) : Option State :=
  if c.futexOp &&& 1 = 1 then
    let s := doFutexWakeup s c.uaddr (rounds c.val)
    if c.futexOp &&& 3 = 3 then
      doFutexRequeue s p c.uaddr c.uaddr2 (rounds (c.timeout.setWidth 32))
    else some s
  else if c.word = c.val then
    doFutexWait s p c.uaddr (if c.timeout = 0 then none else some c.ts) c.now
  else some s

/-- The futex part of `recycle_pcb_default`. -/
def recycle (s : State) (p : Nat) : State :=
  { s with
    buckets := fun h => (s.buckets h).filter fun i => s.used i ≠ p
    used := fun i => if s.used i = p then 0 else s.used i }

/-- The two tests of `check_futex_timeout`; the differences wrap. -/
def expired (now : Timespec) (n : Node) : Bool :=
  decide (n.setTs ≠ .zero) &&
    (decide (n.setTs.tvSec < now.tvSec - n.addTs.tvSec) ||
      (decide (now.tvSec - n.addTs.tvSec = n.setTs.tvSec) && decide (n.setTs.tvNsec ≠ 0) &&
        decide (n.setTs.tvNsec ≤ now.tvNsec - n.addTs.tvNsec)))

/-- One turn of the loop of `check_futex_timeout`. -/
def checkNode (now : Timespec) (s : State) (i : Index) : State :=
  if s.used i ≠ 0 ∧ expired now (s.node i) = true then
    wakeLoop i (s.queue i).length
      { s with node := update s.node i { s.node i with setTs := .zero, addTs := .zero } }
  else s

def checkFutexTimeout (s : State) (now : Timespec) : State :=
  (List.finRange 60).foldl (checkNode now) s

/-- What a `do_futex` call of a process that is awake, the exit of one, a signal to a
sleeping one and a tick of the timer do. -/
inductive Act
  | wait (p : Nat) (a : Addr) (timeout : Option Timespec) (now : Timespec)
  | wakeup (p : Nat) (a : Addr) (n : Nat)
  | requeue (p : Nat) (a b : Addr) (n : Nat)
  | exit (p : Nat)
  | interrupt (q : Nat)
  | tick (now : Timespec)

/-- The process that makes a call exists and is not asleep. -/
def Awake (s : State) (p : Nat) : Prop := p ≠ 0 ∧ s.waiting p = none

instance (s : State) (p : Nat) : Decidable (Awake s p) := inferInstanceAs (Decidable (_ ∧ _))

def step (s : State) : Act → Option State
  | .wait p a timeout now => if Awake s p then doFutexWait s p a timeout now else none
  | .wakeup p a n => if Awake s p then some (doFutexWakeup s a n) else none
  | .requeue p a b n => if Awake s p then doFutexRequeue s p a b n else none
  | .exit p => if Awake s p then some (recycle s p) else none
  | .interrupt q => some (unblock s q)
  | .tick now => some (checkFutexTimeout s now)

/-- After `init_system_futex`. -/
def boot : State where
  buckets := fun _ => []
  node := fun _ => ⟨0, .zero, .zero⟩
  used := fun _ => 0
  queue := fun _ => []
  waiting := fun _ => none
  timerBy := fun _ => 0

end CCore.Futex
