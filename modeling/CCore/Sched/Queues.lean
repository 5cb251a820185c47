import CCore.Lib.Shelves

/-!
# The queues of the scheduler

`do_scheduler`, `do_block`, `do_unblock`, `send_signal`, `get_free_pcb`, `free_pcb`,
`handle_exit_pcb`, `do_exit` and `do_wait4` on one CPU, with the parts of `do_clone`
and `do_exec` between which their process can sleep.  A list is the sequence of the
PCBs whose nodes it links, and `list_del` takes a node out of the list it is in.  How
many sleepers the pages given back by an exit wake is left open.
-/
namespace CCore.Sched

open Shelves Function

/-- An index of `pcb`, which has `NUM_MAX_TASK` entries. -/
abbrev Index := Fin 100

inductive Status
  | blocked
  | running
  | ready
  | zombie
  | exited
  deriving DecidableEq

inductive Mode
  | enterZombieOnExit
  | autoCleanupOnExit
  deriving DecidableEq

/-- The wait lists: of the page and PCB managers, of a PCB, and all others (pipes,
locks, futexes, timers, the screen). -/
inductive Queue
  | pages
  | pcbs
  | child (i : Index)
  | other (id : Nat)
  deriving DecidableEq

inductive Head
  | ready
  | free
  | wait (q : Queue)
  deriving DecidableEq

/-- `sigchld` is `flag & SIGCHLD`; `parent` is `none` for the idle process. -/
structure Pcb where
  status : Status
  used : Bool
  mode : Mode
  sigchld : Bool
  parent : Option Index
  pid : Nat
  deriving DecidableEq

/-- Where the kernel code of a process has got to. -/
inductive Task
  | user
  | takePcb
  | making (x : Index)
  | made (x : Index)
  | wait4 (pid : Option Nat) (i : Index)
  deriving DecidableEq

/-- `current` is `none` while the idle process runs. -/
structure State where
  pcb : Index → Pcb
  lists : Head → List Index
  current : Option Index
  processId : Nat
  task : Index → Task

namespace State

def setPcb (s : State) (i : Index) (b : Pcb) : State :=
  { s with pcb := update s.pcb i b }

def setStatus (s : State) (i : Index) (status : Status) : State :=
  s.setPcb i { s.pcb i with status }

def setTask (s : State) (p : Index) (task : Task) : State :=
  { s with task := update s.task p task }

end State

/-- The first half of `do_scheduler`: a running process goes to the end of the line. -/
def putBack (s : State) : State :=
  match s.current with
  | none => s
  | some p =>
    if (s.pcb p).status = .running then
      { s.setStatus p .ready with lists := append s.lists .ready p }
    else s

/-- The second half. -/
def pickNext (s : State) : State :=
  match s.lists .ready with
  | h :: _ => { s.setStatus h .running with lists := unlink s.lists h, current := some h }
  | [] =>
    match s.current with
    | none => s
    | some p => if (s.pcb p).status = .running then s else { s with current := none }

def doScheduler (s : State) : State := pickNext (putBack s)

/-- `do_block` of process `p`, when no signal is to be handled. -/
def doBlock (s : State) (p : Index) (q : Queue) : State :=
  doScheduler { s.setStatus p .blocked with lists := push s.lists (.wait q) p }

def doUnblock (s : State) (p : Index) : State :=
  { s.setStatus p .ready with lists := push (unlink s.lists p) .ready p }

def sendSignal (s : State) (p : Index) : State :=
  if (s.pcb p).status = .blocked then doUnblock s p else s

/-- `do_unblock(queue.next)` if the queue is not empty. -/
def wakeFirst (s : State) (q : Queue) : State :=
  match s.lists (.wait q) with
  | [] => s
  | p :: _ => doUnblock s p

/-- `freePage` of as many pages. -/
def wakePages : Nat → State → State
  | 0, s => s
  | n + 1, s => wakePages n (wakeFirst s .pages)

/-- `get_free_pcb` of process `p`, which comes back to it when it is woken. -/
def getFreePcb (s : State) (p : Index) : State :=
  match s.lists .free with
  | x :: _ => { s.setTask p (.making x) with lists := unlink s.lists x }
  | [] => doBlock (s.setTask p .takePcb) p .pcbs

def initList (s : State) (h : Head) : State := { s with lists := update s.lists h [] }

/-- `init_clone_pcb` and `init_pcb_member`. -/
def initPcb (s : State) (p x : Index) (mode : Mode) (sigchld : Bool) : State :=
  { (initList s (.wait (.child x))).setPcb x
      ⟨.ready, true, mode, sigchld, some p, s.processId⟩ with
    processId := s.processId + 1
    task := update (update s.task x .user) p (.made x) }

/-- The end of `do_clone` and `do_exec`; only the former ends in `init_clone_stack`,
which makes the wait list a second time. -/
def addReady (s : State) (p x : Index) : State :=
  let s := if (s.pcb x).mode = .enterZombieOnExit then initList s (.wait (.child x)) else s
  { s.setTask p .user with lists := push s.lists .ready x }

/-- The test `list_empty(&RecyclePcb->list)` fails for a node that is linked and for
one that is not, so the `list_del` after it is never done. -/
def freePcb (s : State) (x : Index) : State :=
  wakeFirst
    { s.setPcb x { s.pcb x with status := .exited, used := false } with
      lists := push s.lists .free x } .pcbs

/-- How many pages whose last share goes are given back before and after `free_pcb`. -/
structure Freed where
  before : Index → Nat
  after : Index → Nat

def wakeWaiter (s : State) (w : Index) : State :=
  if (s.pcb w).status = .blocked then doUnblock s w else s

/-- The first loop of `release_wait_deal_son`. -/
def releaseWait (s : State) (x : Index) : State :=
  (s.lists (.wait (.child x))).foldl wakeWaiter s

/-- The second loop: it ends with the first son that is a zombie. -/
def dealSons (exitSon : Index → State → Option State) (x : Index) :
    List Index → State → Option State
  | [], s => some s
  | i :: rest, s =>
    if (s.pcb i).parent = some x ∧ (s.pcb i).used = true then
      if (s.pcb i).status = .zombie then exitSon i s
      else
        dealSons exitSon x rest (s.setPcb i { s.pcb i with parent := (s.pcb x).parent })
    else dealSons exitSon x rest s

/-- The recursion goes from a process to its zombie son; deeper than the number of
PCBs it comes back to where it was and never ends. -/
def handleExitPcb (freed : Freed) : Nat → Index → State → Option State
  | 0, _, _ => none
  | depth + 1, x, s => do
    let s ← dealSons (handleExitPcb freed depth) x (List.finRange 100) (releaseWait s x)
    some (wakePages (freed.after x) (freePcb (wakePages (freed.before x) s) x))

def signalParent (s : State) (p : Index) : State :=
  match (s.pcb p).sigchld, (s.pcb p).parent with
  | true, some r => sendSignal s r
  | _, _ => s

def doExit (freed : Freed) (s : State) (p : Index) : Option State :=
  match (s.pcb p).mode with
  | .autoCleanupOnExit => do
    let s ← handleExitPcb freed 101 p (s.setTask p .user)
    some (doScheduler s)
  | .enterZombieOnExit =>
    some (doScheduler (signalParent ((s.setTask p .user).setStatus p .zombie) p))

/-- The loop of `do_wait4` of process `p` over the entries that are left. -/
def wait4Loop (freed : Freed) (pid : Option Nat) (p : Index) : List Index → State → Option State
  | [], s => some (s.setTask p .user)
  | i :: rest, s =>
    if (s.pcb i).parent = some p ∧ (pid = none ∨ pid = some (s.pcb i).pid) then
      if (s.pcb i).status ≠ .exited ∧ (s.pcb i).status ≠ .zombie then
        some (doBlock (s.setTask p (.wait4 pid i)) p (.child i))
      else if (s.pcb i).status = .zombie then do
        let s ← handleExitPcb freed 101 i s
        wait4Loop freed pid p rest s
      else wait4Loop freed pid p rest s
    else wait4Loop freed pid p rest s

def doWait4 (freed : Freed) (s : State) (p : Index) (pid : Option Nat) : Option State :=
  wait4Loop freed pid p (List.finRange 100) s

/-- `do_wait4` after its `do_block` on the wait list of `pcb[i]`. -/
def wait4Resume (freed : Freed) (s : State) (p : Index) (pid : Option Nat) (i : Index) :
    Option State := do
  let s ← if (s.pcb i).status = .zombie then handleExitPcb freed 101 i s else some s
  wait4Loop freed pid p ((List.finRange 100).drop (i.val + 1)) s

/-- What the current process or an interrupt does next.  `divert` is the handling of
a signal by a user handler in the middle of kernel code, which is not come back to. -/
inductive Act
  | schedule
  | block (q : Queue)
  | unblock (q : Queue) (p : Index)
  | signal (p : Index)
  | clone
  | init (mode : Mode) (sigchld : Bool)
  | enqueue
  | exit (freed : Freed)
  | wait4 (pid : Option Nat) (freed : Freed)
  | resume (freed : Freed)
  | divert

/-- Wait lists of PCBs are slept on by `do_wait4` only. -/
def step (s : State) : Act → Option State
  | .schedule => some (doScheduler s)
  | .block q => do
    let p ← s.current
    match q with
    | .child _ => none
    | q => some (doBlock s p q)
  | .unblock q p => if p ∈ s.lists (.wait q) then some (doUnblock s p) else none
  | .signal p => some (sendSignal s p)
  | .clone => do
    let p ← s.current
    if s.task p = .user ∨ s.task p = .takePcb then some (getFreePcb s p) else none
  | .init mode sigchld => do
    let p ← s.current
    match s.task p with
    | .making x => some (initPcb s p x mode sigchld)
    | _ => none
  | .enqueue => do
    let p ← s.current
    match s.task p with
    | .made x => some (addReady s p x)
    | _ => none
  | .exit freed => do
    let p ← s.current
    doExit freed s p
  | .wait4 pid freed => do
    let p ← s.current
    if s.task p = .user then doWait4 freed s p pid else none
  | .resume freed => do
    let p ← s.current
    match s.task p with
    | .wait4 pid i => wait4Resume freed s p pid i
    | _ => none
  | .divert => do
    let p ← s.current
    some (s.setTask p .user)

/-- After `init_shell`: `pcb[0]` is ready and the others are free. -/
def boot : State where
  pcb := fun i =>
    if i = 0 then ⟨.ready, true, .enterZombieOnExit, false, none, 1⟩
    else ⟨.exited, false, .enterZombieOnExit, false, none, 0⟩
  lists := fun h =>
    match h with
    | .ready => [0]
    | .free => (List.finRange 100).drop 1
    | .wait _ => []
  current := none
  processId := 2
  task := fun _ => .user

end CCore.Sched
