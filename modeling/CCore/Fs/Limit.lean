import CCore.Fs.Alias

/-!
# Descriptor calls under a resource limit (`file.c`, `system.c`)

Every loop over `pfd` runs to `MAX_FILE_NUM`, which is the global `mylimit.rlim_cur` that
`do_setrlimit` of any process sets, while a table has `MAX_FD_NUM` slots.  The calls of
`Descriptor`, `Tables` and `Alias` are the ones with both numbers equal; here the limit is
an argument.  A loop that runs on behind the table and a store to `pfd[-1]` or `pfd[110]`
are the fault `outside`, a chain of redirections without end is the fault `endless`.
-/
namespace CCore.Fs.Limit

open Chase Function

inductive Fault where
  | outside
  | endless
  deriving DecidableEq

/-- The first of the slots below the limit that passes the test. -/
def scan (limit : Nat) (t : Table) (test : Fd → Bool) : Except Fault (Option Slot) :=
  match (List.finRange maxFdNum).find? fun i => decide (i.val < limit) && test (t i) with
  | some i => .ok (some i)
  | none => if limit ≤ maxFdNum then .ok none else .error .outside

def Shown (limit : Nat) (t : Table) (n : Nat) : Prop :=
  ∃ i : Slot, i.val < limit ∧ (t i).inUse ∧ (t i).fdNum = n

instance (limit : Nat) (t : Table) (n : Nat) : Decidable (Shown limit t n) :=
  inferInstanceAs (Decidable (∃ _ : Slot, _))

/-- The number that the loop ends with is looked for in every slot up to the limit. -/
def freeNumber (limit : Nat) (t : Table) : Except Fault Nat :=
  if limit ≤ maxFdNum then
    match (List.range (maxFdNum + 1)).find? fun n => decide (¬ Shown limit t n) with
    | some n => .ok n
    | none => .error .endless
  else .error .outside

def getOneFd (limit : Nat) (t : Table) : Except Fault (Nat × Table) := do
  let number ← freeNumber limit t
  match ← scan limit t fun fd => decide (fd.used = .unused) with
  | some i => .ok (number, claimSlot t i number)
  | none => .ok (noFd, t)

def getFdIndexWithoutRedirect (limit : Nat) (t : Table) (fd : Nat) : Except Fault (Option Slot) :=
  scan limit t fun f => decide (f.inUse ∧ f.fdNum = fd)

/-- The redirections from slot `i` on are followed whatever the limit. -/
def follow (t : Table) (i : Slot) : Except Fault (Option Slot) :=
  match chase (hop t) maxFdNum i with
  | none => .error .endless
  | some j => .ok (if (t j).dev = .default ∧ (t j).used = .unused then none else some j)

def getFdIndex (limit : Nat) (t : Table) (fd : Nat) : Except Fault (Option Slot) := do
  match ← getFdIndexWithoutRedirect limit t fd with
  | none => .ok none
  | some i => follow t i

/-- A store through `&pfd[index]`. -/
def writeAt (t : Table) (index : Option Slot) (f : Fd → Fd) : Except Fault Table :=
  match index with
  | none => .error .outside
  | some i => .ok (update t i (f (t i)))

/-- `get_one_fd` and the stores to the descriptor it handed out. -/
def fill (limit : Nat) (t : Table) (f : Fd → Fd) : Except Fault (Nat × Table) := do
  let (number, claimed) ← getOneFd limit t
  let index ← getFdIndex limit claimed number
  let written ← writeAt claimed index f
  .ok (number, written)

/-! ## The limit of boot

With `MAX_FILE_NUM = MAX_FD_NUM` the searches are those without a limit. -/

theorem scan_maxFdNum (t : Table) (test : Fd → Bool) :
    scan maxFdNum t test = .ok ((List.finRange maxFdNum).find? fun i => test (t i)) := by
  simp only [scan, Fin.is_lt, decide_true, Bool.true_and]
  cases (List.finRange maxFdNum).find? fun i => test (t i) with
  | none => exact if_pos le_rfl
  | some i => rfl

theorem getOneFd_maxFdNum (t : Table) : getOneFd maxFdNum t = .ok (Fs.getOneFd t) := by
  obtain ⟨n, number⟩ := freeNumber_isSome t
  have same : freeNumber maxFdNum t = .ok n := by
    have tests : (fun m => decide (¬ Shown maxFdNum t m)) =
        fun m => decide (∀ i, ¬ ((t i).inUse ∧ (t i).fdNum = m)) := by
      funext m
      rw [decide_eq_decide]
      simp [Shown]
    unfold freeNumber
    unfold Fs.freeNumber at number
    rw [if_pos le_rfl, tests, number]
  unfold getOneFd Fs.getOneFd
  rw [same, scan_maxFdNum, number, firstUnused]
  cases (List.finRange maxFdNum).find? fun i => decide ((t i).used = .unused) with
  | none => rfl
  | some i => rfl

theorem getFdIndex_maxFdNum (t : Table) (fd : Nat) : getFdIndex maxFdNum t fd =
      match Fs.getFdIndex t fd with
      | none => .error .endless
      | some found => .ok found := by
  unfold getFdIndex getFdIndexWithoutRedirect Fs.getFdIndex Fs.getFdIndexWithoutRedirect
  rw [scan_maxFdNum]
  cases (List.finRange maxFdNum).find? fun i => decide ((t i).inUse ∧ (t i).fdNum = fd) with
  | none => rfl
  | some i =>
    simp only [follow]
    show (match chase (hop t) maxFdNum i with | none => _ | some j => _) = _
    cases chase (hop t) maxFdNum i with
    | none => rfl
    | some j => rfl

/-- The slots that the loop of `fat32_close` over the aliases visits. -/
def below (limit : Nat) : List Slot := (List.finRange maxFdNum).filter fun i => i.val < limit

def fat32Close (limit : Nat) (s : Files) (fd : Nat) : Except Fault (Int × Files) := do
  match ← getFdIndexWithoutRedirect limit s.pfd fd with
  | none => .ok (-ebadf, s)
  | some k =>
    if (s.pfd k).mmapUsed then
      .ok (0, { s with pfd := update s.pfd k { s.pfd k with used := .mmapZombie } })
    else if limit ≤ maxFdNum then
      let handed := (below limit).foldl (handAlias k) s
      let released := releaseEnd handed (handed.pfd k)
      .ok (0, { released with pfd := update released.pfd k (resetFd (released.pfd k)) })
    else .error .outside

def fat32Dup (limit : Nat) (s : Files) (srcFd : Nat) : Except Fault (Int × Files) := do
  match ← getFdIndex limit s.pfd srcFd with
  | none => .ok (-ebadf, s)
  | some src =>
    let (number, t) ← getOneFd limit s.pfd
    if number = noFd then .ok (-emfile, { s with pfd := t })
    else
      let index ← getFdIndex limit t number
      let written ← writeAt t index fun fd => { fd.redirectedTo src with dev := (t src).dev }
      .ok (asInt number, { s with pfd := written })

/-- The part of `fat32_dup3` after the target was closed.  Where no slot carries the number,
the device of the source is stored in slot `MAX_FILE_NUM`. -/
def redirectTo (limit : Nat) (s : Files) (src : Slot) (dstFd : Nat) : Except Fault Files := do
  match ← scan limit s.pfd fun fd => decide (fd.fdNum = dstFd) with
  | some i =>
    let fd := { (s.pfd i).redirectedTo src with used := .used, dev := (s.pfd src).dev }
    .ok { s with pfd := update s.pfd i fd }
  | none =>
    let (_, t) ← fill limit s.pfd fun fd => (fd.redirectedTo src).withNumber dstFd
    if stray : limit < maxFdNum then
      let fd := { t ⟨limit, stray⟩ with dev := (t src).dev }
      .ok { s with pfd := update t ⟨limit, stray⟩ fd }
    else .error .outside

def fat32Dup3 (limit : Nat) (s : Files) (srcFd dstFd : Nat) : Except Fault (Int × Files) :=
  if srcFd = dstFd then .ok (-einval, s)
  else do
    match ← getFdIndex limit s.pfd srcFd with
    | none => .ok (-ebadf, s)
    | some src =>
      match ← getFdIndex limit s.pfd dstFd with
      | none =>
        let next ← redirectTo limit s src dstFd
        .ok (asInt dstFd, next)
      | some _ =>
        let (_, closed) ← fat32Close limit s dstFd
        let next ← redirectTo limit closed src dstFd
        .ok (asInt dstFd, next)

/-- `base_clus`; the inner `none` is the return of `-EBADF`. -/
def baseClus (limit : Nat) (env : OpenEnv) (t : Table) (fd : Nat) (path : String) :
    Except Fault (Option Nat) :=
  if isAbPath path then .ok (some env.root.firstClus)
  else if fd = atFdcwd then .ok (some env.cwd.firstClus)
  else do
    match ← getFdIndex limit t fd with
    | none => .ok none
    | some i => .ok (some (t i).firstClusNum)

def fat32Openat (limit : Nat) (env : OpenEnv) (s : Files) (fd : Nat) (path : String)
    (flags : Nat) : Except Fault (Int × Files) := do
  match ← baseClus limit env s.pfd fd path with
  | none => .ok (-ebadf, s)
  | some base =>
    let (number, t) ← getOneFd limit s.pfd
    if number = noFd then .ok (-emfile, { s with pfd := t })
    else
      match ← getFdIndex limit t number with
      | none => .error .outside
      | some i =>
        match openedFd env (t i) path flags base with
        | some opened => .ok (asInt number, { s with pfd := update t i opened })
        | none =>
          let (_, closed) ← fat32Close limit { s with pfd := t } number
          .ok (-enoent, closed)

/-- The two numbers are stored in the array of the caller. -/
def fat32Pipe2 (limit : Nat) (s : Files) : Except Fault (Int × List Nat × Files) :=
  match freePipe s.pipe with
  | none => .ok (-enfile, [], s)
  | some n => do
    let (fd0, t) ← fill limit s.pfd fun fd => fd.asPipe n true
    let (fd1, t') ← fill limit t fun fd => fd.asPipe n false
    .ok (0, [fd0, fd1], { s with pfd := t', pipe := update s.pipe n ⟨1, 1, true⟩ })

def doSocket (limit : Nat) (s : Files) (cloexec nonblock : Bool) : Except Fault (Int × Files) :=
  match freeSock s.sockUsed with
  | none => .ok (-enfile, s)
  | some i => do
    let taken := update s.sockUsed i true
    let (number, t) ← getOneFd limit s.pfd
    if number = noFd then .ok (-enfile, { s with pfd := t, sockUsed := taken })
    else
      let index ← getFdIndex limit t number
      let written ← writeAt t index fun fd => fd.asSock i cloexec nonblock
      .ok (asInt number, { s with pfd := written, sockUsed := taken })

/-- A process is known by the table it uses; `outside` is set by the first access outside
the table of the caller. -/
structure World where
  limit : Nat
  tables : Fin maxFdTable → Table
  pipe : Nat → Pipe
  sockUsed : Nat → Bool
  outside : Bool

inductive Act where
  | openat (t : Fin maxFdTable) (env : OpenEnv) (fd : Nat) (path : String) (flags : Nat)
  | dup (t : Fin maxFdTable) (src : Nat)
  | dup3 (t : Fin maxFdTable) (src dst : Nat)
  | pipe2 (t : Fin maxFdTable)
  | socket (t : Fin maxFdTable) (cloexec nonblock : Bool)
  | close (t : Fin maxFdTable) (fd : Nat)
  | setrlimit (t : Fin maxFdTable) (rlimCur : Nat)

def Act.table : Act → Fin maxFdTable
  | .openat t _ _ _ _ | .dup t _ | .dup3 t _ _ | .pipe2 t | .socket t _ _ | .close t _
  | .setrlimit t _ => t

def World.files (w : World) (t : Fin maxFdTable) : Files := ⟨w.tables t, w.pipe, w.sockUsed⟩

def World.setFiles (w : World) (t : Fin maxFdTable) (s : Files) : World :=
  { w with tables := update w.tables t s.pfd, pipe := s.pipe, sockUsed := s.sockUsed }

def plain (r : Int × Files) : Int × List Nat × Files := (r.1, [], r.2)

/-- What a call answers, the numbers that `fat32_pipe2` stores, and what it leaves. -/
def reply (w : World) : Act → Except Fault (Int × List Nat × Files)
  | .openat t env fd path flags => (fat32Openat w.limit env (w.files t) fd path flags).map plain
  | .dup t src => (fat32Dup w.limit (w.files t) src).map plain
  | .dup3 t src dst => (fat32Dup3 w.limit (w.files t) src dst).map plain
  | .pipe2 t => fat32Pipe2 w.limit (w.files t)
  | .socket t cloexec nonblock => (doSocket w.limit (w.files t) cloexec nonblock).map plain
  | .close t fd => (fat32Close w.limit (w.files t) fd).map plain
  | .setrlimit t _ => .ok (0, [], w.files t)

/-- The limit after a call. -/
def limitAfter (w : World) : Act → Nat
  | .setrlimit _ rlimCur => rlimCur
  | _ => w.limit

/-- After an access outside the table nothing is known any more. -/
def step (w : World) (act : Act) : Option World :=
  if w.outside then none
  else
    match reply w act with
    | .ok (_, _, s) => some { w.setFiles act.table s with limit := limitAfter w act }
    | .error .outside => some { w with outside := true }
    | .error .endless => none

end CCore.Fs.Limit
