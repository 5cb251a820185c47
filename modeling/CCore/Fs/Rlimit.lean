import CCore.Fs.Limit

/-!
# Resource limits of processes (`system.c`, `file.h`)

`do_setrlimit` stores a limit in the PCB of the caller and in the global `mylimit`,
`do_getrlimit` copies the limit of the PCB to `mylimit` and hands it out, and
`MAX_FILE_NUM`, the bound of every loop over a descriptor table, is `mylimit.rlim_cur`.
`Procs` is the state of all processes under any interleaving of these calls with
`fat32_openat`.  A process that had only its own limit is the machine `ownStep`: besides its
own calls it hears what others do to a table that it shares with them, and nothing else.
-/
namespace CCore.Fs.Limit

open Run Function List Option

structure Rlimit where
  rlimCur : Nat
  rlimMax : Nat
  deriving DecidableEq, Repr

inductive Query where
  | setrlimit (rlim : Rlimit)
  | getrlimit
  | openat (env : OpenEnv) (fd : Nat) (path : String) (flags : Nat)

inductive Answer where
  | done
  | rlimit (rlim : Rlimit)
  | opened (result : Int)
  deriving DecidableEq, Repr

/-! ## All processes

`P` are the processes, `T` the descriptor tables. -/

section Processes
variable {P T : Type} [DecidableEq P] [DecidableEq T]

structure Procs (P T : Type) where
  mylimit : Rlimit
  fdLimit : P → Rlimit
  tables : T → Table
  pipe : Nat → Pipe
  sockUsed : Nat → Bool
  answers : P → List Answer

-- `current_running->pfd` of each process; after `CLONE_FILES` two of them are the same
variable (pfd : P → T)

def Procs.files (w : Procs P T) (p : P) : Files := ⟨w.tables (pfd p), w.pipe, w.sockUsed⟩

def Procs.answer (w : Procs P T) (p : P) (a : Answer) : Procs P T :=
  { w with answers := update w.answers p (w.answers p ++ [a]) }

def doSetrlimit (w : Procs P T) (p : P) (rlim : Rlimit) : Procs P T :=
  { w with mylimit := rlim, fdLimit := update w.fdLimit p rlim }

def doGetrlimit (w : Procs P T) (p : P) : Rlimit × Procs P T :=
  (w.fdLimit p, { w with mylimit := w.fdLimit p })

/-- One call of process `p`; a call that leaves the table or does not return ends the run. -/
def query (w : Procs P T) (act : P × Query) : Option (Procs P T) :=
  match act.2 with
  | .setrlimit rlim => some ((doSetrlimit w act.1 rlim).answer act.1 .done)
  | .getrlimit =>
    let (rlim, next) := doGetrlimit w act.1
    some (next.answer act.1 (.rlimit rlim))
  | .openat env fd path flags =>
    match fat32Openat w.mylimit.rlimCur env (w.files pfd act.1) fd path flags with
    | .error _ => none
    | .ok (result, s) =>
      some (Procs.answer
        { w with
          tables := update w.tables (pfd act.1) s.pfd
          pipe := s.pipe
          sockUsed := s.sockUsed } act.1 (.opened result))

structure Own where
  limit : Rlimit
  table : Table
  answers : List Answer

inductive Heard where
  | call (query : Query)
  | shared (table : Table)

/-- The part of an answer that is not about pipes or sockets. -/
def onTable (r : Except Fault (Int × Files)) : Option (Int × Table) :=
  match r with
  | .error _ => none
  | .ok (result, s) => some (result, s.pfd)

def Own.files (v : Own) : Files := ⟨v.table, fun _ => ⟨0, 0, false⟩, fun _ => false⟩

def ownStep (v : Own) : Heard → Option Own
  | .call (.setrlimit rlim) => some ⟨rlim, v.table, v.answers ++ [.done]⟩
  | .call .getrlimit => some { v with answers := v.answers ++ [.rlimit v.limit] }
  | .call (.openat env fd path flags) =>
    (onTable (fat32Openat v.limit.rlimCur env v.files fd path flags)).map fun r =>
      ⟨v.limit, r.2, v.answers ++ [.opened r.1]⟩
  | .shared table => some { v with table := table }

def Procs.own (w : Procs P T) (p : P) : Own := ⟨w.fdLimit p, w.tables (pfd p), w.answers p⟩

/-- What process `p` hears of one step. -/
def hears (p : P) (w : Procs P T) (act : P × Query) : List Heard :=
  if act.1 = p then [.call act.2]
  else if pfd act.1 = pfd p then
    match query pfd w act with
    | none => []
    | some next => [.shared (next.tables (pfd p))]
  else []

/-- What process `p` hears of a run. -/
def heard (p : P) : Procs P T → List (P × Query) → List Heard
  | _, [] => []
  | w, act :: rest =>
    hears pfd p w act ++ match query pfd w act with
      | none => []
      | some next => heard p next rest

/-- The limit in force is the one of the process that opens a file. -/
def OwnLimit (w : Procs P T) (act : P × Query) : Prop :=
  match act.2 with
  | .openat _ _ _ _ => w.mylimit.rlimCur = (w.fdLimit act.1).rlimCur
  | _ => True

instance (w : Procs P T) (act : P × Query) : Decidable (OwnLimit w act) :=
  match act with
  | (_, .openat _ _ _ _) => inferInstanceAs (Decidable (_ = _))
  | (_, .setrlimit _) => isTrue trivial
  | (_, .getrlimit) => isTrue trivial

end Processes

variable {s s' : Files}

theorem handAlias_table (same : s.pfd = s'.pfd) (k i : Slot) :
    (handAlias k s i).pfd = (handAlias k s' i).pfd := by
  funext j
  rw [handAlias_pfd, handAlias_pfd, same]

theorem handed_table (same : s.pfd = s'.pfd) (k : Slot) (slots : List Slot) :
    (slots.foldl (handAlias k) s).pfd = (slots.foldl (handAlias k) s').pfd := by
  induction slots generalizing s s' with
  | nil => exact same
  | cons i rest ih => exact ih (handAlias_table same k i)

theorem fat32Close_onTable (same : s.pfd = s'.pfd) (limit fd : Nat) :
    onTable (fat32Close limit s fd) = onTable (fat32Close limit s' fd) := by
  unfold fat32Close
  rw [same]
  cases getFdIndexWithoutRedirect limit s'.pfd fd with
  | error fault => rfl
  | ok found =>
    cases found with
    | none => exact congrArg (fun t => some (-ebadf, t)) same
    | some k =>
      show onTable (if (s'.pfd k).mmapUsed then _ else _) =
        onTable (if (s'.pfd k).mmapUsed then _ else _)
      by_cases mapped : (s'.pfd k).mmapUsed = true
      · rw [if_pos mapped, if_pos mapped]
        simp [onTable]
      · rw [if_neg mapped, if_neg mapped]
        by_cases fits : limit ≤ maxFdNum
        · rw [if_pos fits, if_pos fits]
          simp [onTable, handed_table same k]
        · rw [if_neg fits, if_neg fits]

theorem fat32Openat_onTable (same : s.pfd = s'.pfd) (limit : Nat) (env : OpenEnv) (fd : Nat)
    (path : String) (flags : Nat) : onTable (fat32Openat limit env s fd path flags) =
    onTable (fat32Openat limit env s' fd path flags) := by
  unfold fat32Openat
  rw [same]
  cases baseClus limit env s'.pfd fd path with
  | error fault => rfl
  | ok base =>
  cases base with
  | none => exact congrArg (fun t => some (-ebadf, t)) same
  | some base =>
  cases getOneFd limit s'.pfd with
  | error fault => rfl
  | ok taken =>
  obtain ⟨number, t⟩ := taken
  show onTable (if number = noFd then _ else _) = onTable (if number = noFd then _ else _)
  by_cases full : number = noFd
  · rw [if_pos full, if_pos full]
    simp [onTable]
  · rw [if_neg full, if_neg full]
    cases getFdIndex limit t number with
    | error fault => rfl
    | ok index =>
    cases index with
    | none => rfl
    | some i =>
    dsimp only [bind, Except.bind]
    cases openedFd env (t i) path flags base with
    | some opened => rfl
    | none =>
      -- the descriptor that was taken for a missing file is closed again
      have closed : onTable (fat32Close limit { s with pfd := t } number) =
          onTable (fat32Close limit { s' with pfd := t } number) := by
        apply fat32Close_onTable
        rfl
      cases left : fat32Close limit { s with pfd := t } number with
      | error fault =>
        cases right : fat32Close limit { s' with pfd := t } number with
        | error fault' => rfl
        | ok r => rw [left, right] at closed; cases closed
      | ok r =>
        cases right : fat32Close limit { s' with pfd := t } number with
        | error fault => rw [left, right] at closed; cases closed
        | ok r' =>
          rw [left, right] at closed
          have tables : r.2.pfd = r'.2.pfd :=
            congrArg Prod.snd (Option.some.inj closed)
          exact congrArg (fun t => some (-enoent, t)) tables

theorem openat_own {P T : Type} (pfd : P → T) (w : Procs P T) (p : P) (env : OpenEnv)
    (fd : Nat) (path : String) (flags : Nat) (own : w.mylimit.rlimCur = (w.fdLimit p).rlimCur) :
    onTable (fat32Openat w.mylimit.rlimCur env (w.files pfd p) fd path flags) =
      onTable (fat32Openat (w.own pfd p).limit.rlimCur env (w.own pfd p).files fd path flags) := by
  rw [own]
  apply fat32Openat_onTable
  rfl

/-! ## Runs -/

section Runs
variable {P T : Type} [DecidableEq P] [DecidableEq T] (pfd : P → T)

theorem query_own (w : Procs P T) (act : P × Query) (meets : OwnLimit w act) :
    (query pfd w act).map (fun next => next.own pfd act.1) =
      ownStep (w.own pfd act.1) (.call act.2) := by
  obtain ⟨p, q⟩ := act
  cases q with
  | setrlimit rlim => simp [query, doSetrlimit, Procs.answer, Procs.own, ownStep]
  | getrlimit => simp [query, doGetrlimit, Procs.answer, Procs.own, ownStep]
  | openat env fd path flags =>
    have same := openat_own pfd w p env fd path flags meets
    simp only [query, ownStep]
    rw [← same]
    cases fat32Openat w.mylimit.rlimCur env (w.files pfd p) fd path flags with
    | error fault => rfl
    | ok r => simp [onTable, Procs.answer, Procs.own]

variable {w next : Procs P T} {act : P × Query}

theorem query_other (run : query pfd w act = some next) {p : P} (other : act.1 ≠ p) :
    next.own pfd p = { w.own pfd p with table := next.tables (pfd p) } ∧
      (pfd act.1 ≠ pfd p → next.tables (pfd p) = w.tables (pfd p)) := by
  obtain ⟨q, call⟩ := act
  have apart : p ≠ q := fun same => other same.symm
  cases call with
  | setrlimit rlim =>
    cases run
    simp [doSetrlimit, Procs.answer, Procs.own, apart]
  | getrlimit =>
    cases run
    simp [Procs.answer, Procs.own, apart]
  | openat env fd path flags =>
    simp only [query] at run
    split at run
    · exact nomatch run
    · cases run
      refine ⟨by simp [Procs.answer, Procs.own, apart], ?_⟩
      intro unshared
      exact update_of_ne unshared.symm _ _

theorem hears_run (meets : OwnLimit w act) (run : query pfd w act = some next) (p : P) :
    runActs ownStep (w.own pfd p) (hears pfd p w act) = some (next.own pfd p) := by
  unfold hears
  rcases eq_or_ne act.1 p with rfl | mine
  · have own := query_own pfd w act meets
    rw [run, map_some] at own
    rw [if_pos rfl, runActs_cons, ← own]
    rfl
  · obtain ⟨kept, apart⟩ := query_other pfd run mine
    rw [if_neg mine]
    by_cases shares : pfd act.1 = pfd p
    · rw [if_pos shares, run, kept]
      rfl
    · rw [if_neg shares, kept, apart shares]
      rfl

theorem hears_stop (meets : OwnLimit w act) (stop : query pfd w act = none) :
    runActs ownStep (w.own pfd act.1) (hears pfd act.1 w act) = none := by
  have own := query_own pfd w act meets
  rw [stop, map_none] at own
  rw [hears, if_pos rfl, runActs_cons, ← own]
  rfl

theorem heard_cons (rest : List (P × Query)) (run : query pfd w act = some next) (p : P) :
    heard pfd p w (act :: rest) = hears pfd p w act ++ heard pfd p next rest := by
  rw [heard, run]

/-- If every open finds the limit of its own process in force, then each process has the
limit, the table and the answers that it would have alone. -/
theorem limits_own (w : Procs P T) (acts : List (P × Query))
    (meets : StepsMeet (query pfd) OwnLimit w acts) :
    (∀ final, runActs (query pfd) w acts = some final →
      ∀ p, runActs ownStep (w.own pfd p) (heard pfd p w acts) = some (final.own pfd p)) ∧
    (runActs (query pfd) w acts = none →
      ∃ p, runActs ownStep (w.own pfd p) (heard pfd p w acts) = none) := by
  induction acts generalizing w with
  | nil =>
    refine ⟨?_, nofun⟩
    intro final run p
    rw [Option.some.inj run]
    rfl
  | cons act rest ih =>
    cases stepRun : query pfd w act with
    | none =>
      refine ⟨?_, ?_⟩
      · intro final run
        rw [runActs_cons, stepRun] at run
        exact nomatch run
      · intro _
        refine ⟨act.1, ?_⟩
        rw [heard, stepRun, append_nil]
        exact hears_stop pfd meets.1 stepRun
    | some next =>
      obtain ⟨returns, stops⟩ := ih next (meets.2 next stepRun)
      have front : ∀ p, runActs ownStep (w.own pfd p) (heard pfd p w (act :: rest)) =
          runActs ownStep (next.own pfd p) (heard pfd p next rest) := by
        intro p
        rw [heard_cons pfd rest stepRun, runActs_append, hears_run pfd meets.1 stepRun]
        rfl
      rw [runActs_cons, stepRun]
      refine ⟨?_, ?_⟩
      · intro final run p
        rw [front]
        exact returns final run p
      · intro stop
        obtain ⟨p, stopped⟩ := stops stop
        exact ⟨p, (front p).trans stopped⟩

end Runs

def bootProcs : Procs (Fin 2) (Fin 2) where
  mylimit := ⟨maxFdNum, maxFdNum⟩
  fdLimit := fun _ => ⟨maxFdNum, maxFdNum⟩
  tables := fun _ => initFd fun _ => blankFd
  pipe := fun _ => ⟨0, 0, false⟩
  sockUsed := fun _ => false
  answers := fun _ => []

def openData : Query := .openat oneFile atFdcwd "data" 0

/-- The first process opens a file after it has asked for its limit. -/
theorem limits_own_asked : StepsMeet (query id) OwnLimit bootProcs
      [(1, .setrlimit ⟨3, 110⟩), (0, .getrlimit), (0, openData)] ∧
    (∀ final, runActs (query id) bootProcs
        [(1, .setrlimit ⟨3, 110⟩), (0, .getrlimit), (0, openData)] = some final →
      ∀ p, runActs ownStep (bootProcs.own id p) (heard id p bootProcs
        [(1, .setrlimit ⟨3, 110⟩), (0, .getrlimit), (0, openData)]) = some (final.own id p)) := by
  refine ⟨?meets, (limits_own id bootProcs _ ?meets).1⟩
  decide +kernel

/-- Without the `do_setrlimit` of the other process the open succeeds; with it the open
fails, although `do_getrlimit` reports the limit of 110 both times. -/
theorem openat_other_limit :
    (runActs (query id) bootProcs [(0, openData), (0, .getrlimit)]).map (fun w => w.answers 0) =
      some [.opened 3, .rlimit ⟨110, 110⟩] ∧ (runActs (query id) bootProcs
      [(1, .setrlimit ⟨3, 110⟩), (0, openData), (0, .getrlimit)]).map (fun w => w.answers 0) =
      some [.opened (-24), .rlimit ⟨110, 110⟩] ∧ ¬ ∀ final, runActs (query id) bootProcs
        [(1, .setrlimit ⟨3, 110⟩), (0, openData), (0, .getrlimit)] = some final →
      runActs ownStep (bootProcs.own id 0) (heard id 0 bootProcs
        [(1, .setrlimit ⟨3, 110⟩), (0, openData), (0, .getrlimit)]) = some (final.own id 0) := by
  have alone : (runActs ownStep (bootProcs.own id 0) (heard id 0 bootProcs
      [(1, .setrlimit ⟨3, 110⟩), (0, openData), (0, .getrlimit)])).map Own.answers =
      some [.opened 3, .rlimit ⟨110, 110⟩] := by
    decide +kernel
  have disturbed : (runActs (query id) bootProcs
      [(1, .setrlimit ⟨3, 110⟩), (0, openData), (0, .getrlimit)]).map (fun w => w.answers 0) =
      some [.opened (-24), .rlimit ⟨110, 110⟩] := by
    decide +kernel
  refine ⟨by decide +kernel, disturbed, ?_⟩
  intro same
  obtain ⟨final, run, answers⟩ := map_eq_some_iff.mp disturbed
  rw [same final run, map_some] at alone
  have equal : final.answers 0 = [.opened 3, .rlimit ⟨110, 110⟩] := Option.some.inj alone
  rw [answers] at equal
  exact absurd equal (by decide)

end CCore.Fs.Limit
