import CCore.Lib.Owners
import CCore.Fs.Tables

/-!
# Tables that processes share (`init.c`, `file.c`, `signal.c`)

The tables of descriptors and of signals with their reference counts, for `status_ctx = 0`.
`handle_exit_pcb` recycles a line of zombies; every PCB of it is one `exit` here.
-/
namespace CCore.Sched.Shared

open Fs Owners Run Function List Option

def maxSignalNum : Nat := 100

def numSig : Nat := 33

structure SigTable (A : Type) where
  used : Bool
  num : Nat
  sigactions : Fin numSig → A

/-- `files.pfd p` is there while PCB `p` is used, and `sigactions p` is its other pointer. -/
structure State (A : Type) where
  files : FdSys
  sigTable : Fin maxSignalNum → SigTable A
  sigactions : Fin numMaxTask → Fin maxSignalNum

-- the default of `A` is an action of zero bytes
variable {A : Type} [Inhabited A] {w next : State A} {p child : Fin numMaxTask}

/-- `init_fd_table` and `init_sig_table`, before there is a process. -/
def initTables (w : State A) : State A :=
  { w with
    files := { w.files with
      tables := fun t => ⟨false, 0, (w.files.tables t).pfd⟩
      pfd := fun _ => none }
    sigTable := fun _ => ⟨false, 0, fun _ => default⟩ }

def initFiles (w : FdSys) (child : Fin numMaxTask) : Option FdSys :=
  (allocFdTable w).map fun t =>
    { w with
      tables := update w.tables t ⟨true, 1, initFd (w.tables t).pfd⟩
      pfd := update w.pfd child (some t) }

/-- `alloc_sig_table`, with what the caller then does to the actions. -/
def allocSigTable (w : State A) (child : Fin numMaxTask)
    (fill : (Fin numSig → A) → Fin numSig → A) : Option (State A) :=
  ((List.finRange maxSignalNum).find? fun t => !(w.sigTable t).used).map fun t =>
    { w with
      sigTable := update w.sigTable t ⟨true, 1, fill (w.sigTable t).sigactions⟩
      sigactions := update w.sigactions child t }

def cloneSig (w : State A) (p child : Fin numMaxTask) (sighand : Bool) : Option (State A) :=
  let t := w.sigactions p
  if sighand then
    some { w with
      sigTable := update w.sigTable t { w.sigTable t with num := (w.sigTable t).num + 1 }
      sigactions := update w.sigactions child t }
  else allocSigTable w child fun _ => (w.sigTable t).sigactions

def freeSigTable (t : SigTable A) : SigTable A :=
  if t.num - 1 = 0 then ⟨false, t.num - 1, fun _ => default⟩ else { t with num := t.num - 1 }

/-- `recycle_pcb_default`. -/
def exit (w : State A) (p : Fin numMaxTask) (t : Fin maxFdTable) : State A :=
  let s := w.sigactions p
  { w with
    files := exitFiles w.files p t
    sigTable := update w.sigTable s (freeSigTable (w.sigTable s)) }

inductive Act where
  | exec (child : Fin numMaxTask)
  | clone (p child : Fin numMaxTask) (files sighand : Bool)
  | exit (p : Fin numMaxTask)

/-- `none` is a failed assertion, or a call that this process or PCB cannot make. -/
def step (w : State A) : Act → Option (State A)
  | .exec child =>
    if w.files.pfd child = none then
      (initFiles w.files child).bind fun files => allocSigTable { w with files } child id
    else none
  | .clone p child files sighand =>
    if w.files.pfd child = none then
      (w.files.pfd p).bind fun t =>
        (cloneFiles w.files child t files).bind fun f =>
          cloneSig { w with files := f } p child sighand
    else none
  | .exit p => (w.files.pfd p).map fun t => exit w p t

/-- The signal table of a used PCB. -/
def sigOf (pfd : Fin numMaxTask → Option (Fin maxFdTable))
    (sigactions : Fin numMaxTask → Fin maxSignalNum) (p : Fin numMaxTask) :
    Option (Fin maxSignalNum) := (pfd p).map fun _ => sigactions p

def FilesCounted (w : FdSys) : Prop := RefCounted PfdTable.used PfdTable.num w.pfd w.tables

structure RefCounts (w : State A) : Prop where
  files : FilesCounted w.files
  sig : RefCounted SigTable.used SigTable.num (sigOf w.files.pfd w.sigactions) w.sigTable

def Fills (w : FdSys) (child : Fin numMaxTask) (f : FdSys) : Prop :=
  FilesCounted f ∧ ∃ t, f.pfd = update w.pfd child (some t)

section Files
variable {w f : FdSys} {t : Fin maxFdTable} (counted : FilesCounted w)
include counted

theorem take_fills {pfd : Table} (free : w.pfd child = none) (alloc : allocFdTable w = some t)
    (pipe : Nat → Pipe) : Fills w child { w with
    tables := update w.tables t ⟨true, 1, pfd⟩
    pipe := pipe
    pfd := update w.pfd child (some t) } := by
  have unused : (w.tables t).used = false := by simpa using find?_some alloc
  exact ⟨counted.gain free (by rw [counted.idle unused]) rfl, t, rfl⟩

theorem cloneFiles_fills {files : Bool} (points : w.pfd p = some t) (free : w.pfd child = none)
    (run : cloneFiles w child t files = some f) : Fills w child f := by
  cases files with
  | true =>
    cases run
    exact ⟨counted.gain free rfl (counted.live points), t, rfl⟩
  | false =>
    obtain ⟨t', alloc, rfl⟩ := map_eq_some_iff.mp run
    exact take_fills counted free alloc _

theorem exitFiles_counted (points : w.pfd p = some t) : FilesCounted (exitFiles w p t) := by
  unfold exitFiles freeFdTable
  split
  case isTrue last => exact counted.drop points rfl (by simp [last])
  case isFalse more =>
    exact counted.drop points rfl ((counted.inUse t).trans (by dsimp only; omega))

end Files

theorem sigOf_update (pfd : Fin numMaxTask → Option (Fin maxFdTable))
    (sigactions : Fin numMaxTask → Fin maxSignalNum) (p : Fin numMaxTask)
    (x : Option (Fin maxFdTable)) (s : Fin maxSignalNum) :
    sigOf (update pfd p x) (update sigactions p s) =
      update (sigOf pfd sigactions) p (x.map fun _ => s) := by
  funext q
  by_cases same : q = p <;> simp [sigOf, same]

section Signals
variable {f : FdSys} {t : Fin maxFdTable} (kept : RefCounts w)
include kept

theorem exit_counted (points : w.files.pfd p = some t) : RefCounts (exit w p t) := by
  refine ⟨exitFiles_counted kept.files points, ?_⟩
  have holds : sigOf w.files.pfd w.sigactions p = some (w.sigactions p) := by simp [sigOf, points]
  have gone := sigOf_update w.files.pfd w.sigactions p none (w.sigactions p)
  rw [update_eq_self] at gone
  change RefCounted _ _ (sigOf (update w.files.pfd p none) w.sigactions) _
  rw [gone]
  unfold exit freeSigTable
  dsimp only
  split
  case isTrue last => exact kept.sig.drop holds rfl (by simp [last])
  case isFalse more =>
    exact kept.sig.drop holds rfl ((kept.sig.inUse _).trans (by dsimp only; omega))

omit [Inhabited A]

variable (free : w.files.pfd child = none) (filled : Fills w.files child f)
include free filled

theorem takeSig_counted {s : Fin maxSignalNum} {x : SigTable A}
    (more : x.num = (w.sigTable s).num + 1) (used : x.used = true) :
    RefCounts ⟨f, update w.sigTable s x, update w.sigactions child s⟩ := by
  obtain ⟨files, t, now⟩ := filled
  refine ⟨files, ?_⟩
  rw [now, sigOf_update]
  exact kept.sig.gain (by simp [sigOf, free]) more used

theorem allocSigTable_counted (fill : (Fin numSig → A) → Fin numSig → A)
    (run : allocSigTable { w with files := f } child fill = some next) : RefCounts next := by
  obtain ⟨s, alloc, rfl⟩ := map_eq_some_iff.mp run
  have unused : (w.sigTable s).used = false := by simpa using find?_some alloc
  exact takeSig_counted kept free filled (by rw [kept.sig.idle unused]) rfl

theorem cloneSig_counted {sighand : Bool} (points : w.files.pfd p = some t)
    (run : cloneSig { w with files := f } p child sighand = some next) : RefCounts next := by
  cases sighand with
  | true =>
    cases run
    exact takeSig_counted kept free filled rfl (kept.sig.live (p := p) (by simp [sigOf, points]))
  | false => exact allocSigTable_counted kept free filled (fun _ => _) run

end Signals

theorem step_refCounts (kept : RefCounts w) (act : Act) (ran : step w act = some next) :
    RefCounts next := by
  cases act with
  | exec child =>
    obtain ⟨free, ran⟩ := ite_none_right_eq_some.mp ran
    obtain ⟨f, files, ran⟩ := bind_eq_some_iff.mp ran
    obtain ⟨t, alloc, rfl⟩ := map_eq_some_iff.mp files
    exact allocSigTable_counted kept free (take_fills kept.files free alloc _) id ran
  | clone p child files sighand =>
    obtain ⟨free, ran⟩ := ite_none_right_eq_some.mp ran
    obtain ⟨t, points, ran⟩ := bind_eq_some_iff.mp ran
    obtain ⟨f, files, ran⟩ := bind_eq_some_iff.mp ran
    exact cloneSig_counted kept free (cloneFiles_fills kept.files points free files) points ran
  | exit p =>
    obtain ⟨t, points, rfl⟩ := map_eq_some_iff.mp ran
    exact exit_counted kept points

/-- In every run of `do_exec`, `do_clone` and exits each table counts the used PCBs that point
to it, and is marked used exactly while there is one. -/
theorem refCounts_along (w : State A) (acts : List Act) :
    HoldsAlong step RefCounts (initTables w) acts := by
  refine holdsAlong_always step RefCounts (fun _ act _ kept => step_refCounts kept act) _ acts ?_
  constructor <;> constructor <;> simp [initTables, owners, sigOf]

end CCore.Sched.Shared
