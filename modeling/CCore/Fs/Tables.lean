import CCore.Fs.Redirect

/-!
# Descriptor tables of all processes (`file.c`, `pipe.c`, `init.c`)

`fat32_pipe2` on one table, and the array `pfd_table` from which `do_exec` and
`do_clone` take the tables of processes: a clone with `CLONE_FILES` shares its
parent's table, any other clone gets a copy, and the last process of a table
closes its pipe ends.  `FdSys` is the state of all of this with
`status_ctx = 0`, and `fdStep` one call of one process.
-/
namespace CCore.Fs

open Function List Option

def pipeNum : Nat := 200

def maxFdTable : Nat := 5

def numMaxTask : Nat := 100

instance : NeZero maxFdNum := ⟨by decide⟩

instance : NeZero maxFdTable := ⟨by decide⟩

instance : NeZero numMaxTask := ⟨by decide⟩

def enfile : Int := 23

/-- The first pipe with both counters zero. -/
def freePipe (pipes : Nat → Pipe) : Option Nat :=
  (List.range pipeNum).find? fun n => decide ((pipes n).rValid = 0 ∧ (pipes n).wValid = 0)

/-- A descriptor set up as one end of pipe `n`. -/
def Fd.asPipe (fd : Fd) (n : Nat) (isRead : Bool) : Fd :=
  { fd with dev := .pipe, pipNum := n, isPipeRead := isRead, isPipeWrite := !isRead }

/-- `get_one_fd` and the stores to the descriptor it handed out. -/
def openEndFd (t : Table) (n : Nat) (isRead : Bool) : Option (Nat × Table) :=
  let (number, claimed) := getOneFd t
  (getFdIndex claimed number).map fun index =>
    (number, writeAt claimed index fun fd => fd.asPipe n isRead)

/-- The result with the two numbers stored through `fd`.  `none`: a look-up never
ends.  In a full table the stores go to `pfd[-1]`, outside the table. -/
def fat32Pipe2 (s : Files) : Option (Int × List Nat × Files) :=
  match freePipe s.pipe with
  | none => some (-enfile, [], s)
  | some n =>
    (openEndFd s.pfd n true).bind fun (fd0, t) =>
      (openEndFd t n false).map fun (fd1, t') =>
        (0, [fd0, fd1], { s with pfd := t', pipe := update s.pipe n ⟨1, 1, true⟩ })

/-! ## The array of tables -/

structure PfdTable where
  used : Bool
  num : Nat
  pfd : Table

/-- `pfd p` is the table that the PCB of a live process points to. -/
structure FdSys where
  tables : Fin maxFdTable → PfdTable
  pipe : Nat → Pipe
  sockUsed : Nat → Bool
  pfd : Fin numMaxTask → Option (Fin maxFdTable)

namespace FdSys

/-- What the calls of a process with table `t` work on. -/
def files (w : FdSys) (t : Fin maxFdTable) : Files := ⟨(w.tables t).pfd, w.pipe, w.sockUsed⟩

def setFiles (w : FdSys) (t : Fin maxFdTable) (s : Files) : FdSys :=
  { w with
    tables := update w.tables t { w.tables t with pfd := s.pfd }
    pipe := s.pipe
    sockUsed := s.sockUsed }

end FdSys

/-- The first table not in use; `none` is the failed assertion. -/
def allocFdTable (w : FdSys) : Option (Fin maxFdTable) :=
  (List.finRange maxFdTable).find? fun t => !(w.tables t).used

/-- The loop of `init_clone_pcb` that calls `copy_fd` on every slot. -/
def copyTable (pipes : Nat → Pipe) (t : Table) : Nat → Pipe :=
  (List.finRange maxFdNum).foldl (fun pipes i => bumpPipe pipes (t i)) pipes

/-- The descriptors of a clone; `files` is the flag `CLONE_FILES`. -/
def cloneFiles (w : FdSys) (child : Fin numMaxTask) (t : Fin maxFdTable) (files : Bool) :
    Option FdSys :=
  if files then
    some { w with
      tables := update w.tables t { w.tables t with num := (w.tables t).num + 1 }
      pfd := update w.pfd child (some t) }
  else
    (allocFdTable w).map fun t' =>
      { w with
        tables := update w.tables t' ⟨true, 1, (w.tables t).pfd⟩
        pipe := copyTable w.pipe (w.tables t).pfd
        pfd := update w.pfd child (some t') }

/-- One slot of a table that is given up, whether in use or not. -/
def dropFd (pipes : Nat → Pipe) (fd : Fd) : Nat → Pipe :=
  if fd.dev = .pipe then
    if fd.isPipeRead then closePipeRead pipes fd.pipNum
    else if fd.isPipeWrite then closePipeWrite pipes fd.pipNum
    else pipes
  else pipes

def clearFd (fd : Fd) : Fd :=
  { fd with used := .unused, dev := .default, flags := 0, mode := 0, redirected := false,
            mmapUsed := false }

def freeFdTable (w : FdSys) (t : Fin maxFdTable) : FdSys :=
  if (w.tables t).num - 1 = 0 then
    { w with
      tables := update w.tables t
        ⟨false, (w.tables t).num - 1, fun i => clearFd ((w.tables t).pfd i)⟩
      pipe := (List.finRange maxFdNum).foldl
        (fun pipes i => dropFd pipes ((w.tables t).pfd i)) w.pipe }
  else
    { w with
      tables := update w.tables t { w.tables t with num := (w.tables t).num - 1 } }

/-- Where a process ends: `recycle_pcb_default`. -/
def exitFiles (w : FdSys) (p : Fin numMaxTask) (t : Fin maxFdTable) : FdSys :=
  { freeFdTable w t with pfd := update w.pfd p none }

inductive FdAct where
  | pipe2 (p : Fin numMaxTask)
  | dup (p : Fin numMaxTask) (src : Nat)
  | dup3 (p : Fin numMaxTask) (src dst : Nat)
  | close (p : Fin numMaxTask) (fd : Nat)
  | clone (p child : Fin numMaxTask) (files : Bool)
  | exit (p : Fin numMaxTask)

def FdAct.process : FdAct → Fin numMaxTask
  | .pipe2 p | .dup p _ | .dup3 p _ _ | .close p _ | .clone p _ _ | .exit p => p

/-- A call of a process whose table is `t`. -/
def fdStepIn (w : FdSys) (t : Fin maxFdTable) : FdAct → Option FdSys
  | .pipe2 _ => (fat32Pipe2 (w.files t)).map fun r => w.setFiles t r.2.2
  | .dup _ src => (fat32Dup (w.files t) src).map fun r => w.setFiles t r.2
  | .dup3 _ src dst => (fat32Dup3 (w.files t) src dst).map fun r => w.setFiles t r.2
  | .close _ fd => some (w.setFiles t (fat32Close (w.files t) fd).2)
  | .clone _ child files => if w.pfd child = none then cloneFiles w child t files else none
  | .exit p => some (exitFiles w p t)

/-- A step needs a live process; a clone needs a PCB that is not in use and, unless
it shares the table, a free table. -/
def fdStep (w : FdSys) (act : FdAct) : Option FdSys :=
  (w.pfd act.process).bind fun t => fdStepIn w t act

/-! ## What the calls do to a good table -/

def Fd.aliasOf (fd : Fd) (number : Nat) (src : Slot) (dev : Dev) : Fd :=
  { fd with used := .used, fdNum := number, redirected := true, redirectedFdIndex := src, dev := dev }

variable {s next : Files} {srcFd dstFd : Nat} {r : Int} {src : Slot}
variable {t t' : Table} {number : Nat}

theorem getOneFd_le (run : getOneFd t = (number, t'))
    (valid : number ≠ noFd) : number ≤ maxFdNum := by
  unfold getOneFd at run
  split at run
  · rename_i free _
    have inRange := List.mem_of_find?_eq_some free
    rw [mem_range] at inRange
    cases run
    omega
  · cases run
    exact absurd rfl valid

theorem asInt_small (small : number < 2 ^ 31) : asInt number = number := by rw [asInt, if_pos small]

theorem dup_effect (good : Good s.pfd) (run : fat32Dup s srcFd = some (r, next)) :
    (r < 0 ∧ next = s) ∨ ∃ src u number, getFdIndex s.pfd srcFd = some (some src) ∧ (s.pfd src).inUse ∧
      (s.pfd u).used = .unused ∧ (∀ j, (s.pfd j).inUse → (s.pfd j).fdNum ≠ number) ∧ r = number ∧
      next = { s with
        pfd := update s.pfd u ((s.pfd u).aliasOf number src (s.pfd src).dev) } := by
  rcases good.getFdIndex_cases srcFd with ⟨_, found⟩ | ⟨_, src, _, found, inUse⟩
  · left
    simp only [fat32Dup, found, bind_some, some.injEq, Prod.mk.injEq] at run
    exact ⟨run.1 ▸ by decide, run.2.symm⟩
  rcases getOneFd_cases s.pfd with ⟨full, result⟩ | ⟨number, u, unusedU, valid, fresh, result⟩
  · left
    simp only [fat32Dup, found, result, bind_some, if_true, some.injEq, Prod.mk.injEq] at run
    exact ⟨run.1 ▸ by decide, run.2.symm⟩
  right
  have unused := firstUnused_some unusedU
  have other : src ≠ u := fun same => inUse (same ▸ unused)
  simp only [fat32Dup, found, result, valid, bind_some, if_false,
    good.getFdIndex_claimSlot unused fresh, map_some, writeAt, some.injEq, Prod.mk.injEq] at run
  have small : number < 2 ^ 31 := (getOneFd_le result valid).trans_lt (by decide)
  refine ⟨src, u, number, found, inUse, unused, fresh, run.1.symm.trans (asInt_small small), ?_⟩
  rw [← run.2]
  simp [claimSlot, Fd.aliasOf, Fd.redirectedTo, other]

theorem openat_effect (good : Good s.pfd) {env : OpenEnv} {fd : Nat} {path : String} {flags : Nat}
    (run : fat32Openat env s fd path flags = some (r, next)) :
    (r < 0 ∧ next = s) ∨ ∃ u number, (s.pfd u).used = .unused ∧
      (∀ j, (s.pfd j).inUse → (s.pfd j).fdNum ≠ number) ∧
      ((∃ f : Fd, r = number ∧ Good.SameShape f { s.pfd u with used := .used, fdNum := number } ∧
          next = { s with pfd := update s.pfd u f }) ∨
        (r < 0 ∧ next = (fat32Close { s with pfd := claimSlot s.pfd u number } number).2)) := by
  unfold fat32Openat at run
  obtain ⟨base, _, run⟩ := bind_eq_some_iff.mp run
  cases base with
  | none =>
    cases run
    exact .inl ⟨by decide, rfl⟩
  | some base =>
    rcases getOneFd_cases s.pfd with ⟨full, result⟩ | ⟨number, u, unusedU, valid, fresh, result⟩
    · simp only [result, if_true, some.injEq, Prod.mk.injEq] at run
      exact .inl ⟨run.1 ▸ by decide, run.2.symm⟩
    have unused := firstUnused_some unusedU
    have small : number < 2 ^ 31 := (getOneFd_le result valid).trans_lt (by decide)
    refine .inr ⟨u, number, unused, fresh, ?_⟩
    simp only [result, valid, if_false, good.getFdIndex_claimSlot unused fresh, map_some,
      some.injEq] at run
    cases opened : openedFd env (claimSlot s.pfd u number u) path flags base with
    | some f =>
      simp only [opened, Prod.mk.injEq] at run
      refine .inl ⟨f, run.1.symm.trans (asInt_small small), ?_, ?_⟩
      · simpa [claimSlot] using openedFd_sameShape opened
      · rw [← run.2]
        simp [claimSlot]
    | none =>
      simp only [opened, Prod.mk.injEq] at run
      exact .inr ⟨run.1 ▸ by decide, run.2.symm⟩

/-- `redirectTo` takes an unused slot.  Where no slot carries the number, the
device of the new descriptor stays what it was in that slot. -/
theorem redirectTo_effect (good : Good s.pfd)
    (free : ∀ i, (s.pfd i).inUse → (s.pfd i).fdNum ≠ dstFd)
    (room : firstNumbered s.pfd dstFd ≠ none ∨ firstUnused s.pfd ≠ none)
    (run : redirectTo s src dstFd = some next) :
    ∃ u dev, (s.pfd u).used = .unused ∧ (dev = (s.pfd src).dev ∨ dev = (s.pfd u).dev) ∧
      next = { s with pfd := update s.pfd u ((s.pfd u).aliasOf dstFd src dev) } := by
  unfold redirectTo at run
  cases numbered : firstNumbered s.pfd dstFd with
  | some u =>
    have number := firstNumbered_some numbered
    have unused : (s.pfd u).used = .unused := by
      by_contra inUse
      exact free u inUse number
    simp only [numbered, writeAt, some.injEq] at run
    refine ⟨u, _, unused, .inl rfl, ?_⟩
    rw [← run]
    simp [Fd.aliasOf, Fd.redirectedTo, ← number]
  | none =>
    rcases getOneFd_cases s.pfd with ⟨full, _⟩ | ⟨number, u, unusedU, valid, fresh, result⟩
    · exact absurd full (room.resolve_left fun some => some numbered)
    have unused := firstUnused_some unusedU
    simp only [numbered, result, good.getFdIndex_claimSlot unused fresh, map_some, writeAt,
      some.injEq] at run
    refine ⟨u, _, unused, .inr rfl, ?_⟩
    rw [← run]
    simp [claimSlot, Fd.aliasOf, Fd.redirectedTo, Fd.withNumber]

theorem dup3_effect (good : Good s.pfd) (ok : RedirectOk s (.dup3 srcFd dstFd))
    (room : firstNumbered s.pfd dstFd ≠ none ∨ firstUnused s.pfd ≠ none)
    (run : fat32Dup3 s srcFd dstFd = some (r, next)) :
    (r < 0 ∧ next = s) ∨ ∃ src closed u dev, srcFd ≠ dstFd ∧ r = asInt dstFd ∧
      getFdIndex s.pfd srcFd = some (some src) ∧
      (closed = s ∨ closed = (fat32Close s dstFd).2) ∧ Good closed.pfd ∧
      (closed.pfd src).inUse ∧ (closed.pfd u).used = .unused ∧
      (∀ i, (closed.pfd i).inUse → (closed.pfd i).fdNum ≠ dstFd) ∧
      (dev = (closed.pfd src).dev ∨ dev = (closed.pfd u).dev) ∧ next = { closed with
        pfd := update closed.pfd u ((closed.pfd u).aliasOf dstFd src dev) } := by
  by_cases equal : srcFd = dstFd
  · left
    simp only [fat32Dup3, equal, if_true, some.injEq, Prod.mk.injEq] at run
    exact ⟨run.1 ▸ by decide, run.2.symm⟩
  rcases good.getFdIndex_cases srcFd with ⟨_, found⟩ | ⟨_, src, _, found, inUse⟩
  · left
    simp only [fat32Dup3, equal, if_false, found, bind_some, some.injEq, Prod.mk.injEq] at run
    exact ⟨run.1 ▸ by decide, run.2.symm⟩
  right
  obtain ⟨other, _⟩ := ok equal src found
  rcases good.getFdIndex_cases dstFd with ⟨ownDst, foundDst⟩ | ⟨k, dst, ownDst, foundDst, _⟩
  · simp only [fat32Dup3, equal, if_false, found, foundDst, bind_some, isSome_none,
      Bool.false_eq_true, map_eq_some_iff, Prod.mk.injEq] at run
    obtain ⟨_, redirected, value, rfl⟩ := run
    obtain ⟨u, dev, unused, fromDev, result⟩ :=
      redirectTo_effect good (own_none ownDst) room redirected
    exact ⟨src, s, u, dev, equal, value.symm, found, .inl rfl, good, inUse, unused,
      own_none ownDst, fromDev, result⟩
  · simp only [fat32Dup3, equal, if_false, found, foundDst, bind_some, isSome_some,
      if_true, map_eq_some_iff, Prod.mk.injEq] at run
    obtain ⟨_, redirected, value, rfl⟩ := run
    have differs : src ≠ k := by
      rintro rfl
      exact other ownDst
    have free := good.close_frees ownDst
    have goodClosed := good.close ownDst
    obtain ⟨u, dev, unused, fromDev, result⟩ :=
      redirectTo_effect goodClosed free (.inl (good.close_numbered ownDst)) redirected
    exact ⟨src, _, u, dev, equal, value.symm, found, .inr rfl, goodClosed,
      (good.close_used ownDst src).mpr ⟨differs, inUse⟩, unused, free, fromDev, result⟩

variable {u : Slot}

theorem Good.alias_ (good : Good t) {src : Slot} {dev : Dev} (unused : (t u).used = .unused)
    (inUse : (t src).inUse) (fresh : ∀ j, (t j).inUse → (t j).fdNum ≠ number) :
    Good (update t u ((t u).aliasOf number src dev)) := by
  refine good.redirect (i := src) inUse ?_ (by simp [Fd.inUse, Fd.aliasOf]) rfl rfl
    (good.unmapped u) ?_
  · exact fun reaches => good.inUse_of_reaches inUse reaches unused
  · intro k _ inUseK
    exact fresh k inUseK

theorem Good.fill (good : Good t) {f : Fd}
    (unused : (t u).used = .unused) (fresh : ∀ j, (t j).inUse → (t j).fdNum ≠ number)
    (shape : SameShape f { t u with used := .used, fdNum := number }) : Good (update t u f) := by
  refine (good.claim (i := u) fresh).of_sameShape ?_
  intro i
  rcases eq_or_ne i u with rfl | same
  · simpa [claimSlot] using shape
  · simp [claimSlot, same, SameShape]

theorem openEndFd_effect {n : Nat} {isRead : Bool} (good : Good t)
    (room : firstUnused t ≠ none) (run : openEndFd t n isRead = some (number, t')) :
    ∃ u, (t u).used = .unused ∧ firstUnused t = some u ∧ (∀ j, (t j).inUse → (t j).fdNum ≠ number) ∧
      t' = update t u (({ t u with used := .used, fdNum := number } : Fd).asPipe n isRead) := by
  rcases getOneFd_cases t with ⟨full, _⟩ | ⟨number', u, unusedU, valid, fresh, result⟩
  · exact absurd full room
  have unused := firstUnused_some unusedU
  simp only [openEndFd, result, good.getFdIndex_claimSlot unused fresh, map_some, writeAt,
    some.injEq, Prod.mk.injEq] at run
  obtain ⟨rfl, rfl⟩ := run
  refine ⟨u, unused, unusedU, fresh, ?_⟩
  simp [claimSlot]

theorem firstUnused_update_ne_none {a b : Slot} (differ : a ≠ b)
    (unusedA : (t a).used = .unused) (unusedB : (t b).used = .unused) (u : Slot) (f : Fd) :
    firstUnused (update t u f) ≠ none := by
  intro full
  have busyA := firstUnused_none full a
  have busyB := firstUnused_none full b
  by_cases sameA : a = u
  · have sameB : b ≠ u := fun same => differ (sameA.trans same.symm)
    rw [update_of_ne sameB] at busyB
    exact busyB unusedB
  · rw [update_of_ne sameA] at busyA
    exact busyA unusedA

def Fd.newEnd (fd : Fd) (number n : Nat) (isRead : Bool) : Fd :=
  ({ fd with used := .used, fdNum := number } : Fd).asPipe n isRead

theorem pipe2_effect {fds : List Nat} (good : Good s.pfd) (room : freePipe s.pipe = none ∨
      ∃ a b, a ≠ b ∧ (s.pfd a).used = .unused ∧ (s.pfd b).used = .unused)
    (run : fat32Pipe2 s = some (r, fds, next)) :
    (r < 0 ∧ next = s) ∨ ∃ n u v fd0 fd1, r = 0 ∧ fds = [fd0, fd1] ∧ freePipe s.pipe = some n ∧
      (s.pfd u).used = .unused ∧ (∀ j, (s.pfd j).inUse → (s.pfd j).fdNum ≠ fd0) ∧
      v ≠ u ∧ (s.pfd v).used = .unused ∧ fd1 ≠ fd0 ∧
      (∀ j, (s.pfd j).inUse → (s.pfd j).fdNum ≠ fd1) ∧ next = { s with
        pfd := update (update s.pfd u ((s.pfd u).newEnd fd0 n true)) v
          ((s.pfd v).newEnd fd1 n false)
        pipe := update s.pipe n ⟨1, 1, true⟩ } := by
  cases freeN : freePipe s.pipe with
  | none =>
    left
    rw [fat32Pipe2, freeN] at run
    cases run
    exact ⟨by decide, rfl⟩
  | some n =>
    right
    obtain ⟨a, b, differ, unusedA, unusedB⟩ := room.resolve_left (by simp [freeN])
    rw [fat32Pipe2, freeN] at run
    obtain ⟨⟨fd0, t⟩, run0, run⟩ := bind_eq_some_iff.mp run
    obtain ⟨⟨fd1, t'⟩, run1, run⟩ := map_eq_some_iff.mp run
    cases run
    obtain ⟨u, unusedU, _, freshU, rfl⟩ :=
      openEndFd_effect good (fun full => firstUnused_none full a unusedA) run0
    have shape : Good.SameShape ((s.pfd u).newEnd fd0 n true)
        { s.pfd u with used := .used, fdNum := fd0 } := ⟨rfl, rfl, rfl, rfl, rfl⟩
    obtain ⟨v, unusedV, _, freshV, rfl⟩ := openEndFd_effect (good.fill unusedU freshU shape)
      (firstUnused_update_ne_none differ unusedA unusedB u _) run1
    have apart : v ≠ u := by
      rintro rfl
      simp [Fd.newEnd, Fd.asPipe] at unusedV
    rw [update_of_ne apart] at unusedV
    refine ⟨n, u, v, fd0, fd1, rfl, rfl, rfl, unusedU, freshU, apart, unusedV, ?_, ?_, ?_⟩
    · have number := freshV u (by simp [Fd.newEnd, Fd.asPipe, Fd.inUse])
      rw [update_self] at number
      exact fun same => number same.symm
    · intro j inUse
      have other : j ≠ u := fun same => inUse (same ▸ unusedU)
      have number := freshV j
      rw [update_of_ne other] at number
      exact number inUse
    · rw [update_of_ne apart]
      rfl

end CCore.Fs
