import CCore.Fat.Geometry
import CCore.Lib.Chase

/-!
# The descriptor table of a process (`kernel/fat32/file.c`)

A descriptor table has `MAX_FD_NUM` slots.  A slot carries its own descriptor
number and may be redirected to another slot, which is how `dup` and `dup3`
share a file.  `getFdIndex` follows redirections in a `while` loop that no
bound protects: it answers `none` where the source never leaves that loop.
-/
namespace CCore.Fs

open Fat Chase Function

def maxFdNum : Nat := 110

/-- An index into `pfd`. -/
abbrev Slot := Fin maxFdNum

inductive Dev where
  | stdin
  | stdout
  | stderr
  | default
  | null
  | zero
  | pipe
  | sock
  deriving DecidableEq, Repr

/-- The field `used`; `mmapZombie` is the value 2 that `fat32_close` leaves in
a slot whose file is still mapped. -/
inductive Use where
  | unused
  | used
  | mmapZombie
  deriving DecidableEq, Repr

structure DirPos where
  offset : Nat
  len : Nat
  sec : Nat
  deriving DecidableEq, Repr

structure Fd where
  name : String
  dev : Dev
  firstClusNum : Nat
  mode : Nat
  flags : Nat
  pos : Nat
  curSec : Nat
  curClusNum : Nat
  length : Nat
  dirPos : DirPos
  fdNum : Nat
  used : Use
  redirected : Bool
  redirectedFdIndex : Slot
  pipNum : Nat
  isPipeRead : Bool
  isPipeWrite : Bool
  sockNum : Nat
  mmapUsed : Bool
  nlink : Nat
  deriving DecidableEq, Repr

abbrev Table := Slot → Fd

def Fd.inUse (fd : Fd) : Prop := fd.used ≠ .unused

instance (fd : Fd) : Decidable fd.inUse := inferInstanceAs (Decidable (_ ≠ _))

/-- `(fd_num_t)-1`. -/
def noFd : Nat := 2 ^ 32 - 1

def initFd (t : Table) : Table := fun i =>
  if i.val = 0 then { t i with dev := .stdin, fdNum := 0, used := .used }
  else if i.val = 1 then { t i with dev := .stdout, fdNum := 1, used := .used }
  else if i.val = 2 then { t i with dev := .stderr, fdNum := 2, used := .used }
  else { t i with dev := .default, fdNum := i.val, used := .unused }

/-- The search for a number that no slot in use carries.  `maxFdNum` slots
carry at most `maxFdNum` numbers, so the source's loop ends in this range. -/
def freeNumber (t : Table) : Option Nat :=
  (List.range (maxFdNum + 1)).find? fun n => decide (∀ i, ¬ ((t i).inUse ∧ (t i).fdNum = n))

def firstUnused (t : Table) : Option Slot :=
  (List.finRange maxFdNum).find? fun i => decide ((t i).used = .unused)

def claimSlot (t : Table) (i : Slot) (number : Nat) : Table :=
  update t i { t i with used := .used, fdNum := number }

/-- Returns the number and the table, or `(fd_num_t)-1` when no slot is free. -/
def getOneFd (t : Table) : Nat × Table :=
  match freeNumber t, firstUnused t with
  | some number, some i => (number, claimSlot t i number)
  | _, _ => (noFd, t)

def getFdIndexWithoutRedirect (t : Table) (fd : Nat) : Option Slot :=
  (List.finRange maxFdNum).find? fun i => decide ((t i).inUse ∧ (t i).fdNum = fd)

/-- The redirection of a slot, whatever its device. -/
def link (t : Table) (i : Slot) : Option Slot :=
  if (t i).redirected then some (t i).redirectedFdIndex else none

/-- The loop of `get_fd_index` follows a redirection only on `DEV_DEFAULT`. -/
def hop (t : Table) (i : Slot) : Option Slot :=
  if (t i).dev = .default then link t i else none

/-- `none`: the loop never ends; `some none`: the source's -1. -/
def getFdIndex (t : Table) (fd : Nat) : Option (Option Slot) :=
  match getFdIndexWithoutRedirect t fd with
  | none => some none
  | some i =>
    (chase (hop t) maxFdNum i).map fun j =>
      if (t j).dev = .default ∧ (t j).used = .unused then none else some j

theorem getFdIndex_eq_none_iff (t : Table) (fd : Nat) :
    getFdIndex t fd = none ↔ ∃ i, getFdIndexWithoutRedirect t fd = some i ∧
      ∀ fuel, chase (hop t) fuel i = none := by
  unfold getFdIndex
  cases own : getFdIndexWithoutRedirect t fd with
  | none => simp
  | some i =>
    have exhausted : chase (hop t) (Fintype.card Slot) i = none ↔ _ :=
      chase_card_eq_none_iff i
    rw [Fintype.card_fin] at exhausted
    simp [exhausted]

/-! ## Pipes and sockets as far as a close touches them -/

/-- The counters are `uint8`; `hasBuf` says whether `rbuf.buf` is allocated. -/
structure Pipe where
  rValid : Nat
  wValid : Nat
  hasBuf : Bool
  deriving DecidableEq, Repr

/-- What the four calls below read and write. -/
structure Files where
  pfd : Table
  pipe : Nat → Pipe
  sockUsed : Nat → Bool

def dropBuf (p : Pipe) : Pipe :=
  if p.rValid = 0 ∧ p.wValid = 0 then { p with hasBuf := false } else p

def closePipeRead (pipes : Nat → Pipe) (n : Nat) : Nat → Pipe :=
  if (pipes n).rValid = 0 then pipes
  else update pipes n (dropBuf { pipes n with rValid := (pipes n).rValid - 1 })

def closePipeWrite (pipes : Nat → Pipe) (n : Nat) : Nat → Pipe :=
  if (pipes n).wValid = 0 then pipes
  else update pipes n (dropBuf { pipes n with wValid := (pipes n).wValid - 1 })

theorem dropBuf_valid (p : Pipe) :
    (dropBuf p).rValid = p.rValid ∧ (dropBuf p).wValid = p.wValid := by
  unfold dropBuf
  split <;> exact ⟨rfl, rfl⟩

section
variable (pipes : Nat → Pipe)
include pipes

theorem closePipeRead_rValid (n m : Nat) : (closePipeRead pipes n m).rValid =
    if m = n then (pipes m).rValid - 1 else (pipes m).rValid := by
  unfold closePipeRead
  rcases eq_or_ne m n with rfl | same
  · by_cases zero : (pipes m).rValid = 0 <;> simp [zero, dropBuf_valid]
  · split <;> simp [same]

theorem closePipeRead_wValid (n m : Nat) : (closePipeRead pipes n m).wValid = (pipes m).wValid := by
  unfold closePipeRead
  rcases eq_or_ne m n with rfl | same
  · split <;> simp [dropBuf_valid]
  · split <;> simp [same]

theorem closePipeWrite_wValid (n m : Nat) : (closePipeWrite pipes n m).wValid =
    if m = n then (pipes m).wValid - 1 else (pipes m).wValid := by
  unfold closePipeWrite
  rcases eq_or_ne m n with rfl | same
  · by_cases zero : (pipes m).wValid = 0 <;> simp [zero, dropBuf_valid]
  · split <;> simp [same]

theorem closePipeWrite_rValid (n m : Nat) :
    (closePipeWrite pipes n m).rValid = (pipes m).rValid := by
  unfold closePipeWrite
  rcases eq_or_ne m n with rfl | same
  · split <;> simp [dropBuf_valid]
  · split <;> simp [same]

end

/-- The counters of the pipe end that a copy of `src` opens once more. -/
def bumpPipe (pipes : Nat → Pipe) (src : Fd) : Nat → Pipe :=
  if src.inUse ∧ src.dev = .pipe then
    if src.isPipeRead then
      update pipes src.pipNum
        { pipes src.pipNum with rValid := ((pipes src.pipNum).rValid + 1) % 256 }
    else if src.isPipeWrite then
      update pipes src.pipNum
        { pipes src.pipNum with wValid := ((pipes src.pipNum).wValid + 1) % 256 }
    else pipes
  else pipes

def copyFd (s : Files) (dst : Slot) (src : Fd) : Files :=
  { s with pfd := update s.pfd dst src, pipe := bumpPipe s.pipe src }

end CCore.Fs
