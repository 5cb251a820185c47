import CCore.Fs.File

/-!
# Calls on descriptors (`fat32_openat`, `fat32_dup`, `fat32_dup3`, `fat32_close`)

The calls of `kernel/fat32/fat32.c` that change which slots are in use and
where they are redirected, for a process with `status_ctx = 0`.  The walk of
`fat32_openat` over the directories on disk enters through its outcome.
-/
namespace CCore.Fs

open Fat Function

def ebadf : Int := 9
def enoent : Int := 2
def einval : Int := 22
def emfile : Int := 24

def sIfdir : Nat := 0x4000
def sIfchr : Nat := 0x2000
def sIfreg : Nat := 0x8000

/-- `AT_FDCWD` as a `fd_num_t`. -/
def atFdcwd : Nat := 2 ^ 32 - 100

/-- A `fd_num_t` returned as an `int`. -/
def asInt (n : Nat) : Int := if n < 2 ^ 31 then n else (n : Int) - 2 ^ 32

/-- Slot `i` is redirected to slot `k`. -/
def Alias (t : Table) (k i : Slot) : Prop :=
  (t i).inUse ∧ (t i).redirected = true ∧ (t i).redirectedFdIndex = k

instance (t : Table) (k i : Slot) : Decidable (Alias t k i) :=
  inferInstanceAs (Decidable (_ ∧ _ ∧ _))

def Fd.withNumber (fd : Fd) (number : Nat) : Fd := { fd with fdNum := number }

/-- One turn of the loop in which the closed slot's aliases take its contents
and keep their own number. -/
def handAlias (k : Slot) (s : Files) (i : Slot) : Files :=
  if Alias s.pfd k i then
    let copied := copyFd s i (s.pfd k)
    { copied with
      pfd := update copied.pfd i ((copied.pfd i).withNumber (s.pfd i).fdNum) }
  else s

def releaseEnd (s : Files) (fd : Fd) : Files :=
  match fd.dev with
  | .pipe =>
    if fd.isPipeRead then { s with pipe := closePipeRead s.pipe fd.pipNum }
    else if fd.isPipeWrite then { s with pipe := closePipeWrite s.pipe fd.pipNum }
    else s
  | .sock => { s with sockUsed := update s.sockUsed fd.sockNum false }
  | _ => s

def resetFd (fd : Fd) : Fd :=
  { fd with
    pos := 0, length := 0, used := .unused, dev := .default, flags := 0, mode := 0
    redirected := false, mmapUsed := false }

def fat32Close (s : Files) (fd : Nat) : Int × Files :=
  match getFdIndexWithoutRedirect s.pfd fd with
  | none => (-ebadf, s)
  | some k =>
    if (s.pfd k).mmapUsed then
      (0, { s with pfd := update s.pfd k { s.pfd k with used := .mmapZombie } })
    else
      let handed := (List.finRange maxFdNum).foldl (handAlias k) s
      let released := releaseEnd handed (handed.pfd k)
      (0, { released with pfd := update released.pfd k (resetFd (released.pfd k)) })

def Fd.redirectedTo (fd : Fd) (src : Slot) : Fd :=
  { fd with redirected := true, redirectedFdIndex := src }

/-- A store through `&pfd[index]`; the index -1 is outside the table. -/
def writeAt (t : Table) (index : Option Slot) (f : Fd → Fd) : Table :=
  match index with
  | none => t
  | some i => update t i (f (t i))

def fat32Dup (s : Files) (srcFd : Nat) : Option (Int × Files) :=
  (getFdIndex s.pfd srcFd).bind fun
    | none => some (-ebadf, s)
    | some src =>
      let (number, t) := getOneFd s.pfd
      if number = noFd then some (-emfile, { s with pfd := t })
      else
        (getFdIndex t number).map fun index =>
          (asInt number, { s with pfd := writeAt t index fun fd =>
            { fd.redirectedTo src with dev := (t src).dev } })

/-- The first slot with that number, in use or not. -/
def firstNumbered (t : Table) (fd : Nat) : Option Slot :=
  (List.finRange maxFdNum).find? fun i => decide ((t i).fdNum = fd)

/-- The part of `fat32_dup3` after the target was closed. -/
def redirectTo (s : Files) (src : Slot) (dstFd : Nat) : Option Files :=
  match firstNumbered s.pfd dstFd with
  | some i =>
    some { s with pfd := writeAt s.pfd (some i) fun fd =>
      { fd.redirectedTo src with used := .used, dev := (s.pfd src).dev } }
  | none =>
    -- the store to `pfd[MAX_FILE_NUM].dev` is outside the table
    let (number, t) := getOneFd s.pfd
    (getFdIndex t number).map fun index =>
      { s with pfd := writeAt t index fun fd => (fd.redirectedTo src).withNumber dstFd }

def fat32Dup3 (s : Files) (srcFd dstFd : Nat) : Option (Int × Files) :=
  if srcFd = dstFd then some (-einval, s)
  else
    (getFdIndex s.pfd srcFd).bind fun
      | none => some (-ebadf, s)
      | some src =>
        (getFdIndex s.pfd dstFd).bind fun dst =>
          let closed := if dst.isSome then (fat32Close s dstFd).2 else s
          (redirectTo closed src dstFd).map fun next => (asInt dstFd, next)

/-! ## `fat32_openat` -/

structure Inode where
  firstClus : Nat
  clusNum : Nat
  sectorNum : Nat
  deriving DecidableEq, Repr

/-- The fields of a directory entry that a descriptor is set from. -/
structure Dentry where
  cluster : Nat
  fileSize : Nat
  isDirectory : Bool
  deriving DecidableEq, Repr

/-- The outcome of the walk over the directories on disk. -/
inductive Walk where
  | base
  | found (dname : String) (entry : Dentry) (pos : DirPos)
  | missing

/-- What `fat32_openat` reads outside the descriptor table; `walk` maps the
base cluster to the outcome of the walk. -/
structure OpenEnv where
  fat : FatSb
  root : Inode
  cwd : Inode
  kernelFileLength : String → Nat
  walk : Nat → Walk

def isAbPath (path : String) : Bool := path.toList.head? == some '/'

def kernelFiles : List String :=
  ["/etc/passwd", "/etc/localtime", "/etc/adjtime", "/etc/group", "/proc/mounts",
    "/proc/meminfo", "/ls"]

def openSpecialPath (env : OpenEnv) (fd : Fd) (path : String) : Option Fd :=
  if path = "/dev/null" ∨ path = "/dev/null/invalid" then
    some { fd with dev := .null, flags := fd.flags ||| sIfchr, nlink := 1 }
  else if path = "/dev/zero" then
    some { fd with dev := .zero, flags := fd.flags ||| sIfchr, nlink := 1 }
  else if path ∈ kernelFiles then
    some { fd with
      name := path, length := env.kernelFileLength path, pos := 0, nlink := 1
      flags := fd.flags ||| if path = "/etc/passwd" then sIfchr else sIfreg }
  else if path = "/dev/tty" then
    -- `new_fd->dev == DEV_STDOUT` compares and stores nothing
    some { fd with name := path }
  else none

def setFdFromDentry (fat : FatSb) (fd : Fd) (name : String) (p : Dentry) (pos : DirPos) : Fd :=
  { fd with
    dev := .default, firstClusNum := p.cluster
    flags := fd.flags ||| if p.isDirectory then sIfdir else sIfreg
    length := p.fileSize, pos := 0, curSec := fat.firstSecOfClus p.cluster
    curClusNum := p.cluster, nlink := 1, name := name, dirPos := pos }

/-- The descriptor of the base directory itself. -/
def setFdFromBase (env : OpenEnv) (fd : Fd) (path : String) (flags : Nat) : Fd :=
  let dir := if isAbPath path then env.root else env.cwd
  { fd with
    name := path, flags := flags ||| sIfdir, nlink := 1, pos := 0, length := 0
    firstClusNum := dir.firstClus, curClusNum := dir.clusNum, curSec := dir.sectorNum }

/-- `base_clus`; the inner `none` is the return of `-EBADF`. -/
def baseClus (env : OpenEnv) (t : Table) (fd : Nat) (path : String) : Option (Option Nat) :=
  if isAbPath path then some (some env.root.firstClus)
  else if fd = atFdcwd then some (some env.cwd.firstClus)
  else (getFdIndex t fd).map fun index => index.map fun i => (t i).firstClusNum

/-- What the new descriptor `fd` becomes; `none` when nothing was found. -/
def openedFd (env : OpenEnv) (fd : Fd) (path : String) (flags base : Nat) : Option Fd :=
  match openSpecialPath env fd path with
  | some special => some special
  | none =>
    match env.walk base with
    | .base => some (setFdFromBase env fd path flags)
    | .found dname entry pos => some (setFdFromDentry env.fat fd dname entry pos)
    | .missing => none

def fat32Openat (env : OpenEnv) (s : Files) (fd : Nat) (path : String) (flags : Nat) :
    Option (Int × Files) :=
  (baseClus env s.pfd fd path).bind fun
    | none => some (-ebadf, s)
    | some base =>
      let (number, t) := getOneFd s.pfd
      if number = noFd then some (-emfile, { s with pfd := t })
      else
        (getFdIndex t number).map fun
          | none => (asInt number, { s with pfd := t })
          | some i =>
            match openedFd env (t i) path flags base with
            | some opened => (asInt number, { s with pfd := update t i opened })
            | none => (-enoent, (fat32Close { s with pfd := t } number).2)

inductive Call where
  | openat (env : OpenEnv) (fd : Nat) (path : String) (flags : Nat)
  | dup (src : Nat)
  | dup3 (src dst : Nat)
  | close (fd : Nat)

/-- A call with its result; `none` when it never returns. -/
def call (s : Files) : Call → Option (Int × Files)
  | .openat env fd path flags => fat32Openat env s fd path flags
  | .dup src => fat32Dup s src
  | .dup3 src dst => fat32Dup3 s src dst
  | .close fd => some (fat32Close s fd)

def step (s : Files) (c : Call) : Option Files := (call s c).map Prod.snd

end CCore.Fs
