import CCore.Fat.ReadWrite
import CCore.Fs.Pipe
import CCore.Fs.Tables

/-!
# Reading and writing through a descriptor

`fat32_read`, `fat32_write`, `fat32_lseek` and `fat32_fstat` from the descriptor
number on, for a process with `status_ctx = 0`: the slot is the one that
`get_fd_index` finds, `read_special_path` and `write_special_path` answer for
consoles, pipes and files of the kernel, and everything else is a file on the
volume.
-/
namespace CCore.Fs

open Bytes Fat Function

/-- What a call of process `p` can read and change besides its table. -/
structure FileWorld where
  fat : FatSb
  disk : Disk
  pipes : PipeSys
  stdinBuf : RingBuffer
  stdoutBuf : RingBuffer
  stderrBuf : RingBuffer
  screen : List UInt8
  kernelFile : String → Nat → UInt8

/-- A call either returns a value and stores bytes from a place of the caller's
buffer on, or leaves its process asleep. -/
inductive IoResult where
  | returned (value : Int) (place : Nat) (bytes : List UInt8)
  | blocked
  deriving DecidableEq

/-- `ignored` says that the buffer starts with the text that `write_special_path`
drops. -/
inductive IoCall where
  | read (count : Nat)
  | write (data : List UInt8) (ignored : Bool)
  | lseek (off : Nat) (whence : Whence)
  | fstat

def ignoredText : String := "echo: write error: Invalid argument\n"

def ioOfPipe : PipeResult → IoResult
  | .returned value bytes => .returned value 0 bytes
  | .blocked => .blocked

/-- The branch of `read_special_path` for a file of the kernel. -/
def readKernelFile (w : FileWorld) (nfd : Fd) (count : Nat) : IoResult × Fd :=
  if nfd.pos ≥ nfd.length then (.returned 0 0 [255], nfd)
  else
    let copyLen := min count (nfd.length - nfd.pos)
    let content := (List.range copyLen).map fun k => w.kernelFile nfd.name (nfd.pos + k)
    let rest := List.replicate (count - copyLen) 0
    let stored := if nfd.pos + copyLen ≥ nfd.length then content ++ 255 :: rest.drop 1
      else content ++ rest
    (.returned copyLen 0 stored, { nfd with pos := nfd.pos + copyLen })

/-- `none` is the result -1. -/
def readSpecialPath (w : FileWorld) (p : Nat) (nfd : Fd) (count : Nat) :
    Option (IoResult × Fd × FileWorld) :=
  match nfd.dev with
  | .stdin =>
    let (bytes, rbuf) := w.stdinBuf.read count
    some (.returned bytes.length 0 bytes, nfd, { w with stdinBuf := rbuf })
  | .stdout =>
    let (bytes, rbuf) := w.stdoutBuf.read count
    some (.returned bytes.length 0 bytes, nfd, { w with stdoutBuf := rbuf })
  | .stderr =>
    let (bytes, rbuf) := w.stderrBuf.read count
    some (.returned bytes.length 0 bytes, nfd, { w with stderrBuf := rbuf })
  | .null => some (.returned 0 0 [], nfd, w)
  | .zero => some (.returned count 0 (List.replicate count 0), nfd, w)
  | .pipe =>
    let (result, pipes) := w.pipes.pipeRead p nfd.pipNum count
    some (ioOfPipe result, nfd, { w with pipes := pipes })
  | .default | .sock =>
    if nfd.name ∈ kernelFiles then
      let (result, nfd') := readKernelFile w nfd count
      some (result, nfd', w)
    else none

/-- The branch of `write_special_path` for a file of the kernel; `none` is the
failed assertion. -/
def writeKernelFile (w : FileWorld) (nfd : Fd) (data : List UInt8) :
    Option (IoResult × Fd × FileWorld) :=
  if nfd.pos ≥ nfd.length ∧ data.length ≠ 0 then none
  else
    let writeLen := min data.length (nfd.length - nfd.pos)
    let stored := if nfd.pos + writeLen ≥ nfd.length then [255] else []
    some (.returned writeLen writeLen stored, { nfd with pos := nfd.pos + writeLen }, { w with
        kernelFile := update w.kernelFile nfd.name
          (blit (w.kernelFile nfd.name) nfd.pos writeLen fun k => data.getD k 0) })

/-- The outer `none` is a failed assertion, the inner one the result -1. -/
def writeSpecialPath (w : FileWorld) (p : Nat) (nfd : Fd) (data : List UInt8) (ignored : Bool) :
    Option (Option (IoResult × Fd × FileWorld)) :=
  match nfd.dev with
  | .stdin =>
    let (size, rbuf) := w.stdinBuf.write data
    some (some (.returned size 0 [], nfd, { w with stdinBuf := rbuf }))
  | .stdout => some (some (.returned data.length 0 [], nfd, { w with screen := w.screen ++ data }))
  | .stderr =>
    if ignored then some (some (.returned ignoredText.length 0 [], nfd, w))
    else some (some (.returned data.length 0 [], nfd, { w with screen := w.screen ++ data }))
  | .null => some (some (.returned data.length 0 [], nfd, w))
  | .zero => some (some (.returned 0 0 [], nfd, w))
  | .pipe =>
    let (result, pipes) := w.pipes.pipeWrite p nfd.pipNum data
    some (some (ioOfPipe result, nfd, { w with pipes := pipes }))
  | .default | .sock =>
    if nfd.name ∈ kernelFiles then (writeKernelFile w nfd data).map some else some none

/-- `fat32_read` on the slot that was found; `none` does not return. -/
def readSlot (w : FileWorld) (p : Nat) (nfd : Fd) (count : Nat) :
    Option (IoResult × Fd × FileWorld) :=
  match readSpecialPath w p nfd count with
  | some answer => some answer
  | none =>
    (fat32Read w.fat w.disk nfd count).map fun (value, bytes, nfd') =>
      (.returned value 0 bytes, nfd', w)

def writeSlot (w : FileWorld) (p : Nat) (nfd : Fd) (data : List UInt8) (ignored : Bool) :
    Option (IoResult × Fd × FileWorld) :=
  (writeSpecialPath w p nfd data ignored).bind fun
    | some answer => some answer
    | none =>
      (fat32Write w.fat w.disk nfd data).map fun (value, disk, nfd') =>
        (.returned value 0 [], nfd', { w with disk := disk })

/-- What `fat32_fstat` reports of a descriptor. -/
structure Stat where
  dev : Dev
  ino : Nat
  mode : Nat
  nlink : Nat
  size : Nat
  blksize : Nat
  blocks : Nat
  deriving DecidableEq

def statOf (w : FileWorld) (nfd : Fd) : Stat :=
  ⟨nfd.dev, nfd.firstClusNum, nfd.flags, nfd.nlink, nfd.length, w.fat.clusterSize,
    nfd.length / w.fat.clusterSize⟩

/-- `update_fd_length` within one table: other slots in use with the same name
get the length of slot `i`. -/
def updateFdLength (t : Table) (i : Slot) : Table := fun j =>
  if (t j).inUse ∧ j ≠ i ∧ (t j).name = (t i).name then { t j with length := (t i).length }
  else t j

/-- The state that a process sees through its descriptors. -/
structure FdState where
  pfd : Table
  sockUsed : Nat → Bool
  world : FileWorld

/-- The answer of one of the four calls; `fat32_fstat` alone fills in `stat`. -/
structure Answer where
  result : IoResult
  stat : Option Stat

/-- The call on the slot that `get_fd_index` found. -/
def throughSlot (s : FdState) (p : Nat) (i : Slot) : IoCall → Option (Answer × FdState)
  | .read count =>
    (readSlot s.world p (s.pfd i) count).map fun (result, nfd, w) =>
      (⟨result, none⟩, { s with pfd := update s.pfd i nfd, world := w })
  | .write data ignored =>
    (writeSlot s.world p (s.pfd i) data ignored).map fun (result, nfd, w) =>
      let t := update s.pfd i nfd
      (⟨result, none⟩, { s with
          pfd := if (s.pfd i).length < nfd.length then updateFdLength t i else t, world := w })
  | .lseek off whence =>
    let (value, nfd) := fat32Lseek s.world.fat s.world.disk (s.pfd i) off whence
    some (⟨.returned value 0 [], none⟩, { s with pfd := update s.pfd i nfd })
  | .fstat => some (⟨.returned 0 0 [], some (statOf s.world (s.pfd i))⟩, s)

/-- `none`: the call does not return.  `fat32_fstat` of a number that is not in
use reads `pfd[-1]`, outside the table. -/
def through (s : FdState) (p : Nat) (fd : Nat) (call : IoCall) : Option (Answer × FdState) :=
  (getFdIndex s.pfd fd).bind fun
    | some i => throughSlot s p i call
    | none =>
      match call with
      | .fstat => none
      | _ => some (⟨.returned (-ebadf) 0 [], none⟩, s)

def offset (t : Table) (fd : Nat) : Option Nat :=
  (getFdIndex t fd).bind fun index => index.map fun i => (t i).pos

end CCore.Fs
