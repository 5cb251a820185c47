import CCore.Fat.Table
import CCore.Fs.Descriptor
import CCore.Lib.Loop

/-!
# `fat32_read`, `fat32_write` and `fat32_lseek`

The functions start where `get_fd_index` has found the descriptor and
`read_special_path` or `write_special_path` has answered `-1`, so `nfd` is a
descriptor of a file on the volume.  `none` is a call that does not return.

Both loops remember the cluster and the sector of the position in `old_clus_num`
and `old_sec_num`.  At the end of the body the source declares two new variables
of these names instead of assigning the old ones, so the values from before the
loop stay in force; here they are parameters of the body.
-/
namespace CCore.Fat

open Bytes Fs Loop

def oRdonly : Nat := 0x00

def oWronly : Nat := 0x01

def oDirectory : Nat := 0x0200000

def efault : Int := 14

/-- The end of both loop bodies: `pos` has moved on and the cursor follows. -/
def moveCursor (fat : FatSb) (d : Disk) (oldClusNum oldSecNum : Nat) (nfd : Fd) : Fd :=
  let newClusNum := u32 (nfd.pos / fat.clusterSize)
  let newSecNum := u32 (nfd.pos / fat.sectorSize)
  if newClusNum ≠ oldClusNum then
    let next := nextCluster fat d nfd.curClusNum
    { nfd with
      curClusNum := next
      curSec := u32 (fat.firstSecOfClus next + nfd.pos % fat.clusterSize / fat.sectorSize) }
  else { nfd with curSec := u32 (nfd.curSec + (newSecNum + 2 ^ 32 - oldSecNum)) }

/-- The variables of the loop of `fat32_read`; `bytes` is what has been copied
to the caller's buffer. -/
structure Reading where
  nfd : Fd
  ncount : Nat
  bytes : List UInt8

def readBlock (fat : FatSb) (d : Disk) (realCount oldClusNum oldSecNum : Nat) (s : Reading) :
    Reading :=
  let posOffsetInBuf := s.nfd.pos % fat.sectorSize
  let readsize := min (fat.bufSize - posOffsetInBuf) (realCount - s.ncount)
  let buffer := diskRead d s.nfd.curSec
  { nfd := moveCursor fat d oldClusNum oldSecNum { s.nfd with pos := s.nfd.pos + readsize }
    ncount := s.ncount + readsize
    bytes := s.bytes ++ (List.range readsize).map fun i => buffer (posOffsetInBuf + i) }

def fat32Read (fat : FatSb) (d : Disk) (nfd : Fd) (count : Nat) : Option (Int × List UInt8 × Fd) :=
  if nfd.flags &&& oDirectory ≠ 0 ∨ nfd.flags &&& oWronly ≠ 0 then some (-einval, [], nfd)
  else if nfd.length < nfd.pos then some (-efault, [], nfd)
  else
    let realCount := u32 (min count (nfd.length - nfd.pos))
    let oldClusNum := u32 (nfd.pos / fat.clusterSize)
    let oldSecNum := u32 (nfd.pos / fat.sectorSize)
    (whileLoop (fun s => s.ncount < realCount)
      (fun s => some (readBlock fat d realCount oldClusNum oldSecNum s)) realCount
      ⟨nfd, 0, []⟩).map fun s => (realCount, s.bytes, s.nfd)

/-- The variables of the loop of `fat32_write`; `point` is how far `buf_point`
has moved, which `ncount` counts in 32 bits. -/
structure Writing where
  disk : Disk
  nfd : Fd
  ncount : Nat
  point : Nat

/-- A new cluster is linked in when the current one is the last. -/
def growChain (fat : FatSb) (d : Disk) (cluster : Nat) : Option Disk :=
  if nextCluster fat d cluster = mEoc then
    (searchEmptyCluster fat d).map fun (alloc, d) => writeFatTable fat d cluster alloc
  else some d

def writeBlock (fat : FatSb) (data : List UInt8) (oldClusNum oldSecNum : Nat) (s : Writing) :
    Option Writing :=
  let posOffsetInBuf := s.nfd.pos % fat.sectorSize
  let writesize := min (fat.bufSize - posOffsetInBuf) (data.length - s.ncount)
  let buffer := blit (diskRead s.disk s.nfd.curSec) posOffsetInBuf writesize fun i =>
    data.getD (s.point + i) 0
  let nfd := { s.nfd with pos := s.nfd.pos + writesize }
  (if u32 (nfd.pos / fat.clusterSize) ≠ oldClusNum then growChain fat s.disk nfd.curClusNum
    else some s.disk).map fun d =>
    let d := diskWrite d buffer nfd.curSec fat.readMaxSec
    { disk := d
      nfd := moveCursor fat d oldClusNum oldSecNum nfd
      ncount := u32 (s.ncount + writesize)
      point := s.point + writesize }

/-- The first cluster of a file that has none. -/
def firstCluster (fat : FatSb) (d : Disk) (nfd : Fd) : Option (Disk × Fd) :=
  if nfd.firstClusNum = 0 then
    (searchEmptyCluster fat d).map fun (alloc, d) =>
      (d, { nfd with
        firstClusNum := alloc, curClusNum := alloc, curSec := fat.firstSecOfClus alloc })
  else some (d, nfd)

/-- The size, and for a new file the first cluster, in the directory entry. -/
def updateDentry (d : Disk) (nfd : Fd) (finalLength : Nat) (firstFlag : Bool) : Disk :=
  let sized := putWord (diskRead d nfd.dirPos.sec) (nfd.dirPos.offset + 28) finalLength
  let buffer :=
    if firstFlag then
      putHalf (putHalf sized (nfd.dirPos.offset + 20) (nfd.firstClusNum / 65536))
        (nfd.dirPos.offset + 26) nfd.firstClusNum
    else sized
  diskWrite d buffer nfd.dirPos.sec 1

def withLength (nfd : Fd) (length : Nat) : Fd := { nfd with length := length }

/-- The test of `O_RDONLY` never fires, since that flag is zero. -/
def fat32Write (fat : FatSb) (d : Disk) (nfd : Fd) (data : List UInt8) : Option (Int × Disk × Fd) :=
  if nfd.flags &&& oDirectory ≠ 0 ∨ nfd.flags &&& oRdonly ≠ 0 then some (-einval, d, nfd)
  else if data.length = 0 then some (0, d, nfd)
  else
    let finalLength := u32 (nfd.pos + data.length)
    let oldClusNum := u32 (nfd.pos / fat.clusterSize)
    let oldSecNum := u32 (nfd.pos / fat.sectorSize)
    (firstCluster fat d nfd).bind fun (d, opened) =>
      (whileLoop (fun s => s.ncount < data.length)
        (writeBlock fat data oldClusNum oldSecNum) data.length ⟨d, opened, 0, 0⟩).map fun s =>
        if s.nfd.length < finalLength then
          (data.length, updateDentry s.disk s.nfd finalLength (nfd.firstClusNum = 0),
            withLength s.nfd finalLength)
        else (data.length, s.disk, s.nfd)

/-- The cursor is found again from the first cluster. -/
def updateFdFromPos (fat : FatSb) (d : Disk) (nfd : Fd) (pos : Nat) : Fd :=
  let sectorOffset := u32 (pos / fat.sectorSize)
  let cluster := (nextCluster fat d)^[sectorOffset / fat.bpb.secPerClus] nfd.firstClusNum
  { nfd with
    pos := pos, curClusNum := cluster
    curSec := u32 (fat.firstSecOfClus cluster + sectorOffset % fat.bpb.secPerClus) }

inductive Whence where
  | seekSet
  | seekCur
  | seekEnd
  deriving DecidableEq, Repr

def u64 (n : Nat) : Nat := n % 2 ^ 64

/-- The position that `fat32_lseek` sets; `off` is a `size_t`, so a negative
offset comes in as `2 ^ 64` minus its size. -/
def seekTarget (nfd : Fd) (off : Nat) : Whence → Nat
  | .seekSet => u64 off
  | .seekCur => u64 (nfd.pos + off)
  | .seekEnd => u64 (nfd.length + off)

def fat32Lseek (fat : FatSb) (d : Disk) (nfd : Fd) (off : Nat) (whence : Whence) : Int × Fd :=
  if nfd.dev ≠ .default then (-einval, nfd)
  else
    let target := seekTarget nfd off whence
    let moved := { nfd with pos := target }
    if nfd.name ∈ kernelFiles then (target, moved)
    else if target < nfd.length then (target, updateFdFromPos fat d moved target)
    else (target, moved)

end CCore.Fat
