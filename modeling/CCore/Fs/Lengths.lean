import CCore.Fat.ByteArray
import CCore.Fs.Alias

/-!
# Cached lengths

`fat32_write` stores the new length of a grown file in the descriptor it went through, and
`update_fd_length` copies it into every descriptor of every table that carries the same name.
The names are those of directory entries, without a path.
-/
namespace CCore.Fs.Lengths

open Fat Function Option

abbrev FdTables := Fin maxFdTable → PfdTable

/-- The loops change only other slots than the one they read. -/
def updateFdLength (tables : FdTables) (t : Fin maxFdTable) (j : Slot) : FdTables := fun i =>
  if (tables i).used then
    { tables i with
      pfd := fun k =>
        if ((tables i).pfd k).inUse ∧ (i, k) ≠ (t, j) ∧
            ((tables i).pfd k).name = ((tables t).pfd j).name then
          withLength ((tables i).pfd k) ((tables t).pfd j).length
        else (tables i).pfd k }
  else tables i

def putFd (tables : FdTables) (t : Fin maxFdTable) (j : Slot) (nfd : Fd) : FdTables :=
  update tables t { tables t with pfd := update (tables t).pfd j nfd }

/-- `fat32_write` through slot `j` of table `t`; the length of the slot becomes larger where the
source calls `update_fd_length`, and nowhere else. -/
def writeThrough (fat : FatSb) (d : Disk) (tables : FdTables) (t : Fin maxFdTable) (j : Slot)
    (data : List UInt8) : Option (Int × Disk × FdTables) :=
  (fat32Write fat d ((tables t).pfd j) data).map fun (value, d', nfd) =>
    (value, d',
      if ((tables t).pfd j).length < nfd.length then updateFdLength (putFd tables t j nfd) t j
      else putFd tables t j nfd)

def OpenSlot (tables : FdTables) (i : Fin maxFdTable) (k : Slot) : Prop :=
  (tables i).used = true ∧ ((tables i).pfd k).inUse

/-- The slot `k` of table `i` stands for a file on the volume, and not for another slot. -/
def FileSlot (tables : FdTables) (i : Fin maxFdTable) (k : Slot) : Prop :=
  OpenSlot tables i k ∧ ((tables i).pfd k).redirected = false ∧
    ((tables i).pfd k).dev = .default ∧ ((tables i).pfd k).flags &&& sIfreg ≠ 0 ∧
    ((tables i).pfd k).flags &&& sIfdir = 0 ∧ ((tables i).pfd k).name ∉ kernelFiles

/-- Two descriptors of one directory entry. -/
def SameFile (a b : Fd) : Prop :=
  a.dirPos.sec = b.dirPos.sec ∧ a.dirPos.offset = b.dirPos.offset

/-- The length changes in descriptors of the written file only, and each descriptor of that file
has the new one. -/
def LengthsRight (before after : FdTables) (fd : Fd) (length : Nat) : Prop :=
  ∀ i k, OpenSlot before i k →
    (((after i).pfd k).length ≠ ((before i).pfd k).length → SameFile ((before i).pfd k) fd) ∧
    (FileSlot before i k → SameFile ((before i).pfd k) fd → ((after i).pfd k).length = length)

/-- Among the other descriptors with another length than the new one, only those of the file
have its name, and they all do. -/
def NamesTell (tables : FdTables) (t : Fin maxFdTable) (j : Slot) (length : Nat) : Prop :=
  ∀ i k, OpenSlot tables i k → (i, k) ≠ (t, j) → ((tables i).pfd k).length ≠ length →
    (((tables i).pfd k).name = ((tables t).pfd j).name →
      SameFile ((tables i).pfd k) ((tables t).pfd j)) ∧
    (FileSlot tables i k → SameFile ((tables i).pfd k) ((tables t).pfd j) →
      ((tables i).pfd k).name = ((tables t).pfd j).name)

def newLength (fd : Fd) (data : List UInt8) : Nat := u32 (fd.pos + data.length)

variable {tables : FdTables} {t i : Fin maxFdTable} {j k : Slot} {nfd : Fd}

theorem putFd_self : (putFd tables t j nfd t).pfd j = nfd := by simp [putFd]

variable (tables nfd) in
theorem putFd_other (other : (i, k) ≠ (t, j)) : (putFd tables t j nfd i).used = (tables i).used ∧
    (putFd tables t j nfd i).pfd k = (tables i).pfd k := by
  unfold putFd
  rcases eq_or_ne i t with rfl | apart
  · have slots : k ≠ j := by
      rintro rfl
      exact other rfl
    simp [slots]
  · simp [apart]

theorem updateFdLength_self : (updateFdLength tables t j t).pfd j = (tables t).pfd j := by
  unfold updateFdLength
  split <;> simp

theorem updateFdLength_put_self : (updateFdLength (putFd tables t j nfd) t j t).pfd j = nfd := by
  rw [updateFdLength_self, putFd_self]

theorem updateFdLength_put (opened : OpenSlot tables i k) (other : (i, k) ≠ (t, j)) :
    ((updateFdLength (putFd tables t j nfd) t j i).pfd k).length =
      if ((tables i).pfd k).name = nfd.name then nfd.length else ((tables i).pfd k).length := by
  obtain ⟨used, inUse⟩ := opened
  obtain ⟨usedKept, kept⟩ := putFd_other tables nfd other
  simp only [updateFdLength, usedKept, used, if_true, kept, putFd_self, inUse, other, true_and,
    ne_eq, not_false_eq_true]
  split <;> rfl

theorem fat32Write_length {fat : FatSb} {d : Disk} {fd : Fd} {data : List UInt8}
    {r : Int × Disk × Fd} (written : fat32Write fat d fd data = some r)
    (grows : fd.length < r.2.2.length) : r.2.2.length = newLength fd data := by
  unfold fat32Write at written
  split at written
  · cases written
    exact absurd grows (Nat.lt_irrefl _)
  split at written
  · cases written
    exact absurd grows (Nat.lt_irrefl _)
  obtain ⟨⟨d', opened⟩, first, written⟩ := bind_eq_some_iff.mp written
  obtain ⟨final, loop, rfl⟩ := map_eq_some_iff.mp written
  have openedLength : opened.length = fd.length := by
    unfold firstCluster at first
    split at first
    · obtain ⟨_, _, same⟩ := map_eq_some_iff.mp first
      cases same
      rfl
    · cases first
      rfl
  have kept : final.nfd.length = fd.length := by
    refine Loop.whileLoop_invariant (I := fun s => s.nfd.length = fd.length) ?_ openedLength loop
    intro s s' kept round
    obtain ⟨_, _, rfl⟩ := map_eq_some_iff.mp round
    dsimp only
    rw [moved_moveCursor, ← kept]
  split at grows
  case isTrue longer =>
    rw [if_pos longer]
    rfl
  case isFalse =>
    exact absurd grows (by rw [kept]; exact Nat.lt_irrefl _)

theorem fat32Write_name {fat : FatSb} {d : Disk} {fd : Fd} {data : List UInt8}
    {r : Int × Disk × Fd} (written : fat32Write fat d fd data = some r) :
    r.2.2.name = fd.name := by
  have moved := fat32Write_moved written
  unfold Fd.Moved at moved
  rw [moved]

def tenBytes : Fd := { smallFile 10 with length := 10, flags := sIfreg }

/-- Slot 3 is a file of ten bytes, slot 4 one of the same length in another directory. -/
def twoFiles (name : String) : FdTables := fun t =>
  { used := t = 0
    num := 1
    pfd := fun k =>
      if k = 3 then tenBytes
      else if k = 4 then { tenBytes with name := name, dirPos := ⟨64, 32, 7⟩ }
      else { smallFile 0 with used := .unused } }

theorem twoFiles_write (name : String) : ∃ value d' nfd,
    writeThrough smallVolume.fat smallDisk (twoFiles name) 0 3 [7] =
        some (value, d', updateFdLength (putFd (twoFiles name) 0 3 nfd) 0 3) ∧
      nfd.length = 11 ∧ nfd.name = "data" := by
  have evaluated : (fat32Write smallVolume.fat smallDisk tenBytes [7]).map
      (fun r => (r.2.2.length, r.2.2.name)) = some (11, "data") := by
    decide +kernel
  obtain ⟨⟨value, d', nfd⟩, written, fields⟩ := map_eq_some_iff.mp evaluated
  simp only [Prod.mk.injEq] at fields
  refine ⟨value, d', nfd, map_eq_some_iff.mpr ⟨_, written, ?_⟩, fields⟩
  dsimp only
  rw [if_pos]
  show 10 < nfd.length
  omega

end CCore.Fs.Lengths
