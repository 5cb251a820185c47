import CCore.Fat.Allocate
import CCore.Fat.Paths

/-!
# Directories (`next_entry`, `search`, `search2`, `search3`, `fat32_unlink`)

A directory is read through a buffer of `BUFSIZE` bytes at a time.  The loops of the source
end when they come to an unused entry or to the end of the chain; a loop that has not ended
after `fuel` turns has no result here.
-/
namespace CCore.Fat

/-! ## Entries -/

/-- The 32 bytes of a directory entry. -/
abbrev Slot := Fin 32 → UInt8

def slotAt (buf : Nat → UInt8) (entry : Nat) : Slot := fun k => buf (entry + k)

namespace Slot

/-- Byte `k` of the entry. -/
def byte (s : Slot) (k : Nat) : UInt8 := if inside : k < 32 then s ⟨k, inside⟩ else 0

def bytes (s : Slot) (start count : Nat) : List UInt8 :=
  (List.range count).map fun i => s.byte (start + i)

/-- A field of two bytes. -/
def half (s : Slot) (k : Nat) : Nat := (s.byte k).toNat + 256 * (s.byte (k + 1)).toNat

def attributes (s : Slot) : UInt8 := s.byte 11

def dename (s : Slot) : List UInt8 := s.bytes 0 8

def extname (s : Slot) : List UInt8 := s.bytes 8 3

def cluster (s : Slot) : Nat := s.half 20 * 2 ^ 16 + s.half 26

def fileSize (s : Slot) : Nat := s.half 28 + 2 ^ 16 * s.half 30

/-- `dename[0] == EMPTY_ENTRY`. -/
def isDeleted (s : Slot) : Bool := s.byte 0 == 0xe5

/-- The test for the first entry of a long name, with `LAST_LONG_ENTRY`. -/
def startsLong (s : Slot) : Bool := s.attributes == 0x0f && s.byte 0 &&& 0x40 == 0x40

/-- `seq & LONG_ENTRY_SEQ`. -/
def longEntryNum (s : Slot) : Nat := (s.byte 0 &&& 0x0f).toNat

/-- `arributes & ATTR_DIRECTORY`. -/
def isDirectory (s : Slot) : Bool := s.attributes &&& 0x10 != 0

end Slot

def dentryIsEmpty (s : Slot) : Bool := decide (∀ k, s k = 0)

/-! ## Names -/

def space : UInt8 := 0x20

def isLetter (c : Nat) : Bool := (65 ≤ c && c ≤ 90) || (97 ≤ c && c ≤ 122)

def isDigit (c : Nat) : Bool := 48 ≤ c && c ≤ 57

def unicode2char (unich : Nat) : UInt8 :=
  if isLetter unich || isDigit unich || unich == 95 || unich == 46 || unich == 0x20 || unich == 45
  then UInt8.ofNat unich else 0

/-- The name of a short entry in `search`, `search3` and `fat32_getdents`. -/
def shortName (s : Slot) : Str :=
  cstr (s.dename.takeWhile (· != space) ++ (if s.byte 8 != space then [dot] else []) ++
    s.extname.takeWhile (· != space))

/-- The name of a short entry in `search2`, whose loop over the extension stops at a blank of
the base name. -/
def shortName2 (s : Slot) : Str :=
  cstr (s.dename.takeWhile (· != space) ++ (if s.byte 8 != space then [dot] else []) ++
    s.extname.take ((s.dename.take 3).takeWhile (· != space)).length)

/-- One of the three loops over the units of a long entry. -/
def readUnits (s : Slot) (start count : Nat) : List UInt8 :=
  (((List.range count).map fun i => s.half (start + 2 * i)).takeWhile
    fun u => u != 0 && u != 0xffff).map unicode2char

def longSegment (s : Slot) : List UInt8 := readUnits s 1 5 ++ readUnits s 14 6 ++ readUnits s 28 2

/-- The zero that is written where a loop over the units ends is there already. -/
def putSegment (filename : List UInt8) (pos : Nat) (segment : List UInt8) : List UInt8 :=
  filename.take pos ++ segment ++ filename.drop (pos + segment.length)

def noName : List UInt8 := List.replicate 256 0

def lowerCase (c : UInt8) : UInt8 := if 65 ≤ c && c ≤ 90 then c + 32 else c

/-- `filenamecmp` returns 0. -/
def sameName (name1 name2 : Str) : Bool :=
  (name1.takeWhile (· != space)).map lowerCase == name2.map lowerCase

/-! ## Reading a directory -/

/-- The buffer, the place of the entry in it, and where the buffer is from. -/
structure Cursor where
  buf : Nat → UInt8
  entry : Nat
  clus : Nat
  sec : Nat

def Cursor.slot (cur : Cursor) : Slot := slotAt cur.buf cur.entry

/-- At the end of the chain the buffer is not read again. -/
def nextEntry (fat : FatSb) (d : Disk) (cur : Cursor) : Cursor :=
  if cur.entry + 32 = fat.bufSize then
    let sec := u32 (cur.sec + fat.readMaxSec)
    if u32 (sec + (2 ^ 32 - fat.firstSecOfClus cur.clus)) ≥ fat.bpb.secPerClus then
      let clus := nextCluster fat d cur.clus
      if clus = cluserEnd then { cur with entry := 0, clus, sec }
      else
        let sec := fat.firstSecOfClus clus
        ⟨diskRead d sec, 0, clus, sec⟩
    else ⟨diskRead d sec, 0, cur.clus, sec⟩
  else { cur with entry := cur.entry + 32 }

def openDir (fat : FatSb) (d : Disk) (clus : Nat) : Cursor :=
  ⟨diskRead d (fat.firstSecOfClus clus), 0, clus, fat.firstSecOfClus clus⟩

def skipDeleted (fat : FatSb) (d : Disk) : Nat → Cursor → Option Cursor
  | 0, _ => none
  | fuel + 1, cur =>
    if cur.slot.isDeleted then skipDeleted fat d fuel (nextEntry fat d cur) else some cur

/-- The entries of a long name, from the last part of it to the first one. -/
def readLong (fat : FatSb) (d : Disk) : Nat → Cursor → List UInt8 → Cursor × List UInt8
  | 0, cur, filename => (cur, filename)
  | n + 1, cur, filename =>
    readLong fat d n (nextEntry fat d cur) (putSegment filename (13 * n) (longSegment cur.slot))

/-- The entry itself behind its long name, if it has one, with its name and the number of
entries that have been read. -/
def readName (fat : FatSb) (d : Disk) (short : Slot → Str) (cur : Cursor) : Cursor × Str × Nat :=
  if cur.slot.startsLong then
    let (dentry, filename) := readLong fat d cur.slot.longEntryNum cur noName
    (dentry, cstr filename, cur.slot.longEntryNum + 1)
  else (cur, short cur.slot, 1)

/-- The first entry of what has been found, the entry itself, and their number. -/
structure Found where
  first : Cursor
  dentry : Cursor
  entryNum : Nat

def searchLoop (fat : FatSb) (d : Disk) (short : Slot → Str) (want : Slot → Bool) (name : Str) :
    Nat → Cursor → Option (Option Found)
  | 0, _ => none
  | fuel + 1, cur =>
    if dentryIsEmpty cur.slot then some none
    else
      (skipDeleted fat d (fuel + 1) cur).bind fun cur =>
        let (dentry, filename, entryNum) := readName fat d short cur
        if want dentry.slot && sameName filename name then some (some ⟨cur, dentry, entryNum⟩)
        else
          let cur := nextEntry fat d dentry
          if cur.clus = cluserEnd then some none
          else searchLoop fat d short want name fuel cur

/-- `type_t`. -/
inductive FileType
  | file
  | dir
  deriving DecidableEq

def FileType.fits : FileType → Slot → Bool
  | .file, s => !s.isDirectory
  | .dir, s => s.isDirectory

def search (fat : FatSb) (d : Disk) (fuel : Nat) (name : Str) (dirFirstClus : Nat)
    (mode : FileType) : Option (Option Found) :=
  searchLoop fat d shortName mode.fits name fuel (openDir fat d dirFirstClus)

def search3 (fat : FatSb) (d : Disk) (fuel : Nat) (name : Str) (dirFirstClus : Nat) :
    Option (Option Found) :=
  searchLoop fat d shortName (fun _ => true) name fuel (openDir fat d dirFirstClus)

def search2 (fat : FatSb) (d : Disk) (fuel : Nat) (name : Str) (dirFirstClus : Nat)
    (mode : FileType) : Option (Option Found) :=
  searchLoop fat d shortName2 mode.fits name fuel (openDir fat d dirFirstClus)

/-- What the walks over a path ask; a search that does not end finds nothing. -/
def lookups (fat : FatSb) (d : Disk) (fuel : Nat) : Lookups where
  search c x := ((search fat d fuel x c .dir).getD none).map fun found => found.dentry.slot.cluster
  search3 c x := ((search3 fat d fuel x c).getD none).map fun found =>
    (found.dentry.slot.cluster, found.dentry.slot.isDirectory)

def clusOfSec (fat : FatSb) (sector : Nat) : Nat :=
  u32 (sector + (2 ^ 32 - fat.firstDataSec)) / fat.bpb.secPerClus + 2

/-- The loop that marks entries as deleted. -/
def markDeleted (fat : FatSb) : Nat → Disk → Cursor → Disk × Cursor
  | 0, d, cur => (d, cur)
  | n + 1, d, cur =>
    let buf := Function.update cur.buf cur.entry 0xe5
    let d := if cur.entry + 32 = fat.bufSize then diskWrite d buf cur.sec fat.readMaxSec else d
    markDeleted fat n d (nextEntry fat d { cur with buf })

/-- The entries of `found` are read again, marked and written. -/
def deleteEntries (fat : FatSb) (d : Disk) (found : Found) : Disk :=
  let sec := found.first.sec
  let (d, cur) := markDeleted fat found.entryNum d
    ⟨diskRead d sec, found.first.entry, clusOfSec fat sec, sec⟩
  diskWrite d cur.buf cur.sec fat.readMaxSec

/-- `temp_file`. -/
def tempFile (path : Str) : Bool :=
  path.take 13 == ascii ['/', 'v', 'a', 'r', '/', 't', 'm', 'p', '/', 'l', 'a', 't', '_'] ||
    path.take 4 == ascii ['l', 'a', 't', '_'] ||
    path.head?.any fun c => isDigit c.toNat

def eNoEnt : Int := 2

/-- `fat32_unlink` with `AT_FDCWD`: what it returns and the disk.  `latFs` says that the caller
is not process 1 and that the kernel has been started for `lat_fs`. -/
def fat32Unlink (fat : FatSb) (d : Disk) (fuel : Nat) (places : Places) (latFs : Bool)
    (path : Str) (after : List UInt8) (mode : FileType) : Option (Int × Disk) :=
  if latFs && tempFile path then some (0, d)
  else
    match findDir (lookups fat d fuel) (path.length + 1) (places.base path) (path ++ 0 :: after) with
    | none => some (-eNoEnt, d)
    | some (dir, name) =>
      (search2 fat d fuel name dir mode).map fun found =>
        match found with
        | none => (-eNoEnt, d)
        | some found => (0, deleteEntries fat d found)

end CCore.Fat
