import CCore.Fat.Directory

/-!
# New directory entries (`find_entry_entry`, `create_new`)

A loop that has not ended after `fuel` turns has no result; neither has a call that uses a
pointer it has not set, or that writes behind `new_dentry`.
-/
namespace CCore.Fat

open Bytes

/-! ## The entries of a name -/

/-- The first dot of the name of a file; names of directories are not split. -/
def dotPos (name : Str) : FileType → Option Nat
  | .file => name.findIdx? (· == dot)
  | .dir => none

def lenFilename (name : Str) (type : FileType) : Nat := (dotPos name type).getD name.length

/-- `extname`, which is used if a dot has been found. -/
def extOf (name : Str) (type : FileType) : Str :=
  match dotPos name type with
  | some pos => name.drop (pos + 1)
  | none => []

def dentryNum (name : Str) (type : FileType) : Nat :=
  if lenFilename name type ≤ 8 then 1 else name.length / 13 + 2

def upperCase (c : UInt8) : UInt8 := if 97 ≤ c && c ≤ 122 then c - 32 else c

def char2unicode (ch : UInt8) : Nat :=
  if isLetter ch.toNat || isDigit ch.toNat || ch == 95 || ch == 46 || ch == 0x20 || ch == 45
  then ch.toNat else 0

def padded (size : Nat) (name : List UInt8) : List UInt8 :=
  (name ++ List.replicate size space).take size

def halfBytes (value : Nat) : List UInt8 := [UInt8.ofNat value, UInt8.ofNat (value / 256)]

def slotOf (bytes : List UInt8) : Slot := fun k => bytes.getD k 0

/-- The bytes of an entry behind its name: the attributes, the times, the start cluster and the
size. -/
def dentryFields (attributes : UInt8) (clus : Nat) : List UInt8 :=
  [attributes, 0, 0] ++ halfBytes 0x6000 ++ halfBytes 0x54b5 ++ halfBytes 0x6000 ++
    halfBytes (clus / 2 ^ 16) ++ halfBytes 0x6000 ++ halfBytes 0x54b5 ++ halfBytes clus ++
    [0, 0, 0, 0]

/-- `dename` of `new_dentry`. -/
def newDename (name : Str) (type : FileType) : List UInt8 :=
  if dentryNum name type = 1 then padded 8 (name.take (lenFilename name type))
  else (name.take 6).map upperCase ++ [0x7e, 0x31]

def newAttributes : FileType → UInt8
  | .file => 0x20
  | .dir => 0x10

/-- What is written behind `extname` if the extension is longer is overwritten. -/
def newDentry (name : Str) (type : FileType) (newClus : Nat) : Slot :=
  slotOf (newDename name type ++ padded 3 ((extOf name type).map upperCase) ++
    dentryFields (newAttributes type) newClus)

def nameUnit (name : Str) (len : Nat) : Nat :=
  if len < name.length then char2unicode (name.getD len 0)
  else if len = name.length then 0 else 0xffff

def checksum (shortname : List UInt8) : UInt8 :=
  shortname.foldl (fun sum c => (if sum &&& 1 != 0 then (0x80 : UInt8) else 0) + (sum >>> 1) + c) 0

/-- `long_entry[i]`, where `count` is the number of the long entries. -/
def longEntry (name : Str) (count : Nat) (sum : UInt8) (i : Nat) : Slot :=
  let units := fun start size =>
    (List.range size).flatMap fun j => halfBytes (nameUnit name (13 * i + start + j))
  slotOf ([if i + 1 = count then 0x40 ||| UInt8.ofNat (i + 1) else UInt8.ofNat (i + 1) &&& 0x0f] ++
    units 0 5 ++ [0x0f, 0, sum] ++ units 5 6 ++ [0, 0] ++ units 11 2)

/-- The entries of a name in the order in which they are written. -/
def newEntries (name : Str) (type : FileType) (newClus : Nat) : List Slot :=
  let dentry := newDentry name type newClus
  let count := dentryNum name type - 1
  ((List.range count).map fun i =>
    longEntry name count (checksum (dentry.bytes 0 11)) (count - 1 - i)) ++ [dentry]

/-- The end of `find_entry_entry` at the end of the chain, after `count` free entries. -/
def extendDir (fat : FatSb) (d : Disk) (oldClus count : Nat) (ret : Option (Nat × Nat)) :
    Option (Disk × Nat × Nat) := do
  let (entry, sec) ← ret
  let clus ← findEntryClus fat d
  some (writeFatTableP fat d oldClus clus, entry, if count = 0 then fat.firstSecOfClus clus else sec)

/-- `ret` holds `ret_entry` and `ret_sec` once they have been set. -/
def findEntryLoop (fat : FatSb) (d : Disk) (num : Nat) :
    Nat → Cursor → Nat → Option (Nat × Nat) → Option (Disk × Nat × Nat)
  | 0, _, _, _ => none
  | fuel + 1, cur, count, ret =>
    let next := nextEntry fat d cur
    if !dentryIsEmpty cur.slot && !cur.slot.isDeleted then
      let ret := some (next.entry, next.sec)
      if next.clus = cluserEnd then extendDir fat d cur.clus 0 ret
      else findEntryLoop fat d num fuel next 0 ret
    else if count + 1 = num then ret.map fun (entry, sec) => (d, entry, sec)
    else if next.clus = cluserEnd then extendDir fat d cur.clus (count + 1) ret
    else findEntryLoop fat d num fuel next (count + 1) ret

def findEntryEntry (fat : FatSb) (d : Disk) (fuel : Nat) (dirFirstClus num : Nat) :
    Option (Disk × Nat × Nat) :=
  findEntryLoop fat d num fuel (openDir fat d dirFirstClus) 0 none

/-- The entries are copied into the buffer; the last one is not followed by `next_entry`. -/
def writeEntries (fat : FatSb) : List Slot → Disk → Cursor → Disk × Cursor
  | [], d, cur => (d, cur)
  | [s], d, cur =>
    let buf := blit cur.buf cur.entry 32 s.byte
    (diskWrite d buf cur.sec fat.readMaxSec, { cur with buf })
  | s :: rest, d, cur =>
    let buf := blit cur.buf cur.entry 32 s.byte
    let d := if cur.entry + 32 = fat.bufSize then diskWrite d buf cur.sec fat.readMaxSec else d
    writeEntries fat rest d (nextEntry fat d { cur with buf })

def dotEntry (dename : List UInt8) (extname : List UInt8) (clus : Nat) : Slot :=
  slotOf (padded 8 dename ++ extname ++ dentryFields 0x10 clus)

/-- The first transfer of a new file or directory; `extname` of the second entry of a
directory stays zero. -/
def firstTransfer (type : FileType) (newClus curClus : Nat) : Nat → UInt8 :=
  match type with
  | .file => fun _ => 0
  | .dir => blit (blit (fun _ => 0) 0 32 (dotEntry [dot] [space, space, space] newClus).byte) 32 32
      (dotEntry [dot, dot] [0, 0, 0] curClus).byte

/-- The disk, the cursor at the new entry and the new cluster. -/
def createNew (fat : FatSb) (d : Disk) (fuel : Nat) (name : Str) (curClus : Nat)
    (type : FileType) : Option (Disk × Cursor × Nat) :=
  if (extOf name type).length > 24 then none
  else do
    let (d, entry, sec) ← findEntryEntry fat d fuel curClus (dentryNum name type)
    let newClus ← findEntryClus fat d
    let (d, cur) := writeEntries fat (newEntries name type newClus) d
      ⟨diskRead d sec, entry, clusOfSec fat sec, sec⟩
    let d := diskWrite d (firstTransfer type newClus curClus) (fat.firstSecOfClus newClus)
      fat.readMaxSec
    some (writeFatTableP fat d 0 newClus, cur, newClus)

end CCore.Fat
