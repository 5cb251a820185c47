import Mathlib.Data.List.Basic

/-!
# Path resolution (`find_dir`, `fat32_openat`, `fat32_chdir`)

The three walks of the source over a path.  What `search` and `search3` answer is a parameter;
a path is a C string, and `find_dir` sees the memory behind its terminator as well.
-/
namespace CCore.Fat

/-- The bytes of a C string before its terminator. -/
abbrev Str := List UInt8

def slash : UInt8 := 0x2f

def dot : UInt8 := 0x2e

/-- The C string at the beginning of a piece of memory; memory that is not given is zero. -/
def cstr (memory : List UInt8) : Str := memory.takeWhile fun b => b != 0

def kstrlen (memory : List UInt8) : Nat := (cstr memory).length

/-- `search` with `FILE_DIR`, and `search3`: the start cluster of the entry that is found,
for `search3` with its bit `ATTR_DIRECTORY`. -/
structure Lookups where
  search : Nat → Str → Option Nat
  search3 : Nat → Str → Option (Nat × Bool)

/-- The start clusters of `root` and `cwd`. -/
structure Places where
  root : Nat
  cwd : Nat

def Places.base (places : Places) (path : Str) : Nat :=
  if path.head? = some slash then places.root else places.cwd

def prePath (root : Nat) (path : Str) (dirClus : Nat) : Str :=
  if path.head? = some slash then path.drop 1
  else if dirClus = root then
    if path.head? = some dot then
      if path.length = 1 then path.drop 1 else path.drop 2
    else path
  else path

/-- The name up to the next separator, and what follows it. -/
def getNextName (name : Str) : Str × Option Str :=
  match name.findIdx? (· == slash) with
  | none => (name, none)
  | some i => (name.take i, some (name.drop (i + 1)))

def ascii (text : List Char) : Str := text.map fun c => UInt8.ofNat c.toNat

/-- The paths that `open_special_path` opens. -/
def specialPaths : List Str :=
  [ascii ['/', 'd', 'e', 'v', '/', 'n', 'u', 'l', 'l'],
    ascii ['/', 'd', 'e', 'v', '/', 'n', 'u', 'l', 'l', '/', 'i', 'n', 'v', 'a', 'l', 'i', 'd'],
    ascii ['/', 'd', 'e', 'v', '/', 'z', 'e', 'r', 'o'],
    ascii ['/', 'e', 't', 'c', '/', 'p', 'a', 's', 's', 'w', 'd'],
    ascii ['/', 'e', 't', 'c', '/', 'l', 'o', 'c', 'a', 'l', 't', 'i', 'm', 'e'],
    ascii ['/', 'e', 't', 'c', '/', 'a', 'd', 'j', 't', 'i', 'm', 'e'],
    ascii ['/', 'e', 't', 'c', '/', 'g', 'r', 'o', 'u', 'p'],
    ascii ['/', 'p', 'r', 'o', 'c', '/', 'm', 'o', 'u', 'n', 't', 's'],
    ascii ['/', 'p', 'r', 'o', 'c', '/', 'm', 'e', 'm', 'i', 'n', 'f', 'o'], ascii ['/', 'l', 's'],
    ascii ['/', 'd', 'e', 'v', '/', 't', 't', 'y']]

/-- The loop of `fat32_openat` without `O_CREATE`; `directory` is `flags & O_DIRECTORY`. -/
def openatLoop (l : Lookups) (directory : Bool) : Nat → Nat → Str → Option (Nat × Bool)
  | 0, _, _ => none
  | fuel + 1, oldDirClus, dname =>
    match getNextName dname with
    | (name, none) =>
      if directory then (l.search oldDirClus name).map fun c => (c, true)
      else l.search3 oldDirClus name
    | (name, some rest) =>
      (l.search oldDirClus name).bind fun c => openatLoop l directory fuel c rest

/-- The start cluster of what is opened and whether it is a directory; a special path has none. -/
def fat32Openat (l : Lookups) (places : Places) (directory : Bool) (path : Str) :
    Option (Nat × Bool) :=
  if path ∈ specialPaths then none
  else
    let copyPath := prePath places.root path (places.base path)
    if copyPath = [] then some (places.base path, true)
    else openatLoop l directory (copyPath.length + 1) (places.base path) copyPath

/-- What is opened if it is a directory. -/
def openedDirectory (found : Option (Nat × Bool)) : Option Nat :=
  found.bind fun (c, isDirectory) => if isDirectory then some c else none

/-- The front of the name that `find_dir` passes over. -/
def cutFront (inputName : List UInt8) : List UInt8 :=
  let name :=
    if inputName[0]? = some dot ∧ inputName[1]? = some slash then inputName.drop 2 else inputName
  if name[0]? = some slash then name.drop 1 else name

/-- The length is taken before the front of the name is cut off. -/
def findDir (l : Lookups) : Nat → Nat → List UInt8 → Option (Nat × Str)
  | 0, _, _ => none
  | fuel + 1, curCwd, name =>
    let len := kstrlen name
    let name := cutFront (name.take 256)
    match (name.take len).findIdx? (· == slash) with
    | none => some (curCwd, cstr name)
    | some pos =>
      (l.search curCwd (cstr (name.take pos))).bind fun newCwd =>
        findDir l fuel newCwd ((name.drop (pos + 1)).take (len - pos - 1))

/-- `find_dir` and `search` as in `fat32_unlink`; `after` is the memory behind the path. -/
def findAndSearch (l : Lookups) (places : Places) (path : Str) (after : List UInt8) : Option Nat :=
  (findDir l (path.length + 1) (places.base path) (path ++ 0 :: after)).bind fun (c, name) =>
    l.search c name

/-- The first loop of `fat32_chdir`. -/
def dropDots : Str → Str
  | [] => []
  | [b] => [b]
  | b :: b' :: rest => if b = dot ∧ b' = slash then dropDots rest else b :: dropDots (b' :: rest)

/-- `stale` is what the array `path` holds behind the terminator. -/
def fat32Chdir (l : Lookups) (places : Places) (destPath : Str) (stale : List UInt8) : Option Nat :=
  let path := dropDots destPath
  if path = [slash] then some places.root
  else
    let fDir :=
      if path.head? = some slash then
        findDir l (path.length + 1) places.root (path.drop 1 ++ 0 :: stale)
      else findDir l (path.length + 1) places.cwd (path ++ 0 :: stale)
    fDir.bind fun (c, name) => l.search c name

end CCore.Fat
