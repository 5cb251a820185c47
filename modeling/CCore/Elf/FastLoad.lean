import CCore.Lib.Bytes
import CCore.Lib.Loop
import CCore.Mm.PageTable

/-!
# Preloading and loading of ELF files

`do_pre_elf_fat32` and `fast_load_elf` of `fast_elf.c`.  The first reads the
loadable segments of a file into a list of page buffers, the second maps or copies
the buffers into a page table.  Physical memory is a function from kernel
addresses to bytes; the entries of the table pages are kept as words beside it.
The pages `allocPage` hands out are a list, and a call that finds it empty sleeps
and has no result.  Reading the file gives its bytes; opening it, the search in
`pre_elf` and the parsing of the two kinds of header are not modelled.
-/
namespace CCore.Elf

open Bytes Loop

/-- `Elf64_Phdr`. -/
structure Phdr where
  pType : Nat
  pFlags : Nat
  pOffset : Nat
  pVaddr : Nat
  pPaddr : Nat
  pFilesz : Nat
  pMemsz : Nat
  pAlign : Nat
  deriving DecidableEq

/-- `ELF_info_t`. -/
structure ElfInfo where
  textBegin : Nat
  phoff : Nat
  phent : Nat
  phnum : Nat
  entry : Nat
  edata : Nat
  deriving DecidableEq

/-- The fields of the ELF header the loader reads, the program headers in the
order of the file, and the bytes of the file. -/
structure ElfFile where
  phoff : Nat
  phent : Nat
  entry : Nat
  phdrs : List Phdr
  byte : Nat → UInt8

/-- `excellent_load_t`.  `phdr` goes on past its two elements over the memory
behind the array, and `list` holds the buffers by address. -/
structure ExeLoad where
  list : List Nat
  phdr : Nat → Phdr
  phdrNum : Nat
  elf : ElfInfo
  dynamic : Bool

structure Memory where
  bytes : Nat → UInt8
  supply : List Nat

def ptLoad : Nat := 1
def ptInterp : Nat := 3
def pfW : Nat := 2

def round (a : Nat) : Nat := (a + 4095) / 4096 * 4096

def clearPage (bytes : Nat → UInt8) (page : Nat) : Nat → UInt8 :=
  blit bytes page 4096 fun _ => 0

def Memory.allocPage (m : Memory) : Option (Nat × Memory) :=
  match m.supply with
  | [] => none
  | page :: rest => some (page, ⟨clearPage m.bytes page, rest⟩)

/-- The variables of the loop that reads one segment. -/
structure Reading where
  mem : Memory
  list : List Nat
  length : Nat
  alLength : Nat
  fdBase : Nat

def readChunk (byte : Nat → UInt8) (ph : Phdr) (s : Reading) : Option Reading := do
  let offsetRemain := round s.fdBase - s.fdBase
  let (buffer, m) ← s.mem.allocPage
  let readLength :=
    if offsetRemain ≠ 0 then min offsetRemain (ph.pFilesz - s.alLength)
    else if ph.pFilesz - s.alLength ≥ 4096 then 4096
    else ph.pFilesz - s.alLength
  some
    { mem := { m with bytes := blit m.bytes buffer readLength fun x => byte (s.fdBase + x) }
      list := s.list ++ [buffer]
      length := s.length - readLength
      alLength := s.alLength + readLength
      fdBase := s.fdBase + readLength }

def readSegment (byte : Nat → UInt8) (ph : Phdr) (m : Memory) (list : List Nat) : Option Reading :=
  whileLoop (fun s => s.length ≠ 0) (readChunk byte ph) ph.pFilesz
    ⟨m, list, ph.pFilesz, 0, ph.pOffset⟩

/-- Copy a header into `phdr[index]`.  The array has two elements, and a third
one covers `phdr_num`, which lies where its `p_type` is, and `elf`. -/
def ExeLoad.storePhdr (load : ExeLoad) (index : Nat) (ph : Phdr) : ExeLoad :=
  let load := { load with phdr := Function.update load.phdr index ph }
  if index = 2 then
    { load with
      phdrNum := ph.pType
      elf := ⟨ph.pOffset, ph.pVaddr, ph.pPaddr, ph.pFilesz, ph.pMemsz, ph.pAlign⟩ }
  else load

/-- The variables of the loop over the program headers. -/
structure Parsing where
  load : ExeLoad
  mem : Memory
  index : Nat
  isFirst : Bool

def parseHeader (byte : Nat → UInt8) (s : Parsing) (ph : Phdr) : Option Parsing :=
  let load := if ph.pType = ptInterp then { s.load with dynamic := true } else s.load
  if ph.pType = ptLoad then do
    let load := load.storePhdr s.index ph
    let read ← readSegment byte ph s.mem load.list
    let load :=
      { load with
        list := read.list
        phdrNum := load.phdrNum + 1
        elf := { load.elf with edata := (ph.pVaddr + ph.pMemsz) % 2 ^ 64 } }
    let load :=
      if s.isFirst then { load with elf := { load.elf with textBegin := ph.pVaddr } }
      else load
    some ⟨load, read.mem, s.index + 1, false⟩
  else some ⟨load, s.mem, s.index, s.isFirst⟩

/-- What the ELF header gives, with no program header stored yet. -/
def ExeLoad.saveHeader (load : ExeLoad) (file : ElfFile) : ExeLoad :=
  { load with
    phdrNum := 0
    elf :=
      { load.elf with
        phoff := file.phoff
        phent := file.phent
        phnum := file.phdrs.length
        entry := file.entry } }

/-- `load` is the element of `pre_elf` that `get_free_elf` has picked. -/
def doPreElf (file : ElfFile) (load : ExeLoad) (m : Memory) : Option (ExeLoad × Memory) := do
  let final ← file.phdrs.foldlM (parseHeader file.byte) ⟨load.saveHeader file, m, 0, true⟩
  some (final.load, final.mem)

/-! ## `fast_load_elf` -/

structure Loading where
  mem : Memory
  words : PageTable.Words

/-- Memory after the pages that a call took off the supply were cleared. -/
def Memory.take (m : Memory) (supply : List Nat) : Memory :=
  ⟨(m.supply.take (m.supply.length - supply.length)).foldl clearPage m.bytes, supply⟩

def Loading.allocPageHelper (s : Loading) (va pgdir : Nat) : Option (Nat × Loading) := do
  let (kva, store) ← PageTable.allocPageHelper ⟨s.words, s.mem.supply⟩ va pgdir .mapUser
  some (kva, ⟨s.mem.take store.supply, store.words⟩)

def Loading.allocPagePointPhyc (s : Loading) (va pgdir kva : Nat) : Option Loading := do
  let (_, store) ←
    PageTable.allocPagePointPhyc ⟨s.words, s.mem.supply⟩ va pgdir kva .mapUser
  some ⟨s.mem.take store.supply, store.words⟩

def Loading.kmemcpy (s : Loading) (dest src len : Nat) : Loading :=
  { s with mem.bytes := blit s.mem.bytes dest len fun x => s.mem.bytes (src + x) }

/-- A loop that stores zeros from `dest` up to `limit`. -/
def Loading.zero (s : Loading) (dest limit : Nat) : Loading :=
  { s with mem.bytes := blit s.mem.bytes dest (limit - dest) fun _ => 0 }

/-- The loop that fills in the blank after the last byte of the file.  The cast
of `p_vaddr` to `int` does not matter modulo the page size. -/
def Loading.fillBlank (s : Loading) (bytesOfPage : Nat) (ph : Phdr) : Loading :=
  s.zero (bytesOfPage + (ph.pVaddr + ph.pFilesz) % 4096) (bytesOfPage + 4096)

/-- An `int` as the comparison with a `uint64_t` sees it. -/
def asInt (n : Nat) : Nat :=
  if n % 2 ^ 32 < 2 ^ 31 then n % 2 ^ 32 else n % 2 ^ 32 + (2 ^ 64 - 2 ^ 32)

/-- The variables of the loop over one segment; `again` is set by the jump to
`for_page_remain`, which goes round the test of the loop. -/
structure Walk where
  i : Nat
  again : Bool
  loadNode : List Nat
  state : Loading

/-- A page whose bytes come from the next buffer, at a page boundary. -/
def loadAligned (ph : Phdr) (pgdir vBase bufferBegin : Nat) (s : Walk) : Option (Nat × Loading) :=
  if ph.pFlags &&& pfW = 0 then do
    let state ← s.state.allocPagePointPhyc vBase pgdir bufferBegin
    some (bufferBegin, state)
  else do
    let (bytesOfPage, state) ← s.state.allocPageHelper vBase pgdir
    some (bytesOfPage, state.kmemcpy bytesOfPage bufferBegin (min (ph.pFilesz - s.i) 4096))

/-- The body of the loop over one segment.  The last buffer is followed by the
head of the list, which is no page. -/
def loadPage (ph : Phdr) (pgdir : Nat) (s : Walk) : Option Walk :=
  let vBase := (ph.pVaddr + s.i) % 2 ^ 64
  if s.i < ph.pFilesz then
    match s.loadNode with
    | [] => none
    | bufferBegin :: loadNode => do
      let pageRemain := round vBase - vBase
      if pageRemain = 0 then
        let (bytesOfPage, state) ← loadAligned ph pgdir vBase bufferBegin s
        let state :=
          if ph.pFilesz - s.i < 4096 then state.fillBlank bytesOfPage ph else state
        some ⟨asInt (s.i + 4096), false, loadNode, state⟩
      else
        let (bytesOfPage, state) ← s.state.allocPageHelper vBase pgdir
        let state := state.kmemcpy bytesOfPage bufferBegin
          (min (ph.pFilesz - s.i) pageRemain)
        if ph.pFilesz - s.i < pageRemain then
          some ⟨asInt (s.i + 4096), false, loadNode, state.fillBlank bytesOfPage ph⟩
        else
          some ⟨asInt (s.i + pageRemain), true, loadNode, state⟩
  else do
    -- `bytes_of_page` is a `long *`, so `clear_begin` counts longs from it.
    let (bytesOfPage, state) ← s.state.allocPageHelper vBase pgdir
    let clearBegin := bytesOfPage &&& 0xfff
    some ⟨asInt (s.i + 4096), false, s.loadNode,
      state.zero (bytesOfPage + 8 * clearBegin) (bytesOfPage + 4096)⟩

def loadSegment (pgdir : Nat) (s : List Nat × Loading) (ph : Phdr) :
    Option (List Nat × Loading) := do
  let final ← whileLoop (fun w => w.again || w.i < ph.pMemsz) (loadPage ph pgdir)
    (ph.pMemsz + 2) ⟨0, false, s.1, s.2⟩
  some (final.loadNode, final.state)

/-- The result is the entry point. -/
def fastLoadElf (load : ExeLoad) (pgdir : Nat) (s : Loading) : Option (Nat × Loading) := do
  let final ← ((List.range load.phdrNum).map load.phdr).foldlM (loadSegment pgdir)
    (load.list, s)
  some (load.elf.entry, final.2)

end CCore.Elf
