import CCore.Elf.FastLoad
import Mathlib.Data.List.Basic

/-!
# Starting a program (`do_exec`, `do_execve`)

Both calls give the process a new page directory and user stack, set up its PCB and
call `load_process_memory`.  What follows when the program has been loaded (filling
the user stack, giving back the old page table, the scheduler) is not modelled: the
calls end in `started` there.  `test_name`, the times and the contents of the
descriptor and signal tables are left out.
-/
namespace CCore.Exec

open Elf List Option

/-! ## The state -/

/-- An element of `pre_elf`. -/
structure PreElf where
  used : Bool
  name : List Char
  load : ExeLoad

inductive Status
  | blocked
  | running
  | ready
  | zombie
  | exited
  deriving DecidableEq

inductive SpawnMode
  | enterZombieOnExit
  | autoCleanupOnExit
  deriving DecidableEq

/-- `exeLoad` is an index of `pre_elf`, or `none` for a null pointer; `pfd` and
`sigactions` are indices of their tables. -/
structure Pcb where
  used : Bool
  pid : Nat
  parent : Nat
  name : List Char
  status : Status
  mode : SpawnMode
  pgdir : Nat
  kernelStackTop : Nat
  kernelStackBase : Nat
  kernelSp : Nat
  userStackTop : Nat
  userStackBase : Nat
  userSp : Nat
  exeLoad : Option Nat
  edata : Nat
  elf : ElfInfo
  execve : Bool
  mask : Nat
  priority : Nat
  pfd : Nat
  sigactions : Nat
  isHandleSignal : Bool
  sigRecv : Nat
  sigPend : Nat
  sigMask : Nat
  deriving DecidableEq

structure Machine where
  preElf : List PreElf
  mem : Loading
  pcb : Nat → Pcb
  available : List Nat
  ready : List Nat
  processId : Nat
  pfdTable : List Bool
  sigTable : List Bool

/-- `-1` or another value that is returned, or the entry point of a program that is
about to run. -/
inductive Outcome
  | returned (value : Int) (s : Machine)
  | started (p entryPoint : Nat) (s : Machine)

namespace Outcome

def machine : Outcome → Machine
  | .returned _ s | .started _ _ s => s

/-- The process that starts and its entry point. -/
def start : Outcome → Option (Nat × Nat)
  | .returned _ _ => none
  | .started p entryPoint _ => some (p, entryPoint)

theorem eq_started {o : Outcome} {p entryPoint : Nat} (starts : o.start = some (p, entryPoint)) :
    o = .started p entryPoint o.machine := by
  cases o with
  | returned value s => cases starts
  | started q entry s =>
    cases starts
    rfl

end Outcome

def pageSize : Nat := 4096
def userStackAddr : Nat := 0xf00010000
def numMaxUstack : Nat := 2
def enoexec : Nat := 8

/-- Zero if the file is taken for something else.  The bytes are compared with
`EI_MAG0` to `EI_MAG3`, which are the indices 0 to 3 of the magic number. -/
def isElfFormat (eIdent : Nat → UInt8) : Nat :=
  if eIdent 0 = 0 ∧ eIdent 1 = 1 ∧ eIdent 2 = 2 ∧ eIdent 3 = 3 then 0 else 1

/-- The test of `do_pre_elf_fat32`. -/
def acceptsContents (length : Nat) (eIdent : Nat → UInt8) : Bool :=
  !(length < 4 || isElfFormat eIdent == 0)

/-- Does a file start with the magic number of ELF? -/
def hasMagic (eIdent : Nat → UInt8) : Bool :=
  eIdent 0 == 0x7f && eIdent 1 == 0x45 && eIdent 2 == 0x4c && eIdent 3 == 0x46

def findNameElf (preElf : List PreElf) (filename : List Char) : Option Nat :=
  preElf.findIdx? fun e => e.used && e.name == filename

/-- `fast_load_elf`: the entry point, or 0 if the program has not been preloaded.
No result when the call sleeps for a page. -/
def fastLoadElfByName (preElf : List PreElf) (filename : List Char) (pcb : Pcb) (mem : Loading) :
    Option (Nat × Pcb × Loading) :=
  let pcb := { pcb with elf := { pcb.elf with edata := 0 } }
  match (findNameElf preElf filename).bind (preElf[·]?) with
  | none => some (0, pcb, mem)
  | some e => do
    let (entry, mem) ← fastLoadElf e.load pcb.pgdir mem
    some (entry, { pcb with elf := e.load.elf, edata := e.load.elf.edata }, mem)

def loadProcessMemory (preElf : List PreElf) (path : List Char) (pcb : Pcb) (mem : Loading) :
    Option (Nat × Pcb × Loading) := do
  let (entryPoint, pcb, mem) ← fastLoadElfByName preElf path pcb mem
  some (if entryPoint = 0 then 2 ^ 64 - enoexec else entryPoint, pcb, mem)

def dynamicVaddrOffset : Nat := 0x8000000

/-- The blank after the last byte of the file, counted without the address. -/
def Loading.fillBlankFrom (s : Loading) (bytesOfPage : Nat) (ph : Phdr) : Loading :=
  s.zero (bytesOfPage + ph.pFilesz % 4096) (bytesOfPage + 4096)

def connectAligned (shared : Bool) (ph : Phdr) (pgdir vBase bufferBegin : Nat) (s : Walk) :
    Option (Nat × Loading) :=
  if ph.pFlags &&& pfW = 0 ∧ shared then do
    let state ← s.state.allocPagePointPhyc vBase pgdir bufferBegin
    some (bufferBegin, state)
  else do
    let (bytesOfPage, state) ← s.state.allocPageHelper vBase pgdir
    some (bytesOfPage, state.kmemcpy bytesOfPage bufferBegin (min (ph.pFilesz - s.i) 4096))

/-- The body of the loop of `load_connector` over one segment. -/
def connectPage (shared : Bool) (ph : Phdr) (pgdir : Nat) (s : Walk) : Option Walk :=
  let vBase := (ph.pVaddr + dynamicVaddrOffset + s.i) % 2 ^ 64
  if s.i < ph.pFilesz then
    match s.loadNode with
    | [] => none
    | bufferBegin :: loadNode => do
      let pageRemain := Elf.round vBase - vBase
      if pageRemain = 0 then
        let (bytesOfPage, state) ← connectAligned shared ph pgdir vBase bufferBegin s
        let state :=
          if ph.pFilesz - s.i < 4096 then Loading.fillBlankFrom state bytesOfPage ph else state
        some ⟨asInt (s.i + 4096), false, loadNode, state⟩
      else
        let (bytesOfPage, state) ← s.state.allocPageHelper vBase pgdir
        let state := state.kmemcpy bytesOfPage bufferBegin (min (ph.pFilesz - s.i) pageRemain)
        if ph.pFilesz - s.i < pageRemain then
          some ⟨asInt (s.i + 4096), false, loadNode, Loading.fillBlankFrom state bytesOfPage ph⟩
        else
          some ⟨asInt (s.i + pageRemain), true, loadNode, state⟩
  else do
    let (bytesOfPage, state) ← s.state.allocPageHelper vBase pgdir
    let clearBegin := bytesOfPage &&& 0xfff
    some ⟨asInt (s.i + 4096), false, s.loadNode,
      state.zero (bytesOfPage + 8 * clearBegin) (bytesOfPage + 4096)⟩

def connectSegment (shared : Bool) (pgdir : Nat) (s : List Nat × Loading) (ph : Phdr) :
    Option (List Nat × Loading) := do
  let final ← CCore.Loop.whileLoop (fun w => w.again || w.i < ph.pMemsz)
    (connectPage shared ph pgdir) (ph.pMemsz + 2) ⟨0, false, s.1, s.2⟩
  some (final.loadNode, final.state)

def loadConnector (preElf : List PreElf) (filename : List Char) (pgdir : Nat) (mem : Loading) :
    Option (Nat × Loading) :=
  match (findNameElf preElf filename).bind (preElf[·]?) with
  | none => some (0, mem)
  | some e => do
    let final ← ((List.range e.load.phdrNum).map e.load.phdr).foldlM
      (connectSegment (!e.load.dynamic) pgdir) (e.load.list, mem)
    some ((e.load.elf.entry + dynamicVaddrOffset) % 2 ^ 64, final.2)

/-- The entry point after `load_connector("libc.so")`, if the program of the PCB is
linked dynamically.  No result for a null `exe_load`. -/
def connect (preElf : List PreElf) (pcb : Pcb) (entryPoint : Nat) (mem : Loading) :
    Option (Nat × Loading) := do
  let e ← pcb.exeLoad.bind (preElf[·]?)
  if e.load.dynamic then loadConnector preElf "libc.so".toList pcb.pgdir mem
  else some (entryPoint, mem)

def allocPage (mem : Loading) : Option (Nat × Loading) := do
  let (page, pages) ← mem.mem.allocPage
  some (page, { mem with mem := pages })

/-- A new page directory with the user stack mapped. -/
def newPgdir (pgdir : Nat) (mem : Loading) : Option Loading :=
  (List.range numMaxUstack).foldlM
    (fun mem i => (mem.allocPageHelper (userStackAddr - (i + 1) * pageSize) pgdir).map Prod.snd)
    { mem with words := (PageTable.sharePgtable mem.words pgdir).words }

/-- The path behind its first slash. -/
def afterSlash (path : List Char) : List Char :=
  match path.dropWhile (· != '/') with
  | [] => path
  | _ :: rest => rest

/-- The record of the program named by the PCB; an unknown name leaves it alone. -/
def setExeLoad (preElf : List PreElf) (pcb : Pcb) : Pcb :=
  match findNameElf preElf pcb.name with
  | none => pcb
  | some id => { pcb with exeLoad := some id }

def initExecvePcb (preElf : List PreElf) (pcb : Pcb) : Pcb :=
  setExeLoad preElf
    { pcb with
      status := .ready
      userSp := pcb.userStackTop
      kernelSp := pcb.kernelStackTop
      kernelStackBase := pcb.kernelStackTop - pageSize
      userStackBase := pcb.userStackTop - pageSize
      execve := true
      isHandleSignal := false
      sigRecv := 0
      sigPend := 0
      sigMask := 0 }

def doExecve (s : Machine) (p : Nat) (path : List Char) : Option Outcome := do
  let (pgdir, mem) ← allocPage s.mem
  let mem ← newPgdir pgdir mem
  let path := afterSlash path
  let pcb := initExecvePcb s.preElf
    { s.pcb p with
      pgdir := pgdir
      userStackTop := userStackAddr
      kernelSp := (s.pcb p).kernelStackTop
      name := path }
  let (entryPoint, pcb, mem) ←
    loadProcessMemory s.preElf path { pcb with mask := 3, priority := 3 } mem
  let s := { s with pcb := Function.update s.pcb p pcb, mem := mem }
  if entryPoint = 0 then some (.returned (-1) s)
  else do
    let (entryPoint, mem) ← connect s.preElf pcb entryPoint mem
    some (.started p entryPoint { s with mem := mem, ready := p :: s.ready })

/-- The first free element of a table is marked; none is free at the `assert`. -/
def allocSlot (table : List Bool) : Option (Nat × List Bool) :=
  (table.findIdx? (!·)).map fun i => (i, table.set i true)

/-- `current` makes the call. -/
def initPcbMember (s : Machine) (current : Nat) (pcb : Pcb) : Option (Pcb × Machine) := do
  let (pfd, pfdTable) ← allocSlot s.pfdTable
  let (sigactions, sigTable) ← allocSlot s.sigTable
  let pcb :=
    { pcb with
      pid := s.processId
      used := true
      status := .ready
      mode := .autoCleanupOnExit
      parent := current
      userSp := pcb.userStackTop
      kernelSp := pcb.kernelStackTop
      kernelStackBase := pcb.kernelStackTop - pageSize
      userStackBase := pcb.userStackTop - pageSize
      execve := false
      pfd := pfd
      sigactions := sigactions
      isHandleSignal := false
      sigRecv := 0
      sigPend := 0
      sigMask := 0 }
  let s := { s with processId := s.processId + 1, pfdTable := pfdTable, sigTable := sigTable }
  some (if pcb.name = "shell".toList then pcb else setExeLoad s.preElf pcb, s)

def doExec (s : Machine) (current : Nat) (fileName : List Char) : Option Outcome :=
  match s.available with
  | [] => none
  | x :: rest => do
    let (pgdir, mem) ← allocPage s.mem
    let (kernelStack, mem) ← allocPage mem
    let mem ← newPgdir pgdir mem
    let (pcb, s) ← initPcbMember { s with available := rest } current
      { s.pcb x with
        pgdir := pgdir
        kernelStackTop := kernelStack + pageSize
        userStackTop := userStackAddr
        name := fileName }
    let (entryPoint, pcb, mem) ←
      loadProcessMemory s.preElf fileName { pcb with mask := 3, priority := 3 } mem
    let (entryPoint, mem) ← connect s.preElf pcb entryPoint mem
    let s := { s with pcb := Function.update s.pcb x pcb, mem := mem }
    if entryPoint = 0 then some (.returned (-1) s)
    else some (.started x entryPoint { s with ready := x :: s.ready })

/-! ## A call that fails -/

/-- What the caller of a failed `do_execve` finds as before. -/
structure Intact (s s' : Machine) (p : Nat) : Prop where
  pgdir : (s'.pcb p).pgdir = (s.pcb p).pgdir
  pfd : (s'.pcb p).pfd = (s.pcb p).pfd
  name : (s'.pcb p).name = (s.pcb p).name
  status : (s'.pcb p).status = (s.pcb p).status
  ready : s'.ready = s.ready
  table : ∀ va, PageTable.getKvaOf s'.mem.words va (s.pcb p).pgdir =
    PageTable.getKvaOf s.mem.words va (s.pcb p).pgdir
  bytes : ∀ va, PageTable.getKvaOf s.mem.words va (s.pcb p).pgdir ≠ 0 →
    s'.mem.mem.bytes (PageTable.getKvaOf s.mem.words va (s.pcb p).pgdir) =
      s.mem.mem.bytes (PageTable.getKvaOf s.mem.words va (s.pcb p).pgdir)

def ExecveFailsSafely (s : Machine) (p : Nat) (path : List Char) : Prop :=
  ∃ value s', doExecve s p path = some (.returned value s') ∧ value < 0 ∧ Intact s s' p

/-- No PCB, page or table slot is used up. -/
structure Unspent (s s' : Machine) : Prop where
  pcbs : s'.available = s.available
  pages : s'.mem.mem.supply = s.mem.mem.supply
  pfdTable : s'.pfdTable = s.pfdTable
  sigTable : s'.sigTable = s.sigTable

def ExecFailsSafely (s : Machine) (current : Nat) (path : List Char) : Prop :=
  ∃ value s', doExec s current path = some (.returned value s') ∧ value < 0 ∧ Unspent s s'

theorem loadProcessMemory_ne_zero {preElf : List PreElf} {path : List Char} {pcb pcb' : Pcb}
    {mem mem' : Loading} {entryPoint : Nat}
    (loaded : loadProcessMemory preElf path pcb mem = some (entryPoint, pcb', mem')) :
    entryPoint ≠ 0 := by
  unfold loadProcessMemory at loaded
  obtain ⟨⟨entry, pcb₁, mem₁⟩, _, result⟩ := bind_eq_some_iff.mp loaded
  have value : (if entry = 0 then 2 ^ 64 - enoexec else entry) = entryPoint :=
    congrArg Prod.fst (Option.some.inj result)
  rw [← value]
  by_cases zero : entry = 0
  · rw [if_pos zero]
    decide
  · rw [if_neg zero]
    exact zero

theorem doExecve_no_return (s : Machine) (p : Nat) (path : List Char) (value : Int)
    (s' : Machine) : doExecve s p path ≠ some (.returned value s') := by
  intro run
  unfold doExecve at run
  obtain ⟨⟨pgdir, mem₁⟩, _, run⟩ := bind_eq_some_iff.mp run
  obtain ⟨mem₂, _, run⟩ := bind_eq_some_iff.mp run
  obtain ⟨⟨entryPoint, pcb, mem₃⟩, loaded, run⟩ := bind_eq_some_iff.mp run
  dsimp only at run
  rw [if_neg (loadProcessMemory_ne_zero loaded)] at run
  obtain ⟨⟨entry, mem₄⟩, _, run⟩ := bind_eq_some_iff.mp run
  cases run

theorem doExec_takes_pcb {s s' : Machine} {current : Nat} {path : List Char} {value : Int}
    (run : doExec s current path = some (.returned value s')) :
    s.available.length = s'.available.length + 1 := by
  unfold doExec at run
  cases available : s.available with
  | nil =>
    rw [available] at run
    cases run
  | cons x rest =>
    rw [available] at run
    obtain ⟨⟨pgdir, mem₁⟩, _, run⟩ := bind_eq_some_iff.mp run
    obtain ⟨⟨kernelStack, mem₂⟩, _, run⟩ := bind_eq_some_iff.mp run
    obtain ⟨mem₃, _, run⟩ := bind_eq_some_iff.mp run
    obtain ⟨⟨pcb₁, s₁⟩, member, run⟩ := bind_eq_some_iff.mp run
    obtain ⟨⟨entryPoint, pcb₂, mem₄⟩, _, run⟩ := bind_eq_some_iff.mp run
    obtain ⟨⟨entry, mem₅⟩, _, run⟩ := bind_eq_some_iff.mp run
    have kept : s₁.available = rest := by
      unfold initPcbMember at member
      obtain ⟨⟨pfd, pfdTable⟩, _, member⟩ := bind_eq_some_iff.mp member
      obtain ⟨⟨sigactions, sigTable⟩, _, member⟩ := bind_eq_some_iff.mp member
      cases member
      rfl
    dsimp only at run
    split at run
    · cases run
      rw [length_cons]
      exact congrArg (·.length + 1) kept.symm
    · cases run

/-- No failed call is undone: `do_execve` does not report it at all, and `do_exec`
keeps the PCB. -/
theorem failed_exec_never_safe (s : Machine) (p : Nat) (path : List Char) :
    ¬ ExecveFailsSafely s p path ∧ ¬ ExecFailsSafely s p path := by
  constructor
  · rintro ⟨value, s', run, _⟩
    exact doExecve_no_return s p path value s' run
  · rintro ⟨value, s', run, _, unspent⟩
    have taken := doExec_takes_pcb run
    rw [unspent.pcbs] at taken
    omega

/-- A PCB with page directory `pgdir` that runs `./cat`, the first preloaded program. -/
def catPcb (pgdir : Nat) : Pcb where
  used := true
  pid := 2
  parent := 1
  name := "cat".toList
  status := .running
  mode := .enterZombieOnExit
  pgdir := pgdir
  kernelStackTop := 0xffffffc081002000
  kernelStackBase := 0xffffffc081001000
  kernelSp := 0xffffffc081002000
  userStackTop := userStackAddr
  userStackBase := userStackAddr - 4096
  userSp := userStackAddr
  exeLoad := some 0
  edata := 0x20000
  elf := ⟨0x10000, 64, 56, 2, 0x10000, 0x20000⟩
  execve := true
  mask := 3
  priority := 3
  pfd := 0
  sigactions := 0
  isHandleSignal := false
  sigRecv := 0
  sigPend := 0
  sigMask := 0

def catMachine : Machine where
  preElf := [⟨true, "cat".toList,
    ⟨[], fun _ => ⟨0, 0, 0, 0, 0, 0, 0, 0⟩, 0, ⟨0x10000, 64, 56, 2, 0x10000, 0x20000⟩, false⟩⟩]
  mem := ⟨⟨fun _ => 0, (List.range 20).map fun i => 0xffffffc082000000 + 4096 * i⟩, fun _ _ => 0⟩
  pcb := fun _ => catPcb 0xffffffc081000000
  available := [5, 6]
  ready := []
  processId := 7
  pfdTable := [true, false, false, false, false]
  sigTable := [true, false, false]

/-- `execve("./dog")` starts at `-ENOEXEC` in a page directory without a program,
under the new name; `exec("dog")` does the same in a new PCB; and a script is
accepted by `do_pre_elf_fat32`. -/
theorem missing_program_started : findNameElf catMachine.preElf "dog".toList = none ∧
    (∃ s', doExecve catMachine 2 "./dog".toList = some (.started 2 (2 ^ 64 - 8) s') ∧
      (s'.pcb 2).pgdir ≠ (catMachine.pcb 2).pgdir ∧ (s'.pcb 2).name = "dog".toList ∧
      (s'.pcb 2).status = .ready ∧ s'.ready = [2]) ∧
    (∃ s', doExec catMachine 2 "dog".toList = some (.started 5 (2 ^ 64 - 8) s') ∧
      s'.available = [6]) ∧ ¬ ExecveFailsSafely catMachine 2 "./dog".toList ∧
    ¬ ExecFailsSafely catMachine 2 "dog".toList ∧
    (let script := fun i : Nat => ([0x23, 0x21, 0x2f, 0x62] : List UInt8).getD i 0
     hasMagic script = false ∧ acceptsContents 20 script = true) := by
  have execve : (doExecve catMachine 2 "./dog".toList).map (fun o =>
      (o.start, (o.machine.pcb 2).pgdir, (o.machine.pcb 2).name, (o.machine.pcb 2).status,
        o.machine.ready)) =
      some (some (2, 2 ^ 64 - 8), 0xffffffc082000000, "dog".toList, .ready, [2]) := by
    decide +kernel
  have exec : (doExec catMachine 2 "dog".toList).map (fun o => (o.start, o.machine.available)) =
      some (some (5, 2 ^ 64 - 8), [6]) := by
    decide +kernel
  obtain ⟨o, run, facts⟩ := map_eq_some_iff.mp execve
  obtain ⟨o', run', facts'⟩ := map_eq_some_iff.mp exec
  simp only [Prod.mk.injEq] at facts facts'
  obtain ⟨starts, pgdir, name, status, ready⟩ := facts
  rw [Outcome.eq_started starts] at run
  rw [Outcome.eq_started facts'.1] at run'
  refine ⟨by decide, ⟨_, run, ?_, name, status, ready⟩, ⟨_, run', facts'.2⟩, ?_, ?_, by decide⟩
  · rw [pgdir]
    decide
  · rintro ⟨value, s', returned, _⟩
    exact doExecve_no_return catMachine 2 _ value s' returned
  · rintro ⟨value, s', returned, _⟩
    rw [run'] at returned
    cases returned

end CCore.Exec
