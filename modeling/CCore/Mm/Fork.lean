import CCore.Lib.Run
import CCore.Mm.Memory

/-!
# Clone, exit and the processes of one program

`do_clone` without `CLONE_VM` and with stack argument 0, `copy_on_write`,
`recycle_page_part` and `handle_exit_pcb`, and the machine whose processes load,
store, clone and exit in any order.  A process is its index in the `pcb` array.
A call that finds no free page sleeps in the middle of its work and goes on from
there in a `resume` step, with the other processes running in between.
-/
namespace CCore.Mm

open Function

/-- What `exe_load` and the PCB say about the program: its two segments, the end
of its data and heap, and for a dynamic program the segment of `libc.so`. -/
structure ExeLoad where
  textVaddr : Nat
  textMemsz : Nat
  dataVaddr : Nat
  elfEdata : Nat
  edata : Nat
  libc : Option (Nat × Nat)

def dynamicVaddrOffset : Nat := 0x8000000

/-- The addresses `recycle_page_part` leaves out; both bounds belong to them. -/
def ExeLoad.keeps (load : ExeLoad) (vaddr : Nat) : Bool :=
  (load.textVaddr ≤ vaddr && vaddr ≤ load.textVaddr + load.textMemsz) ||
    match load.libc with
    | none => false
    | some (base, size) =>
      base + dynamicVaddrOffset ≤ vaddr && vaddr ≤ base + size + dynamicVaddrOffset

/-- `is_legal_addr`; its second comparison is `keep_vaddr_top <= keep_vaddr_top`,
and its last one asks for one of the four bits of `USER_STACK_HIGN`. -/
def ExeLoad.isLegalAddr (load : ExeLoad) (va : Nat) : Bool :=
  (va < load.edata && load.elfEdata < va) || load.dataVaddr ≤ va || va / 2 ^ 32 % 16 != 0

/-- The page above the user stack, `USER_STACK_ADDR / PAGE_SIZE`. -/
def userStackTop : Nat := 0xf00010

/-- One entry of the innermost loop of `copy_on_write`: the parent loses `W`, the
child gets the same entry, and the page has one more share. -/
def Mem.shareEntry (m : Mem) (p c page : Nat) (e : Pte) : Mem :=
  ((m.put (.leaf (.user p) page) { e with write := false }).put (.leaf (.user c) page)
    { e with write := false }).shareAdd e.frame

def copyLeaf (p c page : Nat) : Kernel Unit := do
  match (← get).entry (.leaf (.user p) page), (← get).entry (.leaf (.user c) page) with
  | some e, none => modify (·.shareEntry p c page e)
  | _, _ => return

def copyMiddle (p c index : Nat) : Kernel Unit := do
  match (← get).entry (.middle (.user p) index) with
  | none => return
  | some _ =>
    let _ ← checkPageSetFlag (.clone c .tables) (.middle (.user c) index) false
    (List.range 512).forM fun vpn0 => copyLeaf p c (index * 512 + vpn0)

def copyRoot (p c vpn2 : Nat) : Kernel Unit := do
  match kernelBase vpn2, (← get).entry (.root (.user p) vpn2) with
  | false, some _ =>
    let _ ← checkPageSetFlag (.clone c .tables) (.root (.user c) vpn2) false
    (List.range 512).forM fun vpn1 => copyMiddle p c (vpn2 * 512 + vpn1)
  | _, _ => return

def copyOnWrite (p c : Nat) : Kernel Unit :=
  (List.range 512).forM fun vpn2 => copyRoot p c vpn2

/-- The loop of `do_clone` that copies the user stack at once: downwards from the
page below `top` to the first page the parent has not mapped. -/
def copyStack (p c : Nat) : Nat → Kernel Unit
  | 0 => return
  | page + 1 => do
    match getPTEOf (← get) p page with
    | none => return
    | some e =>
      let f ← allocPageHelper (.clone c (.userStack (page + 1))) c page
      modify fun m => m.fillPage f (m.bytes e.frame)
      copyStack p c page

/-- The page a PCB field points to. -/
def allocField (again : Task) (slot : Slot) : Kernel Unit := do
  let f ← allocPage again
  modify (·.put slot ⟨f, false, false, false⟩)

/-- `do_clone` without `CLONE_VM` and with stack argument 0, from one of the points where it can
sleep for a page. -/
def cloneFrom (p c : Nat) : Stage → Kernel Unit
  | .tables => copyOnWrite p c
  | .userStack top => do
    copyStack p c top
    copyOnWrite p c
  | .kernelStack => do
    allocField (.clone c .kernelStack) (.kernelStack c)
    copyStack p c userStackTop
    copyOnWrite p c
  | .pgdir => do
    allocField (.clone c .pgdir) (.pgdir c)
    allocField (.clone c .kernelStack) (.kernelStack c)
    copyStack p c userStackTop
    copyOnWrite p c

/-- `freePage` of the page a slot holds.  The slot is dead from here on: its own
table page is returned right after it. -/
def Mem.release (m : Mem) (slot : Slot) : Mem :=
  match m.entry slot with
  | none => m
  | some e => (m.freePage e.frame).clear slot

/-- An address that is kept loses its entry with its table, and no `freePage` is
made for its page. -/
def Mem.recycleLeaf (load : ExeLoad) (p : Nat) (m : Mem) (page : Nat) : Mem :=
  if load.keeps (page * 4096) then m.clear (.leaf (.user p) page)
  else m.release (.leaf (.user p) page)

def Mem.recycleMiddle (load : ExeLoad) (p : Nat) (m : Mem) (index : Nat) : Mem :=
  match m.entry (.middle (.user p) index) with
  | none => m
  | some _ =>
    ((List.range 512).foldl (fun m vpn0 => m.recycleLeaf load p (index * 512 + vpn0)) m).release
      (.middle (.user p) index)

def Mem.recycleRoot (load : ExeLoad) (p : Nat) (m : Mem) (vpn2 : Nat) : Mem :=
  match kernelBase vpn2, m.entry (.root (.user p) vpn2) with
  | false, some _ =>
    ((List.range 512).foldl (fun m vpn1 => m.recycleMiddle load p (vpn2 * 512 + vpn1)) m).release
      (.root (.user p) vpn2)
  | _, _ => m

def recyclePagePart (load : ExeLoad) (p : Nat) (m : Mem) : Mem :=
  ((List.range 512).foldl (fun m vpn2 => m.recycleRoot load p vpn2) m).release (.pgdir p)

/-- The pages `handle_exit_pcb` gives back. -/
def handleExitPcb (load : ExeLoad) (p : Nat) (m : Mem) : Mem :=
  (recyclePagePart load p m).release (.kernelStack p)

/-- `building` is the PCB of a child whose `do_clone` has not returned, with the
parent its PCB names. -/
inductive Life
  | unused
  | building (parent : Nat)
  | live (task : Task)
  deriving DecidableEq

structure Sys where
  mem : Mem
  life : Nat → Life

inductive Act
  | load (p va : Nat)
  | store (p va value : Nat)
  | clone (p c : Nat)
  | exit (p : Nat)
  | resume (p : Nat)

/-- The processes after `p` has run kernel code: back in user mode, or asleep. -/
def Sys.ran (s : Sys) (p : Nat) : EStateM.Result Task Mem Unit → Sys
  | .ok _ m => { mem := m, life := update s.life p (.live .user) }
  | .error task m => { mem := m, life := update s.life p (.live task) }

/-- A `do_clone` that returns leaves its child ready to run. -/
def Sys.cloned (s : Sys) (p c : Nat) : EStateM.Result Task Mem Unit → Sys
  | .ok _ m => { mem := m, life := update (update s.life c (.live .user)) p (.live .user) }
  | .error task m => { mem := m, life := update (update s.life c (.building p)) p (.live task) }

/-- User addresses: the lower half of Sv39, without the kernel's own pages in the
boot map. -/
def userAddr (va : Nat) : Bool :=
  va < 2 ^ 38 && !(0x80200000 ≤ va && va < 0x80c00000)

/-- A store to a page that is not writable only runs the fault handler; the
process executes it again afterwards, and so for a load. -/
def step (load : ExeLoad) (s : Sys) : Act → Option Sys
  | .load p va =>
    if s.life p = .live .user ∧ userAddr va then
      match getPTEOf s.mem p (va / 4096) with
      | some _ => some s
      | none =>
        if load.isLegalAddr va then some (s.ran p (handlePageFault p (va / 4096) .load s.mem))
        else none
    else none
  | .store p va value =>
    if s.life p = .live .user ∧ userAddr va then
      match getPTEOf s.mem p (va / 4096) with
      | some e =>
        if e.write then some { s with mem := s.mem.setByte e.frame (va % 4096) value }
        else some (s.ran p (handlePageFault p (va / 4096) .store s.mem))
      | none => some (s.ran p (handlePageFault p (va / 4096) .store s.mem))
    else none
  | .clone p c =>
    if s.life p = .live .user ∧ s.life c = .unused then
      some (s.cloned p c (cloneFrom p c .pgdir s.mem))
    else none
  | .exit p =>
    match s.life p with
    | .live _ => some { mem := handleExitPcb load p s.mem, life := update s.life p .unused }
    | _ => none
  | .resume p =>
    match s.life p with
    | .live (.touch page) => some (s.ran p (dealNoAlloc p page s.mem))
    | .live (.copy page) =>
      match getPTEOf s.mem p page with
      | some e => some (s.ran p (copyPage p page e s.mem))
      | none => none
    | .live (.clone c stage) => some (s.cloned p c (cloneFrom p c stage s.mem))
    | _ => none

end CCore.Mm
