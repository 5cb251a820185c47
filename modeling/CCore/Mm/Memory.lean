import Mathlib.Algebra.Group.Nat.Defs
import CCore.Lib.Sleep

/-!
# Physical pages, page tables and page faults

The page manager of `mm.c` and the fault handlers of `mmirq.c` and `irq.c`, with
`status_ctx = 0` (no swapping, so no entry carries `_PAGE_SD`) and no file
mapping.  A physical page is its index in `pageRecyc`.  Every process walks the
kernel's own second-level tables through the root slots of `kernelBase`, because
`share_pgtable` copies the kernel's page directory into its own and
`cancel_kernel_map` is never called.
-/
namespace CCore.Mm

open Function

/-- Whose tables an entry stands in. -/
inductive Owner
  | kernel
  | user (p : Nat)
  deriving DecidableEq

/-- A place that holds a physical page: an entry of one of the three levels of a
page table, or the `pgdir` or `kernel_stack_base` field of a PCB.  An entry is
indexed by the virtual address bits above it: `vpn2`, `vpn2:vpn1` and
`vpn2:vpn1:vpn0`. -/
inductive Slot
  | root (o : Owner) (vpn2 : Nat)
  | middle (o : Owner) (index : Nat)
  | leaf (o : Owner) (page : Nat)
  | pgdir (p : Nat)
  | kernelStack (p : Nat)
  deriving DecidableEq

/-- The entry that points to the table the slot stands in. -/
def Slot.above : Slot → Option Slot
  | .leaf o page => some (.middle o (page / 512))
  | .middle o index => some (.root o (index / 512))
  | _ => none

/-- A present entry; `_PAGE_READ`, `_PAGE_EXEC` and `_PAGE_USER` are set on every
user leaf.  The flags of a PCB field are not used. -/
structure Pte where
  frame : Nat
  write : Bool
  accessed : Bool
  dirty : Bool
  deriving DecidableEq

/-- `pageRecyc` and `freePageManager` with the contents of the pages; the
entries of the table pages are kept by slot and not as bytes. -/
structure Mem where
  free : List Nat
  sourceNum : Nat
  shareNum : Nat → Nat
  bytes : Nat → Nat → Nat
  entry : Slot → Option Pte

/-- The root slots the kernel's page directory fills: the boot map at
`0x80000000` and the two gigabytes of devices and of the kernel itself. -/
def kernelBase (vpn2 : Nat) : Bool := vpn2 == 2 || vpn2 == 256 || vpn2 == 258

/-- Whose tables the walk of process `p` for a page goes through. -/
def owner (p page : Nat) : Owner :=
  if kernelBase (page / 512 / 512) then .kernel else .user p

/-- Where a call that found no free page goes on when its process is woken. -/
inductive Stage
  | pgdir
  | kernelStack
  | userStack (top : Nat)
  | tables
  deriving DecidableEq

inductive Task
  | user
  | touch (page : Nat)
  | copy (page : Nat)
  | clone (child : Nat) (stage : Stage)
  deriving DecidableEq

abbrev Kernel := EStateM Task Mem

namespace Mem

def put (m : Mem) (slot : Slot) (e : Pte) : Mem :=
  { m with entry := update m.entry slot (some e) }

def clear (m : Mem) (slot : Slot) : Mem :=
  { m with entry := update m.entry slot none }

/-- `kmemcpy` of a whole page, as `share_pgtable` does it. -/
def fillPage (m : Mem) (f : Nat) (content : Nat → Nat) : Mem :=
  { m with bytes := update m.bytes f content }

def setByte (m : Mem) (f offset value : Nat) : Mem :=
  m.fillPage f (update (m.bytes f) offset value)

/-- `share_num` is a `uint8_t`. -/
def shareAdd (m : Mem) (f : Nat) : Mem :=
  { m with shareNum := update m.shareNum f ((m.shareNum f + 1) % 256) }

def shareSub (m : Mem) (f : Nat) : Mem :=
  { m with shareNum := update m.shareNum f ((m.shareNum f + 255) % 256) }

def freePage (m : Mem) (f : Nat) : Mem :=
  if (m.shareNum f + 255) % 256 ≠ 0 then m.shareSub f
  else { m.shareSub f with free := f :: m.free, sourceNum := m.sourceNum + 1 }

end Mem

/-- Sleeps on `freePageManager.wait_list` when no page is free. -/
def allocPage (again : Task) : Kernel Nat := fun m =>
  match m.free with
  | [] => .error again m
  | f :: rest =>
    .ok f (({ m with free := rest, sourceNum := m.sourceNum - 1 }.shareAdd f).fillPage f
      fun _ => 0)

def checkPageSetFlag (again : Task) (slot : Slot) (write : Bool) : Kernel Nat := do
  match (← get).entry slot with
  | some e => return e.frame
  | none =>
    let f ← allocPage again
    modify (·.put slot ⟨f, write, false, false⟩)
    return f

/-- `alloc_page_helper` with `MAP_USER`. -/
def allocPageHelper (again : Task) (p page : Nat) : Kernel Nat := do
  let _ ← checkPageSetFlag again (.root (owner p page) (page / 512 / 512)) false
  let _ ← checkPageSetFlag again (.middle (owner p page) (page / 512)) false
  checkPageSetFlag again (.leaf (owner p page) page) true

/-- The walk of `get_PTE_of`, `get_kva_of` and the hardware. -/
def getPTEOf (m : Mem) (p page : Nat) : Option Pte :=
  (m.entry (.root (owner p page) (page / 512 / 512))).bind fun _ =>
    (m.entry (.middle (owner p page) (page / 512))).bind fun _ =>
      m.entry (.leaf (owner p page) page)

inductive Access
  | load
  | store
  deriving DecidableEq

/-- What `check_W_SD_and_set_AD` returns; `nothing` is its `-1`. -/
inductive Verdict
  | noAlloc
  | allocNoAD
  | noW
  | nothing
  deriving DecidableEq

/-- The part of `check_W_SD_and_set_AD` that looks at the leaf entry. -/
def checkLeaf (leaf : Slot) (mode : Access) (m : Mem) : Verdict × Mem :=
  match m.entry leaf with
  | none => (.noAlloc, m)
  | some e =>
    if e.write = false ∧ mode = .store then
      (.noW, m.put leaf { e with accessed := true, dirty := true })
    else if mode = .load ∧ e.accessed ∨ mode = .store ∧ (e.accessed ∨ e.dirty) then
      (.nothing, m)
    else
      (.allocNoAD, m.put leaf { e with accessed := true, dirty := e.dirty || mode == .store })

def checkMiddle (middle leaf : Slot) (mode : Access) (m : Mem) : Verdict × Mem :=
  match m.entry middle with
  | none => (.noAlloc, m)
  | some third => checkLeaf leaf mode (m.put middle { third with accessed := true })

def checkWSDAndSetAD (p page : Nat) (mode : Access) (m : Mem) : Verdict × Mem :=
  match m.entry (.root (owner p page) (page / 512 / 512)) with
  | none => (.noAlloc, m)
  | some second =>
    checkMiddle (.middle (owner p page) (page / 512)) (.leaf (owner p page) page) mode
      (m.put (.root (owner p page) (page / 512 / 512)) { second with accessed := true })

/-- The second half of `deal_no_W`, after its `share_sub`. -/
def copyPage (p page : Nat) (e : Pte) : Kernel Unit := do
  let f ← allocPage (.copy page)
  modify fun m => m.fillPage f (m.bytes e.frame)
  modify (·.put (.leaf (owner p page) page) { e with frame := f, write := true, dirty := true })

def dealNoW (p page : Nat) : Kernel Unit := do
  match getPTEOf (← get) p page with
  | none => return
  | some e =>
    if (← get).shareNum e.frame = 1 then
      modify (·.put (.leaf (owner p page) page) { e with write := true })
    else
      modify (·.shareSub e.frame)
      copyPage p page e

/-- Without a file mapping `load_lazy_mmap` finds nothing to read. -/
def dealNoAlloc (p page : Nat) : Kernel Unit := do
  let _ ← allocPageHelper (.touch page) p page

/-- `handle_page_fault_load` and `handle_page_fault_store`; the test of
`is_legal_addr` that only the former makes stands before the call. -/
def handlePageFault (p page : Nat) (mode : Access) : Kernel Unit := do
  let checked := checkWSDAndSetAD p page mode (← get)
  set checked.2
  match checked.1 with
  | .noAlloc => dealNoAlloc p page
  | .noW => dealNoW p page
  | .allocNoAD | .nothing => return

end CCore.Mm
