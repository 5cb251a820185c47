import Mathlib.Data.List.Nodup
import CCore.Mm.PageTable

/-!
# Swapping of pages

`clock_algorithm` of `swap.c` and the fault handlers of `irq.c`, `mm.c` and
`mmirq.c` with `status_ctx = 1`.  A last-level entry is named by its process and
page number, as the page-table routines keep them apart; of the two upper levels
only the presence of a table is kept, since a missing one costs a free page.  A
physical page is its number.  An `assert` that fails, a wait for a free page that
nobody frees and a search that does not end have no result.
-/
namespace CCore.Swap

open PageTable (Plain)
open Function

/-- A last-level entry. -/
structure Pte where
  pfn : Nat
  present : Bool
  write : Bool
  accessed : Bool
  dirty : Bool
  sd : Bool
  deriving DecidableEq

/-- Process and page number of an entry. -/
abbrev Slot := Nat × Nat

/-- The fields of a PCB that `is_legal_addr` reads; `dataVaddr` is the `p_vaddr`
of the second program header. -/
structure Pcb where
  edata : Nat
  elfEdata : Nat
  dataVaddr : Nat

structure Kernel where
  threshold : Nat
  pcb : Nat → Pcb
  free : List Nat
  second : Slot → Bool
  third : Slot → Bool
  leaf : Slot → Pte
  pagePte : Nat → Option Slot
  sdSec : Nat → Nat
  swapPageList : List Nat
  clockPointer : Option Nat
  swapOffset : Nat
  bytes : Nat → Nat → UInt8
  disk : Nat → Nat → UInt8

/-- Eight sectors from `sec` on. -/
def readPage (disk : Nat → Nat → UInt8) (sec : Nat) : Nat → UInt8 := fun x =>
  disk (sec + x / 512) (x % 512)

def writePage (disk : Nat → Nat → UInt8) (sec : Nat) (page : Nat → UInt8) :
    Nat → Nat → UInt8 := fun s x =>
  if sec ≤ s ∧ s < sec + 8 then page ((s - sec) * 512 + x) else disk s x

/-! ## Choosing a page -/

/-- The next page of the list; its head is passed over. -/
def nextNode (list : List Nat) (frame : Nat) : Nat :=
  list.getD ((list.idxOf frame + 1) % list.length) frame

/-- Writable, and neither accessed nor written. -/
def isUnused (k : Kernel) (page : Nat) : Bool :=
  match k.pagePte page with
  | none => false
  | some slot => !((k.leaf slot).accessed || (k.leaf slot).dirty) && (k.leaf slot).write

/-- The `do` loop of `find_swap_AD` from page `q` on. -/
def findSwapADFrom (k : Kernel) (entry : Nat) : Nat → Nat → Option (Option Nat)
  | 0, _ => none
  | fuel + 1, q =>
    if isUnused k q then some (some q)
    else if nextNode k.swapPageList q = entry then some none
    else findSwapADFrom k entry fuel (nextNode k.swapPageList q)

def findSwapAD (k : Kernel) (clockPointer : Nat) : Option (Option Nat) :=
  findSwapADFrom k clockPointer (k.swapPageList.length + 1) clockPointer

/-- The `do` loop of `find_swap_A` from page `q` on.  It compares `q` with the
page it has just left, so it ends without a page only on a list of one page. -/
def findSwapAFrom (list : List Nat) (pagePte : Nat → Option Slot) :
    Nat → Nat → (Slot → Pte) → Option (Option Nat × (Slot → Pte))
  | 0, _, _ => none
  | fuel + 1, q, leaf =>
    match pagePte q with
    | none =>
      if nextNode list q = q then some (none, leaf)
      else findSwapAFrom list pagePte fuel (nextNode list q) leaf
    | some slot =>
      if !(leaf slot).accessed && (leaf slot).write then some (some q, leaf)
      else
        let leaf := update leaf slot { leaf slot with accessed := false }
        if nextNode list q = q then some (none, leaf)
        else findSwapAFrom list pagePte fuel (nextNode list q) leaf

def findSwapA (k : Kernel) (clockPointer : Nat) : Option (Option Nat × Kernel) := do
  let (page, leaf) ← findSwapAFrom k.swapPageList k.pagePte (2 * k.swapPageList.length + 1)
    clockPointer k.leaf
  some (page, { k with leaf })

def findSwapPage (k : Kernel) (clockPointer : Nat) : Option (Nat × Kernel) := do
  match ← findSwapAD k clockPointer with
  | some page => some (page, k)
  | none =>
    let (page, k) ← findSwapA k clockPointer
    match page with
    | some page => some (page, k)
    | none =>
      match ← findSwapAD k clockPointer with
      | some page => some (page, k)
      | none =>
        let (page, k) ← findSwapA k clockPointer
        let page ← page
        some (page, k)

/-- `get_swap_sec` returns a `uint32_t`. -/
def getSwapSec (k : Kernel) : Nat × Kernel :=
  (k.swapOffset % 2 ^ 32, { k with swapOffset := k.swapOffset + 8 })

/-- Write a page out if its copy on the device is missing or old, and give the
sector of the copy. -/
def writeOut (k : Kernel) (page : Nat) (dirty : Bool) : Nat × Kernel :=
  if dirty then
    let (sec, k) := if k.sdSec page ≠ 0 then (k.sdSec page, k) else getSwapSec k
    (sec, { k with disk := writePage k.disk sec (k.bytes page) })
  else if k.sdSec page = 0 then
    let (sec, k) := getSwapSec k
    (sec, { k with disk := writePage k.disk sec (k.bytes page) })
  else (k.sdSec page, k)

def clockAlgorithm (k : Kernel) : Option (Nat × Kernel) := do
  let first ← k.swapPageList.head?
  let (page, k) ← findSwapPage k (k.clockPointer.getD first)
  let slot ← k.pagePte page
  let (sec, k) := writeOut { k with clockPointer := some (nextNode k.swapPageList page) } page
    (k.leaf slot).dirty
  some (page, { k with
    leaf := update k.leaf slot
      { k.leaf slot with pfn := sec, present := false, sd := true } })

def allocPage (k : Kernel) : Option (Nat × Kernel) :=
  match k.free with
  | [] => none
  | page :: rest => some (page, { k with free := rest, bytes := update k.bytes page fun _ => 0 })

/-- The two upper levels of the mapping routines. -/
def checkTables (k : Kernel) (slot : Slot) : Option Kernel := do
  let top : Slot := (slot.1, slot.2 / 512 / 512)
  let middle : Slot := (slot.1, slot.2 / 512)
  let k ←
    if k.second top then some k
    else do
      let (_, k) ← allocPage k
      some { k with second := update k.second top true }
  if k.third middle then some k
  else do
    let (_, k) ← allocPage k
    some { k with third := update k.third middle true }

/-- `set_pfn` and `set_attribute` with the flags of `MAP_USER`, and the back
pointer and `sd_sec` of the page. -/
def setMapped (k : Kernel) (slot : Slot) (page : Nat) : Kernel :=
  { k with
    leaf := update k.leaf slot ⟨page, true, true, false, false, false⟩
    pagePte := update k.pagePte page (some slot)
    sdSec := update k.sdSec page 0 }

def allocPagePointPhyc (k : Kernel) (slot : Slot) (page : Nat) : Option Kernel := do
  let k ← checkTables k slot
  some (setMapped k slot page)

def allocPageHelper (k : Kernel) (slot : Slot) : Option (Nat × Kernel) := do
  let k ← checkTables k slot
  if (k.leaf slot).present then
    let page := (k.leaf slot).pfn
    some (page, { k with
      pagePte := update k.pagePte page (some slot)
      sdSec := update k.sdSec page 0 })
  else do
    let (page, k) ← allocPage k
    some (page, setMapped k slot page)

inductive Mode
  | load
  | store
  deriving DecidableEq

inductive Check
  | allocNoAD
  | inSD
  | inSDNoW
  | noW
  | noAlloc
  | nothing

def setAD (e : Pte) (mode : Mode) : Pte :=
  { e with accessed := true, dirty := e.dirty || mode == .store }

def checkWSDAndSetAD (k : Kernel) (slot : Slot) (mode : Mode) : Check × Kernel :=
  let e := k.leaf slot
  let put (e : Pte) : Kernel := { k with leaf := update k.leaf slot e }
  if !k.second (slot.1, slot.2 / 512 / 512) || !k.third (slot.1, slot.2 / 512) then
    (.noAlloc, k)
  else if e.sd then
    let k := put { setAD e mode with present := true }
    if !e.write && mode == .store then (.inSDNoW, k) else (.inSD, k)
  else if e.present then
    if !e.write && mode == .store then (.noW, put (setAD e mode))
    else if (mode == .load && e.accessed) || (mode == .store && (e.accessed || e.dirty)) then
      (.nothing, k)
    else (.allocNoAD, put (setAD e mode))
  else (.noAlloc, k)

def dealInSD (k : Kernel) (slot : Slot) : Option Kernel := do
  let sec := (k.leaf slot).pfn
  let (page, k) ← if k.free.length < k.threshold then clockAlgorithm k else allocPage k
  let k := { k with bytes := update k.bytes page (readPage k.disk sec) }
  let k ← allocPagePointPhyc k slot page
  some { k with sdSec := update k.sdSec page sec }

/-- `add_attribute` of the entry the page points back to. -/
def addAttribute (k : Kernel) (page : Nat) (mode : Mode) : Option Kernel := do
  let slot ← k.pagePte page
  let e := k.leaf slot
  let e :=
    match mode with
    | .store => { e with dirty := true }
    | .load => { e with accessed := true }
  some { k with leaf := update k.leaf slot e }

def dealNoAlloc (k : Kernel) (slot : Slot) (mode : Mode) : Option Kernel := do
  if k.free.length < k.threshold then
    let (page, k) ← clockAlgorithm k
    let k := { k with bytes := update k.bytes page fun _ => 0 }
    let k ← allocPagePointPhyc k slot page
    addAttribute k page mode
  else
    let (page, k) ← allocPageHelper k slot
    addAttribute { k with swapPageList := k.swapPageList ++ [page] } page mode

def isLegalAddr (pcb : Pcb) (addr : Nat) : Bool :=
  (decide (addr < pcb.edata) && decide (addr > pcb.elfEdata)) ||
    decide (addr ≥ pcb.dataVaddr) || decide (addr &&& 0xf00000000 ≠ 0)

/-- `handle_page_fault_load` and `handle_page_fault_store`.  An entry loses
`_PAGE_WRITE` in `copy_on_write` only, so a process that takes part in no
`do_clone` never comes to `deal_no_W`, which is not modelled. -/
def handlePageFault (k : Kernel) (p addr : Nat) (mode : Mode) : Option Kernel :=
  let slot : Slot := (p, addr / 4096)
  match checkWSDAndSetAD k slot mode with
  | (.allocNoAD, k) => some k
  | (.nothing, k) => some k
  | (.inSD, k) => dealInSD k slot
  | (.inSDNoW, _) => none
  | (.noW, _) => none
  | (.noAlloc, k) =>
    if mode = .load ∧ isLegalAddr (k.pcb p) addr = false then none
    else dealNoAlloc k slot mode

inductive Access
  | load (p addr : Nat)
  | store (p addr : Nat) (value : UInt8)

/-- `last` is not part of the machine: the last value stored at an address.
`result` is the register a load fills. -/
structure System where
  kernel : Kernel
  last : Nat → Nat → UInt8
  result : UInt8

/-- Make the page of an address present, by a page fault if need be, and let the
hardware set the A and D bits of the access.  The leaves of the boot map are not
accessible in user mode, so an access there faults for ever. -/
def reach (k : Kernel) (p addr : Nat) (mode : Mode) : Option Kernel := do
  if Plain addr then
    let slot : Slot := (p, addr / 4096)
    let k ← if (k.leaf slot).present then some k else handlePageFault k p addr mode
    let e := k.leaf slot
    if e.present then some { k with leaf := update k.leaf slot (setAD e mode) }
    else none
  else none

def putByte (k : Kernel) (page offset : Nat) (value : UInt8) : Kernel :=
  { k with
    bytes := update k.bytes page (update (k.bytes page) offset value) }

def accessStep (s : System) : Access → Option System
  | .load p addr => do
    let k ← reach s.kernel p addr .load
    let page := (k.leaf (p, addr / 4096)).pfn
    some { s with kernel := k, result := k.bytes page (addr % 4096) }
  | .store p addr value => do
    let k ← reach s.kernel p addr .store
    let page := (k.leaf (p, addr / 4096)).pfn
    some
      { s with
        kernel := putByte k page (addr % 4096) value
        last := update s.last p (update (s.last p) addr value) }

end CCore.Swap
