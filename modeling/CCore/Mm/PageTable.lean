import Mathlib.Data.Nat.Bitwise

/-!
# The three-level page table as words in memory

`check_page_set_flag`, `alloc_page_helper`, `alloc_page_point_phyc` and
`free_page_helper` of `mm.c` and the look-ups `get_kva_of` and `get_PTE_of` of
`pgtable.h`, on the 64-bit words of the table pages.  A user table starts as the
copy of the kernel's page directory that `share_pgtable` makes, so its root slot 2
leads to the table in which `setup_vm` stored the 2 MiB leaves of the boot map.
The pages that `allocPage` hands out during a call are an argument of the call.
-/
namespace CCore.PageTable

open Function Nat

/-- The word at an index of the page at a kernel address. -/
abbrev Words := Nat → Nat → Nat

def setWord (w : Words) (page index value : Nat) : Words :=
  update w page (update (w page) index value)

def clearPgdir (w : Words) (page : Nat) : Words :=
  update w page fun _ => 0

def pagePresent : Nat := 1 <<< 0
def pageRead : Nat := 1 <<< 1
def pageWrite : Nat := 1 <<< 2
def pageExec : Nat := 1 <<< 3
def pageUser : Nat := 1 <<< 4
def pageAccessed : Nat := 1 <<< 6
def pageDirty : Nat := 1 <<< 7

def kva2pa (kva : Nat) : Nat := kva &&& 0xffffffff

def pa2kva (pa : Nat) : Nat := (pa &&& 0xffffffff) ||| 0xffffffc000000000

def getPfn (entry : Nat) : Nat := (entry &&& 0x3fffffffffffff) >>> 10

def setPfn (entry pfn : Nat) : Nat :=
  (entry &&& 0x3ff) ||| (pfn <<< 10) % 2 ^ 64

def setAttribute (entry bits : Nat) : Nat :=
  (entry &&& 0xfffffffffffffc00) ||| bits

def vpn0 (va : Nat) : Nat := (va >>> 12) &&& 0x1ff
def vpn1 (va : Nat) : Nat := (va >>> 21) &&& 0x1ff
def vpn2 (va : Nat) : Nat := (va >>> 30) &&& 0x1ff

/-- The page an entry points to, `pa2kva(get_pfn(entry) << NORMAL_PAGE_SHIFT)`. -/
def target (entry : Nat) : Nat := pa2kva (getPfn entry <<< 12)

inductive Mode
  | mapKernel
  | mapUser
  deriving DecidableEq

def leafFlags (mode : Mode) : Nat :=
  pagePresent ||| pageRead ||| pageWrite ||| pageExec |||
    (if mode = .mapKernel then pageAccessed ||| pageDirty else pageUser)

/-- The words of memory and the pages `allocPage` returns next. -/
structure Store where
  words : Words
  supply : List Nat

def checkPageSetFlag (s : Store) (page vpn flag : Nat) : Option (Nat × Store) :=
  if s.words page vpn &&& pagePresent ≠ 0 then
    some (target (s.words page vpn), s)
  else
    match s.supply with
    | [] => none
    | newpage :: rest =>
      let w := clearPgdir s.words newpage
      let entry := setAttribute (setPfn (w page vpn) (kva2pa newpage >>> 12)) flag
      some (newpage, ⟨setWord w page vpn entry, rest⟩)

def allocPageHelper (s : Store) (va pgdir : Nat) (mode : Mode) : Option (Nat × Store) := do
  let (secondPage, s) ← checkPageSetFlag s pgdir (vpn2 va) pagePresent
  let (thirdPage, s) ← checkPageSetFlag s secondPage (vpn1 va) pagePresent
  let (final, s) ← checkPageSetFlag s thirdPage (vpn0 va) (leafFlags mode)
  some (final ||| (va &&& 0xfff), s)

/-- The result is the slot that was written. -/
def allocPagePointPhyc (s : Store) (va pgdir kva : Nat) (mode : Mode) :
    Option ((Nat × Nat) × Store) := do
  let (secondPage, s) ← checkPageSetFlag s pgdir (vpn2 va) pagePresent
  let (thirdPage, s) ← checkPageSetFlag s secondPage (vpn1 va) pagePresent
  let entry := setAttribute (setPfn (s.words thirdPage (vpn0 va)) (kva2pa kva >>> 12))
    (leafFlags mode)
  some ((thirdPage, vpn0 va), ⟨setWord s.words thirdPage (vpn0 va) entry, s.supply⟩)

/-- The two tests of the source read `entry & (_PAGE_PRESENT == 0)`, so neither
returns.  What `freePage` does to the page manager is not part of the words. -/
def freePageHelper (w : Words) (va pgdir : Nat) : Words :=
  let secondPage := target (w pgdir (vpn2 va))
  let thirdPage := target (w secondPage (vpn1 va))
  setWord w thirdPage (vpn0 va) 0

/-- The slot of the third-level table that the look-ups of `pgtable.h` read,
unless an entry above it is null. -/
def lastSlot (w : Words) (va pgdir : Nat) : Option (Nat × Nat) :=
  if w pgdir (vpn2 va) = 0 then none
  else
    let secondPage := target (w pgdir (vpn2 va))
    if w secondPage (vpn1 va) = 0 then none
    else some (target (w secondPage (vpn1 va)), vpn0 va)

def getKvaOf (w : Words) (va pgdir : Nat) : Nat :=
  if va &&& 0xffffffc000000000 ≠ 0 then va
  else
    match lastSlot w va pgdir with
    | none => 0
    | some (page, index) =>
      if w page index = 0 then 0
      else pa2kva ((getPfn (w page index) <<< 12) ||| (va &&& 0xfff))

def getPTEOf (w : Words) (va pgdir : Nat) : Option (Nat × Nat) :=
  match lastSlot w va pgdir with
  | none => none
  | some (page, index) =>
    if w page index = 0 ∨ w page index &&& pagePresent = 0 then none
    else some (page, index)

/-! ## Operations on one user table -/

/-- `PGDIR_PA` and the third page that `alloc_page` of `boot.c` hands out, which
`setup_vm` uses for the boot map. -/
def kernelPgdir : Nat := 0xffffffc080208000
def bootTable : Nat := 0xffffffc08020a000

/-- The page-aligned addresses of the window in which `pa2kva` and `kva2pa` are
inverse to each other; every page of `pageRecyc` is one of them. -/
def KernelPage (page : Nat) : Prop := pa2kva (kva2pa page >>> 12 <<< 12) = page

instance (page : Nat) : Decidable (KernelPage page) :=
  inferInstanceAs (Decidable (_ = _))

def Pointer (entry : Nat) : Prop :=
  entry ≠ 0 ∧ entry &&& (pageRead ||| pageWrite ||| pageExec) = 0

instance (entry : Nat) : Decidable (Pointer entry) := inferInstanceAs (Decidable (_ ∧ _))

def TablePage (w : Words) (pgdir page : Nat) : Prop :=
  page = pgdir ∨ ∃ i < 512, Pointer (w pgdir i) ∧
    (page = target (w pgdir i) ∨ ∃ j < 512, Pointer (w (target (w pgdir i)) j) ∧
      page = target (w (target (w pgdir i)) j))

instance (w : Words) (pgdir page : Nat) : Decidable (TablePage w pgdir page) :=
  inferInstanceAs (Decidable (_ ∨ _))

/-- What `setup_vm` leaves in the lower half of the kernel's page directory:
`map_page(pa, pa)` for every 2 MiB from `BOOT_KERNEL` up to `BOOT_KERNEL_END`. -/
def bootEntry (index : Nat) : Nat :=
  if 1 ≤ index ∧ index ≤ 5 then
    setAttribute (setPfn 0 ((0x80000000 + index * 0x200000) >>> 12))
      (pagePresent ||| pageRead ||| pageWrite ||| pageExec ||| pageAccessed ||| pageDirty)
  else 0

/-- The early tables: `alloc_page` of `boot.c` hands out the physical page above
`pgBase`, and `map_page` stores a 2 MiB leaf. -/
structure Early where
  words : Words
  pgBase : Nat

def mapPage (b : Early) (va pa : Nat) : Early :=
  let va := va &&& 0x7fffffffff
  let slot := va >>> 30
  let index := (slot <<< 9) ^^^ (va >>> 21)
  let b : Early :=
    if b.words kernelPgdir slot = 0 then
      let newpage := b.pgBase + 0x1000
      let entry := setAttribute (setPfn (b.words kernelPgdir slot) (newpage >>> 12)) pagePresent
      ⟨clearPgdir (setWord b.words kernelPgdir slot entry) (pa2kva newpage), newpage⟩
    else b
  let pmd := target (b.words kernelPgdir slot)
  let entry := setAttribute (setPfn (b.words pmd index) (pa >>> 12))
    (pagePresent ||| pageRead ||| pageWrite ||| pageExec ||| pageAccessed ||| pageDirty)
  ⟨setWord b.words pmd index entry, b.pgBase⟩

/-- `setup_vm`: the kernel, the disk image and the boot map, 2 MiB at a time. -/
def setupVm (w : Words) : Early :=
  let b : Early := ⟨clearPgdir w kernelPgdir, kva2pa kernelPgdir⟩
  let b := (List.range 5).foldl
    (fun b k => mapPage b (0xffffffc080200000 + k * 0x200000) (0x80200000 + k * 0x200000)) b
  let b := (List.range 32).foldl
    (fun b k => mapPage b (0xffffffc084200000 + k * 0x200000) (0x84200000 + k * 0x200000)) b
  (List.range 5).foldl
    (fun b k => mapPage b (0x80200000 + k * 0x200000) (0x80200000 + k * 0x200000)) b

structure BootMap (w : Words) : Prop where
  root : ∀ i < 256, w kernelPgdir i =
    if i = 2 then setAttribute (setPfn 0 (kva2pa bootTable >>> 12)) pagePresent else 0
  leaves : ∀ j < 512, w bootTable j = bootEntry j

/-- User addresses outside the 2 MiB leaves of the boot map. -/
def Plain (va : Nat) : Prop := va < 2 ^ 38 ∧ ¬ (0x80200000 ≤ va ∧ va < 0x80c00000)

instance (va : Nat) : Decidable (Plain va) := inferInstanceAs (Decidable (_ ∧ _))

theorem Plain.word {va : Nat} (plain : Plain va) : va % 2 ^ 64 = va := by
  have bound := plain.1
  omega

/-- `recorded` is not part of the program: the kernel page that the last
operation on a page recorded for it. -/
structure MapState where
  words : Words
  recorded : Nat → Option Nat

inductive MapAct
  | allocPageHelper (va : Nat) (mode : Mode) (supply : List Nat)
  | allocPagePointPhyc (va kva : Nat) (mode : Mode) (supply : List Nat)
  | freePageHelper (va : Nat)

def MapAct.va : MapAct → Nat
  | .allocPageHelper va _ _ => va
  | .allocPagePointPhyc va _ _ _ => va
  | .freePageHelper va => va

def mapStep (pgdir : Nat) (s : MapState) : MapAct → Option MapState
  | .allocPageHelper va mode supply => do
    let (result, store) ← allocPageHelper ⟨s.words, supply⟩ va pgdir mode
    some ⟨store.words, update s.recorded (va / 4096) (some (result / 4096 * 4096))⟩
  | .allocPagePointPhyc va kva mode supply => do
    let (_, store) ← allocPagePointPhyc ⟨s.words, supply⟩ va pgdir kva mode
    some ⟨store.words, update s.recorded (va / 4096) (some kva)⟩
  | .freePageHelper va => some ⟨freePageHelper s.words va pgdir, update s.recorded (va / 4096) none⟩

/-- The pages handed out in one call are neither table pages before it nor, when
they become tables, handed out again by it. -/
def FreshSupply (w : Words) (pgdir : Nat) (supply : List Nat) : Prop :=
  supply.Nodup ∧ ∀ page ∈ supply, KernelPage page ∧ ¬ TablePage w pgdir page

instance (w : Words) (pgdir : Nat) (supply : List Nat) :
    Decidable (FreshSupply w pgdir supply) := inferInstanceAs (Decidable (_ ∧ _))

def MapAct.Fits (pgdir : Nat) (s : MapState) : MapAct → Prop
  | .allocPageHelper va _ supply => Plain va ∧ FreshSupply s.words pgdir supply
  | .allocPagePointPhyc va kva _ supply =>
    Plain va ∧ KernelPage kva ∧ FreshSupply s.words pgdir supply
  | .freePageHelper va => Plain va ∧ s.recorded (va / 4096) ≠ none

instance (pgdir : Nat) (s : MapState) (act : MapAct) : Decidable (act.Fits pgdir s) :=
  match act with
  | .allocPageHelper .. | .allocPagePointPhyc .. | .freePageHelper _ =>
    inferInstanceAs (Decidable (_ ∧ _))

/-- A new user table: `share_pgtable` copies the kernel's page directory. -/
def sharePgtable (w : Words) (pgdir : Nat) : MapState :=
  ⟨update w pgdir (w kernelPgdir), fun _ => none⟩

/-- `get_kva_of` gives the recorded page with the offset, or null, and
`get_PTE_of` the slot it reads. -/
def TranslatesAt (pgdir : Nat) (s : MapState) (va : Nat) : Prop :=
  match s.recorded (va / 4096) with
  | none => getKvaOf s.words va pgdir = 0 ∧ getPTEOf s.words va pgdir = none
  | some base => getKvaOf s.words va pgdir = base + va % 4096 ∧ (lastSlot s.words va pgdir).isSome ∧
      getPTEOf s.words va pgdir = lastSlot s.words va pgdir

def Translates (pgdir : Nat) (s : MapState) : Prop :=
  ∀ va, Plain va → TranslatesAt pgdir s va

/-- The operation changed the translation of no page but its own. -/
def OthersKept (pgdir : Nat) (s : MapState) (act : MapAct) (next : MapState) : Prop :=
  ∀ va, Plain va → va / 4096 ≠ act.va / 4096 →
    getKvaOf next.words va pgdir = getKvaOf s.words va pgdir

/-! ## Encoding of entries -/

theorem and_mask (n bits : Nat) : n &&& (2 ^ bits - 1) = n % 2 ^ bits :=
  and_two_pow_sub_one_eq_mod n bits

theorem vpn0_eq (va : Nat) : vpn0 va = va / 4096 % 512 := by
  rw [vpn0, shiftRight_eq_div_pow]
  exact and_mask _ 9

theorem vpn1_eq (va : Nat) : vpn1 va = va / 2097152 % 512 := by
  rw [vpn1, shiftRight_eq_div_pow]
  exact and_mask _ 9

theorem vpn2_eq (va : Nat) : vpn2 va = va / 1073741824 % 512 := by
  rw [vpn2, shiftRight_eq_div_pow]
  exact and_mask _ 9

theorem kva2pa_eq (kva : Nat) : kva2pa kva = kva % 2 ^ 32 := and_mask kva 32

theorem pa2kva_eq (pa : Nat) : pa2kva pa = 0xffffffc000000000 + pa % 2 ^ 32 := by
  have small : pa % 2 ^ 32 < 2 ^ 38 := by omega
  have split := shiftLeft_add_eq_or_of_lt small 0x3ffffff
  rw [pa2kva, show (0xffffffff : Nat) = 2 ^ 32 - 1 from rfl, and_mask, Nat.or_comm]
  exact split.symm

theorem kernelPage_iff (page : Nat) :
    KernelPage page ↔ ∃ frame < 2 ^ 20, page = 0xffffffc000000000 + frame * 4096 := by
  rw [KernelPage, kva2pa_eq, pa2kva_eq, shiftRight_eq_div_pow, shiftLeft_eq]
  constructor
  · intro aligned
    exact ⟨page % 2 ^ 32 / 2 ^ 12, by omega, by omega⟩
  · rintro ⟨frame, bound, rfl⟩
    omega

def pte (page flags : Nat) : Nat := setAttribute (setPfn 0 (kva2pa page >>> 12)) flags

theorem setPfn_eq (entry pfn : Nat) (bound : pfn < 2 ^ 20) :
    setPfn entry pfn = pfn * 1024 + entry % 1024 := by
  have low : entry % 2 ^ 10 < 2 ^ 10 := mod_lt _ (by decide)
  have shifted : (pfn <<< 10) % 2 ^ 64 = pfn <<< 10 := by
    rw [shiftLeft_eq]
    omega
  rw [setPfn, shifted, show (0x3ff : Nat) = 2 ^ 10 - 1 from rfl, and_mask, Nat.or_comm,
    ← shiftLeft_add_eq_or_of_lt low, shiftLeft_eq]
  rfl

theorem setAttribute_eq (entry bits : Nat) (word : entry < 2 ^ 64) (small : bits < 2 ^ 10) :
    setAttribute entry bits = entry / 1024 * 1024 + bits := by
  have high : entry &&& 0xfffffffffffffc00 = (entry / 2 ^ 10) <<< 10 := by
    apply eq_of_testBit_eq
    intro i
    rw [testBit_and, testBit_shiftLeft, testBit_div_two_pow,
      show (0xfffffffffffffc00 : Nat) = (2 ^ 54 - 1) <<< 10 from rfl, testBit_shiftLeft,
      testBit_two_pow_sub_one]
    rcases Nat.lt_or_ge i 10 with below | above
    · simp [Nat.not_le.mpr below]
    · rcases Nat.lt_or_ge i 64 with inside | outside
      · have inside' : i - 10 < 54 := by omega
        simp [above, inside', Nat.sub_add_cancel above]
      · have zero : entry.testBit i = false :=
          testBit_lt_two_pow (Nat.lt_of_lt_of_le word (Nat.pow_le_pow_right (by decide) outside))
        simp [zero, Nat.sub_add_cancel above]
  rw [setAttribute, high, ← shiftLeft_add_eq_or_of_lt small, shiftLeft_eq]
  rfl

theorem leafFlags_lt (mode : Mode) : leafFlags mode < 2 ^ 10 := by cases mode <;> decide

theorem leafFlags_odd (mode : Mode) : leafFlags mode % 2 = 1 := by cases mode <;> decide

theorem frame_lt (page : Nat) : kva2pa page >>> 12 < 2 ^ 20 := by
  rw [kva2pa_eq, shiftRight_eq_div_pow]
  omega

theorem set_entry_eq (entry page flags : Nat) (small : flags < 2 ^ 10) :
    setAttribute (setPfn entry (kva2pa page >>> 12)) flags = pte page flags := by
  have bound := frame_lt page
  rw [pte, setPfn_eq _ _ bound, setPfn_eq _ _ bound, setAttribute_eq _ _ (by omega) small,
    setAttribute_eq _ _ (by omega) small]
  omega

theorem pte_eq (page flags : Nat) (small : flags < 2 ^ 10) :
    pte page flags = (kva2pa page >>> 12) * 1024 + flags := by
  have bound := frame_lt page
  rw [pte, setPfn_eq _ _ bound, setAttribute_eq _ _ (by omega) small]
  omega

theorem getPfn_pte (page flags : Nat) (small : flags < 2 ^ 10) :
    getPfn (pte page flags) = kva2pa page >>> 12 := by
  have bound := frame_lt page
  rw [pte_eq page flags small, getPfn, show (0x3fffffffffffff : Nat) = 2 ^ 54 - 1 from rfl,
    and_mask, shiftRight_eq_div_pow]
  omega

theorem target_pte (page flags : Nat) (small : flags < 2 ^ 10) (aligned : KernelPage page) :
    target (pte page flags) = page := by
  rw [target, getPfn_pte page flags small]
  exact aligned

theorem present_pte (page flags : Nat) (small : flags < 2 ^ 10) (odd : flags % 2 = 1) :
    pte page flags &&& pagePresent = 1 := by
  rw [pte_eq page flags small]
  have parity : ((kva2pa page >>> 12) * 1024 + flags) % 2 = 1 := by omega
  exact (and_one_is_mod _).trans parity

theorem pte_ne_zero (page flags : Nat) (small : flags < 2 ^ 10) (odd : flags % 2 = 1) :
    pte page flags ≠ 0 := by
  rw [pte_eq page flags small]
  omega

theorem pointer_pte (page : Nat) : Pointer (pte page pagePresent) := by
  refine ⟨pte_ne_zero page pagePresent (by decide) (by decide), ?_⟩
  have value : pte page pagePresent = (kva2pa page >>> 12) <<< 10 ||| 1 := by
    rw [pte_eq page pagePresent (by decide), ← shiftLeft_add_eq_or_of_lt (by decide), shiftLeft_eq]
    rfl
  rw [value, and_or_distrib_right]
  have clear : (kva2pa page >>> 12) <<< 10 &&& (pageRead ||| pageWrite ||| pageExec) = 0 := by
    apply eq_of_testBit_eq
    intro i
    rw [testBit_and, testBit_shiftLeft, zero_testBit,
      show pageRead ||| pageWrite ||| pageExec = 14 from rfl]
    rcases Nat.lt_or_ge i 10 with below | above
    · simp [Nat.not_le.mpr below]
    · have zero : (14 : Nat).testBit i = false :=
        testBit_lt_two_pow (Nat.lt_of_lt_of_le (by decide : 14 < 2 ^ 10)
          (Nat.pow_le_pow_right (by decide) above))
      simp [zero]
  rw [clear]
  rfl

theorem pa2kva_offset (page va flags : Nat) (small : flags < 2 ^ 10) (aligned : KernelPage page) :
    pa2kva ((getPfn (pte page flags) <<< 12) ||| (va &&& 0xfff)) = page + va % 4096 := by
  have low : va % 2 ^ 12 < 2 ^ 12 := mod_lt _ (by decide)
  obtain ⟨frame, bound, shape⟩ := (kernelPage_iff page).mp aligned
  have pfn : kva2pa page >>> 12 = frame := by
    rw [kva2pa_eq, shiftRight_eq_div_pow]
    omega
  rw [getPfn_pte page flags small, pfn, show (0xfff : Nat) = 2 ^ 12 - 1 from rfl, and_mask,
    ← shiftLeft_add_eq_or_of_lt low, pa2kva_eq, shiftLeft_eq]
  omega

theorem or_offset (page va : Nat) (aligned : KernelPage page) :
    page ||| (va &&& 0xfff) = page + va % 4096 := by
  have low : va % 2 ^ 12 < 2 ^ 12 := mod_lt _ (by decide)
  obtain ⟨frame, bound, shape⟩ := (kernelPage_iff page).mp aligned
  have shifted : page = (0xffffffc000000 + frame) <<< 12 := by
    rw [shiftLeft_eq]
    omega
  rw [show (0xfff : Nat) = 2 ^ 12 - 1 from rfl, and_mask]
  nth_rewrite 1 [shifted]
  rw [← shiftLeft_add_eq_or_of_lt low, ← shifted]
  rfl

theorem page_of_result (page va : Nat) (aligned : KernelPage page) :
    (page ||| (va &&& 0xfff)) / 4096 * 4096 = page := by
  obtain ⟨frame, bound, shape⟩ := (kernelPage_iff page).mp aligned
  rw [or_offset page va aligned]
  omega

end CCore.PageTable
