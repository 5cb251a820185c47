import CCore.Fat.Cursor
import CCore.Fs.Through
import CCore.Mm.Break

/-!
# The first fault in a file mapping (`load_lazy_mmap`)

`fat32_mmap` only records the mapping in the descriptor.  The first fault in one of
its pages takes a page in `deal_no_alloc`, and `load_lazy_mmap` then reads the file
into it through the descriptor: it saves the offset, seeks, reads to the kernel
address of the page and seeks back.  The bytes are right exactly when the fault
address is the first one of the page, or there is nothing to read; `lazy_mmap_iff`
has the exact condition.
-/
namespace CCore.LazyMmap

open Fs Fat Sleep Function List Option Nat Mm Volume

/-- The fields of `mmap` that the fault handler reads. -/
structure Mmap where
  start : Nat
  len : Nat
  off : Nat

/-- `low` is the memory in front of `FREEMEM`, by address. -/
structure State where
  mem : Mm.Mem
  low : Nat → Nat
  fds : FdState
  mmap : Fs.Slot → Mmap
  testName : String

def freemem : Nat := 0xffffffc080302000

/-- The kernel address of a page of `pageRecyc`. -/
def kvaOf (f : Nat) : Nat := freemem + 4096 * f

/-- A 64-bit word that is kept in an `int` and widened again. -/
def throughInt (n : Nat) : Nat :=
  if n % 2 ^ 32 < 2 ^ 31 then n % 2 ^ 32 else n % 2 ^ 32 + (2 ^ 64 - 2 ^ 32)

/-- A byte of the memory after `bytes` have been copied to `dest`. -/
def copied (dest : Nat) (bytes : List UInt8) (a old : Nat) : Nat :=
  if dest ≤ a ∧ a < dest + bytes.length then (bytes.getD (a - dest) 0).toNat else old

def State.kmemcpy (s : State) (dest : Nat) (bytes : List UInt8) : State :=
  { s with
    low := fun a => if a < freemem then copied dest bytes a (s.low a) else s.low a
    mem := { s.mem with
      bytes := fun f o =>
        if o < 4096 then copied dest bytes (kvaOf f + o) (s.mem.bytes f o)
        else s.mem.bytes f o } }

namespace Mmap

variable (m : Mmap) (fault kva : Nat)

/-- `mmap_end - fault_addr`; the length is kept in an `int`. -/
def left : Nat := u64 (u64 (m.start + throughInt m.len) + 2 ^ 64 - fault)

def beginOf : Nat :=
  if fault % 4096 ≠ 0 then
    if fault - m.start > fault % 4096 then kva else kva - (fault - m.start)
  else kva

def endOf : Nat :=
  if fault % 4096 ≠ 0 then
    if m.left fault > 4096 - fault % 4096 then kva else kva + m.left fault
  else kva + min (m.left fault) 4096

end Mmap

def oldSeek : IoResult → Nat
  | .returned value _ _ => throughInt (value % 2 ^ 32).toNat
  | .blocked => 0

/-- The loop of `load_lazy_mmap` at slot `i`; `none` does not return. -/
def loadSlot (p fault kva : Nat) (s : State) (i : Fs.Slot) : Option State :=
  let nfd := s.fds.pfd i
  let m := s.mmap i
  if nfd.inUse ∧ nfd.mmapUsed = true ∧ m.start ≤ fault ∧ fault ≤ u64 (m.len + m.start) then do
    let (seek, fds) ← through s.fds p nfd.fdNum (.lseek 0 .seekCur)
    let (_, fds) ← through fds p nfd.fdNum (.lseek (u64 (m.off + (fault - m.start))) .seekSet)
    let (read, fds) ← through fds p nfd.fdNum
      (.read (u64 (m.endOf fault kva + 2 ^ 64 - m.beginOf fault kva)))
    match read.result with
    | .blocked => none
    | .returned _ place bytes => do
      let (_, fds) ← through fds p nfd.fdNum (.lseek (oldSeek seek.result) .seekSet)
      some ({ s with fds := fds }.kmemcpy (m.beginOf fault kva + place) bytes)
  else some s

def loadLazyMmap (p fault kva : Nat) (s : State) : Option State :=
  if s.testName = "lat_pagefault" then some s
  else (List.finRange maxFdNum).foldlM (loadSlot p fault kva) s

inductive Outcome
  | done (f : Nat) (s : State)
  | asleep (s : State)

/-- `deal_no_alloc` with `status_ctx = 0`. -/
def dealNoAlloc (s : State) (p fault : Nat) : Option Outcome :=
  match Mm.allocPageHelper (.touch (fault / 4096)) p (fault / 4096) s.mem with
  | .ok f m => (loadLazyMmap p fault (kvaOf f) { s with mem := m }).map (.done f)
  | .error _ m => some (.asleep { s with mem := m })

/-! ## What the fault should do -/

def State.byteAt (s : State) (a : Nat) : Nat :=
  if a < freemem then s.low a else s.mem.bytes ((a - freemem) / 4096) ((a - freemem) % 4096)

def State.withDisk (s : State) (d : Disk) : State :=
  { s with fds := { s.fds with world := { s.fds.world with disk := d } } }

/-- What belongs at the user address `a` of the mapping of slot `i`. -/
def wanted (vol : Volume) (chain : List Nat) (s : State) (i : Fs.Slot) (a : Nat) : Nat :=
  if a < (s.mmap i).start + (s.mmap i).len then
    ((vol.contents s.fds.world.disk chain (s.fds.pfd i).length).getD
      ((s.mmap i).off + (a - (s.mmap i).start)) 0).toNat
  else 0

/-- Page `f` holds what belongs there, and nothing else has changed since it was
taken; `m` is the memory that `alloc_page_helper` leaves. -/
structure Filled (vol : Volume) (chain : List Nat) (s : State) (m : Mm.Mem) (i : Fs.Slot)
    (fault f : Nat) (final : State) : Prop where
  page : ∀ k, k < 4096 →
    final.byteAt (kvaOf f + k) = wanted vol chain s i (4096 * (fault / 4096) + k)
  others : ∀ a, a < kvaOf f ∨ kvaOf f + 4096 ≤ a → final.byteAt a = { s with mem := m }.byteAt a
  used : ∀ g, g ∉ s.mem.free → m.bytes g = s.mem.bytes g
  offset : (final.fds.pfd i).pos = (s.fds.pfd i).pos

def LoadsRight (vol : Volume) (chain : List Nat) (s : State) (p : Nat) (i : Fs.Slot)
    (fault : Nat) : Prop :=
  ∃ f m final, Mm.allocPageHelper (.touch (fault / 4096)) p (fault / 4096) s.mem = .ok f m ∧
      dealNoAlloc s p fault = some (.done f final) ∧ Filled vol chain s m i fault f final

/-- A regular file and where its descriptor finds it. -/
structure RegularFile (vol : Volume) (d : Disk) (eoc : Nat) (chain : List Nat) (nfd : Fd) :
    Prop where
  chainOn : ChainOn vol d eoc chain
  covers : nfd.length ≤ vol.cs * chain.length
  length_lt : nfd.length < 2 ^ 32
  first : nfd.firstClusNum = chain.getD 0 0
  regular : nfd.flags &&& oDirectory = 0

/-- A mapped slot that calls on its own number reach and that is a file on the
volume. -/
structure Mapped (s : State) (i : Fs.Slot) : Prop where
  used : (s.fds.pfd i).inUse
  mapped : (s.fds.pfd i).mmapUsed = true
  own : getFdIndex s.fds.pfd (s.fds.pfd i).fdNum = some (some i)
  dev : (s.fds.pfd i).dev = .default
  name : (s.fds.pfd i).name ∉ kernelFiles

/-- The mapping has nothing in the page at `base`. -/
def Mmap.Beside (m : Mmap) (base : Nat) : Prop :=
  m.start + m.len < base ∨ m.start + m.len = base ∧ m.len < 2 ^ 31 ∨ base + 4096 ≤ m.start

/-- Slot `i` maps a regular file, the fault is its own and the first one in the page. -/
structure Live (vol : Volume) (eoc : Nat) (chain : List Nat) (s : State) (p : Nat)
    (i : Fs.Slot) (fault : Nat) : Prop where
  fat : s.fds.world.fat = vol.fat
  mark : IsEoc eoc
  file : RegularFile vol s.fds.world.disk eoc chain (s.fds.pfd i)
  slot : Mapped s i
  pos_lt : (s.fds.pfd i).pos < 2 ^ 64
  startPage : (s.mmap i).start % 4096 = 0
  offPage : (s.mmap i).off % 4096 = 0
  lower : (s.mmap i).start ≤ fault
  upper : fault < (s.mmap i).start + (s.mmap i).len
  space : (s.mmap i).start + (s.mmap i).len < 2 ^ 64
  offsets : (s.mmap i).off + (s.mmap i).len < 2 ^ 64
  others : ∀ j, j ≠ i → (s.fds.pfd j).inUse → (s.fds.pfd j).mmapUsed = true →
    Mapped s j ∧ (s.mmap j).start + (s.mmap j).len < 2 ^ 64 ∧
      (s.mmap j).Beside (4096 * (fault / 4096))
  unmapped : s.mem.entry (.leaf (Mm.owner p (fault / 4096)) (fault / 4096)) = none
  taken : ∃ f m, Mm.allocPageHelper (.touch (fault / 4096)) p (fault / 4096) s.mem = .ok f m

def fileBytes (s : State) (i : Fs.Slot) (fault : Nat) : Nat :=
  min (min ((s.mmap i).start + (s.mmap i).len - 4096 * (fault / 4096)) 4096)
    ((s.fds.pfd i).length - ((s.mmap i).off + (4096 * (fault / 4096) - (s.mmap i).start)))

/-- The offset survives an `int`; and no byte of the file belongs in the page, or
the fault is at its first address, the file may be read and the length survives
an `int` as far as the page goes. -/
def Loadable (s : State) (i : Fs.Slot) (fault : Nat) : Prop :=
  (s.testName = "lat_pagefault" ∨ throughInt (s.fds.pfd i).pos = (s.fds.pfd i).pos) ∧
    (fileBytes s i fault = 0 ∨ s.testName ≠ "lat_pagefault" ∧ fault % 4096 = 0 ∧
        (s.fds.pfd i).flags &&& oWronly = 0 ∧ min (min ((s.mmap i).left fault) 4096)
          ((s.fds.pfd i).length - ((s.mmap i).off + (fault - (s.mmap i).start))) =
            fileBytes s i fault)

/-! ## Memory -/

theorem copied_nil (dest a old : Nat) : copied dest [] a old = old := by
  rw [copied, if_neg]
  intro inside
  have none : a < dest + 0 := inside.2
  omega

variable {a dest fault k old p : Nat} {bytes : List UInt8} {i j : Fs.Slot} {nfd : Fd} {s : State}

theorem copied_inside (lower : dest ≤ a) (upper : a < dest + bytes.length) :
    copied dest bytes a old = (bytes.getD (a - dest) 0).toNat :=
  if_pos ⟨lower, upper⟩

theorem copied_outside
    (outside : a < dest ∨ dest + bytes.length ≤ a) : copied dest bytes a old = old :=
  if_neg (by omega)

theorem copied_head (dest old : Nat) (v : UInt8) (rest : List UInt8) :
    copied dest (v :: rest) dest old = v.toNat := by
  have inside : dest < dest + (v :: rest).length := by
    rw [length_cons]
    omega
  rw [copied_inside le_rfl inside, Nat.sub_self]
  rfl

theorem copied_range (dest n k : Nat) (g : Nat → UInt8) :
    copied dest ((List.range n).map g) (dest + k) 0 = if k < n then (g k).toNat else 0 := by
  have length : ((List.range n).map g).length = n := by rw [length_map, length_range]
  by_cases read : k < n
  · rw [if_pos read, copied_inside (by omega) (by omega), Nat.add_sub_cancel_left,
      getD_eq_getElem _ _ (by omega), getElem_map, getElem_range]
  · rw [if_neg read, copied_outside (by omega)]

theorem copied_range_outside {n : Nat} (g : Nat → UInt8) (short : n ≤ 4096)
    (outside : a < dest ∨ dest + 4096 ≤ a) : copied dest ((List.range n).map g) a old = old := by
  have length : ((List.range n).map g).length = n := by rw [length_map, length_range]
  exact copied_outside (by omega)

theorem kmemcpy_nil (s : State) (dest : Nat) : s.kmemcpy dest [] = s := by
  unfold State.kmemcpy
  simp [copied_nil, ite_self]

theorem byteAt_kmemcpy (s : State) (dest : Nat) (bytes : List UInt8) (a : Nat) :
    (s.kmemcpy dest bytes).byteAt a = copied dest bytes a (s.byteAt a) := by
  unfold State.byteAt State.kmemcpy
  by_cases low : a < freemem
  · simp [low]
  · have address : kvaOf ((a - freemem) / 4096) + (a - freemem) % 4096 = a := by
      unfold kvaOf
      omega
    have inside : (a - freemem) % 4096 < 4096 := mod_lt _ (by decide)
    simp [low, inside, address]

theorem byteAt_page (s : State) (f : Nat) (inside : k < 4096) :
    s.byteAt (kvaOf f + k) = s.mem.bytes f k := by
  have high : ¬ kvaOf f + k < freemem := by
    unfold kvaOf
    omega
  have page : (kvaOf f + k - freemem) / 4096 = f := by
    unfold kvaOf
    omega
  have offset : (kvaOf f + k - freemem) % 4096 = k := by
    unfold kvaOf
    omega
  rw [State.byteAt, if_neg high, page, offset]

theorem allocPageHelper_blank {again : Mm.Task} {page f : Nat} {m m' : Mm.Mem}
    (absent : m.entry (.leaf (Mm.owner p page) page) = none)
    (run : Mm.allocPageHelper again p page m = .ok f m') : m'.bytes f = fun _ => 0 := by
  have inner : ∀ (slot : Mm.Slot) (m : Mm.Mem), slot ≠ .leaf (Mm.owner p page) page →
      m.entry (.leaf (Mm.owner p page) page) = none → Ends (Mm.checkPageSetFlag again slot false m)
        (fun _ m' => m'.entry (.leaf (Mm.owner p page) page) = none) (fun _ _ => True) := by
    intro slot m other absent
    cases entry : m.entry slot with
    | some e =>
      rw [checkPageSetFlag_present again false entry]
      exact absent
    | none =>
      cases free : m.free with
      | nil =>
        rw [checkPageSetFlag_sleep again false entry free]
        trivial
      | cons g rest =>
        rw [checkPageSetFlag_take again false entry free]
        exact (Mm.Mem.take_entry_of_ne _ _ _ _ (Ne.symm other)).trans absent
  have ends : Ends (Mm.allocPageHelper again p page m)
      (fun f m' => m'.bytes f = fun _ => 0) (fun _ _ => True) := by
    unfold Mm.allocPageHelper
    refine Ends.bind _ (inner _ m (by simp) absent) ?_
    intro _ m₁ absent₁
    refine Ends.bind _ (inner _ m₁ (by simp) absent₁) ?_
    intro _ m₂ absent₂
    cases free : m₂.free with
    | nil =>
      rw [checkPageSetFlag_sleep again true absent₂ free]
      trivial
    | cons g rest =>
      rw [checkPageSetFlag_take again true absent₂ free]
      exact update_self ..
  rw [run] at ends
  exact ends

/-! ## Calls on one descriptor -/

theorem getFdIndex_moved {t t' : Table} (moved : ∀ k, Moved (t k) (t' k)) (fd : Nat) :
    getFdIndex t' fd = getFdIndex t fd := by
  refine Good.getFdIndex_of_sameShape (fun k => ?_) (fun k => by rw [moved k]) fd
  rw [moved k]
  exact ⟨rfl, rfl, rfl, rfl, rfl⟩

theorem moved_update {t : Table} (moved : Moved (t i) nfd) (k : Fs.Slot) :
    Moved (t k) (update t i nfd k) := by
  by_cases same : k = i
  · rw [same, update_self]
    exact moved
  · rw [update_of_ne same]
    exact .refl _

theorem fat32Read_zero (fat : FatSb) (d : Disk) (nfd : Fd) :
    ∃ value, fat32Read fat d nfd 0 = some (value, [], nfd) := by
  unfold fat32Read
  split
  · exact ⟨_, rfl⟩
  split
  · exact ⟨_, rfl⟩
  · rw [Nat.zero_min]
    exact ⟨0, rfl⟩

variable {t : FdState} {fd : Nat}

theorem through_lseek (found : getFdIndex t.pfd fd = some (some i)) (off : Nat) (whence : Whence) :
    through t p fd (.lseek off whence) =
      some (⟨.returned (fat32Lseek t.world.fat t.world.disk (t.pfd i) off whence).1 0 [], none⟩,
        { t with
          pfd := update t.pfd i
            (fat32Lseek t.world.fat t.world.disk (t.pfd i) off whence).2 }) := by
  unfold through
  rw [found]
  rfl

theorem through_read (found : getFdIndex t.pfd fd = some (some i))
    (dev : (t.pfd i).dev = .default) (name : (t.pfd i).name ∉ kernelFiles) (count : Nat) :
    through t p fd (.read count) = (fat32Read t.world.fat t.world.disk (t.pfd i) count).map fun r =>
        (⟨.returned r.1 0 r.2.1, none⟩, { t with pfd := update t.pfd i r.2.2 }) := by
  have plain : readSpecialPath t.world p (t.pfd i) count = none := by
    unfold readSpecialPath
    rw [dev]
    exact if_neg name
  unfold through
  rw [found]
  show (readSlot t.world p (t.pfd i) count).map _ = _
  unfold readSlot
  rw [plain]
  rw [Option.map_map]
  rfl

theorem throughInt_u64 (n : Nat) : throughInt ((u64 n : Int) % 2 ^ 32).toNat = throughInt n := by
  have low : ((u64 n : Int) % 2 ^ 32).toNat % 2 ^ 32 = n % 2 ^ 32 := by
    unfold u64
    omega
  unfold throughInt
  rw [low]

theorem u64_throughInt (n : Nat) : u64 (throughInt n) = throughInt n := by
  unfold u64 throughInt
  split <;> omega

theorem throughInt_small {n : Nat} (small : n < 2 ^ 31) : throughInt n = n := by
  rw [throughInt, mod_eq_of_lt (by omega), if_pos small]

/-- The calls of `load_lazy_mmap` on a descriptor of the volume. -/
def loadFile (fat : FatSb) (d : Disk) (nfd : Fd) (target count : Nat) : Option (List UInt8 × Fd) :=
  (fat32Read fat d
      (fat32Lseek fat d (fat32Lseek fat d nfd 0 .seekCur).2 target .seekSet).2 count).map fun r =>
    (r.2.1, (fat32Lseek fat d r.2.2 (throughInt nfd.pos) .seekSet).2)

def Mmap.count (m : Mmap) (fault kva : Nat) : Nat :=
  u64 (m.endOf fault kva + 2 ^ 64 - m.beginOf fault kva)

theorem loadSlot_skip {kva : Nat} (missed : ¬ ((s.fds.pfd j).inUse ∧ (s.fds.pfd j).mmapUsed = true ∧
      (s.mmap j).start ≤ fault ∧ fault ≤ u64 ((s.mmap j).len + (s.mmap j).start))) :
    loadSlot p fault kva s j = some s :=
  if_neg missed

theorem loadSlot_hit (p kva : Nat) (slot : Mapped s j) (lower : (s.mmap j).start ≤ fault)
    (upper : fault ≤ u64 ((s.mmap j).len + (s.mmap j).start)) :
    loadSlot p fault kva s j = (loadFile s.fds.world.fat s.fds.world.disk (s.fds.pfd j)
          (u64 ((s.mmap j).off + (fault - (s.mmap j).start)))
          ((s.mmap j).count fault kva)).map fun r =>
        { s with
          fds := { s.fds with pfd := update s.fds.pfd j r.2 } }.kmemcpy
            ((s.mmap j).beginOf fault kva) r.1 := by
  have seekCur : (fat32Lseek s.fds.world.fat s.fds.world.disk (s.fds.pfd j) 0 .seekCur).1 =
      (u64 (s.fds.pfd j).pos : Int) := by
    rw [fat32Lseek, if_neg (not_not.mpr slot.dev)]
    dsimp only
    split_ifs <;> rfl
  have found : ∀ nfd, Moved (s.fds.pfd j) nfd →
      getFdIndex (update s.fds.pfd j nfd) (s.fds.pfd j).fdNum = some (some j) := by
    intro nfd moved
    rw [getFdIndex_moved (moved_update moved)]
    exact slot.own
  have moved₁ := moved_lseek s.fds.world.fat s.fds.world.disk (s.fds.pfd j) 0 .seekCur
  have moved₂ := moved₁.trans (moved_lseek s.fds.world.fat s.fds.world.disk _
    (u64 ((s.mmap j).off + (fault - (s.mmap j).start))) .seekSet)
  have first := through_lseek (p := p) slot.own 0 .seekCur
  rw [loadSlot, loadFile, if_pos ⟨slot.used, slot.mapped, lower, upper⟩, first]
  generalize nfd₁Def : (fat32Lseek s.fds.world.fat s.fds.world.disk (s.fds.pfd j) 0 .seekCur).2 =
    nfd₁ at moved₁ moved₂ ⊢
  have second := through_lseek (p := p) (t := { s.fds with pfd := update s.fds.pfd j nfd₁ })
    (found nfd₁ moved₁) (u64 ((s.mmap j).off + (fault - (s.mmap j).start))) .seekSet
  dsimp only at second
  rw [update_self, update_idem] at second
  dsimp only [bind, Option.bind]
  rw [second]
  generalize nfd₂Def : (fat32Lseek s.fds.world.fat s.fds.world.disk nfd₁
    (u64 ((s.mmap j).off + (fault - (s.mmap j).start))) .seekSet).2 = nfd₂ at moved₂ ⊢
  have dev : (update s.fds.pfd j nfd₂ j).dev = .default := by
    rw [update_self, moved₂]
    exact slot.dev
  have name : (update s.fds.pfd j nfd₂ j).name ∉ kernelFiles := by
    rw [update_self, moved₂]
    exact slot.name
  have third := through_read (p := p) (t := { s.fds with pfd := update s.fds.pfd j nfd₂ })
    (found nfd₂ moved₂) dev name ((s.mmap j).count fault kva)
  dsimp only at third
  rw [update_self] at third
  unfold Mmap.count at third ⊢
  dsimp only
  rw [third]
  cases read : fat32Read s.fds.world.fat s.fds.world.disk nfd₂
      (u64 ((s.mmap j).endOf fault kva + 2 ^ 64 - (s.mmap j).beginOf fault kva)) with
  | none => rfl
  | some r =>
    have moved₃ := moved₂.trans (moved_read read)
    have fourth := through_lseek (p := p)
      (t := { s.fds with pfd := update s.fds.pfd j r.2.2 }) (found r.2.2 moved₃)
      (throughInt (s.fds.pfd j).pos) .seekSet
    dsimp only at fourth
    rw [update_self, update_idem] at fourth
    dsimp only [Option.map]
    rw [update_idem, seekCur]
    unfold oldSeek
    dsimp only
    rw [throughInt_u64, fourth]
    rfl

theorem loadFile_zero (fat : FatSb) (d : Disk) (nfd : Fd) (target : Nat) :
    ∃ nfd', loadFile fat d nfd target 0 = some ([], nfd') ∧ Moved nfd nfd' := by
  obtain ⟨value, read⟩ := fat32Read_zero fat d
    (fat32Lseek fat d (fat32Lseek fat d nfd 0 .seekCur).2 target .seekSet).2
  refine ⟨_, by rw [loadFile, read]; rfl, ?_⟩
  exact ((moved_lseek ..).trans (moved_lseek ..)).trans (moved_lseek ..)

theorem Mmap.count_beside {m : Mmap} (kva : Nat) (lower : m.start ≤ fault)
    (upper : fault ≤ m.start + m.len)
    (beside : m.Beside (4096 * (fault / 4096))) : m.count fault kva = 0 := by
  have edge : m.start + m.len = fault ∧ m.len < 2 ^ 31 ∧ fault % 4096 = 0 := by
    unfold Mmap.Beside at beside
    omega
  have none : m.left fault = 0 := by
    rw [Mmap.left, throughInt_small edge.2.1, edge.1]
    unfold u64
    omega
  unfold Mmap.count Mmap.beginOf Mmap.endOf
  rw [if_neg (by omega), if_neg (by omega), none, Nat.zero_min]
  unfold u64
  omega

def Others (s : State) (i : Fs.Slot) (fault : Nat) : Prop :=
  ∀ j, j ≠ i → (s.fds.pfd j).inUse → (s.fds.pfd j).mmapUsed = true →
    Mapped s j ∧ (s.mmap j).start + (s.mmap j).len < 2 ^ 64 ∧
      (s.mmap j).Beside (4096 * (fault / 4096))

def State.withTable (s : State) (t : Table) : State := { s with fds := { s.fds with pfd := t } }

theorem Mapped.moved {s' : State} (slot : Mapped s i)
    (moved : ∀ k, Moved (s.fds.pfd k) (s'.fds.pfd k)) : Mapped s' i where
  used := by
    rw [Fd.inUse, moved i]
    exact slot.used
  mapped := by
    rw [moved i]
    exact slot.mapped
  own := by
    have number : (s'.fds.pfd i).fdNum = (s.fds.pfd i).fdNum := by rw [moved i]
    rw [getFdIndex_moved moved, number]
    exact slot.own
  dev := by
    rw [moved i]
    exact slot.dev
  name := by
    rw [moved i]
    exact slot.name

theorem Others.moved {s' : State} (others : Others s i fault)
    (same : s'.mmap = s.mmap) (moved : ∀ k, Moved (s.fds.pfd k) (s'.fds.pfd k)) :
    Others s' i fault := by
  intro j apart used mapped
  rw [Fd.inUse, moved j] at used
  rw [moved j] at mapped
  rw [same]
  exact ⟨(others j apart used mapped).1.moved moved, (others j apart used mapped).2⟩

theorem loadSlot_other (p kva : Nat) (others : Others s i fault) (apart : j ≠ i) :
    ∃ t, loadSlot p fault kva s j = some (s.withTable t) ∧
      (∀ k, Moved (s.fds.pfd k) (t k)) ∧ t i = s.fds.pfd i := by
  by_cases hit : (s.fds.pfd j).inUse ∧ (s.fds.pfd j).mmapUsed = true ∧
      (s.mmap j).start ≤ fault ∧ fault ≤ u64 ((s.mmap j).len + (s.mmap j).start)
  · obtain ⟨slot, space, beside⟩ := others j apart hit.1 hit.2.1
    have upper : fault ≤ (s.mmap j).start + (s.mmap j).len := by
      have bound := hit.2.2.2
      unfold u64 at bound
      omega
    obtain ⟨nfd, load, moved⟩ := loadFile_zero s.fds.world.fat s.fds.world.disk (s.fds.pfd j)
      (u64 ((s.mmap j).off + (fault - (s.mmap j).start)))
    refine ⟨update s.fds.pfd j nfd, ?_, moved_update moved, update_of_ne (Ne.symm apart) _ _⟩
    rw [loadSlot_hit p kva slot hit.2.2.1 hit.2.2.2,
      Mmap.count_beside kva hit.2.2.1 upper beside, load, map_some, kmemcpy_nil]
    rfl
  · exact ⟨s.fds.pfd, loadSlot_skip hit, fun k => .refl _, rfl⟩

theorem loadSlots_other (p kva : Nat) (slots : List Fs.Slot)
    (apart : ∀ j ∈ slots, j ≠ i) (others : Others s i fault) :
    ∃ t, slots.foldlM (loadSlot p fault kva) s = some (s.withTable t) ∧
      (∀ k, Moved (s.fds.pfd k) (t k)) ∧ t i = s.fds.pfd i := by
  induction slots generalizing s with
  | nil => exact ⟨s.fds.pfd, rfl, fun k => .refl _, rfl⟩
  | cons j rest ih =>
    obtain ⟨t, first, moved, same⟩ :=
      loadSlot_other p kva others (apart j mem_cons_self)
    obtain ⟨t', later, moved', same'⟩ := ih (s := s.withTable t)
      (fun k mem => apart k (mem_cons_of_mem j mem)) (others.moved rfl moved)
    refine ⟨t', ?_, fun k => (moved k).trans (moved' k), same'.trans same⟩
    rw [foldlM_cons, first]
    exact later

abbrev State.Gives (s : State) (p fault f : Nat) (m : Mm.Mem) : Prop :=
  Mm.allocPageHelper (.touch (fault / 4096)) p (fault / 4096) s.mem = .ok f m

theorem dealNoAlloc_eq {f : Nat} {m : Mm.Mem} (loud : s.testName ≠ "lat_pagefault")
    (run : s.Gives p fault f m)
    (slot : Mapped s i) (others : Others s i fault) (lower : (s.mmap i).start ≤ fault)
    (upper : fault ≤ u64 ((s.mmap i).len + (s.mmap i).start))
    (load : loadFile s.fds.world.fat s.fds.world.disk (s.fds.pfd i)
      (u64 ((s.mmap i).off + (fault - (s.mmap i).start)))
      ((s.mmap i).count fault (kvaOf f)) = some (bytes, nfd)) :
    ∃ t, t i = nfd ∧ dealNoAlloc s p fault =
      some (.done f (({ s with mem := m }.kmemcpy ((s.mmap i).beginOf fault (kvaOf f))
        bytes).withTable t)) := by
  obtain ⟨front, back, split⟩ := append_of_mem (mem_finRange i)
  have nodup := nodup_finRange maxFdNum
  rw [split] at nodup
  have apart := nodup_middle.mp nodup
  have notFront : ∀ j ∈ front, j ≠ i := by
    rintro j mem rfl
    exact (nodup_cons.mp apart).1 (mem_append_left _ mem)
  have notBack : ∀ j ∈ back, j ≠ i := by
    rintro j mem rfl
    exact (nodup_cons.mp apart).1 (mem_append_right _ mem)
  have othersNow : Others { s with mem := m } i fault := others.moved rfl fun _ => .refl _
  obtain ⟨t, before, moved, same⟩ := loadSlots_other p (kvaOf f) front notFront othersNow
  have slotNow : Mapped ({ s with mem := m }.withTable t) i := slot.moved moved
  have turn := loadSlot_hit p (kvaOf f) slotNow lower upper
  have now : ({ s with mem := m }.withTable t).fds.pfd i = s.fds.pfd i := same
  rw [now] at turn
  have movedLoad : Moved (s.fds.pfd i) nfd := by
    obtain ⟨r, read, pair⟩ := map_eq_some_iff.mp load
    rw [← (Prod.mk.inj pair).2]
    exact (((moved_lseek ..).trans (moved_lseek ..)).trans (moved_read read)).trans (moved_lseek ..)
  have loaded : loadSlot p fault (kvaOf f) ({ s with mem := m }.withTable t) i =
      some (({ s with mem := m }.withTable (update t i nfd)).kmemcpy
        ((s.mmap i).beginOf fault (kvaOf f)) bytes) :=
    turn.trans (congrArg (Option.map _) load)
  have movedNow : ∀ k, Moved (s.fds.pfd k) (update t i nfd k) := by
    intro k
    exact (moved k).trans (moved_update (same ▸ movedLoad) k)
  have othersLater : Others (({ s with mem := m }.withTable (update t i nfd)).kmemcpy
      ((s.mmap i).beginOf fault (kvaOf f)) bytes) i fault := others.moved rfl movedNow
  obtain ⟨t', after, _, same'⟩ := loadSlots_other p (kvaOf f) back notBack othersLater
  refine ⟨t', same'.trans (update_self ..), ?_⟩
  unfold dealNoAlloc loadLazyMmap
  rw [run]
  dsimp only
  rw [if_neg loud, split, foldlM_append, before]
  dsimp only [bind, Option.bind]
  rw [foldlM_cons, loaded]
  dsimp only [bind, Option.bind]
  rw [after]
  rfl

/-! ## What is read -/

section File
variable {vol : Volume} {d d' : Disk} {eoc : Nat} {chain : List Nat} {nfd' : Fd}
  {target count : Nat}

theorem RegularFile.congr (file : RegularFile vol d eoc chain nfd) (same : SameTables vol d d') :
    RegularFile vol d' eoc chain nfd :=
  { file with chainOn := file.chainOn.congr same }

theorem RegularFile.moved (file : RegularFile vol d eoc chain nfd) (moved : Moved nfd nfd') :
    RegularFile vol d eoc chain nfd' where
  chainOn := file.chainOn
  covers := by
    rw [moved]
    exact file.covers
  length_lt := by
    rw [moved]
    exact file.length_lt
  first := by
    rw [moved]
    exact file.first
  regular := by
    rw [moved]
    exact file.regular

theorem lseek_pos (fat : FatSb) (dev : nfd.dev = .default) (off : Nat) :
    (fat32Lseek fat d nfd off .seekSet).2.pos = u64 off := by
  rw [fat32Lseek, if_neg (not_not.mpr dev)]
  dsimp only
  split_ifs <;> rfl

theorem RegularFile.seek (file : RegularFile vol d eoc chain nfd) (dev : nfd.dev = .default)
    (name : nfd.name ∉ kernelFiles) (inside : target < nfd.length) :
    OpenFile vol d eoc chain (fat32Lseek vol.fat d nfd target .seekSet).2 := by
  have small := file.length_lt
  have exact : u64 target = target := mod_eq_of_lt (by omega)
  have cursor : (fat32Lseek vol.fat d nfd target .seekSet).2 =
      updateFdFromPos vol.fat d { nfd with pos := target } target := by
    rw [fat32Lseek, seekTarget, if_neg (not_not.mpr dev)]
    rw [if_neg name, exact, if_pos inside]
  have moved := file.moved (moved_lseek vol.fat d nfd target .seekSet)
  have length : (fat32Lseek vol.fat d nfd target .seekSet).2.length = nfd.length := by
    rw [moved_lseek vol.fat d nfd target .seekSet]
  constructor
  · exact moved.chainOn
  · exact moved.covers
  · exact moved.length_lt
  · exact moved.first
  · rw [length, lseek_pos vol.fat dev, exact]
    exact inside.le
  · rw [cursor]
    exact designates_updateFdFromPos file.chainOn file.first (by omega)
  · exact moved.regular

def sought (fat : FatSb) (d : Disk) (nfd : Fd) (target : Nat) : Fd :=
  (fat32Lseek fat d (fat32Lseek fat d nfd 0 .seekCur).2 target .seekSet).2

theorem sought_moved (fat : FatSb) (d : Disk) (nfd : Fd) (target : Nat) :
    Moved nfd (sought fat d nfd target) :=
  (moved_lseek ..).trans (moved_lseek ..)

theorem sought_pos (fat : FatSb) (dev : nfd.dev = .default) (target : Nat) :
    (sought fat d nfd target).pos = u64 target := by
  refine lseek_pos fat ?_ target
  rw [moved_lseek fat d nfd 0 .seekCur]
  exact dev

theorem RegularFile.sought (file : RegularFile vol d eoc chain nfd) (dev : nfd.dev = .default)
    (name : nfd.name ∉ kernelFiles) (inside : target < nfd.length) :
    OpenFile vol d eoc chain (sought vol.fat d nfd target) := by
  have moved := moved_lseek vol.fat d nfd 0 .seekCur
  refine (file.moved moved).seek ?_ ?_ ?_
  · rw [moved]
    exact dev
  · rw [moved]
    exact name
  · rw [moved]
    exact inside

theorem loadFile_of_read {r : Int × List UInt8 × Fd}
    (read : fat32Read vol.fat d (sought vol.fat d nfd target) count = some r)
    (dev : nfd.dev = .default) : ∃ nfd', loadFile vol.fat d nfd target count = some (r.2.1, nfd') ∧
    nfd'.pos = throughInt nfd.pos := by
  refine ⟨_, congrArg (Option.map _) read, ?_⟩
  rw [lseek_pos, u64_throughInt]
  rw [moved_read read, sought_moved vol.fat d nfd target]
  exact dev

theorem loadFile_nothing (dev : nfd.dev = .default) (small : target < 2 ^ 64)
    (nothing : nfd.length ≤ target ∨ nfd.flags &&& oWronly ≠ 0 ∨ count = 0) :
    ∃ nfd', loadFile vol.fat d nfd target count = some ([], nfd') ∧
      nfd'.pos = throughInt nfd.pos := by
  have pos : (sought vol.fat d nfd target).pos = target := by
    rw [sought_pos vol.fat dev]
    exact mod_eq_of_lt small
  have flags : (sought vol.fat d nfd target).flags = nfd.flags := by
    rw [sought_moved vol.fat d nfd target]
  have length : (sought vol.fat d nfd target).length = nfd.length := by
    rw [sought_moved vol.fat d nfd target]
  have read : ∃ value, fat32Read vol.fat d (sought vol.fat d nfd target) count =
      some (value, [], sought vol.fat d nfd target) := by
    rcases nothing with beyond | refused | none
    · unfold fat32Read
      split
      · exact ⟨_, rfl⟩
      split
      · exact ⟨_, rfl⟩
      · rw [pos, length, Nat.sub_eq_zero_of_le beyond, Nat.min_zero]
        exact ⟨0, rfl⟩
    · refine ⟨-einval, ?_⟩
      rw [fat32Read, if_pos (.inr (by rw [flags]; exact refused))]
    · rw [none]
      exact fat32Read_zero ..
  obtain ⟨value, read⟩ := read
  exact loadFile_of_read read dev

section Load
variable (file : RegularFile vol d eoc chain nfd) (dev : nfd.dev = .default)
  (name : nfd.name ∉ kernelFiles) (readable : nfd.flags &&& oWronly = 0)
  (inside : target < nfd.length)
include file dev inside

theorem pos_sought : (LazyMmap.sought vol.fat d nfd target).pos = target := by
  have small := file.length_lt
  rw [sought_pos vol.fat dev]
  exact mod_eq_of_lt (by omega)

include name readable

theorem loadFile_first (some' : count ≠ 0) :
    ∃ rest nfd', loadFile vol.fat d nfd target count =
      some (d (vol.place (fun i => chain.getD i 0) target) :: rest, nfd') ∧
        nfd'.pos = throughInt nfd.pos := by
  have opened := file.sought dev name inside
  have pos := pos_sought file dev inside
  have more : readCount (LazyMmap.sought vol.fat d nfd target) count ≠ 0 := by
    rw [readCount, pos, sought_moved vol.fat d nfd target]
    dsimp only
    omega
  obtain ⟨value, rest, nfd', _, _, read⟩ := fat32Read_first opened
    (by rw [sought_moved vol.fat d nfd target]; exact readable) more
  rw [pos] at read
  obtain ⟨nfd', load, offset⟩ := loadFile_of_read read dev
  exact ⟨rest, nfd', load, offset⟩

theorem loadFile_page (mark : IsEoc eoc) (whole : target % 4096 = 0) (short : count ≤ 4096) :
    ∃ nfd', loadFile vol.fat d nfd target count =
      some ((List.range (min count (nfd.length - target))).map fun k =>
        d (vol.place (fun i => chain.getD i 0) (target + k)), nfd') ∧
      nfd'.pos = throughInt nfd.pos := by
  have opened := file.sought dev name inside
  have pos := pos_sought file dev inside
  have length : (LazyMmap.sought vol.fat d nfd target).length = nfd.length := by
    rw [sought_moved vol.fat d nfd target]
  have size : readCount (LazyMmap.sought vol.fat d nfd target) count =
      min count (nfd.length - target) := by
    rw [readCount, pos, length]
  have right := (readsRight_iff mark opened
    (by rw [sought_moved vol.fat d nfd target]; exact readable) count).mpr
      (aligned_of_page (by rw [pos]; exact whole) (by omega)) d fun _ _ => rfl
  obtain ⟨nfd', read⟩ := right
  rw [contents_slice (opened.stop_le count), size, pos] at read
  exact loadFile_of_read read dev

end Load
end File

/-! ## The page after the fault -/

section Fault
variable {vol : Volume} {eoc : Nat} {chain : List Nat} {f : Nat} {m : Mm.Mem}

def pageStart (s : State) (i : Fs.Slot) (fault : Nat) : Nat :=
  (s.mmap i).off + (4096 * (fault / 4096) - (s.mmap i).start)

namespace Live

section
variable (live : Live vol eoc chain s p i fault)
include live

theorem congr {d : Disk}
    (same : SameTables vol s.fds.world.disk d) : Live vol eoc chain (s.withDisk d) p i fault :=
  { live with
    file := live.file.congr same
    slot := { live.slot with }
    others := fun j apart used mapped =>
      have ⟨slot, rest⟩ := live.others j apart used mapped
      ⟨{ slot with }, rest⟩ }

theorem start_le : (s.mmap i).start ≤ 4096 * (fault / 4096) := by
  have aligned := live.startPage
  have lower := live.lower
  omega

theorem target_eq :
    u64 ((s.mmap i).off + (fault - (s.mmap i).start)) = pageStart s i fault + fault % 4096 := by
  have below := live.start_le
  have upper := live.upper
  have offsets := live.offsets
  unfold pageStart u64
  omega

theorem pageStart_mod : pageStart s i fault % 4096 = 0 := by
  have aligned := live.startPage
  have offset := live.offPage
  unfold pageStart
  omega

theorem hit : fault ≤ u64 ((s.mmap i).len + (s.mmap i).start) := by
  have upper := live.upper
  have space := live.space
  unfold u64
  omega

theorem fileBytes_pos : 0 < fileBytes s i fault ↔ pageStart s i fault < (s.fds.pfd i).length := by
  have upper := live.upper
  unfold fileBytes pageStart
  omega

theorem wanted_file (inside : k < fileBytes s i fault) :
    wanted vol chain s i (4096 * (fault / 4096) + k) =
      (s.fds.world.disk (vol.place (fun i => chain.getD i 0) (pageStart s i fault + k))).toNat := by
  have below := live.start_le
  have position : (s.mmap i).off + (4096 * (fault / 4096) + k - (s.mmap i).start) =
      pageStart s i fault + k := by
    unfold pageStart
    omega
  have within : pageStart s i fault + k < (s.fds.pfd i).length := by
    unfold fileBytes at inside
    unfold pageStart
    omega
  rw [wanted, if_pos (by unfold fileBytes at inside; omega), position,
    getD_eq_getElem _ _ (by rw [vol.length_contents]; exact within), getElem_contents]

theorem wanted_rest (beyond : fileBytes s i fault ≤ k) (inside : k < 4096) :
    wanted vol chain s i (4096 * (fault / 4096) + k) = 0 := by
  have below := live.start_le
  unfold wanted
  by_cases mapped : 4096 * (fault / 4096) + k < (s.mmap i).start + (s.mmap i).len
  · rw [if_pos mapped, getD_eq_default]
    · rfl
    · rw [vol.length_contents]
      unfold fileBytes at beyond
      omega
  · rw [if_neg mapped]

end
end Live

theorem loadsRight_iff_copied (live : Live vol eoc chain s p i fault)
    (run : s.Gives p fault f m)
    {final : State} (deal : dealNoAlloc s p fault = some (.done f final))
    (after : ∀ a, final.byteAt a = copied dest bytes a ({ s with mem := m }.byteAt a)) :
    LoadsRight vol chain s p i fault ↔ (∀ k, k < 4096 → copied dest bytes (kvaOf f + k) 0 =
        wanted vol chain s i (4096 * (fault / 4096) + k)) ∧ (∀ a, a < kvaOf f ∨ kvaOf f + 4096 ≤ a →
        copied dest bytes a ({ s with mem := m }.byteAt a) = { s with mem := m }.byteAt a) ∧
      (final.fds.pfd i).pos = (s.fds.pfd i).pos := by
  have blank : ∀ k, k < 4096 → { s with mem := m }.byteAt (kvaOf f + k) = 0 := by
    intro k inside
    rw [byteAt_page _ _ inside]
    exact congrFun (allocPageHelper_blank live.unmapped run) k
  constructor
  · rintro ⟨f', m', final', run', deal', filled⟩
    obtain ⟨rfl, rfl⟩ : f = f' ∧ m = m' := by
      rw [run] at run'
      injection run' with frames memories
      exact ⟨frames, memories⟩
    obtain rfl : final = final' := by
      rw [deal] at deal'
      injection Option.some.inj deal' with _ states
    refine ⟨?_, ?_, filled.offset⟩
    · intro k inside
      rw [← filled.page k inside, after, blank k inside]
    · intro a outside
      rw [← after]
      exact filled.others a outside
  · rintro ⟨page, others, offset⟩
    refine ⟨f, m, final, run, deal, ?_, ?_, ?_, offset⟩
    · intro k inside
      rw [after, blank k inside]
      exact page k inside
    · intro a outside
      rw [after]
      exact others a outside
    · have grown := allocPageHelper_grown (.touch (fault / 4096)) p (fault / 4096) s.mem
      rw [run] at grown
      exact grown.bytes

theorem dealNoAlloc_quiet (quiet : s.testName = "lat_pagefault")
    (run : s.Gives p fault f m) :
    dealNoAlloc s p fault = some (.done f { s with mem := m }) := by
  unfold dealNoAlloc loadLazyMmap
  rw [run]
  dsimp only
  rw [if_pos quiet]
  rfl

section
variable (live : Live vol eoc chain s p i fault)
include live

theorem loadsRight_quiet (quiet : s.testName = "lat_pagefault") : LoadsRight vol chain s p i fault ↔
    ∀ k, k < 4096 → wanted vol chain s i (4096 * (fault / 4096) + k) = 0 := by
  obtain ⟨f, m, run⟩ := live.taken
  have after : ∀ a, { s with mem := m }.byteAt a = copied 0 [] a ({ s with mem := m }.byteAt a) :=
    fun a => (copied_nil ..).symm
  rw [loadsRight_iff_copied live run (dealNoAlloc_quiet quiet run) after]
  constructor
  · intro right k inside
    rw [← right.1 k inside, copied_nil]
  · intro zero
    refine ⟨?_, fun a _ => copied_nil .., rfl⟩
    intro k inside
    rw [copied_nil, zero k inside]

section
variable (loud : s.testName ≠ "lat_pagefault")
  (run : s.Gives p fault f m)
include loud run

theorem loadsRight_loud
    (load : loadFile vol.fat s.fds.world.disk (s.fds.pfd i) (pageStart s i fault + fault % 4096)
      ((s.mmap i).count fault (kvaOf f)) = some (bytes, nfd)) : LoadsRight vol chain s p i fault ↔
    (∀ k, k < 4096 → copied ((s.mmap i).beginOf fault (kvaOf f)) bytes (kvaOf f + k) 0 =
      wanted vol chain s i (4096 * (fault / 4096) + k)) ∧ (∀ a, a < kvaOf f ∨ kvaOf f + 4096 ≤ a →
      copied ((s.mmap i).beginOf fault (kvaOf f)) bytes a ({ s with mem := m }.byteAt a) =
        { s with mem := m }.byteAt a) ∧ nfd.pos = (s.fds.pfd i).pos := by
  rw [← live.fat, ← live.target_eq] at load
  obtain ⟨t, now, deal⟩ := dealNoAlloc_eq loud run live.slot live.others live.lower live.hit load
  rw [loadsRight_iff_copied live run deal (fun a => byteAt_kmemcpy { s with mem := m } _ _ a), ← now]
  rfl

theorem loadsRight_nothing (nothing : (s.fds.pfd i).length ≤ pageStart s i fault + fault % 4096 ∨
      (s.fds.pfd i).flags &&& oWronly ≠ 0 ∨ (s.mmap i).count fault (kvaOf f) = 0) :
    LoadsRight vol chain s p i fault ↔
      (∀ k, k < 4096 → wanted vol chain s i (4096 * (fault / 4096) + k) = 0) ∧
        throughInt (s.fds.pfd i).pos = (s.fds.pfd i).pos := by
  have small : pageStart s i fault + fault % 4096 < 2 ^ 64 := by
    rw [← live.target_eq]
    exact mod_lt _ (by decide)
  have load : ∃ nfd, loadFile vol.fat s.fds.world.disk (s.fds.pfd i)
      (pageStart s i fault + fault % 4096) ((s.mmap i).count fault (kvaOf f)) = some ([], nfd) ∧
        nfd.pos = throughInt (s.fds.pfd i).pos := loadFile_nothing live.slot.dev small nothing
  obtain ⟨nfd, load, pos⟩ := load
  rw [loadsRight_loud live loud run load, pos]
  constructor
  · intro right
    refine ⟨?_, right.2.2⟩
    intro k inside
    rw [← right.1 k inside, copied_nil]
  · intro right
    refine ⟨?_, fun a _ => copied_nil .., right.2⟩
    intro k inside
    rw [copied_nil, right.1 k inside]

end
end

theorem Mmap.count_aligned {m : Mmap} (kva : Nat) (aligned : fault % 4096 = 0) :
    m.count fault kva = min (m.left fault) 4096 ∧ m.beginOf fault kva = kva := by
  rw [Mmap.count, Mmap.endOf, Mmap.beginOf, if_neg (by omega), if_neg (by omega)]
  unfold u64
  omega

section
variable (live : Live vol eoc chain s p i fault)
include live

theorem loadsRight_aligned (loud : s.testName ≠ "lat_pagefault") (aligned : fault % 4096 = 0)
    (readable : (s.fds.pfd i).flags &&& oWronly = 0)
    (inside : pageStart s i fault < (s.fds.pfd i).length) : LoadsRight vol chain s p i fault ↔
    (∀ k, k < 4096 → (if k < min (min ((s.mmap i).left fault) 4096)
          ((s.fds.pfd i).length - pageStart s i fault) then
        (s.fds.world.disk (vol.place (fun i => chain.getD i 0) (pageStart s i fault + k))).toNat
      else 0) = wanted vol chain s i (4096 * (fault / 4096) + k)) ∧
    throughInt (s.fds.pfd i).pos = (s.fds.pfd i).pos := by
  obtain ⟨f, m, run⟩ := live.taken
  obtain ⟨count, begins⟩ := Mmap.count_aligned (m := s.mmap i) (kvaOf f) aligned
  obtain ⟨nfd, load, pos⟩ := loadFile_page live.file live.slot.dev live.slot.name
    readable inside live.mark live.pageStart_mod (Nat.min_le_right ((s.mmap i).left fault) 4096)
  rw [loadsRight_loud live loud run (by rw [aligned, Nat.add_zero, count]; exact load), begins, pos]
  constructor
  · intro right
    refine ⟨?_, right.2.2⟩
    intro k small
    rw [← right.1 k small, copied_range]
  · intro right
    refine ⟨?_, ?_, right.2⟩
    · intro k small
      rw [copied_range, right.1 k small]
    · intro a outside
      exact copied_range_outside _ ((Nat.min_le_left _ _).trans (Nat.min_le_right _ _)) outside

theorem loadsRight_of_loadable (ok : Loadable s i fault) : LoadsRight vol chain s p i fault := by
  by_cases quiet : s.testName = "lat_pagefault"
  · have none : fileBytes s i fault = 0 := ok.2.resolve_right fun rest => rest.1 quiet
    refine (loadsRight_quiet live quiet).mpr ?_
    intro k inside
    exact live.wanted_rest (by rw [none]; exact Nat.zero_le k) inside
  · have offset := ok.1.resolve_left quiet
    by_cases inside : pageStart s i fault < (s.fds.pfd i).length
    · obtain ⟨_, aligned, readable, count⟩ :=
        ok.2.resolve_left (live.fileBytes_pos.mpr inside).ne'
      have start : pageStart s i fault = (s.mmap i).off + (fault - (s.mmap i).start) := by
        have whole : 4096 * (fault / 4096) = fault := by omega
        rw [pageStart, whole]
      refine (loadsRight_aligned live quiet aligned readable inside).mpr ⟨?_, offset⟩
      intro k small
      rw [← start] at count
      rw [count]
      split
      · rename_i read
        exact (live.wanted_file read).symm
      · rename_i beyond
        exact (live.wanted_rest (Nat.le_of_not_lt beyond) small).symm
    · obtain ⟨f, m, run⟩ := live.taken
      have none : fileBytes s i fault = 0 :=
        Nat.eq_zero_of_not_pos fun some => inside (live.fileBytes_pos.mp some)
      refine (loadsRight_nothing live quiet run (.inl ?_)).mpr ⟨?_, offset⟩
      · exact (Nat.le_of_not_lt inside).trans (Nat.le_add_right ..)
      · intro k small
        exact live.wanted_rest (by rw [none]; exact Nat.zero_le k) small

theorem Live.setByte {q : Nat} (inside : q < (s.fds.pfd i).length) (v : UInt8) :
    SameTables vol s.fds.world.disk (update s.fds.world.disk
      (vol.place (fun i => chain.getD i 0) q) v) := by
  have index : q / vol.cs < chain.length :=
    Nat.div_lt_of_lt_mul (Nat.lt_of_lt_of_le inside live.file.covers)
  have valid : vol.Valid (chain.getD (q / vol.cs) 0) := live.file.chainOn.valid_getD index
  have low := (place_bounds (e := fun i => chain.getD i 0) valid).1
  intro a reserved
  exact update_of_ne (Nat.ne_of_lt (Nat.lt_of_lt_of_le reserved low)) _ _

end

theorem within_length (inside : k < fileBytes s i fault) :
    pageStart s i fault + k < (s.fds.pfd i).length := by
  have bound : fileBytes s i fault ≤ (s.fds.pfd i).length - pageStart s i fault :=
    Nat.min_le_right ..
  omega

section
variable (live : Live vol eoc chain s p i fault)
include live

theorem Live.wanted_setByte (inside : k < fileBytes s i fault) (v : UInt8) :
    wanted vol chain (s.withDisk (update s.fds.world.disk
      (vol.place (fun i => chain.getD i 0) (pageStart s i fault + k)) v)) i
        (4096 * (fault / 4096) + k) = v.toNat := by
  rw [(live.congr (live.setByte (within_length inside) v)).wanted_file inside]
  exact congrArg UInt8.toNat (update_self ..)

theorem Live.fileBytes_eq_zero (blank : ∀ d, SameTables vol s.fds.world.disk d → ∀ k, k < 4096 →
      wanted vol chain (s.withDisk d) i (4096 * (fault / 4096) + k) = 0) :
    fileBytes s i fault = 0 := by
  by_contra some
  have first : 0 < fileBytes s i fault := Nat.pos_of_ne_zero some
  have zero := blank _ (live.setByte (within_length first) 1) 0 (by decide)
  rw [live.wanted_setByte first 1] at zero
  exact absurd zero (by decide)

theorem Live.count_eq (loud : s.testName ≠ "lat_pagefault") (aligned : fault % 4096 = 0)
    (readable : (s.fds.pfd i).flags &&& oWronly = 0)
    (inside : pageStart s i fault < (s.fds.pfd i).length)
    (right : ∀ d, SameTables vol s.fds.world.disk d →
      LoadsRight vol chain (s.withDisk d) p i fault) :
    min (min ((s.mmap i).left fault) 4096) ((s.fds.pfd i).length - pageStart s i fault) =
      fileBytes s i fault := by
  generalize read : min (min ((s.mmap i).left fault) 4096)
    ((s.fds.pfd i).length - pageStart s i fault) = n
  have short : n ≤ 4096 := by
    rw [← read]
    exact (Nat.min_le_left _ _).trans (Nat.min_le_right _ _)
  have byte : ∀ k, k < 4096 → ∀ v, pageStart s i fault + k < (s.fds.pfd i).length →
      (if k < n then v.toNat else 0) = wanted vol chain (s.withDisk (update s.fds.world.disk
          (vol.place (fun i => chain.getD i 0) (pageStart s i fault + k)) v)) i
            (4096 * (fault / 4096) + k) := by
    intro k small v within
    have same := live.setByte within v
    have page := ((loadsRight_aligned (live.congr same) loud aligned readable inside).mp
      (right _ same)).1 k small
    rw [← page]
    have stored : (s.withDisk (update s.fds.world.disk (vol.place (fun i => chain.getD i 0)
        (pageStart s i fault + k)) v)).fds.world.disk (vol.place (fun i => chain.getD i 0)
          (pageStart s i fault + k)) = v := update_self ..
    exact (if_congr (by rw [← read]; rfl) (congrArg UInt8.toNat stored.symm) rfl)
  rcases Nat.lt_trichotomy n (fileBytes s i fault) with less | same | more
  · have within := within_length less
    have bound : fileBytes s i fault ≤ 4096 :=
      (Nat.min_le_left _ _).trans (Nat.min_le_right _ _)
    have missing := byte n (Nat.lt_of_lt_of_le less bound) 1 within
    rw [if_neg (Nat.lt_irrefl n), live.wanted_setByte less 1] at missing
    exact absurd missing (by decide)
  · exact same
  · have within : pageStart s i fault + fileBytes s i fault < (s.fds.pfd i).length := by omega
    have small : fileBytes s i fault < 4096 := Nat.lt_of_lt_of_le more short
    have extra := byte (fileBytes s i fault) small 1 within
    rw [if_pos more] at extra
    have beyond := (live.congr (live.setByte within 1)).wanted_rest (k := fileBytes s i fault)
      le_rfl small
    exact absurd (extra.trans beyond) (by decide)

/-- Off the first address of the page the bytes land in the wrong place: in the
page before it, or in front of where they belong. -/
theorem Live.not_unaligned (loud : s.testName ≠ "lat_pagefault") (unaligned : fault % 4096 ≠ 0)
    (run : s.Gives p fault f m)
    (readable : (s.fds.pfd i).flags &&& oWronly = 0)
    (inside : pageStart s i fault + fault % 4096 < (s.fds.pfd i).length)
    (some' : (s.mmap i).count fault (kvaOf f) ≠ 0) :
    ¬ ∀ d, SameTables vol s.fds.world.disk d → LoadsRight vol chain (s.withDisk d) p i fault := by
  intro right
  have started : 0 < fileBytes s i fault := live.fileBytes_pos.mpr (by omega)
  have slot := live.slot
  by_cases later : fault - (s.mmap i).start > fault % 4096
  · -- the first byte of the page is one that comes later in the file
    have begins : (s.mmap i).beginOf fault (kvaOf f) = kvaOf f := by
      rw [Mmap.beginOf, if_pos unaligned, if_pos later]
    have apart : vol.place (fun i => chain.getD i 0) (pageStart s i fault + fault % 4096) ≠
        vol.place (fun i => chain.getD i 0) (pageStart s i fault + 0) := by
      intro same
      have index : ∀ q, q < (s.fds.pfd i).length → q / vol.cs < chain.length := fun q bound =>
        Nat.div_lt_of_lt_mul (Nat.lt_of_lt_of_le bound live.file.covers)
      have equal := place_inj
        (clusters_of_nodup live.file.chainOn.valid live.file.chainOn.nodup 0)
        (index _ inside) (index _ (within_length started)) same
      omega
    have same := live.setByte (within_length started)
      (s.fds.world.disk (vol.place (fun i => chain.getD i 0) (pageStart s i fault + fault % 4096)) + 1)
    obtain ⟨rest, nfd, load, _⟩ := loadFile_first (live.file.congr same) slot.dev slot.name readable
      inside some'
    rw [update_of_ne apart] at load
    have page := ((loadsRight_loud (live.congr same) loud run load).mp (right _ same)).1 0 (by decide)
    rw [live.wanted_setByte started] at page
    have first := (congrArg (fun dest => copied dest _ (kvaOf f) 0) begins).symm.trans page
    rw [copied_head] at first
    exact absurd (UInt8.toNat.inj first) (by simp)
  · have begins : (s.mmap i).beginOf fault (kvaOf f) = kvaOf f - (fault - (s.mmap i).start) := by
      rw [Mmap.beginOf, if_pos unaligned, if_neg later]
    have start : 0 < fault - (s.mmap i).start := by
      have lower := live.lower
      have aligned := live.startPage
      omega
    have high : 0 < kvaOf f := Nat.lt_of_lt_of_le (by decide : 0 < freemem) (Nat.le_add_right ..)
    have before : kvaOf f - (fault - (s.mmap i).start) < kvaOf f := sub_lt high start
    generalize old : { s with mem := m }.byteAt (kvaOf f - (fault - (s.mmap i).start)) = x
    obtain ⟨v, differs⟩ : ∃ v : UInt8, v.toNat ≠ x := by
      rcases Nat.eq_zero_or_pos x with zero | positive
      · exact ⟨1, by rw [zero]; decide⟩
      · exact ⟨0, positive.ne⟩
    have same := live.setByte inside v
    obtain ⟨rest, nfd, load, _⟩ := loadFile_first (live.file.congr same) slot.dev slot.name readable
      inside some'
    rw [update_self] at load
    have others := ((loadsRight_loud (live.congr same) loud run load).mp (right _ same)).2.1
      (kvaOf f - (fault - (s.mmap i).start)) (.inl before)
    have begins' : ((s.withDisk (update s.fds.world.disk (vol.place
        (fun i => chain.getD i 0) (pageStart s i fault + fault % 4096)) v)).mmap i).beginOf fault
          (kvaOf f) = kvaOf f - (fault - (s.mmap i).start) := begins
    rw [begins', copied_head] at others
    exact differs (others.trans old)

end

end Fault

/-- Slot 3 maps the file of `smallDisk` at `0x10000000`; eight pages are free and
no pipe is open. -/
def smallMapping : State where
  mem := ⟨List.range 8, 8, fun _ => 0, fun _ _ => 0, fun _ => none⟩
  low := fun _ => 0
  fds :=
    { pfd := fun j =>
        if j.val = 3 then { smallFile 0 with mmapUsed := true }
        else { smallFile 0 with used := .unused }
      sockUsed := fun _ => false
      world :=
        { fat := smallVolume.fat
          disk := smallDisk
          pipes := ⟨fun _ => ⟨0, 0, false⟩, fun _ => initRingBuffer fun _ => 0, fun _ => [],
            fun _ => [], fun _ => .outside⟩
          stdinBuf := initRingBuffer fun _ => 0
          stdoutBuf := initRingBuffer fun _ => 0
          stderrBuf := initRingBuffer fun _ => 0
          screen := []
          kernelFile := fun _ _ => 0 } }
  mmap := fun _ => ⟨0x10000000, 8192, 0⟩
  testName := ""

theorem smallMapping_live (k : Nat) (inside : k < 4096) :
    Live smallVolume mEoc [5, 3] smallMapping 0 3 (0x10000000 + k) := by
  have page : (0x10000000 + k) / 4096 = 0x10000 := by omega
  have size : smallVolume.cs = 1024 := rfl
  refine
    { fat := rfl
      mark := by unfold IsEoc mEoc; omega
      file := ⟨small_chain, ?_, by decide, rfl, by decide⟩
      slot := ⟨by decide, rfl, by decide, rfl, by decide⟩
      pos_lt := by decide
      startPage := by decide
      offPage := by decide
      lower := Nat.le_add_right ..
      upper := Nat.add_lt_add_left (inside.trans (by decide)) _
      space := by decide
      offsets := by decide
      others := ?_
      unmapped := rfl
      taken := ?_ }
  · show 2048 ≤ smallVolume.cs * 2
    omega
  · intro j apart _ mapped
    have other : j.val ≠ 3 := fun same => apart (Fin.ext same)
    have absent : (smallMapping.fds.pfd j).mmapUsed = false := by
      show (if j.val = 3 then _ else _ : Fd).mmapUsed = false
      rw [if_neg other]
      rfl
    rw [absent] at mapped
    cases mapped
  · rw [page]
    exact ⟨_, _, rfl⟩

end CCore.LazyMmap
