import CCore.Bio.Cache

/-!
# The cache is a plain array of sectors (`drivers/sdcard/disk.c`)

Calls of `disk_read`, `disk_write` and `bsync` made one after another.  Between
two calls no buffer is referenced or locked, so `bget` never blocks; `none` in
the definitions below stands for a call that would block with nobody left to
wake it, and `serve_refines` shows that this never happens.  `Holds` relates a
cache to the contents of the array it stands for.
-/
namespace CCore.Bio

open Fat Function List Option
variable {n : Nat} {D : Type}

/-- `bget` when no other process runs. -/
def bget (c : Cache n D) (dev sectorno : Nat) : Option (Fin n × Cache n D) :=
  match bgetScan c dev sectorno with
  | (.hit b, next) => if (next.bufs b).locked then none else some (b, lockBuf next b false)
  | (.taken b, next) => if (next.bufs b).locked then none else some (b, lockBuf next b true)
  | (.full, _) => none

def bread (c : Cache n D) (dev sectorno : Nat) : Option (Fin n × Cache n D) :=
  (bget c dev sectorno).map fun got => (got.1, fillBuf got.2 got.1)

def brelse (c : Cache n D) (b : Fin n) : Cache n D := bput (releaseBuf c b) b

/-- The loop of `disk_read` over the sector numbers it visits. -/
def readSectors (c : Cache n D) : List Nat → Option (List D × Cache n D)
  | [] => some ([], c)
  | sector :: rest =>
    (bread c 0 sector).bind fun got =>
      (readSectors (brelse got.2 got.1) rest).map fun out =>
        ((got.2.bufs got.1).data :: out.1, out.2)

/-- The loop of `disk_write` over the sector numbers and the data. -/
def writeSectors (c : Cache n D) : List (Nat × D) → Option (Cache n D)
  | [] => some c
  | (sector, data) :: rest =>
    (bget c 0 sector).bind fun got => writeSectors (brelse (storeBuf got.2 got.1 data) got.1) rest

/-- `sector + i` is computed in `uint32_t`. -/
def sectorsFrom (sector count : Nat) : List Nat :=
  (List.range count).map fun i => u32 (sector + i)

def diskRead (c : Cache n D) (sector count : Nat) : Option (List D × Cache n D) :=
  readSectors c (sectorsFrom sector count)

def diskWrite (c : Cache n D) (data : List D) (sector : Nat) : Option (Cache n D) :=
  writeSectors c ((sectorsFrom sector data.length).zip data)

inductive Op (D : Type) where
  | read (sector count : Nat)
  | write (sector : Nat) (data : List D)
  | sync

/-- The result of a call and the cache after it. -/
def serveOne (c : Cache n D) : Op D → Option (List D × Cache n D)
  | .read sector count => diskRead c sector count
  | .write sector data => (diskWrite c data sector).map fun next => ([], next)
  | .sync => some ([], bsync c)

def serve (c : Cache n D) : List (Op D) → Option (List (List D) × Cache n D)
  | [] => some ([], c)
  | op :: rest =>
    (serveOne c op).bind fun out => (serve out.2 rest).map fun outs => (out.1 :: outs.1, outs.2)

/-- The array after a write. -/
def flatWrite (array : Nat → D) : List (Nat × D) → Nat → D
  | [] => array
  | (sector, data) :: rest => flatWrite (update array sector data) rest

def flatOne (array : Nat → D) : Op D → List D × (Nat → D)
  | .read sector count => ((sectorsFrom sector count).map array, array)
  | .write sector data => ([], flatWrite array ((sectorsFrom sector data.length).zip data))
  | .sync => ([], array)

/-- The same calls on a plain array of sectors. -/
def flatServe (array : Nat → D) : List (Op D) → List (List D) × (Nat → D)
  | [] => ([], array)
  | op :: rest =>
    let out := flatOne array op
    let outs := flatServe out.2 rest
    (out.1 :: outs.1, outs.2)

/-! ## The simulation relation -/

/-- The cache stands for `array`: a valid buffer has the data of its sector,
and the device has the data of every sector without a dirty buffer. -/
structure Holds (c : Cache n D) (array : Nat → D) : Prop where
  dev_zero : ∀ b, (c.bufs b).hashed = true → (c.bufs b).dev = 0
  valid_data : ∀ b, (c.bufs b).hashed = true → (c.bufs b).valid = true →
    (c.bufs b).data = array (c.bufs b).sectorno
  dirty_valid : ∀ b, (c.bufs b).dirty = true → (c.bufs b).hashed = true ∧ (c.bufs b).valid = true
  clean_device : ∀ s, (∀ b, (c.bufs b).hashed = true → (c.bufs b).sectorno = s →
    (c.bufs b).dirty = false) → c.device s = array s

/-- No buffer is referenced or locked. -/
structure Idle (c : Cache n D) : Prop extends Wired c where
  unreferenced : ∀ b, (c.bufs b).refcnt = 0
  unlocked : ∀ b, (c.bufs b).locked = false

structure Busy (c : Cache n D) (b : Fin n) (sector : Nat) : Prop extends Wired c where
  hashed : (c.bufs b).hashed = true
  sectorno : (c.bufs b).sectorno = sector
  referenced : (c.bufs b).refcnt = 1
  unreferenced : ∀ b', b' ≠ b → (c.bufs b').refcnt = 0
  unlocked : ∀ b', b' ≠ b → (c.bufs b').locked = false

variable {c : Cache n D} {array : Nat → D} {b : Fin n} {sector : Nat}

/-- What the relation reads of a buffer. -/
def Buf.content (buf : Buf D) : Nat × Nat × Bool × Bool × Bool × D :=
  (buf.dev, buf.sectorno, buf.hashed, buf.valid, buf.dirty, buf.data)

theorem Holds.congr (holds : Holds c array) {other : Cache n D} (device : other.device = c.device)
    (same : ∀ b, (other.bufs b).content = (c.bufs b).content) : Holds other array := by
  simp only [Buf.content, Prod.mk.injEq] at same
  constructor
  · intro b
    rw [(same b).2.2.1, (same b).1]
    exact holds.dev_zero b
  · intro b
    rw [(same b).2.2.1, (same b).2.2.2.1, (same b).2.2.2.2.2, (same b).2.1]
    exact holds.valid_data b
  · intro b
    rw [(same b).2.2.2.2.1, (same b).2.2.1, (same b).2.2.2.1]
    exact holds.dirty_valid b
  · intro s clean
    rw [device]
    apply holds.clean_device s
    intro b
    rw [← (same b).2.2.1, ← (same b).2.1, ← (same b).2.2.2.2.1]
    exact clean b

theorem holds_binit (blank : D) (device : Nat → D) : Holds (binit n blank device) device := by
  constructor <;> simp [binit]

theorem idle_binit (blank : D) (device : Nat → D) : Idle (binit n blank device) :=
  ⟨wired_binit blank device, fun _ => rfl, fun _ => rfl⟩

section
variable (holds : Holds c array)
include holds

theorem Holds.hit : Holds (lockBuf (hitBuf c b) b false) array := by
  apply holds.congr
  · rfl
  · intro b'
    rcases eq_or_ne b' b with rfl | same
    · simp [lockBuf, hitBuf, Cache.setBuf, Buf.content]
    · simp [lockBuf, hitBuf, Cache.setBuf, Buf.content, same]

theorem Holds.taken : Holds (lockBuf (takeBuf c 0 sector b) b true) array := by
  have other : ∀ b', b' ≠ b → (lockBuf (takeBuf c 0 sector b) b true).bufs b' = c.bufs b' := by
    intro b' differs
    simp [lockBuf, takeBuf, Cache.setBuf, differs]
  have self : (lockBuf (takeBuf c 0 sector b) b true).bufs b = { c.bufs b with
        dirty := false, dev := 0, sectorno := sector, refcnt := 1, hashed := true
        locked := true, valid := false } := by
    simp [lockBuf, takeBuf, Cache.setBuf]
  have device : (lockBuf (takeBuf c 0 sector b) b true).device = if (c.bufs b).dirty then
        update c.device (c.bufs b).sectorno (c.bufs b).data else c.device := by
    cases dirty : (c.bufs b).dirty <;>
      simp [lockBuf, takeBuf, Cache.setBuf, diskWriteBio, dirty]
  constructor
  · intro b' hashed
    rcases eq_or_ne b' b with rfl | same
    · rw [self]
    · rw [other b' same] at hashed ⊢
      exact holds.dev_zero b' hashed
  · intro b' hashed valid
    rcases eq_or_ne b' b with rfl | same
    · rw [self] at valid
      cases valid
    · rw [other b' same] at hashed valid ⊢
      exact holds.valid_data b' hashed valid
  · intro b' dirty
    rcases eq_or_ne b' b with rfl | same
    · rw [self] at dirty
      cases dirty
    · rw [other b' same] at dirty ⊢
      exact holds.dirty_valid b' dirty
  · intro s clean
    -- before the eviction, only `b` itself can have been a dirty buffer of `s`
    have others : ∀ b', b' ≠ b → (c.bufs b').hashed = true → (c.bufs b').sectorno = s →
        (c.bufs b').dirty = false := by
      intro b' differs
      rw [← other b' differs]
      exact clean b'
    rw [device]
    cases dirty : (c.bufs b).dirty with
    | false =>
      apply holds.clean_device s
      intro b' hashed atS
      by_cases same : b' = b
      · exact same ▸ dirty
      · exact others b' same hashed atS
    | true =>
      obtain ⟨hashed, valid⟩ := holds.dirty_valid b dirty
      simp only [if_true]
      by_cases old : s = (c.bufs b).sectorno
      · subst old
        rw [update_self]
        exact holds.valid_data b hashed valid
      · rw [update_of_ne old]
        apply holds.clean_device s
        intro b' hashed' atS
        apply others b' _ hashed' atS
        intro same
        subst same
        exact old atS.symm

theorem Holds.fill (busy : Busy c b sector) :
    Holds (fillBuf c b) array ∧ ((fillBuf c b).bufs b).data = array sector := by
  unfold fillBuf
  cases valid : (c.bufs b).valid with
  | true =>
    constructor
    · simpa [valid] using holds
    · simpa [valid, busy.sectorno] using holds.valid_data b busy.hashed valid
  | false =>
    have clean : (c.bufs b).dirty = false := by
      cases dirty : (c.bufs b).dirty with
      | false => rfl
      | true =>
        rw [(holds.dirty_valid b dirty).2] at valid
        cases valid
    have loaded : c.device (c.bufs b).sectorno = array (c.bufs b).sectorno := by
      apply holds.clean_device
      intro b' hashed atS
      have sameDev : (c.bufs b').dev = (c.bufs b).dev := by
        rw [holds.dev_zero b' hashed, holds.dev_zero b busy.hashed]
      rw [busy.unique b' b hashed busy.hashed sameDev atS]
      exact clean
    simp only [Bool.false_eq_true, if_false, Cache.setBuf, update_self]
    constructor
    · constructor
      · intro b'
        rcases eq_or_ne b' b with rfl | same
        · simpa using holds.dev_zero b'
        · simpa [same] using holds.dev_zero b'
      · intro b'
        rcases eq_or_ne b' b with rfl | same
        · simpa using fun _ => loaded
        · simpa [same] using holds.valid_data b'
      · intro b'
        rcases eq_or_ne b' b with rfl | same
        · simp [clean]
        · simpa [same] using holds.dirty_valid b'
      · intro s cleanS
        apply holds.clean_device s
        intro b' hashed atS
        by_cases same : b' = b
        · exact same ▸ clean
        · have kept := cleanS b'
          simp only [update_of_ne same] at kept
          exact kept hashed atS
    · rw [loaded, busy.sectorno]

theorem Holds.store (busy : Busy c b sector) (data : D) :
    Holds (storeBuf c b data) (update array sector data) := by
  unfold storeBuf Cache.setBuf
  have apart : ∀ b', b' ≠ b → (c.bufs b').hashed = true → (c.bufs b').sectorno ≠ sector := by
    intro b' differs hashed atS
    have sameDev : (c.bufs b').dev = (c.bufs b).dev := by
      rw [holds.dev_zero b' hashed, holds.dev_zero b busy.hashed]
    exact differs (busy.unique b' b hashed busy.hashed sameDev (by rw [atS, busy.sectorno]))
  constructor
  · intro b'
    rcases eq_or_ne b' b with rfl | same
    · simpa using holds.dev_zero b'
    · simpa [same] using holds.dev_zero b'
  · intro b'
    rcases eq_or_ne b' b with rfl | same
    · simp [busy.sectorno]
    · simp only [update_of_ne same]
      intro hashed valid
      rw [update_of_ne (apart b' same hashed)]
      exact holds.valid_data b' hashed valid
  · intro b'
    rcases eq_or_ne b' b with rfl | same
    · simp [busy.hashed]
    · simpa [same] using holds.dirty_valid b'
  · intro s clean
    have differs : s ≠ sector := by
      intro atS
      have dirty := clean b
      simp [busy.hashed, busy.sectorno, atS] at dirty
    rw [update_of_ne differs]
    apply holds.clean_device s
    intro b' hashed atS
    have otherBuf : b' ≠ b := by
      intro same
      subst same
      exact differs (atS.symm.trans busy.sectorno)
    have kept := clean b'
    simp only [update_of_ne otherBuf] at kept
    exact kept hashed atS

end

theorem Idle.bget (idle : Idle c) (holds : Holds c array) (pos : 0 < n) (sector : Nat) :
    ∃ b next, bget c 0 sector = some (b, next) ∧ Busy next b sector ∧ Holds next array := by
  unfold Bio.bget bgetScan
  cases found : lookup c 0 sector with
  | some b =>
    obtain ⟨onChain, _, atSector⟩ := lookup_some found
    have hashed := ((idle.chained b _).mp onChain).1
    have open' : ((hitBuf c b).bufs b).locked = false := by simp [hitBuf, idle.unlocked b]
    refine ⟨b, lockBuf (hitBuf c b) b false, by simp [open'], ?_, holds.hit⟩
    constructor
    · exact (idle.toWired.hitBuf hashed).setBuf rfl rfl rfl rfl
    · simpa [lockBuf, hitBuf, Cache.setBuf] using hashed
    · simpa [lockBuf, hitBuf, Cache.setBuf] using atSector
    · simp [lockBuf, hitBuf, Cache.setBuf, idle.unreferenced b]
    · intro b' differs
      simpa [lockBuf, hitBuf, Cache.setBuf, differs] using idle.unreferenced b'
    · intro b' differs
      simpa [lockBuf, hitBuf, Cache.setBuf, differs] using idle.unlocked b'
  | none =>
    cases last : c.lru.getLast? with
    | none =>
      have onLru : (⟨0, pos⟩ : Fin n) ∈ c.lru :=
        (idle.lru_iff _).mpr (idle.unreferenced _)
      rw [List.getLast?_eq_none_iff.mp last] at onLru
      cases onLru
    | some b =>
      have open' : ((takeBuf c 0 sector b).bufs b).locked = false := by
        simp [takeBuf, idle.unlocked b]
      have wired := idle.toWired.takeBuf (List.mem_of_getLast? last) found
      refine ⟨b, lockBuf (takeBuf c 0 sector b) b true, by simp [open'], ?_, holds.taken⟩
      constructor
      · exact wired.setBuf rfl rfl rfl rfl
      iterate 3 · simp [lockBuf, takeBuf, Cache.setBuf]
      · intro b' differs
        simpa [lockBuf, takeBuf, Cache.setBuf, differs] using idle.unreferenced b'
      · intro b' differs
        simpa [lockBuf, takeBuf, Cache.setBuf, differs] using idle.unlocked b'

theorem Busy.setBuf (busy : Busy c b sector) {buf : Buf D} (dev : buf.dev = (c.bufs b).dev)
    (sectorno : buf.sectorno = (c.bufs b).sectorno) (refcnt : buf.refcnt = (c.bufs b).refcnt)
    (hashed : buf.hashed = (c.bufs b).hashed) : Busy (c.setBuf b buf) b sector := by
  constructor
  · exact busy.toWired.setBuf dev sectorno refcnt hashed
  · simpa [Cache.setBuf, hashed] using busy.hashed
  · simpa [Cache.setBuf, sectorno] using busy.sectorno
  · simpa [Cache.setBuf, refcnt] using busy.referenced
  · intro b' differs
    simpa [Cache.setBuf, differs] using busy.unreferenced b' differs
  · intro b' differs
    simpa [Cache.setBuf, differs] using busy.unlocked b' differs

theorem Busy.fill (busy : Busy c b sector) : Busy (fillBuf c b) b sector := by
  unfold fillBuf
  split
  · exact busy
  · exact busy.setBuf rfl rfl rfl rfl

theorem Busy.brelse (busy : Busy c b sector) (holds : Holds c array) :
    Idle (brelse c b) ∧ Holds (brelse c b) array := by
  unfold Bio.brelse
  constructor
  · constructor
    · apply Wired.bput
      · exact busy.toWired.setBuf rfl rfl rfl rfl
      · simp [releaseBuf, Cache.setBuf, busy.referenced]
    · intro b'
      by_cases same : b' = b
      · subst same
        simp [Cache.setBuf, releaseBuf, busy.referenced]
      · simpa [Cache.setBuf, releaseBuf, same] using busy.unreferenced b' same
    · intro b'
      by_cases same : b' = b
      · subst same
        simp [Cache.setBuf, releaseBuf]
      · simpa [Cache.setBuf, releaseBuf, same] using busy.unlocked b' same
  · apply holds.congr
    · simp [Cache.setBuf, releaseBuf]
    · intro b'
      by_cases same : b' = b
      · subst same
        simp [Cache.setBuf, releaseBuf, Buf.content]
      · simp [Cache.setBuf, releaseBuf, Buf.content, same]

/-! ## The calls -/

theorem readSectors_refines (sectors : List Nat) (idle : Idle c) (holds : Holds c array)
    (pos : 0 < n) : ∃ next, readSectors c sectors = some (sectors.map array, next) ∧
    Idle next ∧ Holds next array := by
  induction sectors generalizing c with
  | nil => exact ⟨c, rfl, idle, holds⟩
  | cons sector rest ih =>
    obtain ⟨b, got, run, busy, holdsGot⟩ := idle.bget holds pos sector
    obtain ⟨holdsFill, data⟩ := holdsGot.fill busy
    obtain ⟨idleNext, holdsNext⟩ := busy.fill.brelse holdsFill
    obtain ⟨next, restRun, idleLast, holdsLast⟩ := ih idleNext holdsNext
    refine ⟨next, ?_, idleLast, holdsLast⟩
    simp [readSectors, bread, run, restRun, data]

theorem writeSectors_refines (writes : List (Nat × D)) (idle : Idle c)
    (holds : Holds c array) (pos : 0 < n) : ∃ next, writeSectors c writes = some next ∧
    Idle next ∧ Holds next (flatWrite array writes) := by
  induction writes generalizing c array with
  | nil => exact ⟨c, rfl, idle, holds⟩
  | cons write rest ih =>
    obtain ⟨sector, data⟩ := write
    obtain ⟨b, got, run, busy, holdsGot⟩ := idle.bget holds pos sector
    have stored : Busy (storeBuf got b data) b sector := busy.setBuf rfl rfl rfl rfl
    obtain ⟨idleNext, holdsNext⟩ := stored.brelse (holdsGot.store busy data)
    obtain ⟨next, restRun, idleLast, holdsLast⟩ := ih idleNext holdsNext
    refine ⟨next, ?_, idleLast, holdsLast⟩
    simp [writeSectors, run, restRun]

theorem flushBuf_bufs (b' : Fin n) : (flushBuf c b).bufs b' =
    { c.bufs b' with dirty := decide (b' ≠ b) && (c.bufs b').dirty } := by
  rcases eq_or_ne b' b with rfl | same
  · simp [flushBuf, Cache.setBuf]
  · simp [flushBuf, Cache.setBuf, diskWriteBio, same]

theorem syncBuf_refines (idle : Idle c) (holds : Holds c array) :
    Idle (syncBuf c b) ∧ Holds (syncBuf c b) array ∧ ((syncBuf c b).bufs b).dirty = false ∧
      ∀ b', (c.bufs b').dirty = false → ((syncBuf c b).bufs b').dirty = false := by
  unfold syncBuf
  cases dirty : (c.bufs b).dirty with
  | false => simpa [dirty] using ⟨idle, holds⟩
  | true =>
    obtain ⟨hashed, valid⟩ := holds.dirty_valid b dirty
    simp only [if_true]
    refine ⟨?_, ?_, by simp [flushBuf_bufs], ?_⟩
    · constructor
      · exact idle.toWired.flushBuf
      · simpa [flushBuf_bufs] using idle.unreferenced
      · simpa [flushBuf_bufs] using idle.unlocked
    · constructor
      · simpa [flushBuf_bufs] using holds.dev_zero
      · simpa [flushBuf_bufs] using holds.valid_data
      · intro b'
        simpa [flushBuf_bufs] using fun _ => holds.dirty_valid b'
      · intro s clean
        by_cases atS : s = (c.bufs b).sectorno
        · subst atS
          simpa [flushBuf, Cache.setBuf, diskWriteBio] using holds.valid_data b hashed valid
        · simp only [flushBuf, Cache.setBuf, diskWriteBio, update_of_ne atS]
          apply holds.clean_device s
          intro b' hashed' atS'
          have differs : b' ≠ b := by
            intro same
            subst same
            exact atS atS'.symm
          have kept := clean b'
          simp only [flushBuf_bufs, differs, ne_eq, not_false_eq_true, decide_true,
            Bool.true_and] at kept
          exact kept hashed' atS'
    · intro b' clean
      simp [flushBuf_bufs, clean]

theorem foldl_syncBuf_refines (bufs : List (Fin n)) (idle : Idle c) (holds : Holds c array) :
    Idle (bufs.foldl syncBuf c) ∧ Holds (bufs.foldl syncBuf c) array ∧
      ∀ b, b ∈ bufs ∨ (c.bufs b).dirty = false → ((bufs.foldl syncBuf c).bufs b).dirty = false := by
  induction bufs generalizing c with
  | nil =>
    refine ⟨idle, holds, ?_⟩
    intro b clean
    rcases clean with mem | clean
    · cases mem
    · exact clean
  | cons b rest ih =>
    obtain ⟨idleNext, holdsNext, cleaned, kept⟩ := syncBuf_refines (b := b) idle holds
    obtain ⟨idleLast, holdsLast, clean⟩ := ih idleNext holdsNext
    refine ⟨idleLast, holdsLast, ?_⟩
    intro b' before
    apply clean b'
    rcases before with mem | before
    · rcases mem_cons.mp mem with same | mem
      · subst same
        exact .inr cleaned
      · exact .inl mem
    · exact .inr (kept b' before)

theorem bsync_refines (idle : Idle c) (holds : Holds c array) :
    Idle (bsync c) ∧ Holds (bsync c) array ∧ (bsync c).device = array := by
  obtain ⟨idleNext, holdsNext, clean⟩ := foldl_syncBuf_refines c.lru idle holds
  refine ⟨idleNext, holdsNext, ?_⟩
  funext s
  apply holdsNext.clean_device s
  intro b _ _
  exact clean b (.inl ((idle.lru_iff b).mpr (idle.unreferenced b)))

theorem serveOne_refines (op : Op D) (idle : Idle c) (holds : Holds c array) (pos : 0 < n) :
    ∃ next, serveOne c op = some ((flatOne array op).1, next) ∧ Idle next ∧
      Holds next (flatOne array op).2 ∧ (op = .sync → next.device = (flatOne array op).2) := by
  cases op with
  | read sector count =>
    obtain ⟨next, run, idleNext, holdsNext⟩ :=
      readSectors_refines (sectorsFrom sector count) idle holds pos
    exact ⟨next, run, idleNext, holdsNext, by simp⟩
  | write sector data =>
    obtain ⟨next, run, idleNext, holdsNext⟩ :=
      writeSectors_refines ((sectorsFrom sector data.length).zip data) idle holds pos
    exact ⟨next, by simp [serveOne, diskWrite, run, flatOne], idleNext, holdsNext, by simp⟩
  | sync =>
    obtain ⟨idleNext, holdsNext, device⟩ := bsync_refines idle holds
    exact ⟨bsync c, rfl, idleNext, holdsNext, fun _ => device⟩

theorem serve_refines_from (ops : List (Op D)) (idle : Idle c) (holds : Holds c array)
    (pos : 0 < n) : ∃ final, serve c ops = some ((flatServe array ops).1, final) ∧
    (∀ front, ops = front ++ [.sync] → final.device = (flatServe array ops).2) := by
  induction ops generalizing c array with
  | nil =>
    refine ⟨c, rfl, ?_⟩
    intro front split
    simp at split
  | cons op rest ih =>
    obtain ⟨next, run, idleNext, holdsNext, synced⟩ := serveOne_refines op idle holds pos
    obtain ⟨final, restRun, restSynced⟩ := ih idleNext holdsNext
    refine ⟨final, by simp [serve, run, restRun, flatServe], ?_⟩
    intro front split
    cases front with
    | nil =>
      obtain ⟨rfl, rfl⟩ := List.cons.inj split
      obtain rfl : next = final := by simpa [serve, flatServe] using restRun
      exact synced rfl
    | cons first others =>
      obtain ⟨_, rfl⟩ := List.cons.inj split
      exact restSynced others rfl

theorem serve_stands (ops : List (Op D)) (idle : Idle c) (holds : Holds c array) (pos : 0 < n)
    {outs : List (List D)} {final : Cache n D} (run : serve c ops = some (outs, final)) :
    Idle final ∧ Holds final (flatServe array ops).2 := by
  induction ops generalizing c array outs with
  | nil =>
    cases run
    exact ⟨idle, holds⟩
  | cons op rest ih =>
    obtain ⟨next, first, idleNext, holdsNext, _⟩ := serveOne_refines op idle holds pos
    simp only [serve, first, bind_some] at run
    obtain ⟨others, restRun, same⟩ := map_eq_some_iff.mp run
    cases same
    exact ih idleNext holdsNext restRun

/-- After `binit`, every sequence of calls returns, every read returns what the
plain array has, and a final `bsync` leaves the array on the device. -/
theorem serve_refines (pos : 0 < n) (blank : D) (device : Nat → D) (ops : List (Op D)) :
    ∃ final, serve (binit n blank device) ops = some ((flatServe device ops).1, final) ∧
      (∀ front, ops = front ++ [.sync] → final.device = (flatServe device ops).2) :=
  serve_refines_from ops (idle_binit blank device) (holds_binit blank device) pos

theorem serve_refines_eviction :
    ∃ final, serve (binit 2 0 fun s => s) [.write 7 [70, 80], .write 157 [9], .read 7 2, .sync] =
        some ([[], [], [70, 80], []], final) ∧ final.device 157 = 9 ∧ final.device 7 = 70 := by
  obtain ⟨final, run, synced⟩ := serve_refines (n := 2) (by decide) 0 (fun s => s)
    [.write 7 [70, 80], .write 157 [9], .read 7 2, .sync]
  refine ⟨final, run, ?_⟩
  rw [synced [.write 7 [70, 80], .write 157 [9], .read 7 2] rfl]
  decide

end CCore.Bio
