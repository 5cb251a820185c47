import CCore.Fat.Geometry
import Mathlib.Data.List.Nodup

/-!
# The buffer cache (`drivers/sdcard/bio.c`)

`n` buffers hold sectors of type `D`.  A buffer that was assigned a sector is
on the hash chain of that sector; a buffer nobody refers to is on the LRU list.
The functions below are the pieces of `bget`, `brelse` and `bsync` between two
points where the source may block: `bgetScan` stops in front of `acquiresleep`
or `sleep`.  `Wired` is the invariant of the two kinds of lists.
-/
namespace CCore.Bio

open Function List

/-- `hashed` says that `hash.prev` is not `NULL`; `locked` is the sleeplock. -/
structure Buf (D : Type) where
  dev : Nat
  sectorno : Nat
  refcnt : Nat
  valid : Bool
  dirty : Bool
  hashed : Bool
  locked : Bool
  data : D

/-- The lists run from `head.next` to `head.prev`. -/
structure Cache (n : Nat) (D : Type) where
  bufs : Fin n → Buf D
  lru : List (Fin n)
  bcache : Nat → List (Fin n)
  nwait : Nat
  device : Nat → D

def bcacheTableSize : Nat := 150

def hashIdx (sectorno : Nat) : Nat := sectorno % bcacheTableSize

variable {n : Nat} {D : Type}

/-- `kmemset` zeroes every buffer; `blank` is the zeroed data. -/
def binit (n : Nat) (blank : D) (device : Nat → D) : Cache n D where
  bufs := fun _ => ⟨0, 0, 0, false, false, false, false, blank⟩
  lru := List.finRange n
  bcache := fun _ => []
  nwait := 0
  device := device

def Cache.setBuf (c : Cache n D) (b : Fin n) (buf : Buf D) : Cache n D :=
  { c with bufs := update c.bufs b buf }

def diskWriteBio (c : Cache n D) (b : Fin n) : Cache n D :=
  { c with device := update c.device (c.bufs b).sectorno (c.bufs b).data }

def lookup (c : Cache n D) (dev sectorno : Nat) : Option (Fin n) :=
  (c.bcache (hashIdx sectorno)).find? fun b =>
    decide ((c.bufs b).dev = dev ∧ (c.bufs b).sectorno = sectorno)

/-- The scan found `b` on its hash chain. -/
def hitBuf (c : Cache n D) (b : Fin n) : Cache n D :=
  let idx := hashIdx (c.bufs b).sectorno
  { c with
    bcache := if (c.bcache idx).head? = some b then c.bcache
      else update c.bcache idx (b :: (c.bcache idx).erase b)
    lru := if (c.bufs b).refcnt = 0 then c.lru.erase b else c.lru
    bufs := update c.bufs b { c.bufs b with refcnt := (c.bufs b).refcnt + 1 } }

/-- Buffer `b` of the LRU list takes a new identity. -/
def takeBuf (c : Cache n D) (dev sectorno : Nat) (b : Fin n) : Cache n D :=
  let saved := if (c.bufs b).dirty then diskWriteBio c b else c
  -- `list_del` unlinks the node from whatever chain it is on
  let unlinked := if (c.bufs b).hashed then fun i => (c.bcache i).erase b else c.bcache
  { saved with
    bcache := update unlinked (hashIdx sectorno) (b :: unlinked (hashIdx sectorno))
    lru := c.lru.erase b
    bufs := update c.bufs b
      { c.bufs b with
        dirty := false, dev := dev, sectorno := sectorno, refcnt := 1, hashed := true } }

inductive Found (n : Nat) where
  | hit (b : Fin n)
  | taken (b : Fin n)
  | full
  deriving DecidableEq, Repr

/-- `bget` from `rescan` to its `acquiresleep`, or to its `sleep` when the LRU
list is empty. -/
def bgetScan (c : Cache n D) (dev sectorno : Nat) : Found n × Cache n D :=
  match lookup c dev sectorno with
  | some b => (.hit b, hitBuf c b)
  | none =>
    match c.lru.getLast? with
    | some b => (.taken b, takeBuf c dev sectorno b)
    | none => (.full, c)

/-- The end of `acquiresleep`, when the test of `locked` has failed; a buffer
that was just taken is also marked invalid. -/
def lockBuf (c : Cache n D) (b : Fin n) (taken : Bool) : Cache n D :=
  c.setBuf b { c.bufs b with locked := true, valid := (c.bufs b).valid && !taken }

/-- The part of `bread` after `bget`. -/
def fillBuf (c : Cache n D) (b : Fin n) : Cache n D :=
  if (c.bufs b).valid then c
  else c.setBuf b { c.bufs b with data := c.device (c.bufs b).sectorno, valid := true }

/-- What a holder stores: the data and the two flags. -/
def storeBuf (c : Cache n D) (b : Fin n) (data : D) : Cache n D :=
  c.setBuf b { c.bufs b with data := data, valid := true, dirty := true }

def releaseBuf (c : Cache n D) (b : Fin n) : Cache n D :=
  c.setBuf b { c.bufs b with locked := false }

def bput (c : Cache n D) (b : Fin n) : Cache n D :=
  let put := c.setBuf b { c.bufs b with refcnt := (c.bufs b).refcnt - 1 }
  if (put.bufs b).refcnt = 0 then { put with lru := b :: put.lru } else put

/-- `disk_write_bio` and `dirty = 0`, as in `bwrite`. -/
def flushBuf (c : Cache n D) (b : Fin n) : Cache n D :=
  (diskWriteBio c b).setBuf b { c.bufs b with dirty := false }

/-- The loop body of `bsync`. -/
def syncBuf (c : Cache n D) (b : Fin n) : Cache n D :=
  if (c.bufs b).dirty then flushBuf c b else c

def bsync (c : Cache n D) : Cache n D := c.lru.foldl syncBuf c

/-! ## The lists -/

/-- A buffer is on the chain of its sector and on no other, once it has one;
no two buffers have the same sector; the LRU list holds the buffers without
references. -/
structure Wired {n : Nat} {D : Type} (c : Cache n D) : Prop where
  chained : ∀ b i, b ∈ c.bcache i ↔ (c.bufs b).hashed = true ∧ i = hashIdx (c.bufs b).sectorno
  chain_nodup : ∀ i, (c.bcache i).Nodup
  unique : ∀ b b', (c.bufs b).hashed = true → (c.bufs b').hashed = true →
    (c.bufs b).dev = (c.bufs b').dev → (c.bufs b).sectorno = (c.bufs b').sectorno → b = b'
  lru_nodup : c.lru.Nodup
  lru_iff : ∀ b, b ∈ c.lru ↔ (c.bufs b).refcnt = 0

variable {c : Cache n D} {b : Fin n}

theorem wired_binit (blank : D) (device : Nat → D) : Wired (binit n blank device) := by
  constructor
  · simp [binit]
  · simp [binit]
  · intro b b' hashed
    simp [binit] at hashed
  · exact nodup_finRange n
  · simp [binit]

theorem Wired.setBuf (wired : Wired c) {buf : Buf D} (dev : buf.dev = (c.bufs b).dev)
    (sectorno : buf.sectorno = (c.bufs b).sectorno) (refcnt : buf.refcnt = (c.bufs b).refcnt)
    (hashed : buf.hashed = (c.bufs b).hashed) : Wired (c.setBuf b buf) := by
  have keys : ∀ b', ((c.setBuf b buf).bufs b').dev = (c.bufs b').dev ∧
      ((c.setBuf b buf).bufs b').sectorno = (c.bufs b').sectorno ∧
      ((c.setBuf b buf).bufs b').refcnt = (c.bufs b').refcnt ∧
      ((c.setBuf b buf).bufs b').hashed = (c.bufs b').hashed := by
    intro b'
    rcases eq_or_ne b' b with rfl | same
    · simp [Cache.setBuf, dev, sectorno, refcnt, hashed]
    · simp [Cache.setBuf, same]
  constructor
  · intro b' i
    rw [(keys b').2.1, (keys b').2.2.2]
    exact wired.chained b' i
  · exact wired.chain_nodup
  · intro b₁ b₂
    rw [(keys b₁).1, (keys b₁).2.1, (keys b₁).2.2.2, (keys b₂).1, (keys b₂).2.1, (keys b₂).2.2.2]
    exact wired.unique b₁ b₂
  · exact wired.lru_nodup
  · intro b'
    rw [(keys b').2.2.1]
    exact wired.lru_iff b'

theorem Wired.flushBuf (wired : Wired c) : Wired (flushBuf c b) := by
  have written : Wired (diskWriteBio c b) := { wired with }
  unfold Bio.flushBuf
  apply written.setBuf <;> rfl

variable {dev sectorno : Nat}

theorem lookup_some (found : lookup c dev sectorno = some b) :
    b ∈ c.bcache (hashIdx sectorno) ∧ (c.bufs b).dev = dev ∧ (c.bufs b).sectorno = sectorno := by
  have matched := List.find?_some found
  simp only [decide_eq_true_eq] at matched
  exact ⟨List.mem_of_find?_eq_some found, matched⟩

theorem Wired.lookup_none (wired : Wired c)
    (missing : lookup c dev sectorno = none) (hashed : (c.bufs b).hashed = true)
    (sameDev : (c.bufs b).dev = dev) : (c.bufs b).sectorno ≠ sectorno := by
  intro same
  have onChain : b ∈ c.bcache (hashIdx sectorno) :=
    (wired.chained b _).mpr ⟨hashed, by rw [same]⟩
  have missed := List.find?_eq_none.mp missing b onChain
  simp [sameDev, same] at missed

theorem Wired.hitBuf (wired : Wired c) (hashed : (c.bufs b).hashed = true) : Wired (hitBuf c b) := by
  have onChain : b ∈ c.bcache (hashIdx (c.bufs b).sectorno) :=
    (wired.chained b _).mpr ⟨hashed, rfl⟩
  have keys : ∀ b', ((Bio.hitBuf c b).bufs b').dev = (c.bufs b').dev ∧
      ((Bio.hitBuf c b).bufs b').sectorno = (c.bufs b').sectorno ∧
      ((Bio.hitBuf c b).bufs b').hashed = (c.bufs b').hashed := by
    intro b'
    by_cases same : b' = b
    · subst same
      simp [Bio.hitBuf]
    · simp [Bio.hitBuf, same]
  have chains : ∀ b' i, b' ∈ (Bio.hitBuf c b).bcache i ↔ b' ∈ c.bcache i := by
    intro b' i
    unfold Bio.hitBuf
    dsimp only
    split_ifs
    · rfl
    · by_cases atIdx : i = hashIdx (c.bufs b).sectorno
      · subst atIdx
        rw [update_self, mem_cons, (wired.chain_nodup _).mem_erase_iff]
        by_cases same : b' = b
        · simp [same, onChain]
        · simp [same]
      · rw [update_of_ne atIdx]
  constructor
  · intro b' i
    rw [chains, (keys b').2.1, (keys b').2.2]
    exact wired.chained b' i
  · intro i
    unfold Bio.hitBuf
    dsimp only
    split_ifs
    · exact wired.chain_nodup i
    · by_cases atIdx : i = hashIdx (c.bufs b).sectorno
      · subst atIdx
        rw [update_self, nodup_cons]
        exact ⟨(wired.chain_nodup _).not_mem_erase, (wired.chain_nodup _).erase b⟩
      · rw [update_of_ne atIdx]
        exact wired.chain_nodup i
  · intro b₁ b₂
    rw [(keys b₁).1, (keys b₁).2.1, (keys b₁).2.2, (keys b₂).1, (keys b₂).2.1, (keys b₂).2.2]
    exact wired.unique b₁ b₂
  · unfold Bio.hitBuf
    split_ifs
    · exact wired.lru_nodup.erase b
    · exact wired.lru_nodup
  · intro b'
    unfold Bio.hitBuf
    dsimp only
    by_cases same : b' = b
    · subst same
      rw [update_self]
      split_ifs with unreferenced
      · simp [wired.lru_nodup.mem_erase_iff]
      · simp [wired.lru_iff, unreferenced]
    · rw [update_of_ne same, ← wired.lru_iff b']
      split_ifs
      · rw [mem_erase_of_ne same]
      · rfl

theorem Wired.takeBuf (wired : Wired c) (onLru : b ∈ c.lru)
    (missing : lookup c dev sectorno = none) : Wired (takeBuf c dev sectorno b) := by
  have unlinked : ∀ b' i, b' ∈ (if (c.bufs b).hashed then fun i => (c.bcache i).erase b
      else c.bcache) i ↔ b' ≠ b ∧ b' ∈ c.bcache i := by
    intro b' i
    cases hashed : (c.bufs b).hashed with
    | true => exact (wired.chain_nodup i).mem_erase_iff
    | false =>
      have off : b ∉ c.bcache i := by
        intro mem
        rw [((wired.chained b i).mp mem).1] at hashed
        cases hashed
      constructor
      · intro mem
        exact ⟨fun same => off (same ▸ mem), mem⟩
      · exact fun mem => mem.2
  have unlinked_nodup : ∀ i, ((if (c.bufs b).hashed then fun i => (c.bcache i).erase b
      else c.bcache) i).Nodup := by
    intro i
    split
    · exact (wired.chain_nodup i).erase b
    · exact wired.chain_nodup i
  have other : ∀ b', b' ≠ b → (Bio.takeBuf c dev sectorno b).bufs b' = c.bufs b' := by
    intro b' differs
    simp [Bio.takeBuf, differs]
  have self : (Bio.takeBuf c dev sectorno b).bufs b = { c.bufs b with
        dirty := false, dev := dev, sectorno := sectorno, refcnt := 1, hashed := true } := by
    simp [Bio.takeBuf]
  constructor
  · intro b' i
    unfold Bio.takeBuf
    dsimp only
    by_cases atIdx : i = hashIdx sectorno
    · subst atIdx
      rw [update_self, mem_cons, unlinked]
      by_cases same : b' = b
      · simp [same]
      · simp [same, wired.chained]
    · rw [update_of_ne atIdx, unlinked]
      by_cases same : b' = b
      · subst same
        simp [atIdx]
      · simp [same, wired.chained]
  · intro i
    unfold Bio.takeBuf
    dsimp only
    by_cases atIdx : i = hashIdx sectorno
    · subst atIdx
      rw [update_self, nodup_cons, unlinked]
      exact ⟨fun mem => mem.1 rfl, unlinked_nodup _⟩
    · rw [update_of_ne atIdx]
      exact unlinked_nodup i
  · intro b₁ b₂ hashed₁ hashed₂ sameDev sameSector
    by_cases first : b₁ = b <;> by_cases second : b₂ = b
    · rw [first, second]
    · subst first
      rw [self] at sameDev sameSector
      rw [other b₂ second] at hashed₂ sameDev sameSector
      exact absurd sameSector.symm (wired.lookup_none missing hashed₂ sameDev.symm)
    · subst second
      rw [self] at sameDev sameSector
      rw [other b₁ first] at hashed₁ sameDev sameSector
      exact absurd sameSector (wired.lookup_none missing hashed₁ sameDev)
    · rw [other b₁ first] at hashed₁ sameDev sameSector
      rw [other b₂ second] at hashed₂ sameDev sameSector
      exact wired.unique b₁ b₂ hashed₁ hashed₂ sameDev sameSector
  · exact wired.lru_nodup.erase b
  · intro b'
    have lru : (Bio.takeBuf c dev sectorno b).lru = c.lru.erase b := rfl
    rw [lru, wired.lru_nodup.mem_erase_iff, wired.lru_iff]
    by_cases same : b' = b
    · subst same
      simp [self]
    · simp [same, other b' same]

@[simp] theorem bput_bufs : (bput c b).bufs =
    update c.bufs b { c.bufs b with refcnt := (c.bufs b).refcnt - 1 } := by
  unfold bput
  dsimp only
  split_ifs <;> rfl

@[simp] theorem bput_bcache : (bput c b).bcache = c.bcache := by
  unfold bput
  dsimp only
  split_ifs <;> rfl

@[simp] theorem bput_device : (bput c b).device = c.device := by
  unfold bput
  dsimp only
  split_ifs <;> rfl

theorem Wired.bput (wired : Wired c) (referenced : (c.bufs b).refcnt ≠ 0) : Wired (bput c b) := by
  have keys : ∀ b', ((Bio.bput c b).bufs b').dev = (c.bufs b').dev ∧
      ((Bio.bput c b).bufs b').sectorno = (c.bufs b').sectorno ∧
      ((Bio.bput c b).bufs b').hashed = (c.bufs b').hashed := by
    intro b'
    by_cases same : b' = b
    · subst same
      simp
    · simp [same]
  have offLru : b ∉ c.lru := fun mem => referenced ((wired.lru_iff b).mp mem)
  constructor
  · intro b' i
    rw [bput_bcache, (keys b').2.1, (keys b').2.2]
    exact wired.chained b' i
  · rw [bput_bcache]
    exact wired.chain_nodup
  · intro b₁ b₂
    rw [(keys b₁).1, (keys b₁).2.1, (keys b₁).2.2, (keys b₂).1, (keys b₂).2.1, (keys b₂).2.2]
    exact wired.unique b₁ b₂
  · unfold Bio.bput
    dsimp only
    split_ifs
    · exact nodup_cons.mpr ⟨offLru, wired.lru_nodup⟩
    · exact wired.lru_nodup
  · intro b'
    unfold Bio.bput Cache.setBuf
    dsimp only
    by_cases same : b' = b
    · subst same
      split_ifs with last
      · simpa using last
      · simpa [offLru] using last
    · split_ifs <;> simp [same, wired.lru_iff]

end CCore.Bio
