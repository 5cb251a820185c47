import CCore.Bio.Cache
import CCore.Lib.Run
import Mathlib.Data.Fintype.BigOperators

/-!
# Processes that share the buffer cache

Any number of processes run `bread` or `bget`, change the buffer, and give it
back with `brelse` or `bwrite`.  A process leaves the processor only where
`acquiresleep` or `sleep` blocks it, and `signal` may wake it there for no
reason of its own.  `Inv` is what every step keeps; the law of the cache
follows from it in every reachable state.
-/
namespace CCore.Bio

open Run Function List Option Finset Bool

/-- Where a process stands.  `reads` tells `bread` from `bget`; `taken` tells
the miss path of `bget` from the hit path; `asleep` is cleared by a wake-up,
after which the process may run again. -/
inductive Place (n : Nat) where
  | idle
  | sleeping (reads : Bool) (dev sectorno : Nat) (asleep : Bool)
  | locking (reads : Bool) (b : Fin n) (taken : Bool) (asleep : Bool)
  | holding (b : Fin n)
  deriving DecidableEq, Repr

/-- `assigned` is a history variable: the buffers that `bget` ever took for a
sector. -/
structure System (n : Nat) (D P : Type) where
  cache : Cache n D
  place : P → Place n
  assigned : Fin n → Bool

inductive Act (D P : Type) where
  | get (p : P) (reads : Bool) (dev sectorno : Nat)
  | resume (p : P)
  | store (p : P) (data : D)
  | brelse (p : P)
  | bwrite (p : P)
  | signal (p : P)

section Model
variable {n : Nat} {D P : Type} [DecidableEq P]

def bootSystem (blank : D) (device : Nat → D) : System n D P :=
  ⟨binit n blank device, fun _ => .idle, fun _ => false⟩

def System.move (s : System n D P) (p : P) (place : Place n) : System n D P :=
  { s with place := update s.place p place }

/-- One test of the lock in `acquiresleep`, and the rest of the call when the
lock is free. -/
def acquire (s : System n D P) (p : P) (reads : Bool) (b : Fin n) (taken : Bool) : System n D P :=
  if (s.cache.bufs b).locked then s.move p (.locking reads b taken true)
  else
    let locked := lockBuf s.cache b taken
    { s.move p (.holding b) with cache := if reads then fillBuf locked b else locked }

/-- `bget` from `rescan` on. -/
def rescan (s : System n D P) (p : P) (reads : Bool) (dev sectorno : Nat) : System n D P :=
  match bgetScan s.cache dev sectorno with
  | (.hit b, next) =>
    acquire { s.move p (.locking reads b false false) with cache := next } p reads b false
  | (.taken b, next) =>
    acquire
      { s.move p (.locking reads b true false) with
        cache := next, assigned := update s.assigned b true } p reads b true
  | (.full, next) =>
    { s.move p (.sleeping reads dev sectorno true) with
      cache := { next with nwait := next.nwait + 1 } }

/-- `releasesleep` wakes everybody who waits for the lock. -/
def wakeLock (b : Fin n) : Place n → Place n
  | .locking reads b' taken asleep => .locking reads b' taken (asleep && decide (b' ≠ b))
  | other => other

/-- `wakeup` wakes everybody who waits for a buffer. -/
def wakeSleep : Place n → Place n
  | .sleeping reads dev sectorno _ => .sleeping reads dev sectorno false
  | other => other

def wakeAny : Place n → Place n
  | .sleeping reads dev sectorno _ => .sleeping reads dev sectorno false
  | .locking reads b taken _ => .locking reads b taken false
  | other => other

/-- `brelse`. -/
def giveBack (s : System n D P) (p : P) (b : Fin n) : System n D P :=
  let put := bput (releaseBuf s.cache b) b
  let wakes := (put.bufs b).refcnt = 0 ∧ 0 < put.nwait
  let woken := fun q => if wakes then wakeSleep (wakeLock b (s.place q)) else wakeLock b (s.place q)
  { s with cache := put, place := update woken p .idle }

def step (s : System n D P) : Act D P → Option (System n D P)
  | .get p reads dev sectorno =>
    if s.place p = .idle then some (rescan s p reads dev sectorno) else none
  | .resume p =>
    match s.place p with
    | .sleeping reads dev sectorno false =>
      some (rescan { s with cache := { s.cache with nwait := s.cache.nwait - 1 } } p reads
        dev sectorno)
    | .locking reads b taken false => some (acquire s p reads b taken)
    | _ => none
  | .store p data =>
    match s.place p with
    | .holding b => some { s with cache := storeBuf s.cache b data }
    | _ => none
  | .brelse p =>
    match s.place p with
    | .holding b => some (giveBack s p b)
    | _ => none
  | .bwrite p =>
    match s.place p with
    | .holding b => some (giveBack { s with cache := flushBuf s.cache b } p b)
    | _ => none
  | .signal p => some (s.move p (wakeAny (s.place p)))

/-- The process obtained `b` and has not given it back. -/
def Place.refersTo (b : Fin n) : Place n → Bool
  | .locking _ b' _ _ => decide (b' = b)
  | .holding b' => decide (b' = b)
  | _ => false

@[simp] theorem refersTo_idle (b : Fin n) : (Place.idle : Place n).refersTo b = false := rfl

@[simp] theorem refersTo_sleeping (b : Fin n) (reads : Bool) (dev sectorno : Nat)
    (asleep : Bool) : (Place.sleeping reads dev sectorno asleep : Place n).refersTo b = false :=
  rfl

@[simp] theorem refersTo_locking (b b' : Fin n) (reads taken asleep : Bool) :
    (Place.locking reads b' taken asleep).refersTo b = decide (b' = b) := rfl

@[simp] theorem refersTo_holding (b b' : Fin n) :
    (Place.holding b').refersTo b = decide (b' = b) := rfl

variable [Fintype P]

def references (place : P → Place n) (b : Fin n) : Nat :=
  (Finset.univ.filter fun p => (place p).refersTo b = true).card

/-- The structural law of the cache. -/
structure Law (s : System n D P) : Prop where
  sector_unique : ∀ i i' b b', b ∈ s.cache.bcache i → b' ∈ s.cache.bcache i' →
    (s.cache.bufs b).dev = (s.cache.bufs b').dev →
    (s.cache.bufs b).sectorno = (s.cache.bufs b').sectorno → b = b'
  chained : ∀ b, s.assigned b = true → ∀ i, (s.cache.bcache i).count b =
    if i = hashIdx (s.cache.bufs b).sectorno then 1 else 0
  lru_iff : ∀ b, b ∈ s.cache.lru ↔ (s.cache.bufs b).refcnt = 0
  counted : ∀ b, (s.cache.bufs b).refcnt = references s.place b
  exclusive : ∀ p q b, s.place p = .holding b → s.place q = .holding b → p = q

/-- What every step keeps. -/
structure Inv (s : System n D P) : Prop where
  wired : Wired s.cache
  history : ∀ b, s.assigned b = (s.cache.bufs b).hashed
  counted : ∀ b, (s.cache.bufs b).refcnt = references s.place b
  locked_iff : ∀ b, (s.cache.bufs b).locked = true ↔ ∃ p, s.place p = .holding b
  exclusive : ∀ p q b, s.place p = .holding b → s.place q = .holding b → p = q

end Model

section Counting
variable {n : Nat} {P : Type} [Fintype P]

theorem references_eq_sum (place : P → Place n) (b : Fin n) :
    references place b = ∑ p, if (place p).refersTo b = true then 1 else 0 := by
  rw [references, card_filter]

theorem references_congr {place other : P → Place n} (b : Fin n)
    (same : ∀ p, (other p).refersTo b = (place p).refersTo b) :
    references other b = references place b := by
  simp [references, same]

theorem references_update [DecidableEq P] (place : P → Place n) (p : P) (next : Place n)
    (b : Fin n) : references (update place p next) b +
      (if (place p).refersTo b = true then 1 else 0) =
    references place b + if next.refersTo b = true then 1 else 0 := by
  rw [references_eq_sum, references_eq_sum, ← add_sum_erase _ _ (mem_univ p),
    ← add_sum_erase Finset.univ (fun q => if (place q).refersTo b = true then 1 else 0)
      (mem_univ p)]
  have others : ∑ q ∈ Finset.univ.erase p,
        (if (update place p next q).refersTo b = true then 1 else 0) =
      ∑ q ∈ Finset.univ.erase p, if (place q).refersTo b = true then 1 else 0 := by
    apply sum_congr rfl
    intro q mem
    rw [update_of_ne (ne_of_mem_erase mem)]
  rw [others, update_self]
  omega

theorem references_pos {place : P → Place n} {p : P} {b : Fin n}
    (refers : (place p).refersTo b = true) : references place b ≠ 0 := by
  apply card_ne_zero_of_mem (a := p)
  simp [refers]

end Counting

/-! ## What a step keeps -/

section Steps
variable {n : Nat} {D P : Type} [DecidableEq P] [Fintype P] {s next : System n D P}
  {p : P} {b : Fin n}

omit [DecidableEq P] in
theorem inv_boot (blank : D) (device : Nat → D) : Inv (bootSystem blank device : System n D P) := by
  constructor
  · exact wired_binit blank device
  · intro b
    rfl
  · intro b
    simp [bootSystem, binit, references]
  · intro b
    simp [bootSystem, binit]
  · intro p q b held
    cases held

theorem Inv.move (inv : Inv s) {place : Place n}
    (refers : ∀ b, place.refersTo b = (s.place p).refersTo b)
    (holds : ∀ b, place = .holding b ↔ s.place p = .holding b) : Inv (s.move p place) := by
  have held : ∀ q b, (s.move p place).place q = .holding b ↔ s.place q = .holding b := by
    intro q b
    by_cases same : q = p
    · subst same
      simpa [System.move] using holds b
    · simp [System.move, same]
  constructor
  · exact inv.wired
  · exact inv.history
  · intro b
    have counts := references_update s.place p place b
    rw [refers b] at counts
    have total := inv.counted b
    simp only [System.move]
    omega
  · intro b
    simp only [held]
    exact inv.locked_iff b
  · intro q r b
    rw [held, held]
    exact inv.exclusive q r b

omit [DecidableEq P] in
theorem Inv.setBuf (inv : Inv s) {buf : Buf D} (dev : buf.dev = (s.cache.bufs b).dev)
    (sectorno : buf.sectorno = (s.cache.bufs b).sectorno)
    (refcnt : buf.refcnt = (s.cache.bufs b).refcnt) (hashed : buf.hashed = (s.cache.bufs b).hashed)
    (locked : buf.locked = (s.cache.bufs b).locked) :
    Inv { s with cache := s.cache.setBuf b buf } := by
  have keys : ∀ b', ((s.cache.setBuf b buf).bufs b').refcnt = (s.cache.bufs b').refcnt ∧
      ((s.cache.setBuf b buf).bufs b').hashed = (s.cache.bufs b').hashed ∧
      ((s.cache.setBuf b buf).bufs b').locked = (s.cache.bufs b').locked := by
    intro b'
    rcases eq_or_ne b' b with rfl | same
    · simp [Cache.setBuf, refcnt, hashed, locked]
    · simp [Cache.setBuf, same]
  constructor
  · exact inv.wired.setBuf dev sectorno refcnt hashed
  · intro b'
    rw [(keys b').2.1]
    exact inv.history b'
  · intro b'
    rw [(keys b').1]
    exact inv.counted b'
  · intro b'
    rw [(keys b').2.2]
    exact inv.locked_iff b'
  · exact inv.exclusive

theorem Inv.lock (inv : Inv s) {reads taken asleep : Bool}
    (waits : s.place p = .locking reads b taken asleep)
    (free : (s.cache.bufs b).locked = false) (again : Bool) :
    Inv { s.move p (.holding b) with cache := lockBuf s.cache b again } := by
  have nobody : ∀ q, s.place q ≠ .holding b := by
    intro q held
    rw [(inv.locked_iff b).mpr ⟨q, held⟩] at free
    cases free
  have held : ∀ q b', update s.place p (.holding b) q = .holding b' ↔
      q = p ∧ b' = b ∨ s.place q = .holding b' := by
    intro q b'
    rcases eq_or_ne q p with rfl | same
    · simp [waits, eq_comm]
    · simp [same]
  constructor
  · exact inv.wired.setBuf rfl rfl rfl rfl
  · intro b'
    rcases eq_or_ne b' b with rfl | same
    · simpa [lockBuf, Cache.setBuf, System.move] using inv.history b'
    · simpa [lockBuf, Cache.setBuf, System.move, same] using inv.history b'
  · intro b'
    have counts := references_update s.place p (.holding b) b'
    have total := inv.counted b'
    rw [waits, refersTo_locking, refersTo_holding] at counts
    have kept : ((lockBuf s.cache b again).bufs b').refcnt = (s.cache.bufs b').refcnt := by
      rcases eq_or_ne b' b with rfl | same
      · simp [lockBuf, Cache.setBuf]
      · simp [lockBuf, Cache.setBuf, same]
    simp only [System.move, kept]
    omega
  · intro b'
    simp only [System.move, held]
    rcases eq_or_ne b' b with rfl | same
    · simp [lockBuf, Cache.setBuf]
    · simpa [lockBuf, Cache.setBuf, same] using inv.locked_iff b'
  · intro q r b' heldQ heldR
    simp only [System.move, held] at heldQ heldR
    rcases heldQ with ⟨rfl, rfl⟩ | heldQ
    · rcases heldR with ⟨rfl, _⟩ | heldR
      · rfl
      · exact absurd heldR (nobody r)
    · rcases heldR with ⟨rfl, rfl⟩ | heldR
      · exact absurd heldQ (nobody q)
      · exact inv.exclusive q r b' heldQ heldR

theorem Inv.acquire (inv : Inv s) {reads taken asleep : Bool}
    (waits : s.place p = .locking reads b taken asleep) : Inv (acquire s p reads b taken) := by
  unfold Bio.acquire
  split
  · apply inv.move
    · intro b'
      rw [waits]
      rfl
    · intro b'
      simp [waits]
  · rename_i unlocked
    rw [not_eq_true] at unlocked
    have locked := inv.lock waits unlocked taken
    cases reads with
    | false => exact locked
    | true =>
      simp only [if_true]
      unfold fillBuf
      split
      · exact locked
      · exact locked.setBuf rfl rfl rfl rfl rfl

theorem Inv.refer (inv : Inv s) {cache : Cache n D} (assigned : Fin n → Bool)
    (reads taken asleep : Bool) (free : ∀ b', (s.place p).refersTo b' = false)
    (wired : Wired cache) (history : ∀ b', assigned b' = (cache.bufs b').hashed)
    (refcnt : ∀ b', (cache.bufs b').refcnt = (s.cache.bufs b').refcnt + if b' = b then 1 else 0)
    (locked : ∀ b', (cache.bufs b').locked = (s.cache.bufs b').locked) :
    Inv { s.move p (.locking reads b taken asleep) with
      cache := cache, assigned := assigned } := by
  have notHolding : ∀ b', s.place p ≠ .holding b' := by
    intro b' held
    have refers := free b'
    rw [held] at refers
    simp at refers
  have held : ∀ q b', update s.place p (.locking reads b taken asleep) q =
      .holding b' ↔ s.place q = .holding b' := by
    intro q b'
    rcases eq_or_ne q p with rfl | same
    · simp [notHolding b']
    · simp [same]
  constructor
  · exact wired
  · exact history
  · intro b'
    have counts := references_update s.place p (.locking reads b taken asleep) b'
    have total := inv.counted b'
    have more := refcnt b'
    simp only [free b', refersTo_locking, false_eq_true, if_false, decide_eq_true_eq] at counts
    simp only [System.move]
    by_cases same : b' = b
    · rw [if_pos same] at more
      rw [if_pos same.symm] at counts
      omega
    · rw [if_neg same] at more
      rw [if_neg (Ne.symm same)] at counts
      omega
  · intro b'
    simp only [System.move, held, locked]
    exact inv.locked_iff b'
  · intro q r b'
    simp only [System.move, held]
    exact inv.exclusive q r b'

theorem Inv.rescan (inv : Inv s) (free : ∀ b, (s.place p).refersTo b = false)
    (reads : Bool) (dev sectorno : Nat) : Inv (rescan s p reads dev sectorno) := by
  unfold Bio.rescan bgetScan
  cases found : lookup s.cache dev sectorno with
  | some b =>
    have hashed : (s.cache.bufs b).hashed = true :=
      ((inv.wired.chained b _).mp (lookup_some found).1).1
    have keys : ∀ b', ((hitBuf s.cache b).bufs b').hashed = (s.cache.bufs b').hashed ∧
        ((hitBuf s.cache b).bufs b').refcnt = (s.cache.bufs b').refcnt + (if b' = b then 1 else 0) ∧
        ((hitBuf s.cache b).bufs b').locked = (s.cache.bufs b').locked := by
      intro b'
      by_cases same : b' = b
      · subst same
        simp [hitBuf]
      · simp [hitBuf, same]
    have referred := inv.refer s.assigned reads false false free (inv.wired.hitBuf hashed)
      (fun b' => (inv.history b').trans (keys b').1.symm) (fun b' => (keys b').2.1)
      (fun b' => (keys b').2.2)
    exact referred.acquire (update_self p _ s.place)
  | none =>
    cases last : s.cache.lru.getLast? with
    | some b =>
      have onLru := List.mem_of_getLast? last
      have unreferenced := (inv.wired.lru_iff b).mp onLru
      have keys : ∀ b', update s.assigned b true b' =
            ((takeBuf s.cache dev sectorno b).bufs b').hashed ∧
          ((takeBuf s.cache dev sectorno b).bufs b').refcnt =
            (s.cache.bufs b').refcnt + (if b' = b then 1 else 0) ∧
          ((takeBuf s.cache dev sectorno b).bufs b').locked = (s.cache.bufs b').locked := by
        intro b'
        by_cases same : b' = b
        · subst same
          simp [takeBuf, unreferenced]
        · simp [takeBuf, same, inv.history b']
      have referred := inv.refer _ reads true false free (inv.wired.takeBuf onLru found)
        (fun b' => (keys b').1) (fun b' => (keys b').2.1) (fun b' => (keys b').2.2)
      exact referred.acquire (update_self p _ s.place)
    | none =>
      have moved : Inv (s.move p (.sleeping reads dev sectorno true)) := by
        apply inv.move
        · intro b
          rw [free b]
          rfl
        · intro b
          constructor
          · intro held
            cases held
          · intro held
            have refers := free b
            simp [held] at refers
      exact { moved with wired := { moved.wired with } }

theorem wake_refersTo (b b' : Fin n) (place : Place n) :
    (wakeLock b place).refersTo b' = place.refersTo b' ∧
      (wakeSleep place).refersTo b' = place.refersTo b' := by
  cases place <;> simp [wakeLock, wakeSleep]

theorem wake_holding (b b' : Fin n) (place : Place n) :
    (wakeLock b place = .holding b' ↔ place = .holding b') ∧
      (wakeSleep place = .holding b' ↔ place = .holding b') := by
  cases place <;> simp [wakeLock, wakeSleep]

theorem Inv.giveBack (inv : Inv s) (holds : s.place p = .holding b) : Inv (giveBack s p b) := by
  have refers : (s.place p).refersTo b = true := by simp [holds]
  have referenced : (s.cache.bufs b).refcnt ≠ 0 := by
    rw [inv.counted b]
    exact references_pos refers
  unfold Bio.giveBack
  dsimp only
  generalize wokenEq : (fun q => if ((bput (releaseBuf s.cache b) b).bufs b).refcnt = 0 ∧
        0 < (bput (releaseBuf s.cache b) b).nwait then wakeSleep (wakeLock b (s.place q))
      else wakeLock b (s.place q)) = woken
  have wokenRefers : ∀ q b', (woken q).refersTo b' = (s.place q).refersTo b' := by
    intro q b'
    rw [← wokenEq]
    split
    · rw [(wake_refersTo b b' _).2, (wake_refersTo b b' _).1]
    · rw [(wake_refersTo b b' _).1]
  have held : ∀ q b', update woken p .idle q = .holding b' ↔ q ≠ p ∧ s.place q = .holding b' := by
    intro q b'
    by_cases same : q = p
    · subst same
      simp
    · rw [update_of_ne same, ← wokenEq]
      split
      · rw [(wake_holding b b' _).2, (wake_holding b b' _).1]
        simp [same]
      · rw [(wake_holding b b' _).1]
        simp [same]
  constructor
  · apply Wired.bput
    · exact inv.wired.setBuf rfl rfl rfl rfl
    · simpa [releaseBuf, Cache.setBuf] using referenced
  · intro b'
    by_cases same : b' = b
    · subst same
      simpa [releaseBuf, Cache.setBuf] using inv.history b'
    · simpa [releaseBuf, Cache.setBuf, same] using inv.history b'
  · intro b'
    have counts := references_update woken p .idle b'
    rw [references_congr b' (fun q => wokenRefers q b'), wokenRefers p b', holds] at counts
    have total := inv.counted b'
    by_cases same : b' = b
    · subst same
      simp only [refersTo_holding, refersTo_idle, decide_true, if_true, false_eq_true,
        if_false] at counts
      simp only [bput_bufs, releaseBuf, Cache.setBuf, update_self]
      omega
    · simp only [refersTo_holding, refersTo_idle, decide_eq_true_eq, Ne.symm same,
        false_eq_true, if_false] at counts
      simp only [bput_bufs, releaseBuf, Cache.setBuf, update_of_ne same]
      omega
  · intro b'
    simp only [held]
    by_cases same : b' = b
    · subst same
      simp only [bput_bufs, releaseBuf, Cache.setBuf, update_self]
      constructor
      · intro locked
        cases locked
      · rintro ⟨q, different, heldQ⟩
        exact absurd (inv.exclusive q p b' heldQ holds) different
    · simp only [bput_bufs, releaseBuf, Cache.setBuf, update_of_ne same]
      rw [inv.locked_iff b']
      constructor
      · rintro ⟨q, heldQ⟩
        refine ⟨q, ?_, heldQ⟩
        intro atP
        rw [atP, holds] at heldQ
        cases heldQ
        exact same rfl
      · rintro ⟨q, _, heldQ⟩
        exact ⟨q, heldQ⟩
  · intro q r b' heldQ heldR
    rw [held] at heldQ heldR
    exact inv.exclusive q r b' heldQ.2 heldR.2

omit [DecidableEq P] in
theorem Inv.flush (inv : Inv s) : Inv { s with cache := flushBuf s.cache b } := by
  have written : Inv { s with cache := diskWriteBio s.cache b } :=
    { inv with wired := { inv.wired with } }
  exact written.setBuf rfl rfl rfl rfl rfl

theorem inv_step {a : Act D P} (inv : Inv s) (run : step s a = some next) : Inv next := by
  cases a with
  | get p reads dev sectorno =>
    simp only [step] at run
    split at run
    · rename_i idle
      cases run
      apply inv.rescan
      intro b
      rw [idle]
      rfl
    · cases run
  | resume p =>
    simp only [step] at run
    split at run
    · rename_i reads dev sectorno sleeps
      cases run
      have counted : Inv { s with cache := { s.cache with nwait := s.cache.nwait - 1 } } :=
        { inv with wired := { inv.wired with } }
      apply counted.rescan
      intro b
      simp [sleeps]
    · rename_i waits
      cases run
      exact inv.acquire waits
    · cases run
  | store p data =>
    simp only [step] at run
    split at run
    · cases run
      exact inv.setBuf rfl rfl rfl rfl rfl
    · cases run
  | brelse p =>
    simp only [step] at run
    split at run
    · rename_i holds
      cases run
      exact inv.giveBack holds
    · cases run
  | bwrite p =>
    simp only [step] at run
    split at run
    · rename_i holds
      cases run
      exact inv.flush.giveBack holds
    · cases run
  | signal p =>
    simp only [step, some.injEq] at run
    subst run
    apply inv.move
    all_goals
      intro b
      cases place : s.place p <;> simp [wakeAny]

omit [DecidableEq P] in
theorem law_of_inv (inv : Inv s) : Law s := by
  constructor
  · intro i i' b b' mem mem'
    exact inv.wired.unique b b' ((inv.wired.chained b i).mp mem).1
      ((inv.wired.chained b' i').mp mem').1
  · intro b assigned i
    have hashed : (s.cache.bufs b).hashed = true := by
      rw [← inv.history b]
      exact assigned
    split
    · rename_i bucket
      apply count_eq_one_of_mem (inv.wired.chain_nodup i)
      exact (inv.wired.chained b i).mpr ⟨hashed, bucket⟩
    · rename_i other
      apply count_eq_zero_of_not_mem
      intro mem
      exact other ((inv.wired.chained b i).mp mem).2
  · exact inv.wired.lru_iff
  · exact inv.counted
  · exact inv.exclusive

/-- The law holds after every interleaving of any number of processes. -/
theorem law_reachable (blank : D) (device : Nat → D) (acts : List (Act D P)) (final : System n D P)
    (run : runActs step (bootSystem blank device) acts = some final) : Law final := by
  apply law_of_inv
  apply runActs_invariant_always step Inv _ _ final acts (inv_boot blank device) run
  intro s a next inv stepRun
  exact inv_step inv stepRun

end Steps

theorem law_reachable_one_buffer :
    ∃ final : System 1 Nat (Fin 2), runActs step (bootSystem 0 fun s => s)
        [.get 0 true 0 5, .get 1 false 0 6, .store 0 50, .brelse 0, .resume 1, .store 1 60,
          .bwrite 1] = some final ∧ Law final := by
  have returns : (runActs step (bootSystem 0 fun s => s : System 1 Nat (Fin 2))
      [.get 0 true 0 5, .get 1 false 0 6, .store 0 50, .brelse 0, .resume 1, .store 1 60,
        .bwrite 1]).isSome = true := by decide
  obtain ⟨final, run⟩ := isSome_iff_exists.mp returns
  exact ⟨final, run, law_reachable 0 (fun s => s) _ final run⟩

end CCore.Bio
