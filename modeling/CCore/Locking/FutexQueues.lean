import CCore.Locking.Futex
import Mathlib.Data.Set.Card

/-!
# Sleepers on futexes are found

`Base` holds in every reachable state: a process in the queue of a node sleeps on the
address of that node, and the nodes in use are in the buckets of their addresses, one for
each address.  That every sleeper is in such a queue is lost when the maker of a node
exits while others sleep on it, and in no other way.
-/
namespace CCore.Futex

open Shelves Function List Option

/-- The bucket of a node in use. -/
def home (s : State) (i : Index) : Option Bucket :=
  if s.used i = 0 then none else some (futexHash (s.node i).futexKey)

structure Base (s : State) (loc : Nat → Option Index) : Prop where
  queued : Linked s.queue loc
  waits : ∀ q i, loc q = some i → s.waiting q = some (s.node i).futexKey
  listed : Linked s.buckets (home s)
  keys : ∀ i j, s.used i ≠ 0 → s.used j ≠ 0 → (s.node i).futexKey = (s.node j).futexKey → i = j

def Kept (s : State) (loc : Nat → Option Index) : Prop :=
  ∀ q a, s.waiting q = some a → ∃ i, loc q = some i ∧ s.used i ≠ 0

variable {s s' : State} {loc loc' : Nat → Option Index} {i j : Index} {a b : Addr} {p q : Nat}

/-! ## Looking up and making nodes -/

theorem findNode_spec (found : findNode s a = some i) :
    i ∈ s.buckets (futexHash a) ∧ (s.node i).futexKey = a := by
  have key := List.find?_some found
  exact ⟨List.mem_of_find?_eq_some found, of_decide_eq_true key⟩

theorem freeNode_spec (free : freeNode s = some i) : s.used i = 0 := by
  have unused := List.find?_some free
  exact of_decide_eq_true unused

theorem Base.findNode_iff (base : Base s loc) :
    findNode s a = some i ↔ s.used i ≠ 0 ∧ (s.node i).futexKey = a := by
  have inBucket : ∀ j, s.used j ≠ 0 → (s.node j).futexKey = a → j ∈ s.buckets (futexHash a) := by
    intro j used key
    rw [base.listed.mem, home, if_neg used, key]
  have fromBucket : ∀ j h, j ∈ s.buckets h → s.used j ≠ 0 := by
    intro j h member unused
    rw [base.listed.mem, home, if_pos unused] at member
    cases member
  constructor
  · intro found
    obtain ⟨member, key⟩ := findNode_spec found
    exact ⟨fromBucket i _ member, key⟩
  · rintro ⟨used, key⟩
    have some : (findNode s a).isSome := by
      rw [findNode, List.find?_isSome]
      exact ⟨i, inBucket i used key, decide_eq_true key⟩
    obtain ⟨j, found⟩ := isSome_iff_exists.mp some
    obtain ⟨member, keyJ⟩ := findNode_spec found
    rw [found, base.keys j i (fromBucket j _ member) used (keyJ.trans key.symm)]

def leave (loc : Nat → Option Index) (i : Index) : Nat → Option Index := fun q =>
  if loc q = some i then none else loc q

theorem leave_iff : leave loc i q = some j ↔ loc q = some j ∧ j ≠ i := by
  unfold leave
  split
  case isTrue here =>
    rw [here]
    constructor
    · intro none
      cases none
    · rintro ⟨same, ne⟩
      exact absurd (Option.some.inj same).symm ne
  case isFalse away =>
    constructor
    · intro there
      refine ⟨there, ?_⟩
      rintro rfl
      exact away there
    · exact And.left

theorem makeNode_base (base : Base s loc) (free : s.used i = 0) (missing : findNode s a = none)
    (real : p ≠ 0) : Base (makeNode s p a i) (leave loc i) := by
  have fresh : ∀ j, s.used j ≠ 0 → (s.node j).futexKey ≠ a := by
    intro j used key
    rw [base.findNode_iff.mpr ⟨used, key⟩] at missing
    cases missing
  refine ⟨⟨?_, ?_⟩, ?_, ?_, ?_⟩
  · intro h
    rcases eq_or_ne h i with rfl | same
    · simp [makeNode]
    · simpa [makeNode, same] using base.queued.nodup h
  · intro q h
    rw [leave_iff]
    rcases eq_or_ne h i with rfl | same
    · simp [makeNode]
    · simpa [makeNode, same] using base.queued.mem q h
  · intro q j there
    obtain ⟨before, ne⟩ := leave_iff.mp there
    simpa [makeNode, ne] using base.waits q j before
  · have away : home s i = none := if_pos free
    have linked := base.listed.append away (futexHash a)
    have places : update (home s) i (some (futexHash a)) = home (makeNode s p a i) := by
      funext j
      rcases eq_or_ne j i with rfl | same
      · simp [home, makeNode, real]
      · simp [home, makeNode, same]
    rw [places] at linked
    exact linked
  · intro j k usedJ usedK keys
    by_cases sameJ : j = i
    · by_cases sameK : k = i
      · rw [sameJ, sameK]
      · simp only [makeNode, update_of_ne sameK] at usedK
        simp only [makeNode, sameJ, update_self, update_of_ne sameK] at keys
        exact absurd keys.symm (fresh k usedK)
    · simp only [makeNode, update_of_ne sameJ] at usedJ
      by_cases sameK : k = i
      · simp only [makeNode, sameK, update_self, update_of_ne sameJ] at keys
        exact absurd keys (fresh j usedJ)
      · simp only [makeNode, update_of_ne sameK] at usedK
        simp only [makeNode, update_of_ne sameJ, update_of_ne sameK] at keys
        exact base.keys j k usedJ usedK keys

def line (s : State) (a : Addr) : List Nat :=
  match findNode s a with
  | some i => s.queue i
  | none => []

theorem line_of_some (found : findNode s a = some i) : line s a = s.queue i := by simp [line, found]

theorem line_of_none (missing : findNode s a = none) : line s a = [] := by simp [line, missing]

theorem Base.line_nodup (base : Base s loc) (a : Addr) : (line s a).Nodup := by
  cases found : findNode s a with
  | none => exact line_of_none found ▸ nodup_nil
  | some i => exact line_of_some found ▸ base.queued.nodup i

/-- What `get_node` gives: a node in use for the address, with nobody's sleep changed. -/
structure Got (s : State) (loc : Nat → Option Index) (a : Addr) (i : Index) (s' : State)
    (loc' : Nat → Option Index) : Prop where
  base : Base s' loc'
  used : s'.used i ≠ 0
  key : (s'.node i).futexKey = a
  waiting : s'.waiting = s.waiting
  kept : Kept s loc → Kept s' loc'
  queue : s'.queue i = line s a
  others : ∀ j, s.used j ≠ 0 → s'.used j ≠ 0 ∧ s'.node j = s.node j ∧ s'.queue j = s.queue j

theorem getNode_got (base : Base s loc) (real : p ≠ 0) (run : getNode s p a = some (i, s')) :
    ∃ loc', Got s loc a i s' loc' := by
  unfold getNode at run
  cases found : findNode s a with
  | some j =>
    rw [found] at run
    cases run
    obtain ⟨used, key⟩ := base.findNode_iff.mp found
    exact ⟨loc, base, used, key, rfl, id, (line_of_some found).symm, fun j used => ⟨used, rfl, rfl⟩⟩
  | none =>
    rw [found] at run
    obtain ⟨j, free, same⟩ := map_eq_some_iff.mp run
    cases same
    have unused := freeNode_spec free
    have made := makeNode_base base unused found real
    refine ⟨leave loc i, made, by simp [makeNode, real], by simp [makeNode], rfl, ?_,
      by rw [line_of_none found]; simp [makeNode], ?_⟩
    · intro kept q b sleeps
      obtain ⟨j, there, used⟩ := kept q b sleeps
      have ne : j ≠ i := by
        rintro rfl
        exact used unused
      exact ⟨j, leave_iff.mpr ⟨there, ne⟩, by simpa [makeNode, ne] using used⟩
    · intro j used
      have ne : j ≠ i := by
        rintro rfl
        exact used unused
      simp [makeNode, ne, used]

/-! ## Queues -/

theorem block_base (base : Base s loc) (awake : s.waiting p = none) :
    Base (block s p i) (update loc p (some i)) := by
  have away : loc p = none := by
    cases there : loc p with
    | none => rfl
    | some j => exact nomatch awake.symm.trans (base.waits p j there)
  refine ⟨base.queued.push away i, ?_, base.listed, base.keys⟩
  intro q j there
  rcases eq_or_ne q p with rfl | same
  · rw [update_self] at there
    cases there
    simp [block]
  · rw [update_of_ne same] at there
    simpa [block, same] using base.waits q j there

theorem unblock_base (base : Base s loc) (q : Nat) : Base (unblock s q) (update loc q none) := by
  refine ⟨base.queued.unlink q, ?_, base.listed, base.keys⟩
  intro r j there
  have ne : r ≠ q := by
    rintro rfl
    rw [update_self] at there
    cases there
  rw [update_of_ne ne] at there
  simpa [unblock, ne] using base.waits r j there

theorem move_base (base : Base s loc) (q : Nat) (j : Index) :
    Base (move s q j) (update loc q (some j)) := by
  refine ⟨base.queued.move q j, ?_, base.listed, base.keys⟩
  intro r k there
  rcases eq_or_ne r q with rfl | same
  · rw [update_self] at there
    cases there
    simp [move]
  · rw [update_of_ne same] at there
    simpa [move, same] using base.waits r k there

theorem unblock_kept (kept : Kept s loc) (q : Nat) : Kept (unblock s q) (update loc q none) := by
  intro r b sleeps
  have ne : r ≠ q := by
    rintro rfl
    simp [unblock] at sleeps
  simp only [unblock, update_of_ne ne] at sleeps ⊢
  exact kept r b sleeps

theorem move_kept (kept : Kept s loc) (q : Nat) (used : s.used j ≠ 0) :
    Kept (move s q j) (update loc q (some j)) := by
  intro r b sleeps
  rcases eq_or_ne r q with rfl | same
  · exact ⟨j, update_self .., used⟩
  · simp only [move, update_of_ne same] at sleeps ⊢
    exact kept r b sleeps

/-- The processes of `woken`, which were in the queue of node `i`, are awake; all else is
as before. -/
structure Woke (s : State) (loc : Nat → Option Index) (i : Index) (woken : List Nat)
    (s' : State) (loc' : Nat → Option Index) : Prop where
  base : Base s' loc'
  kept : Kept s loc → Kept s' loc'
  node : s'.node = s.node
  used : s'.used = s.used
  timerBy : s'.timerBy = s.timerBy
  queue : s.queue i = woken ++ s'.queue i
  others : ∀ j, j ≠ i → s'.queue j = s.queue j
  waiting : ∀ q, s'.waiting q = if q ∈ woken then none else s.waiting q

theorem unblock_queue (base : Base s loc) (there : loc q = some i) (j : Index) (ne : j ≠ i) :
    (unblock s q).queue j = s.queue j := by
  apply erase_of_not_mem
  intro member
  rw [base.queued.mem, there] at member
  exact ne (Option.some.inj member).symm

theorem wakeLoop_woke (base : Base s loc) (i : Index) (n : Nat) :
    ∃ loc', Woke s loc i ((s.queue i).take n) (wakeLoop i n s) loc' := by
  induction n generalizing s loc with
  | zero =>
    exact ⟨loc, base, id, rfl, rfl, rfl, by simp [wakeLoop], fun _ _ => rfl, by simp [wakeLoop]⟩
  | succ n ih =>
    unfold wakeLoop
    cases line : s.queue i with
    | nil => exact ⟨loc, base, id, rfl, rfl, rfl, by simp [line], fun _ _ => rfl, by simp⟩
    | cons q rest =>
      have there : loc q = some i := by
        rw [← base.queued.mem, line]
        exact mem_cons_self
      have rest_eq : (unblock s q).queue i = rest := by simp [unblock, unlink, line]
      obtain ⟨loc', woke⟩ := ih (unblock_base base q)
      rw [rest_eq] at woke
      refine ⟨loc', woke.base, fun kept => woke.kept (unblock_kept kept q), woke.node, woke.used,
        woke.timerBy, ?_, ?_, ?_⟩
      · rw [line, take_succ_cons, cons_append, ← woke.queue, rest_eq]
      · intro j ne
        rw [woke.others j ne, unblock_queue base there j ne]
      · intro r
        rw [woke.waiting r, take_succ_cons]
        rcases eq_or_ne r q with rfl | same
        · simp [unblock]
        · simp [unblock, same]

/-- The processes of `moved` have gone from the queue of node `i` to the front of that of
node `j`. -/
structure Moved (s : State) (loc : Nat → Option Index) (j : Index) (moved : List Nat)
    (s' : State) (loc' : Nat → Option Index) : Prop where
  base : Base s' loc'
  kept : s.used j ≠ 0 → Kept s loc → Kept s' loc'
  node : s'.node = s.node
  used : s'.used = s.used
  waiting : ∀ q, s'.waiting q = if q ∈ moved then some (s.node j).futexKey else s.waiting q

theorem moveLoop_moved (base : Base s loc) (apart : i ≠ j) (n : Nat) :
    ∃ loc', Moved s loc j ((s.queue i).take n) (moveLoop i j n s) loc' := by
  induction n generalizing s loc with
  | zero => exact ⟨loc, base, fun _ => id, rfl, rfl, by simp [moveLoop]⟩
  | succ n ih =>
    unfold moveLoop
    cases line : s.queue i with
    | nil => exact ⟨loc, base, fun _ => id, rfl, rfl, by simp⟩
    | cons q rest =>
      have rest_eq : (move s q j).queue i = rest := by simp [move, push, unlink, apart, line]
      obtain ⟨loc', moved⟩ := ih (move_base base q j)
      rw [rest_eq] at moved
      refine ⟨loc', moved.base, ?_, moved.node, moved.used, ?_⟩
      · intro used kept
        exact moved.kept used (move_kept kept q used)
      · intro r
        rw [moved.waiting r, take_succ_cons]
        rcases eq_or_ne r q with rfl | same
        · simp [move]
        · simp [move, same]

theorem moveLoop_self (base : Base s loc) (i : Index) (n : Nat) : moveLoop i i n s = s := by
  induction n with
  | zero => rfl
  | succ n ih =>
    unfold moveLoop
    cases line : s.queue i with
    | nil => rfl
    | cons q rest =>
      have there : loc q = some i := by
        rw [← base.queued.mem, line]
        exact mem_cons_self
      have same : move s q i = s := by
        have queue : push (unlink s.queue q) i q = s.queue := by
          funext j
          rcases eq_or_ne j i with rfl | here
          · simp [push, unlink, line]
          · rw [push, update_of_ne here]
            exact unblock_queue base there j here
        have waiting : update s.waiting q (some (s.node i).futexKey) = s.waiting := by
          rw [← base.waits q i there, update_eq_self]
        rw [move, queue, waiting]
      dsimp only
      rw [same]
      exact ih

/-! ## Steps -/

/-- A node with another timer. -/
def retime (s : State) (i : Index) (addTs setTs : Timespec) : State :=
  { s with node := update s.node i { s.node i with addTs, setTs } }

theorem retime_key (addTs setTs : Timespec) (j : Index) :
    ((retime s i addTs setTs).node j).futexKey = (s.node j).futexKey := by
  rcases eq_or_ne j i with rfl | same
  · simp [retime]
  · simp [retime, same]

theorem retime_base (base : Base s loc) (i : Index) (addTs setTs : Timespec) :
    Base (retime s i addTs setTs) loc := by
  have homes : home (retime s i addTs setTs) = home s := by
    funext j
    rw [home, retime_key]
    rfl
  refine ⟨base.queued, ?_, ?_, ?_⟩
  · intro q j there
    rw [retime_key]
    exact base.waits q j there
  · rw [homes]
    exact base.listed
  · intro j k
    rw [retime_key, retime_key]
    exact base.keys j k

theorem setTimer_cases (s : State) (p : Nat) (i : Index) (now : Timespec)
    (timeout : Option Timespec) : ∃ addTs setTs timerBy,
    setTimer s p i now timeout = { retime s i addTs setTs with timerBy } := by
  unfold setTimer
  split
  · exact ⟨(s.node i).addTs, .zero, s.timerBy, rfl⟩
  case h_2 ts =>
    split
    · refine ⟨(s.node i).addTs, (s.node i).setTs, s.timerBy, ?_⟩
      rw [retime, update_eq_self]
    · exact ⟨now, ts, update s.timerBy i p, rfl⟩

section
variable (base : Base s loc)
include base

theorem wait_base {timeout : Option Timespec} {now : Timespec}
    (awake : Awake s p) (run : doFutexWait s p a timeout now = some s') :
    ∃ loc', Base s' loc' ∧ (Kept s loc → Kept s' loc') ∧
      ∀ q, s'.waiting q = if q = p then some a else s.waiting q := by
  obtain ⟨⟨i, s₁⟩, made, rest⟩ := bind_eq_some_iff.mp run
  cases rest
  obtain ⟨loc₁, got⟩ := getNode_got base awake.1 made
  obtain ⟨addTs, setTs, timerBy, timed⟩ := setTimer_cases s₁ p i now timeout
  have base₂ : Base { retime s₁ i addTs setTs with timerBy } loc₁ := by
    obtain ⟨queued, waits, listed, keys⟩ := retime_base got.base i addTs setTs
    exact ⟨queued, waits, listed, keys⟩
  rw [timed]
  refine ⟨_, block_base base₂ (by rw [← awake.2, ← got.waiting]; rfl), ?_, ?_⟩
  · intro kept q b sleeps
    rcases eq_or_ne q p with rfl | same
    · exact ⟨i, update_self .., got.used⟩
    · simp only [block, update_of_ne same] at sleeps ⊢
      exact got.kept kept q b sleeps
  · intro q
    rcases eq_or_ne q p with rfl | same
    · rw [if_pos rfl]
      simp only [block, update_self]
      rw [retime_key, got.key]
    · rw [if_neg same]
      simp only [block, update_of_ne same]
      rw [← got.waiting]
      rfl

theorem checkNode_base (now : Timespec) (i : Index) :
    ∃ loc', Base (checkNode now s i) loc' ∧ (Kept s loc → Kept (checkNode now s i) loc') := by
  unfold checkNode
  split
  · have timed := retime_base base i .zero .zero
    obtain ⟨loc', woke⟩ := wakeLoop_woke timed i (s.queue i).length
    exact ⟨loc', woke.base, fun kept => woke.kept kept⟩
  · exact ⟨loc, base, id⟩

theorem checkFutexTimeout_base (now : Timespec) : ∃ loc', Base (checkFutexTimeout s now) loc' ∧
    (Kept s loc → Kept (checkFutexTimeout s now) loc') := by
  unfold checkFutexTimeout
  generalize List.finRange 60 = nodes
  induction nodes generalizing s loc with
  | nil => exact ⟨loc, base, id⟩
  | cons i rest ih =>
    obtain ⟨loc₁, base₁, kept₁⟩ := checkNode_base base now i
    obtain ⟨loc₂, base₂, kept₂⟩ := ih base₁
    exact ⟨loc₂, base₂, fun kept => kept₂ (kept₁ kept)⟩

theorem recycle_base (p : Nat) : Base (recycle s p) loc := by
  have used_iff : ∀ i, (recycle s p).used i ≠ 0 ↔ s.used i ≠ 0 ∧ s.used i ≠ p := by
    intro i
    by_cases owned : s.used i = p
    · simp [recycle, owned]
    · simp [recycle, owned]
  refine ⟨base.queued, base.waits, ⟨?_, ?_⟩, ?_⟩
  · intro h
    exact (base.listed.nodup h).filter _
  · intro i h
    have before := base.listed.mem i h
    unfold home at before ⊢
    have after := used_iff i
    by_cases gone : (recycle s p).used i = 0
    · rw [if_pos gone]
      by_cases unused : s.used i = 0
      · rw [if_pos unused] at before
        simp [recycle, before]
      · have owned : s.used i = p := by
          by_contra other
          exact after.mpr ⟨unused, other⟩ gone
        simp [recycle, owned]
    · obtain ⟨inUse, other⟩ := after.mp gone
      rw [if_neg gone]
      rw [if_neg inUse] at before
      simpa [recycle, other] using before
  · intro i j usedI usedJ
    exact base.keys i j ((used_iff i).mp usedI).1 ((used_iff j).mp usedJ).1

theorem requeue_base {n : Nat} (real : p ≠ 0) (run : doFutexRequeue s p a b n = some s') :
    ∃ loc', Base s' loc' ∧ (Kept s loc → Kept s' loc') ∧ ∀ q, s'.waiting q =
        if q ∈ (line s a).take n then some b else s.waiting q := by
  obtain ⟨⟨i, s₁⟩, first, rest⟩ := bind_eq_some_iff.mp run
  obtain ⟨⟨j, s₂⟩, second, result⟩ := bind_eq_some_iff.mp rest
  cases result
  obtain ⟨loc₁, got₁⟩ := getNode_got base real first
  obtain ⟨loc₂, got₂⟩ := getNode_got got₁.base real second
  obtain ⟨usedI, nodeI, queueI⟩ := got₂.others i got₁.used
  have waiting : s₂.waiting = s.waiting := got₂.waiting.trans got₁.waiting
  rw [← got₁.queue, ← queueI]
  rcases eq_or_ne i j with rfl | same
  · rw [moveLoop_self got₂.base]
    refine ⟨loc₂, got₂.base, fun kept => got₂.kept (got₁.kept kept), ?_⟩
    intro q
    split
    case isTrue member =>
      have there := (got₂.base.queued.mem q i).mp (mem_of_mem_take member)
      rw [got₂.base.waits q i there, got₂.key]
    case isFalse => rw [waiting]
  · obtain ⟨loc₃, moved⟩ := moveLoop_moved got₂.base same n
    refine ⟨loc₃, moved.base, fun kept => moved.kept got₂.used (got₂.kept (got₁.kept kept)), ?_⟩
    intro q
    rw [moved.waiting q, got₂.key, waiting]

theorem wakeup_base (a : Addr) (n : Nat) :
    ∃ loc', Base (doFutexWakeup s a n) loc' ∧ (Kept s loc → Kept (doFutexWakeup s a n) loc') ∧
      ∀ q, (doFutexWakeup s a n).waiting q =
        if q ∈ (line s a).take n then none else s.waiting q := by
  unfold doFutexWakeup
  cases found : findNode s a with
  | none =>
    rw [line_of_none found]
    exact ⟨loc, base, id, by simp⟩
  | some i =>
    rw [line_of_some found]
    obtain ⟨loc', woke⟩ := wakeLoop_woke base i n
    exact ⟨loc', woke.base, woke.kept, woke.waiting⟩

end

theorem boot_base : Base boot fun _ => none := by
  refine ⟨⟨fun _ => nodup_nil, ?_⟩, ?_, ⟨fun _ => nodup_nil, ?_⟩, ?_⟩
  · intro q i
    simp [boot]
  · intro q i there
    cases there
  · intro i h
    simp [boot, home]
  · intro i j used
    exact absurd rfl used

end CCore.Futex
