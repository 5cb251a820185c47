import CCore.Fs.Limit

/-!
# Descriptor numbers under a resource limit

A run keeps to the tables, hands out the least free numbers and never gives a number twice
if every call finds a limit that is not larger than a table, the room it needs below it,
and no slot at or above the limit whose number could be handed out again.
-/
namespace CCore.Fs.Limit

open Chase Run Function List

/-- What every call relies on and keeps. -/
structure Sound (t : Table) : Prop where
  distinct : ∀ i j, (t i).inUse → (t j).inUse → (t i).fdNum = (t j).fdNum → i = j
  plain : ∀ i, (t i).used = .unused → (t i).redirected = false
  unmapped : ∀ i, (t i).mmapUsed = false

def free (t : Table) : Set Nat := {n | ∀ i, (t i).inUse → (t i).fdNum ≠ n}

def Room (limit : Nat) (t : Table) : Prop := ∃ i : Slot, i.val < limit ∧ (t i).used = .unused

variable {limit n : Nat} {t : Table} {s : Files} {u k : Slot}

theorem Sound.put (sound : Sound t) {i : Slot} {fd : Fd} (unmapped : fd.mmapUsed = false)
    (plain : fd.used = .unused → fd.redirected = false)
    (alone : fd.inUse → ∀ j, j ≠ i → (t j).inUse → (t j).fdNum ≠ fd.fdNum) :
    Sound (update t i fd) := by
  constructor
  · intro j k usedJ usedK same
    by_cases hereJ : j = i
    · by_cases hereK : k = i
      · rw [hereJ, hereK]
      · subst hereJ
        simp only [update_self, update_of_ne hereK] at usedJ usedK same
        exact absurd same.symm (alone usedJ k hereK usedK)
    · rcases eq_or_ne k i with rfl | hereK
      · simp only [update_self, update_of_ne hereJ] at usedJ usedK same
        exact absurd same (alone usedK j hereJ usedJ)
      · simp only [update_of_ne hereJ, update_of_ne hereK] at usedJ usedK same
        exact sound.distinct j k usedJ usedK same
  · intro j
    rcases eq_or_ne j i with rfl | here
    · rw [update_self]
      exact plain
    · rw [update_of_ne here]
      exact sound.plain j
  · intro j
    rcases eq_or_ne j i with rfl | here
    · rwa [update_self]
    · rw [update_of_ne here]
      exact sound.unmapped j

/-! ## Computations that stay in the table -/

/-- The computation does not leave the table, and what it gives meets `post`. -/
def Within {α : Type} (x : Except Fault α) (post : α → Prop) : Prop :=
  match x with
  | .ok a => post a
  | .error fault => fault = .endless

variable {α β : Type} {x : Except Fault α} {dstFd : Nat}

theorem ok_bind (a : α) (f : α → Except Fault β) :
    ((Except.ok a : Except Fault α) >>= f) = f a := rfl

theorem Within.bind {f : α → Except Fault β} {mid : α → Prop} {post : β → Prop}
    (first : Within x mid) (second : ∀ a, mid a → Within (f a) post) : Within (x >>= f) post := by
  cases x with
  | ok a => exact second a first
  | error fault => exact first

theorem Within.map {f : α → β} {post : β → Prop}
    (within : Within x fun a => post (f a)) : Within (x.map f) post := by
  cases x with
  | ok a => exact within
  | error fault => exact within

theorem Within.mono {post post' : α → Prop}
    (within : Within x post) (weaker : ∀ a, post a → post' a) : Within x post' := by
  cases x with
  | ok a => exact weaker a within
  | error fault => exact within

def Scanned (limit : Nat) (t : Table) (test : Fd → Bool) : Option Slot → Prop
  | some i => i.val < limit ∧ test (t i) = true ∧ ∀ j, j < i → test (t j) = false
  | none => ∀ i : Slot, i.val < limit → test (t i) = false

theorem scan_eq (small : limit ≤ maxFdNum) (t : Table) (test : Fd → Bool) :
    ∃ found, scan limit t test = .ok found ∧ Scanned limit t test found := by
  unfold scan
  cases found : (List.finRange maxFdNum).find? fun i => decide (i.val < limit) && test (t i) with
  | none =>
    refine ⟨none, if_pos small, ?_⟩
    intro i inside
    have missed := List.find?_eq_none.mp found i (mem_finRange i)
    simpa [inside] using missed
  | some i =>
    refine ⟨some i, rfl, ?_⟩
    obtain ⟨passes, front, back, parts, earlier⟩ := List.find?_eq_some_iff_append.mp found
    simp only [Bool.and_eq_true, decide_eq_true_eq] at passes
    refine ⟨passes.1, passes.2, ?_⟩
    intro j before
    have sorted := pairwise_lt_finRange maxFdNum
    have member := mem_finRange j
    rw [parts] at sorted member
    have inFront : j ∈ front := by
      rcases mem_append.mp member with inFront | behind
      · exact inFront
      · have tail := (pairwise_append.mp sorted).2.1
        rcases mem_cons.mp behind with rfl | behind
        · exact absurd before (lt_irrefl j)
        · exact absurd before (lt_asymm ((pairwise_cons.mp tail).1 j behind))
    have failed := earlier j inFront
    simpa [Nat.lt_trans before passes.1] using failed

theorem freeNumber_eq (small : limit ≤ maxFdNum) (t : Table) :
    ∃ n, freeNumber limit t = .ok n ∧ n ≤ maxFdNum ∧ ¬ Shown limit t n ∧
      ∀ m, m < n → Shown limit t m := by
  rw [freeNumber, if_pos small]
  cases found : (List.range (maxFdNum + 1)).find? fun n => decide (¬ Shown limit t n) with
  | some n =>
    obtain ⟨passes, inRange, earlier⟩ := List.find?_range_eq_some.mp found
    refine ⟨n, rfl, ?_, of_decide_eq_true passes, ?_⟩
    · rw [mem_range] at inRange
      omega
    · intro m before
      simpa using earlier m before
  | none =>
    refine (not_all_taken t fun n => ?_).elim
    have missed := List.find?_eq_none.mp found n.val (mem_range.mpr n.isLt)
    simp only [decide_eq_true_eq, not_not] at missed
    obtain ⟨i, -, -, number⟩ := missed
    exact ⟨i, number⟩

/-- `get_one_fd` has taken the first unused slot below the limit, with the least number that
no slot in use below the limit carries. -/
structure Takes (limit : Nat) (t : Table) (u : Slot) (n : Nat) : Prop where
  inside : u.val < limit
  unused : (t u).used = .unused
  small : n ≤ maxFdNum
  fresh : ¬ Shown limit t n
  least : ∀ m, m < n → Shown limit t m

theorem getOneFd_eq (small : limit ≤ maxFdNum) (t : Table) :
    (¬ Room limit t ∧ getOneFd limit t = .ok (noFd, t)) ∨
      ∃ u n, Takes limit t u n ∧ getOneFd limit t = .ok (n, claimSlot t u n) := by
  obtain ⟨n, number, le, fresh, least⟩ := freeNumber_eq small t
  obtain ⟨found, scanned, spec⟩ := scan_eq small t fun fd => decide (fd.used = .unused)
  rw [getOneFd, number, ok_bind, scanned, ok_bind]
  cases found with
  | none =>
    refine .inl ⟨?_, rfl⟩
    rintro ⟨i, inside, unused⟩
    have failed := spec i inside
    simp [unused] at failed
  | some u => exact .inr ⟨u, n, ⟨spec.1, of_decide_eq_true spec.2.1, le, fresh, least⟩, rfl⟩

theorem Takes.ne_noFd (takes : Takes limit t u n) : n ≠ noFd := by
  have le := takes.small
  unfold maxFdNum at le
  unfold noFd
  omega

theorem Takes.asInt (takes : Takes limit t u n) : asInt n = n := by
  apply asInt_small
  have le := takes.small
  unfold maxFdNum at le
  omega

theorem Takes.getFdIndex (takes : Takes limit t u n) (small : limit ≤ maxFdNum) (sound : Sound t) :
    getFdIndex limit (claimSlot t u n) n = .ok (some u) := by
  have self : claimSlot t u n u = { t u with used := .used, fdNum := n } := by simp [claimSlot]
  obtain ⟨found, scanned, spec⟩ :=
    scan_eq small (claimSlot t u n) fun f => decide (f.inUse ∧ f.fdNum = n)
  have own : found = some u := by
    cases found with
    | none =>
      have failed := spec u takes.inside
      simp [self, Fd.inUse] at failed
    | some i =>
      obtain ⟨inside, passes, -⟩ := spec
      obtain ⟨inUse, same⟩ := of_decide_eq_true passes
      by_contra other
      have ne : i ≠ u := fun eq => other (congrArg some eq)
      simp only [claimSlot, update_of_ne ne] at inUse same
      exact takes.fresh ⟨i, inside, inUse, same⟩
  have stops : hop (claimSlot t u n) u = none := by
    simp [hop, link, self, sound.plain u takes.unused]
  have run : chase (hop (claimSlot t u n)) maxFdNum u = some u := by
    rw [show maxFdNum = 109 + 1 from rfl, chase, stops]
  rw [Limit.getFdIndex, getFdIndexWithoutRedirect, scanned, own]
  simp [ok_bind, follow, run, self]

/-! ## Allocation -/

def Hidden (limit : Nat) (t : Table) : Prop :=
  ∀ j : Slot, limit ≤ j.val → (t j).inUse → ∃ n, n < (t j).fdNum ∧ ¬ Shown limit t n

theorem Takes.le (takes : Takes limit t u n) {m : Nat} (hidden : ¬ Shown limit t m) : n ≤ m := by
  by_contra less
  exact hidden (takes.least m (not_le.mp less))

theorem Takes.isLeast (takes : Takes limit t u n) (hidden : Hidden limit t) :
    IsLeast (free t) n := by
  constructor
  · intro j inUse same
    by_cases inside : j.val < limit
    · exact takes.fresh ⟨j, inside, inUse, same⟩
    · obtain ⟨m, less, unseen⟩ := hidden j (not_lt.mp inside) inUse
      exact absurd (takes.le unseen) (by omega)
  · intro m unused
    apply takes.le
    rintro ⟨i, -, inUse, same⟩
    exact unused i inUse same

theorem Sound.write (sound : Sound t) {m : Nat} (fresh : m ∈ free t) (u : Slot) (fd : Fd)
    (number : fd.fdNum = m) (used : fd.used = .used) (unmapped : fd.mmapUsed = false) :
    Sound (update t u fd) := by
  refine sound.put unmapped ?_ ?_
  · intro unused
    rw [used] at unused
    cases unused
  · intro _ j _ inUse
    rw [number]
    exact fresh j inUse

theorem update_claimSlot (t : Table) (u : Slot) (n : Nat) (fd : Fd) :
    update (claimSlot t u n) u fd = update t u fd := by
  rw [claimSlot, update_idem]

theorem Sound.claim (sound : Sound t) (takes : Takes limit t u n) (hidden : Hidden limit t) :
    Sound (claimSlot t u n) :=
  sound.write (takes.isLeast hidden).1 u _ rfl rfl (sound.unmapped u)

def Fills (f : Fd → Fd) : Prop :=
  ∀ fd, (f fd).fdNum = fd.fdNum ∧ (f fd).used = fd.used ∧ (f fd).mmapUsed = fd.mmapUsed

theorem Takes.filled (takes : Takes limit t u n) (small : limit ≤ maxFdNum) (sound : Sound t)
    (f : Fd → Fd) :
    (do let index ← Limit.getFdIndex limit (claimSlot t u n) n
        writeAt (claimSlot t u n) index f) =
      .ok (update t u (f { t u with used := .used, fdNum := n })) := by
  rw [takes.getFdIndex small sound, ok_bind, writeAt, update_claimSlot]
  simp [claimSlot]

theorem Sound.filled (sound : Sound t) (takes : Takes limit t u n) (hidden : Hidden limit t)
    (f : Fd → Fd) (fills : Fills f) :
    Sound (update t u (f { t u with used := .used, fdNum := n })) := by
  obtain ⟨number, used, unmapped⟩ := fills { t u with used := .used, fdNum := n }
  exact sound.write (takes.isLeast hidden).1 u _ number used (unmapped.trans (sound.unmapped u))

/-- The condition of the calls that allocate one descriptor. -/
structure OneFits (limit : Nat) (t : Table) : Prop where
  small : limit ≤ maxFdNum
  hidden : Room limit t → Hidden limit t

theorem Takes.room (takes : Takes limit t u n) : Room limit t := ⟨u, takes.inside, takes.unused⟩

/-- What such a call answers. -/
def Answered (t : Table) (r : Int × Files) : Prop :=
  Sound r.2.pfd ∧ (0 ≤ r.1 → IsLeast (free t) r.1.toNat)

theorem answered_refused {r : Int} (sound : Sound s.pfd) (negative : r < 0) : Answered t (r, s) :=
  ⟨sound, fun valid => absurd valid (not_le.mpr negative)⟩

theorem Within.answered {x : Except Fault (Int × Files)} (within : Within x (Answered t)) :
    Within (x.map plain) fun r => Sound r.2.2.pfd ∧ (0 ≤ r.1 → IsLeast (free t) r.1.toNat) :=
  Within.map (within.mono fun _ answered => answered)

theorem getFdIndex_within (small : limit ≤ maxFdNum) (t : Table) (fd : Nat) :
    Within (getFdIndex limit t fd) fun found => getFdIndex limit t fd = .ok found := by
  obtain ⟨own, scanned, -⟩ := scan_eq small t fun f => decide (f.inUse ∧ f.fdNum = fd)
  rw [getFdIndex, getFdIndexWithoutRedirect, scanned, ok_bind]
  cases own with
  | none => exact rfl
  | some i =>
    dsimp only
    unfold follow
    cases chase (hop t) maxFdNum i with
    | none => exact rfl
    | some j => exact rfl

/-- The end of a call that takes one descriptor and fills its slot. -/
theorem OneFits.filled (fits : OneFits limit s.pfd) (sound : Sound s.pfd) {refusal : Int}
    (negative : refusal < 0) (taken : Nat → Bool) (f : Table → Fd → Fd) (fills : ∀ t, Fills (f t)) :
    Within (do
      let (number, t) ← getOneFd limit s.pfd
      if number = noFd then .ok (refusal, { s with pfd := t, sockUsed := taken })
      else
        let index ← getFdIndex limit t number
        let written ← writeAt t index (f t)
        .ok (asInt number, { s with pfd := written, sockUsed := taken })) (Answered s.pfd) := by
  rcases getOneFd_eq fits.small s.pfd with ⟨_, full⟩ | ⟨u, n, takes, got⟩
  · rw [full, ok_bind]
    exact answered_refused sound negative
  · have hidden := fits.hidden takes.room
    have written := takes.filled fits.small sound (f (claimSlot s.pfd u n))
    rw [got, ok_bind]
    dsimp only
    rw [if_neg takes.ne_noFd, ← bind_assoc, written, ok_bind]
    refine ⟨sound.filled takes hidden _ (fills _), ?_⟩
    intro _
    rw [takes.asInt]
    exact takes.isLeast hidden

theorem dup_within (sound : Sound s.pfd) (fits : OneFits limit s.pfd) (srcFd : Nat) :
    Within (fat32Dup limit s srcFd) (Answered s.pfd) := by
  unfold fat32Dup
  refine (getFdIndex_within fits.small s.pfd srcFd).bind ?_
  intro found _
  cases found with
  | none => exact answered_refused sound (by decide)
  | some src =>
    exact fits.filled sound (by decide) s.sockUsed
      (fun t fd => { fd.redirectedTo src with dev := (t src).dev }) fun t fd => ⟨rfl, rfl, rfl⟩

theorem socket_within (sound : Sound s.pfd) (fits : OneFits limit s.pfd) (cloexec nonblock : Bool) :
    Within (doSocket limit s cloexec nonblock) (Answered s.pfd) := by
  unfold doSocket
  cases freeSock s.sockUsed with
  | none => exact answered_refused sound (by decide)
  | some i =>
    exact fits.filled sound (by decide) _ (fun _ fd => fd.asSock i cloexec nonblock)
      fun t fd => ⟨rfl, rfl, rfl⟩

def Shrunk (t t' : Table) : Prop :=
  ∀ j, (t' j).fdNum = (t j).fdNum ∧ ((t' j).inUse → (t j).inUse)

theorem handAlias_sound (sound : Sound s.pfd) (inUse : (s.pfd k).inUse) (i : Slot) :
    Sound (handAlias k s i).pfd ∧ Shrunk s.pfd (handAlias k s i).pfd ∧
      ((handAlias k s i).pfd k).inUse := by
  by_cases aliased : Alias s.pfd k i
  · have table : (handAlias k s i).pfd = update s.pfd i ((s.pfd k).withNumber (s.pfd i).fdNum) := by
      funext j
      rcases eq_or_ne j i with rfl | same
      · simp [handAlias_pfd, aliased]
      · simp [handAlias_pfd, same]
    rw [table]
    refine ⟨sound.put (sound.unmapped k) ?_ ?_, ?_, ?_⟩
    · intro unused
      exact absurd unused inUse
    · intro _ j ne usedJ same
      exact ne (sound.distinct j i usedJ aliased.1 same)
    · intro j
      rcases eq_or_ne j i with rfl | same
      · rw [update_self]
        exact ⟨rfl, fun _ => aliased.1⟩
      · rw [update_of_ne same]
        exact ⟨rfl, id⟩
    · rcases eq_or_ne k i with rfl | same
      · rw [update_self]
        exact inUse
      · rwa [update_of_ne same]
  · have table : (handAlias k s i) = s := by
      simp [handAlias, aliased]
    rw [table]
    exact ⟨sound, fun j => ⟨rfl, id⟩, inUse⟩

theorem foldl_handAlias_sound (slots : List Slot) (sound : Sound s.pfd) (inUse : (s.pfd k).inUse) :
    Sound (slots.foldl (handAlias k) s).pfd ∧ Shrunk s.pfd (slots.foldl (handAlias k) s).pfd := by
  induction slots generalizing s with
  | nil => exact ⟨sound, fun j => ⟨rfl, id⟩⟩
  | cons i rest ih =>
    obtain ⟨sound₁, shrunk₁, inUse₁⟩ := handAlias_sound sound inUse i
    obtain ⟨sound₂, shrunk₂⟩ := ih sound₁ inUse₁
    refine ⟨sound₂, ?_⟩
    intro j
    obtain ⟨number₁, used₁⟩ := shrunk₁ j
    obtain ⟨number₂, used₂⟩ := shrunk₂ j
    exact ⟨number₂.trans number₁, fun used => used₁ (used₂ used)⟩

theorem close_within (sound : Sound s.pfd) (small : limit ≤ maxFdNum) (fd : Nat) :
    Within (fat32Close limit s fd) fun r => Sound r.2.pfd ∧ Shrunk s.pfd r.2.pfd ∧
      ∀ j : Slot, j.val < limit → (r.2.pfd j).inUse → (r.2.pfd j).fdNum ≠ fd := by
  obtain ⟨own, scanned, spec⟩ := scan_eq small s.pfd fun f => decide (f.inUse ∧ f.fdNum = fd)
  rw [fat32Close, getFdIndexWithoutRedirect, scanned, ok_bind]
  cases own with
  | none =>
    refine ⟨sound, fun j => ⟨rfl, id⟩, ?_⟩
    intro j inside inUse same
    have failed := of_decide_eq_false (spec j inside)
    exact failed ⟨inUse, same⟩
  | some k =>
    obtain ⟨-, passes, -⟩ := spec
    obtain ⟨inUse, number⟩ := of_decide_eq_true passes
    obtain ⟨sound₁, shrunk₁⟩ := foldl_handAlias_sound (below limit) sound inUse
    dsimp only
    rw [if_neg (by rw [sound.unmapped k]; decide), if_pos small]
    dsimp only [Within]
    rw [releaseEnd_pfd]
    refine ⟨sound₁.put rfl (fun _ => rfl) (fun used => absurd rfl used), ?_, ?_⟩
    · intro j
      rcases eq_or_ne j k with rfl | same
      · rw [update_self]
        exact ⟨(shrunk₁ j).1, fun used => absurd rfl used⟩
      · rw [update_of_ne same]
        exact shrunk₁ j
    · intro j _ used same
      rcases eq_or_ne j k with rfl | closed
      · rw [update_self] at used
        exact used rfl
      · rw [update_of_ne closed] at used same
        obtain ⟨kept, before⟩ := shrunk₁ j
        rw [kept] at same
        exact closed (sound.distinct j k (before used) inUse (same.trans number.symm))

theorem baseClus_within (small : limit ≤ maxFdNum) (env : OpenEnv) (t : Table) (fd : Nat)
    (path : String) : Within (baseClus limit env t fd path) fun _ => True := by
  unfold baseClus
  split_ifs
  · trivial
  · trivial
  · refine (getFdIndex_within small t fd).bind ?_
    intro found _
    cases found with
    | none => trivial
    | some i => trivial

theorem openat_within (sound : Sound s.pfd) (fits : OneFits limit s.pfd) (env : OpenEnv)
    (fd : Nat) (path : String) (flags : Nat) :
    Within (fat32Openat limit env s fd path flags) (Answered s.pfd) := by
  unfold fat32Openat
  refine (baseClus_within fits.small env s.pfd fd path).bind ?_
  intro base _
  cases base with
  | none => exact answered_refused sound (by decide)
  | some base =>
    dsimp only
    rcases getOneFd_eq fits.small s.pfd with ⟨_, full⟩ | ⟨u, n, takes, got⟩
    · rw [full, ok_bind]
      exact answered_refused sound (by decide)
    · have hidden := fits.hidden takes.room
      rw [got, ok_bind]
      rw [if_neg takes.ne_noFd, takes.getFdIndex fits.small sound, ok_bind]
      dsimp only
      cases opened : openedFd env (claimSlot s.pfd u n u) path flags base with
      | some fd' =>
        obtain ⟨used, -, -, number, unmapped⟩ := openedFd_sameShape opened
        simp only [claimSlot, update_self] at used number unmapped
        dsimp only [Within]
        rw [update_claimSlot]
        refine ⟨sound.write (takes.isLeast hidden).1 u _ number used
          (unmapped.trans (sound.unmapped u)), ?_⟩
        intro _
        rw [takes.asInt]
        exact takes.isLeast hidden
      | none =>
        have claimed : Sound ({ s with pfd := claimSlot s.pfd u n } : Files).pfd :=
          sound.claim takes hidden
        refine (close_within claimed fits.small n).bind ?_
        rintro ⟨_, closed⟩ ⟨soundClosed, -⟩
        exact answered_refused soundClosed (by decide)

/-- The first slot below the limit with the target number can be taken, or a slot is free and
the store to slot `MAX_FILE_NUM` stays in the table; and nothing else carries the number. -/
structure TargetFits (limit : Nat) (t : Table) (dstFd : Nat) : Prop where
  unhidden : ∀ j : Slot, limit ≤ j.val → (t j).inUse → (t j).fdNum ≠ dstFd
  place : (∃ i : Slot, i.val < limit ∧ (t i).fdNum = dstFd) ∨ limit < maxFdNum ∧ Room limit t

def Foremost (limit : Nat) (t : Table) (dstFd : Nat) : Prop :=
  ∀ j : Slot, j.val < limit → (t j).inUse → (t j).fdNum = dstFd → ∀ i, i < j → (t i).fdNum ≠ dstFd

theorem redirectTo_within (sound : Sound s.pfd) (small : limit ≤ maxFdNum) (src : Slot)
    (fits : TargetFits limit s.pfd dstFd) (foremost : Foremost limit s.pfd dstFd) :
    Within (redirectTo limit s src dstFd) fun next => Sound next.pfd := by
  obtain ⟨own, scanned, spec⟩ := scan_eq small s.pfd fun fd => decide (fd.fdNum = dstFd)
  rw [redirectTo, scanned, ok_bind]
  cases own with
  | some i =>
    obtain ⟨inside, passes, earlier⟩ := spec
    have number : (s.pfd i).fdNum = dstFd := of_decide_eq_true passes
    refine sound.put (sound.unmapped i) nofun ?_
    intro _ j ne inUse same
    have sameJ : (s.pfd j).fdNum = dstFd := same.trans number
    by_cases insideJ : j.val < limit
    · rcases lt_or_gt_of_ne ne with before | after
      · have failed := earlier j before
        simp [sameJ] at failed
      · exact foremost j insideJ inUse sameJ i after number
    · exact fits.unhidden j (not_lt.mp insideJ) inUse sameJ
  | none =>
    have missing : ∀ i : Slot, i.val < limit → (s.pfd i).fdNum ≠ dstFd := by
      intro i inside same
      have failed := spec i inside
      simp [same] at failed
    have fresh : dstFd ∈ free s.pfd := by
      intro j inUse
      by_cases inside : j.val < limit
      · exact missing j inside
      · exact fits.unhidden j (not_lt.mp inside) inUse
    obtain ⟨i, inside, same⟩ | ⟨stray, room⟩ := fits.place
    · exact absurd same (missing i inside)
    rcases getOneFd_eq small s.pfd with ⟨full, _⟩ | ⟨u, n, takes, got⟩
    · exact absurd room full
    · have written := takes.filled small sound fun fd =>
        (fd.redirectedTo src).withNumber dstFd
      dsimp only [fill]
      rw [got, ok_bind]
      rw [← bind_assoc, written, ok_bind, ok_bind]
      rw [dif_pos stray]
      have soundU := sound.write fresh u
        ((({ s.pfd u with used := .used, fdNum := n } : Fd).redirectedTo src).withNumber dstFd)
        rfl rfl (sound.unmapped u)
      refine soundU.put (soundU.unmapped _) (soundU.plain _) ?_
      intro used j ne usedJ same
      exact ne (soundU.distinct j _ usedJ used same)

structure Dup3Fits (limit : Nat) (t : Table) (srcFd dstFd : Nat) : Prop where
  small : limit ≤ maxFdNum
  target : srcFd ≠ dstFd → (∃ i, getFdIndex limit t srcFd = .ok (some i)) →
    TargetFits limit t dstFd ∧ (getFdIndex limit t dstFd = .ok none → Foremost limit t dstFd)

theorem TargetFits.shrunk {t' : Table} (fits : TargetFits limit t dstFd)
    (shrunk : Shrunk t t') : TargetFits limit t' dstFd := by
  constructor
  · intro j outside inUse
    rw [(shrunk j).1]
    exact fits.unhidden j outside ((shrunk j).2 inUse)
  · rcases fits.place with ⟨i, inside, same⟩ | ⟨stray, i, inside, unused⟩
    · exact .inl ⟨i, inside, (shrunk i).1.trans same⟩
    · refine .inr ⟨stray, i, inside, ?_⟩
      by_contra used
      exact (shrunk i).2 used unused

theorem dup3_within {srcFd : Nat} (sound : Sound s.pfd) (fits : Dup3Fits limit s.pfd srcFd dstFd) :
    Within (fat32Dup3 limit s srcFd dstFd) fun r => Sound r.2.pfd ∧
      (r.1 = asInt dstFd ∨ r.1 = -einval ∨ r.1 = -ebadf) := by
  unfold fat32Dup3
  split_ifs with same
  · exact ⟨sound, .inr (.inl rfl)⟩
  refine (getFdIndex_within fits.small s.pfd srcFd).bind ?_
  intro found resolved
  cases found with
  | none => exact ⟨sound, .inr (.inr rfl)⟩
  | some src =>
    obtain ⟨target, foremost⟩ := fits.target same ⟨src, resolved⟩
    refine (getFdIndex_within fits.small s.pfd dstFd).bind ?_
    intro dst resolvedDst
    cases dst with
    | none =>
      refine (redirectTo_within sound fits.small src target (foremost resolvedDst)).bind ?_
      intro next soundNext
      exact ⟨soundNext, .inl rfl⟩
    | some k =>
      refine (close_within sound fits.small dstFd).bind ?_
      rintro ⟨_, closed⟩ ⟨soundClosed, shrunk, gone⟩
      refine (redirectTo_within soundClosed fits.small src (target.shrunk shrunk) ?_).bind ?_
      · intro j inside inUse number
        exact absurd number (gone j inside inUse)
      · intro next soundNext
        exact ⟨soundNext, .inl rfl⟩

/-- Two slots below the limit are free, and no slot at or above the limit carries one of the
two numbers that may be handed out next. -/
structure TwoFit (limit : Nat) (t : Table) : Prop where
  small : limit ≤ maxFdNum
  room : ∃ i j : Slot, i ≠ j ∧ (i.val < limit ∧ (t i).used = .unused) ∧
    j.val < limit ∧ (t j).used = .unused
  hidden : ∀ j : Slot, limit ≤ j.val → (t j).inUse →
    ∃ m n, m < n ∧ n < (t j).fdNum ∧ ¬ Shown limit t m ∧ ¬ Shown limit t n

theorem fill_eq (sound : Sound t) (small : limit ≤ maxFdNum) (room : Room limit t) (f : Fd → Fd) :
    ∃ u n, Takes limit t u n ∧ fill limit t f =
      .ok (n, update t u (f { t u with used := .used, fdNum := n })) := by
  rcases getOneFd_eq small t with ⟨full, _⟩ | ⟨u, n, takes, got⟩
  · exact absurd room full
  · refine ⟨u, n, takes, ?_⟩
    have written := takes.filled small sound f
    rw [fill, got, ok_bind]
    dsimp only
    rw [← bind_assoc, written, ok_bind]

variable {fd : Fd} {m : Nat}

theorem shown_update (number : fd.fdNum = n)
    (shown : Shown limit (update t u fd) m) : m = n ∨ Shown limit t m := by
  obtain ⟨i, inside, inUse, same⟩ := shown
  rcases eq_or_ne i u with rfl | here
  · rw [update_self] at same
    exact .inl (same.symm.trans number)
  · rw [update_of_ne here] at inUse same
    exact .inr ⟨i, inside, inUse, same⟩

theorem free_update (unused : (t u).used = .unused) (used : fd.used = .used)
    (number : fd.fdNum = n) : free (update t u fd) = free t \ {n} := by
  ext m
  constructor
  · intro unusedNumber
    constructor
    · intro j inUse
      have other : j ≠ u := by
        rintro rfl
        exact inUse unused
      have after := unusedNumber j
      rw [update_of_ne other] at after
      exact after inUse
    · rintro rfl
      refine unusedNumber u ?_ ?_
      · rw [update_self, Fd.inUse, used]
        decide
      · rw [update_self, number]
  · rintro ⟨unusedNumber, other⟩ j inUse same
    rcases eq_or_ne j u with rfl | here
    · rw [update_self] at same
      exact other (same.symm.trans number)
    · rw [update_of_ne here] at inUse same
      exact unusedNumber j inUse same

theorem TwoFit.second (fits : TwoFit limit t) (takes : Takes limit t u n) (fd : Fd)
    (number : fd.fdNum = n) : Room limit (update t u fd) ∧ Hidden limit (update t u fd) := by
  constructor
  · obtain ⟨i, j, ne, ⟨insideI, unusedI⟩, insideJ, unusedJ⟩ := fits.room
    by_cases here : i = u
    · refine ⟨j, insideJ, ?_⟩
      rwa [update_of_ne (fun same => ne (here.trans same.symm))]
    · refine ⟨i, insideI, ?_⟩
      rwa [update_of_ne here]
  · intro j outside inUse
    have other : j ≠ u := by
      rintro rfl
      exact absurd takes.inside (not_lt.mpr outside)
    rw [update_of_ne other] at inUse ⊢
    obtain ⟨first, second, less, below, unseen, unseen'⟩ := fits.hidden j outside inUse
    refine ⟨second, below, ?_⟩
    intro shown
    rcases shown_update number shown with same | shown
    · exact absurd (takes.le unseen) (by omega)
    · exact unseen' shown

theorem TwoFit.hides (fits : TwoFit limit t) : Hidden limit t := by
  intro j outside inUse
  obtain ⟨first, second, less, below, unseen, -⟩ := fits.hidden j outside inUse
  exact ⟨first, lt_trans less below, unseen⟩

theorem pipe2_within (sound : Sound s.pfd) (fits : freePipe s.pipe ≠ none → TwoFit limit s.pfd) :
    Within (fat32Pipe2 limit s) fun r => Sound r.2.2.pfd ∧
      (0 ≤ r.1 → ∃ m n, r.2.1 = [m, n] ∧ IsLeast (free s.pfd) m ∧ IsLeast (free s.pfd \ {m}) n) := by
  unfold fat32Pipe2
  cases slot : freePipe s.pipe with
  | none =>
    refine ⟨sound, ?_⟩
    intro valid
    have negative : -enfile < 0 := by decide
    exact absurd valid (not_le.mpr negative)
  | some pipe =>
    have two := fits (by rw [slot]; exact Option.some_ne_none pipe)
    obtain ⟨i, -, -, roomy, -⟩ := two.room
    obtain ⟨u, m, takes, filled⟩ :=
      fill_eq sound two.small ⟨i, roomy⟩ fun fd => fd.asPipe pipe true
    obtain ⟨room₁, hidden₁⟩ := two.second takes
      (({ s.pfd u with used := .used, fdNum := m } : Fd).asPipe pipe true) rfl
    have sound₁ := sound.filled takes two.hides (fun fd => fd.asPipe pipe true)
      fun fd => ⟨rfl, rfl, rfl⟩
    obtain ⟨v, n, takes₁, filled₁⟩ :=
      fill_eq sound₁ two.small room₁ fun fd => fd.asPipe pipe false
    dsimp only
    rw [filled, ok_bind]
    rw [filled₁, ok_bind]
    refine ⟨sound₁.filled takes₁ hidden₁ (fun fd => fd.asPipe pipe false)
      fun fd => ⟨rfl, rfl, rfl⟩, ?_⟩
    intro _
    refine ⟨m, n, rfl, takes.isLeast two.hides, ?_⟩
    have least := takes₁.isLeast hidden₁
    rwa [free_update takes.unused rfl rfl] at least

/-! ## Runs -/

/-- The side condition on a call. -/
def Fits (w : World) : Act → Prop
  | .openat t _ _ _ _ | .dup t _ | .socket t _ _ => OneFits w.limit (w.tables t)
  | .dup3 t src dst => Dup3Fits w.limit (w.tables t) src dst
  | .pipe2 t => freePipe w.pipe ≠ none → TwoFit w.limit (w.tables t)
  | .close _ _ => w.limit ≤ maxFdNum
  | .setrlimit _ _ => True

/-- All accesses were in the table of the caller, and no number is carried twice. -/
def InTables (w : World) : Prop :=
  w.outside = false ∧ ∀ t i j, (w.tables t i).inUse → (w.tables t j).inUse →
    (w.tables t i).fdNum = (w.tables t j).fdNum → i = j

/-- What a call that answers may return. -/
def Right (w : World) : Act → Int → List Nat → Prop
  | .openat t _ _ _ _, r, _ | .dup t _, r, _ | .socket t _ _, r, _ =>
    0 ≤ r → IsLeast (free (w.tables t)) r.toNat
  | .pipe2 t, r, numbers => 0 ≤ r → ∃ m n, numbers = [m, n] ∧ IsLeast (free (w.tables t)) m ∧
      IsLeast (free (w.tables t) \ {m}) n
  | .dup3 _ _ dst, r, _ => r = asInt dst ∨ r = -einval ∨ r = -ebadf
  | .close _ _, _, _ | .setrlimit _ _, _, _ => True

def Returns (w : World) (act : Act) (_ : World) : Prop :=
  ∀ r numbers s, reply w act = .ok (r, numbers, s) → Right w act r numbers

structure SoundWorld (w : World) : Prop where
  outside : w.outside = false
  tables : ∀ t, Sound (w.tables t)

theorem reply_within (w : World) (act : Act) (sound : SoundWorld w) (fits : Fits w act) :
    Within (reply w act) fun r => Sound r.2.2.pfd ∧ Right w act r.1 r.2.1 := by
  cases act with
  | openat t env fd path flags =>
    exact (openat_within (s := w.files t) (sound.tables t) fits env fd path flags).answered
  | dup t src => exact (dup_within (s := w.files t) (sound.tables t) fits src).answered
  | dup3 t src dst => exact (dup3_within (s := w.files t) (sound.tables t) fits).map
  | pipe2 t => exact pipe2_within (s := w.files t) (sound.tables t) fits
  | socket t cloexec nonblock =>
    exact (socket_within (s := w.files t) (sound.tables t) fits cloexec nonblock).answered
  | close t fd =>
    refine Within.map ((close_within (s := w.files t) (sound.tables t) fits fd).mono ?_)
    rintro r ⟨closed, -⟩
    exact ⟨closed, trivial⟩
  | setrlimit t rlimCur => exact ⟨sound.tables t, trivial⟩

theorem step_sound (w : World) (act : Act) (next : World) (sound : SoundWorld w)
    (fits : Fits w act) (run : step w act = some next) : SoundWorld next ∧ Returns w act next := by
  have within := reply_within w act sound fits
  simp only [step, sound.outside, Bool.false_eq_true, if_false] at run
  cases answer : reply w act with
  | error fault =>
    rw [answer] at run within
    cases (within : fault = .endless)
    cases run
  | ok r =>
    obtain ⟨value, numbers, s⟩ := r
    rw [answer] at run within
    obtain ⟨soundTable, right⟩ := within
    cases run
    refine ⟨⟨sound.outside, ?_⟩, ?_⟩
    · intro t
      rcases eq_or_ne t act.table with rfl | own
      · simpa [World.setFiles] using soundTable
      · simpa [World.setFiles, own] using sound.tables t
    · intro value' numbers' s' answer'
      cases answer.symm.trans answer'
      exact right

/-- The limit and the tables after boot. -/
def bootWorld : World where
  limit := maxFdNum
  tables := fun _ => initFd fun _ => blankFd
  pipe := fun _ => ⟨0, 0, false⟩
  sockUsed := fun _ => false
  outside := false

theorem bootWorld_sound : SoundWorld bootWorld := by
  refine ⟨rfl, ?_⟩
  intro t
  have good := good_initFd (t := fun _ => blankFd) fun _ => ⟨rfl, rfl⟩
  exact ⟨good.number_unique, good.unused_plain, good.unmapped⟩

theorem oneFits_maxFdNum (t : Table) : OneFits maxFdNum t := by
  refine ⟨le_rfl, ?_⟩
  intro _ j outside
  exact absurd j.isLt (not_lt.mpr outside)

end CCore.Fs.Limit
