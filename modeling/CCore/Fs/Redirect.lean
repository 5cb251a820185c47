import CCore.Fs.Descriptor
import CCore.Lib.Run

/-!
# Redirection between descriptors is well-founded

A table is settled when following `redirected_fd_index` from a slot in use
passes no slot twice and ends at a slot in use that is not redirected.  Every
call keeps a table settled except `fat32_dup3`, which resolves its source
before it closes its target: if the two are the same slot, the new redirection
points at the slot that was just closed.  `settledAlong_iff` gives the exact
condition on the calls of a run.
-/
namespace CCore.Fs

open Fat Chase Run Function List Option Fintype

/-- Redirection is well-founded and every look-up ends. -/
structure Settled (t : Table) : Prop where
  ends : ∀ i, (t i).inUse → ∃ path, Trail (link t) i path ∧ (i :: path).Nodup ∧
    (t ((i :: path).getLast (cons_ne_nil i path))).inUse ∧
    (t ((i :: path).getLast (cons_ne_nil i path))).redirected = false
  lookup : ∀ fd, (getFdIndex t fd).isSome

/-- What every call relies on and keeps. -/
structure Good (t : Table) : Prop where
  unused_plain : ∀ i, (t i).used = .unused → (t i).redirected = false
  target_used : ∀ i, (t i).redirected = true → (t (t i).redirectedFdIndex).inUse
  number_unique : ∀ i j, (t i).inUse → (t j).inUse → (t i).fdNum = (t j).fdNum → i = j
  unmapped : ∀ i, (t i).mmapUsed = false
  ranked : Ranked (link t)

/-- The side condition on a call.  It concerns `fat32_dup3` only: its source
must not resolve to the slot that carries the target number, and in a full
table where nothing carries the target number, the slot that descriptor
`(fd_num_t)-1` resolves to must not be on the way of the source. -/
def RedirectOk (s : Files) : Call → Prop
  | .dup3 srcFd dstFd =>
    srcFd ≠ dstFd → ∀ src, getFdIndex s.pfd srcFd = some (some src) →
      getFdIndexWithoutRedirect s.pfd dstFd ≠ some src ∧
      (firstNumbered s.pfd dstFd = none → firstUnused s.pfd = none →
        ∀ j, getFdIndex s.pfd noFd = some (some j) → ¬ Reaches (link s.pfd) src j)
  | _ => True

variable {t : Table} {i j : Slot} {fd : Nat}

theorem link_eq_some :
    link t i = some j ↔ (t i).redirected = true ∧ (t i).redirectedFdIndex = j := by
  unfold link
  split <;> simp_all

theorem firstUnused_some (found : firstUnused t = some i) : (t i).used = .unused := by
  simpa using List.find?_some found

theorem firstUnused_none (full : firstUnused t = none) (i : Slot) : (t i).inUse := by
  have missed := List.find?_eq_none.mp full i (mem_finRange i)
  simpa [Fd.inUse] using missed

theorem firstNumbered_some (found : firstNumbered t fd = some i) : (t i).fdNum = fd := by
  simpa using List.find?_some found

theorem firstNumbered_none (missing : firstNumbered t fd = none) (i : Slot) : (t i).fdNum ≠ fd := by
  have missed := List.find?_eq_none.mp missing i (mem_finRange i)
  simpa using missed

theorem own_some
    (found : getFdIndexWithoutRedirect t fd = some i) : (t i).inUse ∧ (t i).fdNum = fd := by
  simpa using List.find?_some found

theorem own_none (missing : getFdIndexWithoutRedirect t fd = none)
    (i : Slot) (inUse : (t i).inUse) : (t i).fdNum ≠ fd := by
  have missed := List.find?_eq_none.mp missing i (mem_finRange i)
  simpa [inUse] using missed

theorem own_eq_of_unique (carries : (t i).inUse ∧ (t i).fdNum = fd)
    (unique : ∀ j, (t j).inUse → (t j).fdNum = fd → j = i) :
    getFdIndexWithoutRedirect t fd = some i := by
  cases found : getFdIndexWithoutRedirect t fd with
  | none => exact absurd carries.2 (own_none found i carries.1)
  | some j =>
    obtain ⟨inUse, number⟩ := own_some found
    rw [unique j inUse number]

theorem not_all_taken (t : Table) (taken : ∀ n : Fin (maxFdNum + 1), ∃ i, (t i).fdNum = n.val) :
    False := by
  choose slot number using taken
  have injective : Function.Injective slot := by
    intro m n same
    exact Fin.ext (by rw [← number m, ← number n, same])
  have bound := card_le_of_injective slot injective
  exact absurd bound (Nat.not_succ_le_self maxFdNum)

theorem freeNumber_isSome (t : Table) : ∃ number, freeNumber t = some number := by
  cases found : freeNumber t with
  | some number => exact ⟨number, rfl⟩
  | none =>
    refine (not_all_taken t fun n => ?_).elim
    have missed := List.find?_eq_none.mp found n.val (mem_range.mpr n.isLt)
    simp only [decide_eq_true_eq, not_forall, not_not] at missed
    obtain ⟨i, _, number⟩ := missed
    exact ⟨i, number⟩

theorem getOneFd_cases (t : Table) : (firstUnused t = none ∧ getOneFd t = (noFd, t)) ∨
    ∃ number i, firstUnused t = some i ∧ number ≠ noFd ∧ (∀ j, (t j).inUse → (t j).fdNum ≠ number) ∧
      getOneFd t = (number, claimSlot t i number) := by
  obtain ⟨number, free⟩ := freeNumber_isSome t
  cases unused : firstUnused t with
  | none =>
    refine .inl ⟨rfl, ?_⟩
    unfold getOneFd
    rw [free, unused]
  | some i =>
    have inRange := List.mem_of_find?_eq_some free
    have fresh := List.find?_some free
    refine .inr ⟨number, i, rfl, ?_, ?_, ?_⟩
    · rw [mem_range, maxFdNum] at inRange
      unfold noFd
      omega
    · intro j inUse same
      simp only [decide_eq_true_eq] at fresh
      exact fresh j ⟨inUse, same⟩
    · unfold getOneFd
      rw [free, unused]

theorem ranked_hop (ranked : Ranked (link t)) : Ranked (hop t) := by
  refine ranked_of_reaches ranked ?_
  intro i j hopped
  refine ⟨j, ?_, Relation.ReflTransGen.refl⟩
  unfold hop at hopped
  split at hopped
  · exact hopped
  · cases hopped

theorem reaches_link_of_hop (reaches : Reaches (hop t) i j) : Reaches (link t) i j := by
  refine Relation.ReflTransGen.mono ?_ i j reaches
  intro a b hopped
  unfold Hop hop at hopped
  split at hopped
  · exact hopped
  · cases hopped

variable {other : Table} {f : Fd} {number : Nat}

namespace Good

theorem inUse_of_reaches (good : Good t) (inUse : (t i).inUse)
    (reaches : Reaches (link t) i j) : (t j).inUse := by
  induction reaches with
  | refl => exact inUse
  | tail _ hopped ih =>
    obtain ⟨redirected, rfl⟩ := link_eq_some.mp hopped
    exact good.target_used _ redirected

theorem getFdIndex_cases (good : Good t) (fd : Nat) :
    (getFdIndexWithoutRedirect t fd = none ∧ getFdIndex t fd = some none) ∨
    ∃ k i, getFdIndexWithoutRedirect t fd = some k ∧ getFdIndex t fd = some (some i) ∧
      (t i).inUse := by
  cases own : getFdIndexWithoutRedirect t fd with
  | none =>
    refine .inl ⟨rfl, ?_⟩
    rw [getFdIndex, own]
  | some k =>
    obtain ⟨path, trail⟩ := trail_of_ranked (ranked_hop good.ranked) k
    have bound := trail_length_lt_card trail
    rw [card_fin] at bound
    have run := chase_of_trail trail bound
    generalize (k :: path).getLast (cons_ne_nil k path) = i at run
    have inUse : (t i).inUse :=
      good.inUse_of_reaches (own_some own).1 (reaches_link_of_hop (reaches_of_chase run))
    refine .inr ⟨k, i, rfl, ?_, inUse⟩
    rw [getFdIndex, own]
    simp only [run, map_some]
    rw [if_neg (fun both => inUse both.2)]

theorem getFdIndex_inUse (good : Good t)
    (found : getFdIndex t fd = some (some i)) : (t i).inUse := by
  rcases good.getFdIndex_cases fd with ⟨_, missing⟩ | ⟨k, j, _, foundJ, inUse⟩
  · rw [missing] at found
    cases found
  · obtain rfl : j = i := by simpa using foundJ.symm.trans found
    exact inUse

theorem settled (good : Good t) : Settled t where
  ends := by
    intro i inUse
    obtain ⟨path, trail⟩ := trail_of_ranked good.ranked i
    have run := chase_of_trail trail (Nat.lt_succ_self _)
    refine ⟨path, trail, trail_nodup trail, ?_, ?_⟩
    · exact good.inUse_of_reaches inUse (reaches_of_chase run)
    · have stops := stops_of_chase run
      by_contra redirected
      rw [Bool.not_eq_false] at redirected
      rw [link_eq_some.mpr ⟨redirected, rfl⟩] at stops
      cases stops
  lookup := by
    intro fd
    rcases good.getFdIndex_cases fd with ⟨_, found⟩ | ⟨_, _, _, found, _⟩ <;> rw [found] <;> rfl

def SameShape (a b : Fd) : Prop :=
  a.used = b.used ∧ a.redirected = b.redirected ∧ a.redirectedFdIndex = b.redirectedFdIndex ∧
    a.fdNum = b.fdNum ∧ a.mmapUsed = b.mmapUsed

theorem of_sameShape (good : Good t) (same : ∀ i, SameShape (other i) (t i)) : Good other := by
  have used : ∀ i, (other i).used = (t i).used := fun i => (same i).1
  have redirected : ∀ i, (other i).redirected = (t i).redirected := fun i => (same i).2.1
  have index : ∀ i, (other i).redirectedFdIndex = (t i).redirectedFdIndex :=
    fun i => (same i).2.2.1
  have number : ∀ i, (other i).fdNum = (t i).fdNum := fun i => (same i).2.2.2.1
  have links : link other = link t := by
    funext i
    rw [link, link, redirected, index]
  refine ⟨?_, ?_, ?_, ?_, links ▸ good.ranked⟩
  · intro i
    rw [used, redirected]
    exact good.unused_plain i
  · intro i
    rw [redirected, index, Fd.inUse, used]
    exact good.target_used i
  · intro i j
    rw [Fd.inUse, Fd.inUse, used, used, number, number]
    exact good.number_unique i j
  · intro i
    rw [(same i).2.2.2.2]
    exact good.unmapped i

theorem getFdIndex_of_sameShape (same : ∀ i, SameShape (other i) (t i))
    (dev : ∀ i, (other i).dev = (t i).dev) (fd : Nat) : getFdIndex other fd = getFdIndex t fd := by
  have used : ∀ i, (other i).used = (t i).used := fun i => (same i).1
  have hops : hop other = hop t := by
    funext i
    unfold hop link
    rw [dev, (same i).2.1, (same i).2.2.1]
  have searched : getFdIndexWithoutRedirect other fd = getFdIndexWithoutRedirect t fd := by
    refine congrArg (fun q => (List.finRange maxFdNum).find? q) (funext fun i => ?_)
    refine decide_eq_decide.mpr ?_
    rw [Fd.inUse, used, (same i).2.2.2.1, Fd.inUse]
  unfold getFdIndex
  rw [searched, hops]
  cases getFdIndexWithoutRedirect t fd with
  | none => rfl
  | some i => simp [used, dev]

theorem link_update (j : Slot) (fd : Fd) : link (update t j fd) =
    update (link t) j (if fd.redirected then some fd.redirectedFdIndex else none) := by
  funext i
  rcases eq_or_ne i j with rfl | same
  · simp [link]
  · simp [link, same]

theorem inUse_update {fd : Fd} (inUse : fd.inUse) (before : (t i).inUse) :
    (update t j fd i).inUse := by
  rcases eq_or_ne i j with rfl | same
  · simpa using inUse
  · simpa [same] using before

theorem write (good : Good t) (inUse : f.inUse)
    (target : f.redirected = true → (t f.redirectedFdIndex).inUse) (unmapped : f.mmapUsed = false)
    (fresh : ∀ k, k ≠ j → (t k).inUse → (t k).fdNum ≠ f.fdNum)
    (ranked : Ranked (link (update t j f))) : Good (update t j f) where
  unused_plain := by
    intro k unused
    rcases eq_or_ne k j with rfl | same
    · rw [update_self] at unused
      exact absurd unused inUse
    · rw [update_of_ne same] at unused ⊢
      exact good.unused_plain k unused
  target_used := by
    intro k isRedirected
    refine inUse_update inUse ?_
    rcases eq_or_ne k j with rfl | same
    · rw [update_self] at isRedirected ⊢
      exact target isRedirected
    · rw [update_of_ne same] at isRedirected ⊢
      exact good.target_used k isRedirected
  number_unique := by
    intro k m inUseK inUseM number
    by_cases sameK : k = j <;> by_cases sameM : m = j
    · rw [sameK, sameM]
    · subst sameK
      rw [update_self, update_of_ne sameM] at number
      rw [update_of_ne sameM] at inUseM
      exact absurd number.symm (fresh m sameM inUseM)
    · subst sameM
      rw [update_self, update_of_ne sameK] at number
      rw [update_of_ne sameK] at inUseK
      exact absurd number (fresh k sameK inUseK)
    · rw [update_of_ne sameK] at inUseK number
      rw [update_of_ne sameM] at inUseM number
      exact good.number_unique k m inUseK inUseM number
  unmapped := by
    intro k
    rcases eq_or_ne k j with rfl | same
    · simpa using unmapped
    · simpa [same] using good.unmapped k
  ranked := ranked

theorem redirect (good : Good t) (target : (t i).inUse)
    (apart : ¬ Reaches (link t) i j) (inUse : f.inUse) (redirected : f.redirected = true)
    (points : f.redirectedFdIndex = i) (unmapped : f.mmapUsed = false)
    (fresh : ∀ k, k ≠ j → (t k).inUse → (t k).fdNum ≠ f.fdNum) : Good (update t j f) := by
  refine good.write inUse (fun _ => by rwa [points]) unmapped fresh ?_
  rw [link_update, if_pos redirected, points]
  exact ranked_update good.ranked apart

theorem link_claimSlot (i : Slot) (number : Nat) : link (claimSlot t i number) = link t := by
  rw [claimSlot, link_update]
  exact update_eq_self i (link t)

theorem claim (good : Good t)
    (fresh : ∀ j, (t j).inUse → (t j).fdNum ≠ number) : Good (claimSlot t i number) := by
  have ranked := good.ranked
  rw [← link_claimSlot i number] at ranked
  exact good.write (by simp [Fd.inUse]) (good.target_used i) (good.unmapped i)
    (fun k _ => fresh k) ranked

theorem getFdIndex_claimSlot (good : Good t)
    (unused : (t i).used = .unused) (fresh : ∀ j, (t j).inUse → (t j).fdNum ≠ number) :
    getFdIndex (claimSlot t i number) number = some (some i) := by
  have self : claimSlot t i number i = { t i with used := .used, fdNum := number } := by
    simp [claimSlot]
  have own : getFdIndexWithoutRedirect (claimSlot t i number) number = some i := by
    refine own_eq_of_unique ⟨by simp [self, Fd.inUse], by simp [self]⟩ ?_
    intro j inUse same
    by_contra other
    simp only [claimSlot, update_of_ne other] at inUse same
    exact fresh j inUse same
  have stops : hop (claimSlot t i number) i = none := by
    simp [hop, link, self, good.unused_plain i unused]
  rw [getFdIndex, own]
  have run : chase (hop (claimSlot t i number)) maxFdNum i = some i := by
    rw [show maxFdNum = 109 + 1 from rfl, chase, stops]
  simp [run, self]

end Good

/-! ## Closing a slot -/

@[simp] theorem releaseEnd_pfd (s : Files) (fd : Fd) : (releaseEnd s fd).pfd = s.pfd := by
  unfold releaseEnd
  split
  · split_ifs <;> rfl
  · rfl
  · rfl

theorem handAlias_pfd (k : Slot) (s : Files) (i j : Slot) : (handAlias k s i).pfd j =
    if j = i ∧ Alias s.pfd k i then (s.pfd k).withNumber (s.pfd i).fdNum else s.pfd j := by
  by_cases aliased : Alias s.pfd k i
  · rcases eq_or_ne j i with rfl | same
    · simp [handAlias, copyFd, aliased]
    · simp [handAlias, copyFd, aliased, same]
  · simp [handAlias, aliased]

theorem foldl_handAlias_pfd (k : Slot) (slots : List Slot) (s : Files)
    (apart : ¬ Alias s.pfd k k) (j : Slot) : (slots.foldl (handAlias k) s).pfd j =
    if j ∈ slots ∧ Alias s.pfd k j then (s.pfd k).withNumber (s.pfd j).fdNum else s.pfd j := by
  induction slots generalizing s with
  | nil => simp
  | cons i rest ih =>
    have closedSlot : (handAlias k s i).pfd k = s.pfd k := by
      rw [handAlias_pfd, if_neg]
      rintro ⟨rfl, aliased⟩
      exact apart aliased
    have apartNext : ¬ Alias (handAlias k s i).pfd k k := by
      rw [Alias, closedSlot]
      exact apart
    rw [foldl_cons, ih _ apartNext, closedSlot]
    rcases eq_or_ne j i with rfl | same
    · by_cases aliased : Alias s.pfd k j
      · simp [handAlias_pfd, aliased, Fd.withNumber]
      · have keeps : (handAlias k s j).pfd j = s.pfd j := by
          simp [handAlias_pfd, aliased]
        have still : ¬ Alias (handAlias k s j).pfd k j := by
          rw [Alias, keeps]
          exact aliased
        simp [aliased, still, keeps]
    · have keeps : (handAlias k s i).pfd j = s.pfd j := by
        simp [handAlias_pfd, same]
      simp [Alias, keeps, same]

namespace Good

theorem not_alias_self (good : Good t) (k : Slot) : ¬ Alias t k k := by
  rintro ⟨_, redirected, index⟩
  obtain ⟨rank, lowers⟩ := good.ranked
  exact absurd (lowers k k (link_eq_some.mpr ⟨redirected, index⟩)) (lt_irrefl _)

variable {s : Files} {k : Slot}

section
variable (good : Good s.pfd) (own : getFdIndexWithoutRedirect s.pfd fd = some k)
include good own

theorem close_pfd (j : Slot) : (fat32Close s fd).2.pfd j = if j = k then resetFd (s.pfd k)
    else if Alias s.pfd k j then (s.pfd k).withNumber (s.pfd j).fdNum else s.pfd j := by
  have handed := foldl_handAlias_pfd k (List.finRange maxFdNum) s (good.not_alias_self k)
  rw [fat32Close, own]
  simp only [good.unmapped k, Bool.false_eq_true, if_false, releaseEnd_pfd]
  rcases eq_or_ne j k with rfl | same
  · simp [handed, good.not_alias_self j]
  · simp [handed, same]

theorem close_fdNum (j : Slot) : ((fat32Close s fd).2.pfd j).fdNum = (s.pfd j).fdNum := by
  rw [good.close_pfd own]
  split_ifs with same
  · rw [same]
    rfl
  · rfl
  · rfl

theorem close_used (j : Slot) : ((fat32Close s fd).2.pfd j).inUse ↔ j ≠ k ∧ (s.pfd j).inUse := by
  rw [good.close_pfd own]
  split_ifs with same aliased
  · simp [same, resetFd, Fd.inUse]
  · simp only [ne_eq, same, not_false_eq_true, true_and, aliased.1, iff_true]
    exact (own_some own).1
  · simp [same]

theorem close_frees (i : Slot) (inUse : ((fat32Close s fd).2.pfd i).inUse) :
    ((fat32Close s fd).2.pfd i).fdNum ≠ fd := by
  obtain ⟨used, number⟩ := own_some own
  intro same
  rw [good.close_fdNum own, ← number] at same
  obtain ⟨notK, before⟩ := (good.close_used own i).mp inUse
  exact notK (good.number_unique i k before used same)

theorem close_numbered : firstNumbered (fat32Close s fd).2.pfd fd ≠ none := by
  intro missing
  refine firstNumbered_none missing k ?_
  rw [good.close_fdNum own, (own_some own).2]

theorem close_redirected (linked : link (fat32Close s fd).2.pfd i = some j) :
    i ≠ k ∧ j ≠ k ∧ ∃ u, link s.pfd i = some u ∧ (u = j ∨ link s.pfd u = some j) := by
  obtain ⟨redirected, index⟩ := link_eq_some.mp linked
  rw [good.close_pfd own] at redirected index
  split_ifs at redirected index with same aliased
  · simp [resetFd] at redirected
  · have second : link s.pfd k = some j := link_eq_some.mpr ⟨redirected, index⟩
    refine ⟨same, ?_, k, link_eq_some.mpr aliased.2, .inr second⟩
    rintro rfl
    exact good.not_alias_self j ⟨(own_some own).1, link_eq_some.mp second⟩
  · refine ⟨same, ?_, j, link_eq_some.mpr ⟨redirected, index⟩, .inl rfl⟩
    rintro rfl
    refine aliased ⟨?_, redirected, index⟩
    intro unused
    rw [good.unused_plain i unused] at redirected
    cases redirected

theorem close : Good (fat32Close s fd).2.pfd where
  unused_plain := by
    intro i unused
    have free : i = k ∨ (s.pfd i).used = .unused := by
      by_contra busy
      rw [not_or] at busy
      exact (good.close_used own i).mpr busy unused
    cases redirected : ((fat32Close s fd).2.pfd i).redirected with
    | false => rfl
    | true =>
      obtain ⟨other, _, u, linked, _⟩ :=
        good.close_redirected own (link_eq_some.mpr ⟨redirected, rfl⟩)
      have before := good.unused_plain i (free.resolve_left other)
      rw [(link_eq_some.mp linked).1] at before
      cases before
  target_used := by
    intro i redirected
    obtain ⟨_, other, u, linked, second⟩ :=
      good.close_redirected own (link_eq_some.mpr ⟨redirected, rfl⟩)
    refine (good.close_used own _).mpr ⟨other, ?_⟩
    obtain ⟨redirectedI, rfl⟩ := link_eq_some.mp linked
    have first := good.target_used i redirectedI
    rcases second with same | linkedU
    · exact same ▸ first
    · obtain ⟨redirectedU, index⟩ := link_eq_some.mp linkedU
      exact index ▸ good.target_used _ redirectedU
  number_unique := by
    intro i j inUseI inUseJ same
    rw [good.close_fdNum own, good.close_fdNum own] at same
    exact good.number_unique i j ((good.close_used own i).mp inUseI).2
      ((good.close_used own j).mp inUseJ).2 same
  unmapped := by
    intro i
    rw [good.close_pfd own]
    split_ifs
    · rfl
    · exact good.unmapped k
    · exact good.unmapped i
  ranked := by
    refine ranked_of_reaches good.ranked ?_
    intro i j linked
    obtain ⟨_, _, u, first, second⟩ := good.close_redirected own linked
    refine ⟨u, first, ?_⟩
    rcases second with same | linkedU
    · exact same ▸ Relation.ReflTransGen.refl
    · exact Relation.ReflTransGen.single linkedU

end
end Good

variable {s next : Files} {src : Slot} {dstFd : Nat}

theorem redirectTo_keeps (good : Good s.pfd) (inUse : (s.pfd src).inUse)
    (free : ∀ i, (s.pfd i).inUse → (s.pfd i).fdNum ≠ dstFd)
    (apart : firstNumbered s.pfd dstFd = none → firstUnused s.pfd = none →
      ∀ j, getFdIndex s.pfd noFd = some (some j) → ¬ Reaches (link s.pfd) src j) :
    ∃ next, redirectTo s src dstFd = some next ∧ Good next.pfd := by
  unfold redirectTo
  cases numbered : firstNumbered s.pfd dstFd with
  | some j =>
    have number := firstNumbered_some numbered
    have away : ¬ Reaches (link s.pfd) src j :=
      fun reaches => free j (good.inUse_of_reaches inUse reaches) number
    refine ⟨_, rfl, good.redirect inUse away (by simp [Fd.inUse]) rfl rfl (good.unmapped j) ?_⟩
    intro k _ inUseK same
    exact free k inUseK (same.trans number)
  | none =>
    rcases getOneFd_cases s.pfd with ⟨full, result⟩ | ⟨number, u, unusedU, _, fresh, result⟩
    · simp only [result]
      rcases good.getFdIndex_cases noFd with ⟨_, found⟩ | ⟨_, j, _, found, inUseJ⟩
      · exact ⟨_, by rw [found]; rfl, good⟩
      · refine ⟨_, by rw [found]; rfl, ?_⟩
        exact good.redirect (f := ((s.pfd j).redirectedTo src).withNumber dstFd) inUse
          (apart numbered full j found) inUseJ rfl rfl (good.unmapped j)
          (fun k _ inUseK => free k inUseK)
    · have unused := firstUnused_some unusedU
      simp only [result]
      refine ⟨_, by rw [good.getFdIndex_claimSlot unused fresh]; rfl, ?_⟩
      have taken := good.redirect (j := u)
        (f := ((claimSlot s.pfd u number u).redirectedTo src).withNumber dstFd) inUse
        (fun reaches => good.inUse_of_reaches inUse reaches unused)
        (by simp [claimSlot, Fd.inUse, Fd.redirectedTo, Fd.withNumber]) rfl rfl
        (good.claim fresh |>.unmapped u) (fun k _ => free k)
      simpa [writeAt, claimSlot] using taken

theorem redirectTo_cycles (good : Good s.pfd) (missing : firstNumbered s.pfd dstFd = none)
    (full : firstUnused s.pfd = none) (found : getFdIndex s.pfd noFd = some (some j))
    (reaches : Reaches (link s.pfd) src j) (run : redirectTo s src dstFd = some next) :
    ¬ Settled next.pfd := by
  intro settled
  rcases getOneFd_cases s.pfd with ⟨_, result⟩ | ⟨_, u, unusedU, _⟩
  · simp only [redirectTo, missing, result, found, map_some, writeAt, some.injEq] at run
    subst run
    have cycle : Reaches (update (link s.pfd) j (some src)) src j :=
      reaches_update reaches
    obtain ⟨path, trail, _⟩ := settled.ends j (by
      simpa [Fd.inUse, Fd.withNumber, Fd.redirectedTo] using good.getFdIndex_inUse found)
    refine no_trail_of_cycle (w := src) ?_ ?_ path trail
    · simp [link, Fd.withNumber, Fd.redirectedTo]
    · rw [Good.link_update]
      exact cycle
  · rw [full] at unusedU
    cases unusedU

theorem redirectTo_dangles (unused : (s.pfd src).used = .unused)
    (plain : (s.pfd src).redirected = false) (numbered : firstNumbered s.pfd dstFd = some j)
    (run : redirectTo s src dstFd = some next) : ¬ Settled next.pfd := by
  intro settled
  simp only [redirectTo, numbered, writeAt, some.injEq] at run
  subst run
  obtain ⟨path, trail, _, inUse, _⟩ := settled.ends j (by simp [Fd.inUse])
  rcases eq_or_ne src j with rfl | same
  · refine no_trail_of_cycle (w := src) ?_ Relation.ReflTransGen.refl path trail
    simp [link, Fd.redirectedTo]
  · have first : link (writeAt s.pfd (some j) fun fd =>
        { fd.redirectedTo src with used := .used, dev := (s.pfd src).dev }) j = some src := by
      simp [link, writeAt, Fd.redirectedTo]
    have second : link (writeAt s.pfd (some j) fun fd =>
        { fd.redirectedTo src with used := .used, dev := (s.pfd src).dev }) src = none := by
      simp [link, writeAt, same, plain]
    have ends : path = [src] := trail_unique trail ⟨first, second⟩
    subst ends
    simp [same, Fd.inUse, unused] at inUse

variable {srcFd : Nat}

theorem dup3_keeps (good : Good s.pfd) (ok : RedirectOk s (.dup3 srcFd dstFd)) :
    ∃ next, step s (.dup3 srcFd dstFd) = some next ∧ Good next.pfd := by
  by_cases equal : srcFd = dstFd
  · exact ⟨s, by simp [step, call, fat32Dup3, equal], good⟩
  rcases good.getFdIndex_cases srcFd with ⟨_, found⟩ | ⟨_, src, _, found, inUse⟩
  · exact ⟨s, by simp [step, call, fat32Dup3, equal, found], good⟩
  obtain ⟨other, apart⟩ := ok equal src found
  rcases good.getFdIndex_cases dstFd with ⟨ownDst, foundDst⟩ | ⟨k, dst, ownDst, foundDst, _⟩
  · obtain ⟨next, run, goodNext⟩ := redirectTo_keeps good inUse (own_none ownDst) apart
    exact ⟨next, by simp [step, call, fat32Dup3, equal, found, foundDst, run], goodNext⟩
  · have differs : src ≠ k := by
      rintro rfl
      exact other ownDst
    obtain ⟨next, run, goodNext⟩ := redirectTo_keeps (good.close ownDst)
      ((good.close_used ownDst src).mpr ⟨differs, inUse⟩) (good.close_frees ownDst)
      (fun missing => absurd missing (good.close_numbered ownDst))
    exact ⟨next, by simp [step, call, fat32Dup3, equal, found, foundDst, run], goodNext⟩

theorem dup3_breaks (good : Good s.pfd)
    (bad : ¬ RedirectOk s (.dup3 srcFd dstFd)) (run : step s (.dup3 srcFd dstFd) = some next) :
    ¬ Settled next.pfd := by
  simp only [RedirectOk, not_forall] at bad
  obtain ⟨differ, src, found, failed⟩ := bad
  rcases good.getFdIndex_cases dstFd with ⟨ownDst, foundDst⟩ | ⟨k, dst, ownDst, foundDst, _⟩
  · simp only [step, call, fat32Dup3, differ, if_false, found, foundDst, bind_some,
      isSome_none, Bool.false_eq_true, Option.map_map, map_eq_some_iff] at run
    obtain ⟨reached, run, rfl⟩ := run
    rw [ownDst] at failed
    simp only [ne_eq, reduceCtorEq, not_false_eq_true, true_and, not_forall, not_not] at failed
    obtain ⟨missing, full, j, foundJ, reaches⟩ := failed
    exact redirectTo_cycles good missing full foundJ reaches run
  · simp only [step, call, fat32Dup3, differ, if_false, found, foundDst, bind_some,
      isSome_some, if_true, Option.map_map, map_eq_some_iff] at run
    obtain ⟨reached, run, rfl⟩ := run
    cases numbered : firstNumbered (fat32Close s dstFd).2.pfd dstFd with
    | none =>
      refine absurd ?_ (firstNumbered_none numbered k)
      rw [good.close_fdNum ownDst, (own_some ownDst).2]
    | some j =>
      -- the first alternative of the condition failed: the source is the closed slot
      have carried : src = k := by
        by_contra other
        refine failed ⟨?_, ?_⟩
        · rw [ownDst]
          exact fun same => other (Option.some.inj same).symm
        · intro missing
          exact absurd (own_some ownDst).2 (firstNumbered_none missing k)
      subst carried
      have closed := good.close_pfd ownDst src
      rw [if_pos rfl] at closed
      exact redirectTo_dangles (by rw [closed]; rfl) (by rw [closed]; rfl) numbered run

theorem dup_keeps (good : Good s.pfd) (srcFd : Nat) :
    ∃ next, step s (.dup srcFd) = some next ∧ Good next.pfd := by
  rcases good.getFdIndex_cases srcFd with ⟨_, found⟩ | ⟨_, src, _, found, inUse⟩
  · exact ⟨s, by simp [step, call, fat32Dup, found], good⟩
  rcases getOneFd_cases s.pfd with ⟨full, result⟩ | ⟨number, u, unusedU, valid, fresh, result⟩
  · exact ⟨s, by simp [step, call, fat32Dup, found, result], good⟩
  have unused := firstUnused_some unusedU
  refine ⟨_, by simp only [step, call, fat32Dup, found, result, valid, bind_some,
    if_false, good.getFdIndex_claimSlot unused fresh, map_some, writeAt]; rfl, ?_⟩
  have taken := good.redirect (j := u) (f := { (claimSlot s.pfd u number u).redirectedTo src with
      dev := (claimSlot s.pfd u number src).dev }) inUse
    (fun reaches => good.inUse_of_reaches inUse reaches unused)
    (by simp [claimSlot, Fd.inUse, Fd.redirectedTo]) rfl rfl (good.claim fresh |>.unmapped u)
    (fun k _ inUseK => by simpa [claimSlot, Fd.redirectedTo] using fresh k inUseK)
  simpa [claimSlot] using taken

theorem openedFd_sameShape {env : OpenEnv} {fd opened : Fd} {path : String} {flags base : Nat}
    (run : openedFd env fd path flags base = some opened) : Good.SameShape opened fd := by
  unfold openedFd at run
  split at run
  · rename_i special openRun
    obtain rfl : special = opened := Option.some.inj run
    unfold openSpecialPath at openRun
    split_ifs at openRun <;> cases openRun <;> exact ⟨rfl, rfl, rfl, rfl, rfl⟩
  · split at run <;> cases run <;> exact ⟨rfl, rfl, rfl, rfl, rfl⟩

theorem openat_keeps (good : Good s.pfd) (env : OpenEnv) (fd : Nat) (path : String)
    (flags : Nat) : ∃ next, step s (.openat env fd path flags) = some next ∧ Good next.pfd := by
  have based : ∃ base, baseClus env s.pfd fd path = some base := by
    unfold baseClus
    split_ifs
    · exact ⟨_, rfl⟩
    · exact ⟨_, rfl⟩
    · rcases good.getFdIndex_cases fd with ⟨_, found⟩ | ⟨_, _, _, found, _⟩ <;>
        exact ⟨_, by rw [found]; rfl⟩
  obtain ⟨base, based⟩ := based
  cases base with
  | none => exact ⟨s, by simp [step, call, fat32Openat, based], good⟩
  | some base =>
    rcases getOneFd_cases s.pfd with ⟨full, result⟩ | ⟨number, u, unusedU, valid, fresh, result⟩
    · exact ⟨s, by simp [step, call, fat32Openat, based, result], good⟩
    have unused := firstUnused_some unusedU
    have taken := good.claim (i := u) fresh
    have found := good.getFdIndex_claimSlot unused fresh
    cases opened : openedFd env (claimSlot s.pfd u number u) path flags base with
    | some fd' =>
      refine ⟨{ s with pfd := update (claimSlot s.pfd u number) u fd' }, ?_, ?_⟩
      · simp [step, call, fat32Openat, based, result, valid, found, opened]
      · refine taken.of_sameShape ?_
        intro i
        rcases eq_or_ne i u with rfl | same
        · simpa using openedFd_sameShape opened
        · simp [same, Good.SameShape]
    | none =>
      refine ⟨(fat32Close { s with pfd := claimSlot s.pfd u number } number).2, ?_, ?_⟩
      · simp [step, call, fat32Openat, based, result, valid, found, opened]
      · cases own : getFdIndexWithoutRedirect (claimSlot s.pfd u number) number with
        | none => simpa [fat32Close, own] using taken
        | some k => exact Good.close (s := { s with pfd := claimSlot s.pfd u number }) taken own

/-- A table as `alloc_fd_table` hands it out: zeroed at boot, or left by
`free_fd_table`, which clears these two fields in every slot. -/
def Released (t : Table) : Prop := ∀ i, (t i).redirected = false ∧ (t i).mmapUsed = false

theorem good_initFd (released : Released t) : Good (initFd t) := by
  have plain : ∀ i, (initFd t i).redirected = false := by
    intro i
    unfold initFd
    split_ifs <;> exact (released i).1
  refine ⟨fun i _ => plain i, ?_, ?_, ?_, fun _ => 0, ?_⟩
  · intro i redirected
    rw [plain i] at redirected
    cases redirected
  · intro i j inUseI inUseJ same
    unfold initFd at inUseI inUseJ same
    apply Fin.ext
    split_ifs at inUseI inUseJ same <;> simp_all [Fd.inUse]
  · intro i
    unfold initFd
    split_ifs <;> exact (released i).2
  · intro i j linked
    rw [link, if_neg (by rw [plain i]; decide)] at linked
    cases linked

theorem call_keeps {s : Files} (good : Good s.pfd) (c : Call) (ok : RedirectOk s c) :
    ∃ next, step s c = some next ∧ Good next.pfd := by
  cases c with
  | openat env fd path flags => exact openat_keeps good env fd path flags
  | dup srcFd => exact dup_keeps good srcFd
  | dup3 srcFd dstFd => exact dup3_keeps good ok
  | close fd =>
    refine ⟨(fat32Close s fd).2, rfl, ?_⟩
    cases own : getFdIndexWithoutRedirect s.pfd fd with
    | none => simpa [fat32Close, own] using good
    | some k => exact good.close own

theorem call_breaks {s next : Files} (good : Good s.pfd) (c : Call) (bad : ¬ RedirectOk s c)
    (run : step s c = some next) : ¬ Settled next.pfd := by
  cases c with
  | dup3 srcFd dstFd => exact dup3_breaks good bad run
  | openat env fd path flags => exact absurd trivial bad
  | dup srcFd => exact absurd trivial bad
  | close fd => exact absurd trivial bad

theorem maxFdNum_pos : 0 < maxFdNum := by decide

def blankFd : Fd where
  name := ""
  dev := .stdin
  firstClusNum := 0
  mode := 0
  flags := 0
  pos := 0
  curSec := 0
  curClusNum := 0
  length := 0
  dirPos := ⟨0, 0, 0⟩
  fdNum := 0
  used := .unused
  redirected := false
  redirectedFdIndex := ⟨0, maxFdNum_pos⟩
  pipNum := 0
  isPipeRead := false
  isPipeWrite := false
  sockNum := 0
  mmapUsed := false
  nlink := 0

/-- The descriptor state of the first process: everything in `.bss` is zero. -/
def bootFiles : Files := ⟨initFd fun _ => blankFd, fun _ => ⟨0, 0, false⟩, fun _ => false⟩

def oneFile : OpenEnv where
  fat := fat32Init ⟨512, 8, 32, 2, 0, 65536, 64, 2⟩
  root := ⟨2, 2, 160⟩
  cwd := ⟨2, 2, 160⟩
  kernelFileLength := fun _ => 0
  walk := fun _ => .found "data" ⟨5, 100, false⟩ ⟨0, 1, 160⟩

end CCore.Fs
