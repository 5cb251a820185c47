import CCore.Lib.Owners
import CCore.Fs.Tables

/-!
# Reference counts of pipes

The counters `r_valid` and `w_valid` of a pipe against the descriptor slots that
denote its two ends.  `fat32_dup` and `fat32_dup3` of a pipe end copy the device
number and nothing else, so the new slot denotes whatever its stale fields say
and no counter moves; `fat32_pipe2` sets the counters before it knows whether
two slots are free.  `counted_along` says that nothing else breaks the counts.
-/
namespace CCore.Fs

open Chase Owners Run Function List Option

inductive PipeEnd where
  | read
  | write
  deriving DecidableEq

def Pipe.valid (p : Pipe) : PipeEnd → Nat
  | .read => p.rValid
  | .write => p.wValid

/-- The pipe end that the fields of a descriptor name. -/
def Fd.endOf (fd : Fd) : Option (PipeEnd × Nat) :=
  if fd.dev = .pipe then
    if fd.isPipeRead then some (.read, fd.pipNum)
    else if fd.isPipeWrite then some (.write, fd.pipNum)
    else none
  else none

/-- The pipe end that a slot in use denotes: that of the slot which
`get_fd_index` finds for it. -/
def denoted (t : Table) (i : Slot) : Option (PipeEnd × Nat) :=
  if (t i).inUse then (chase (hop t) maxFdNum i).bind fun j => (t j).endOf else none

def ends (t : Table) (e : PipeEnd) (n : Nat) : Nat :=
  (Finset.univ.filter fun i => denoted t i = some (e, n)).card

def allEnds (w : FdSys) (e : PipeEnd) (n : Nat) : Nat :=
  ∑ t, if (w.tables t).used then ends (w.tables t).pfd e n else 0

/-- A buffer is there exactly while an end is open. -/
def Pipe.Buffered (p : Pipe) : Prop := p.hasBuf = true ↔ p.rValid ≠ 0 ∨ p.wValid ≠ 0

instance (p : Pipe) : Decidable p.Buffered :=
  inferInstanceAs (Decidable (_ ↔ _))

/-- The law of the counters. -/
structure Counted (w : FdSys) : Prop where
  valid : ∀ e n, (w.pipe n).valid e = allEnds w e n
  buffered : ∀ n, (w.pipe n).Buffered

/-- The side condition.  A pipe end is not duplicated, `fat32_dup3` is not made
onto the slot its source resolves to and finds a slot for its target, and
`fat32_pipe2` finds two slots whenever it finds a pipe. -/
def FdAct.Plain (w : FdSys) (act : FdAct) : Prop :=
  ∀ t, w.pfd act.process = some t → match act with
    | .pipe2 _ =>
      freePipe w.pipe = none ∨
        ∃ u v, u ≠ v ∧ ((w.tables t).pfd u).used = .unused ∧ ((w.tables t).pfd v).used = .unused
    | .dup _ src =>
      ∀ i, getFdIndex (w.tables t).pfd src = some (some i) → ((w.tables t).pfd i).dev ≠ .pipe
    | .dup3 _ src dst =>
      RedirectOk (w.files t) (.dup3 src dst) ∧
        (firstNumbered (w.tables t).pfd dst ≠ none ∨ firstUnused (w.tables t).pfd ≠ none) ∧
        ∀ i, getFdIndex (w.tables t).pfd src = some (some i) → ((w.tables t).pfd i).dev ≠ .pipe
    | _ => True

def closeEnd (pipes : Nat → Pipe) : PipeEnd → Nat → Nat → Pipe
  | .read, n => closePipeRead pipes n
  | .write, n => closePipeWrite pipes n

def openEnd (pipes : Nat → Pipe) : PipeEnd → Nat → Nat → Pipe
  | .read, n => update pipes n { pipes n with rValid := ((pipes n).rValid + 1) % 256 }
  | .write, n => update pipes n { pipes n with wValid := ((pipes n).wValid + 1) % 256 }

theorem closeEnd_valid (pipes : Nat → Pipe) (e e' : PipeEnd) (n m : Nat) :
    (closeEnd pipes e n m).valid e' =
      if (e, n) = (e', m) then (pipes m).valid e' - 1 else (pipes m).valid e' := by
  cases e <;> cases e' <;>
    simp [closeEnd, Pipe.valid, closePipeRead_rValid, closePipeRead_wValid,
      closePipeWrite_rValid, closePipeWrite_wValid, eq_comm]

theorem openEnd_valid (pipes : Nat → Pipe) (e e' : PipeEnd) (n m : Nat) :
    (openEnd pipes e n m).valid e' =
      if (e, n) = (e', m) then ((pipes m).valid e' + 1) % 256 else (pipes m).valid e' := by
  rcases eq_or_ne n m with rfl | same
  · cases e <;> cases e' <;> simp [openEnd, Pipe.valid]
  · cases e <;> cases e' <;> simp [openEnd, Pipe.valid, same, Ne.symm same]

theorem dropBuf_buffered (p : Pipe) (open_ : p.hasBuf = true) : (dropBuf p).Buffered := by
  unfold dropBuf Pipe.Buffered
  split
  case isTrue none => simp [none]
  case isFalse some =>
    simp only [open_, true_iff]
    omega

theorem closeEnd_buffered {pipes : Nat → Pipe} (buffered : ∀ n, (pipes n).Buffered) (e : PipeEnd)
    (n m : Nat) : (closeEnd pipes e n m).Buffered := by
  have before : (pipes n).hasBuf = true ↔ _ := buffered n
  cases e with
  | read | write =>
    simp only [closeEnd, closePipeRead, closePipeWrite]
    split
    case isTrue => exact buffered m
    case isFalse some =>
      by_cases same : m = n
      · rw [same, update_self]
        exact dropBuf_buffered _ (before.mpr (by tauto))
      · rw [update_of_ne same]
        exact buffered m

variable {fd : Fd} {u : Slot} {t : Table} {r : Int}

theorem bumpPipe_eq (pipes : Nat → Pipe) (live : fd.dev = .pipe → fd.inUse) : bumpPipe pipes fd =
      match fd.endOf with
      | some (e, n) => openEnd pipes e n
      | none => pipes := by
  unfold bumpPipe Fd.endOf
  by_cases pipe : fd.dev = .pipe
  · rw [if_pos ⟨live pipe, pipe⟩, if_pos pipe]
    cases fd.isPipeRead <;> cases fd.isPipeWrite <;> rfl
  · rw [if_neg (fun both => pipe both.2), if_neg pipe]

theorem dropFd_eq (pipes : Nat → Pipe) (fd : Fd) : dropFd pipes fd = match fd.endOf with
      | some (e, n) => closeEnd pipes e n
      | none => pipes := by
  unfold dropFd Fd.endOf
  split
  · cases fd.isPipeRead <;> cases fd.isPipeWrite <;> rfl
  · rfl

theorem releaseEnd_pipe (s : Files) (fd : Fd) : (releaseEnd s fd).pipe = dropFd s.pipe fd := by
  unfold releaseEnd dropFd
  cases dev : fd.dev <;> simp
  · cases fd.isPipeRead <;> cases fd.isPipeWrite <;> rfl

structure EndsPlain (t : Table) : Prop where
  good : Good t
  unused_dev : ∀ i, (t i).used = .unused → (t i).dev ≠ .pipe
  target : ∀ i, (t i).redirected = true → (t (t i).redirectedFdIndex).dev ≠ .pipe
  own : ∀ i, (t i).dev = .pipe → (t i).redirected = false
  once : ∀ i j x, (t i).endOf = some x → (t j).endOf = some x → i = j

def ownEnds (t : Table) (e : PipeEnd) (n : Nat) : Nat :=
  (Finset.univ.filter fun i => (t i).endOf = some (e, n)).card

theorem endOf_eq_none (other : fd.dev ≠ .pipe) : fd.endOf = none := if_neg other

theorem dev_of_endOf {x : PipeEnd × Nat} (named : fd.endOf = some x) : fd.dev = .pipe := by
  by_contra other
  rw [endOf_eq_none other] at named
  cases named

namespace EndsPlain

section
variable (plain : EndsPlain t)
include plain

theorem denoted_eq (i : Slot) : denoted t i = (t i).endOf := by
  unfold denoted
  split
  case isTrue inUse =>
    obtain ⟨path, trail⟩ := trail_of_ranked (ranked_hop plain.good.ranked) i
    have bound := trail_length_lt_card trail
    rw [Fintype.card_fin] at bound
    have run := chase_of_trail trail bound
    generalize (i :: path).getLast (cons_ne_nil i path) = j at run
    rw [run, bind_some]
    have reaches := reaches_of_chase run
    rcases Relation.ReflTransGen.cases_head reaches with same | ⟨next, first, _⟩
    · rw [same]
    rcases Relation.ReflTransGen.cases_tail reaches with same | ⟨before, _, last⟩
    · rw [same]
    have start : (t i).dev ≠ .pipe := by
      intro pipe
      simp [Hop, hop, pipe] at first
    have stop : (t j).dev ≠ .pipe := by
      have linked : link t before = some j := by
        unfold Hop hop at last
        split at last
        · exact last
        · cases last
      obtain ⟨redirected, index⟩ := link_eq_some.mp linked
      exact index ▸ plain.target before redirected
    rw [endOf_eq_none start, endOf_eq_none stop]
  case isFalse unused => rw [endOf_eq_none (plain.unused_dev i (not_not.mp unused))]

theorem ends_eq (e : PipeEnd) (n : Nat) : ends t e n = ownEnds t e n := by
  unfold ends ownEnds
  simp [plain.denoted_eq]

theorem live {i : Slot} (pipe : (t i).dev = .pipe) : (t i).inUse :=
  fun unused => plain.unused_dev i unused pipe

theorem ownEnds_le_one (e : PipeEnd) (n : Nat) : ownEnds t e n ≤ 1 := by
  refine Finset.card_le_one.mpr ?_
  intro i memI j memJ
  simp only [Finset.mem_filter, Finset.mem_univ, true_and] at memI memJ
  exact plain.once i j _ memI memJ

theorem write (good : Good (update t u fd)) (before : (t u).dev ≠ .pipe) (after : fd.dev ≠ .pipe)
    (points : fd.redirected = true → (t fd.redirectedFdIndex).dev ≠ .pipe) :
    EndsPlain (update t u fd) := by
  have dev : ∀ i, (t i).dev ≠ .pipe → (update t u fd i).dev ≠ .pipe := by
    intro i other
    by_cases same : i = u
    · rw [same, update_self]
      exact after
    · rwa [update_of_ne same]
  have same : ∀ i, (update t u fd i).endOf = (t i).endOf := by
    intro i
    by_cases here : i = u
    · rw [here, update_self, endOf_eq_none after, endOf_eq_none before]
    · rw [update_of_ne here]
  refine ⟨good, ?_, ?_, ?_, ?_⟩
  · intro i unused
    by_cases here : i = u
    · rw [here, update_self]
      exact after
    · rw [update_of_ne here] at unused ⊢
      exact plain.unused_dev i unused
  · intro i redirected
    rcases eq_or_ne i u with rfl | here
    · rw [update_self] at redirected ⊢
      exact dev _ (points redirected)
    · rw [update_of_ne here] at redirected ⊢
      exact dev _ (plain.target i redirected)
  · intro i pipe
    by_cases here : i = u
    · rw [here, update_self] at pipe
      exact absurd pipe after
    · rw [update_of_ne here] at pipe ⊢
      exact plain.own i pipe
  · intro i j x memI memJ
    rw [same] at memI memJ
    exact plain.once i j x memI memJ

end
end EndsPlain

theorem ownEnds_change (t t' : Table) (k : Slot) (same : ∀ i, i ≠ k → (t' i).endOf = (t i).endOf)
    (e : PipeEnd) (n : Nat) : ownEnds t' e n + (if (t k).endOf = some (e, n) then 1 else 0) =
    ownEnds t e n + if (t' k).endOf = some (e, n) then 1 else 0 := owners_change k same (e, n)

theorem ownEnds_congr {t' : Table} (same : ∀ i, (t' i).endOf = (t i).endOf) (e : PipeEnd)
    (n : Nat) : ownEnds t' e n = ownEnds t e n := by
  unfold ownEnds
  simp [same]

/-! ## The calls on one table -/

/-- The counters moved as the slots did. -/
structure KeepsEnds (s s' : Files) : Prop where
  plain : EndsPlain s'.pfd
  balanced : ∀ e n, (s'.pipe n).valid e + ownEnds s.pfd e n =
    (s.pipe n).valid e + ownEnds s'.pfd e n
  buffered : (∀ n, (s.pipe n).Buffered) → ∀ n, (s'.pipe n).Buffered

namespace KeepsEnds

variable {s s' s'' : Files}

theorem refl (plain : EndsPlain s.pfd) : KeepsEnds s s := ⟨plain, fun _ _ => rfl, id⟩

theorem trans (first : KeepsEnds s s') (second : KeepsEnds s' s'') : KeepsEnds s s'' where
  plain := second.plain
  balanced e n := by
    have one := first.balanced e n
    have two := second.balanced e n
    omega
  buffered before := second.buffered (first.buffered before)

theorem write (plain : EndsPlain s.pfd)
    (good : Good (update s.pfd u fd)) (before : (s.pfd u).dev ≠ .pipe) (after : fd.dev ≠ .pipe)
    (points : fd.redirected = true → (s.pfd fd.redirectedFdIndex).dev ≠ .pipe) :
    KeepsEnds s { s with pfd := update s.pfd u fd } where
  plain := plain.write good before after points
  balanced e n := by
    rw [ownEnds_congr]
    intro i
    by_cases here : i = u
    · simp [here, endOf_eq_none after, endOf_eq_none before]
    · simp [here]
  buffered := id

end KeepsEnds

section Calls
variable {s next : Files} {fd : Nat} {k : Slot}

theorem foldl_handAlias_pipe (slots : List Slot) (s : Files)
    (free : (s.pfd k).dev ≠ .pipe ∨ ∀ i, ¬ Alias s.pfd k i) (apart : ¬ Alias s.pfd k k) :
    (slots.foldl (handAlias k) s).pipe = s.pipe := by
  induction slots generalizing s with
  | nil => rfl
  | cons i rest ih =>
    rw [foldl_cons]
    by_cases aliased : Alias s.pfd k i
    · have other : (s.pfd k).dev ≠ .pipe := free.resolve_right fun none => none i aliased
      have closedSlot : (handAlias k s i).pfd k = s.pfd k := by
        rw [handAlias_pfd, if_neg]
        rintro ⟨rfl, _⟩
        exact apart aliased
      have kept : (handAlias k s i).pipe = s.pipe := by
        simp [handAlias, aliased, copyFd, bumpPipe, other]
      rw [ih _ (.inl (by rw [closedSlot]; exact other))
        (by rw [Alias, closedSlot]; exact apart), kept]
    · have kept : handAlias k s i = s := by simp [handAlias, aliased]
      rw [kept]
      exact ih s free apart

section
variable (plain : EndsPlain s.pfd)
include plain

theorem close_pipe (own : getFdIndexWithoutRedirect s.pfd fd = some k) :
    (fat32Close s fd).2.pipe = dropFd s.pipe (s.pfd k) := by
  have apart := plain.good.not_alias_self k
  have free : (s.pfd k).dev ≠ .pipe ∨ ∀ i, ¬ Alias s.pfd k i := by
    by_cases pipe : (s.pfd k).dev = .pipe
    · refine .inr ?_
      rintro i ⟨_, redirected, rfl⟩
      exact plain.target i redirected pipe
    · exact .inl pipe
  have handed := foldl_handAlias_pfd k (List.finRange maxFdNum) s apart k
  rw [if_neg (fun both => apart both.2)] at handed
  rw [fat32Close, own]
  simp [plain.good.unmapped k, Bool.false_eq_true, releaseEnd_pipe, handed,
    foldl_handAlias_pipe _ s free apart]

theorem close_endOf (own : getFdIndexWithoutRedirect s.pfd fd = some k) (i : Slot) :
    ((fat32Close s fd).2.pfd i).endOf = if i = k then none else (s.pfd i).endOf := by
  rw [plain.good.close_pfd own]
  split
  case isTrue => exact endOf_eq_none (by simp [resetFd])
  case isFalse =>
    split
    case isTrue aliased =>
      have target : (s.pfd k).dev ≠ .pipe := aliased.2.2 ▸ plain.target i aliased.2.1
      have alias_ : (s.pfd i).dev ≠ .pipe := by
        intro pipe
        have redirected := aliased.2.1
        rw [plain.own i pipe] at redirected
        cases redirected
      rw [endOf_eq_none alias_]
      exact endOf_eq_none target
    case isFalse => rfl

theorem close_keepsEnds (counted : ∀ e n, ownEnds s.pfd e n ≤ (s.pipe n).valid e) (fd : Nat) :
    KeepsEnds s (fat32Close s fd).2 := by
  cases own : getFdIndexWithoutRedirect s.pfd fd with
  | none =>
    have same : (fat32Close s fd).2 = s := by simp [fat32Close, own]
    rw [same]
    exact .refl plain
  | some k =>
    have ends := close_endOf plain own
    have dev : ∀ i, ((fat32Close s fd).2.pfd i).dev = .pipe →
        i ≠ k ∧ ¬ Alias s.pfd k i ∧ (s.pfd i).dev = .pipe := by
      intro i pipe
      rw [plain.good.close_pfd own] at pipe
      split at pipe
      case isTrue => simp [resetFd] at pipe
      case isFalse other =>
        split at pipe
        case isTrue aliased => exact absurd pipe (aliased.2.2 ▸ plain.target i aliased.2.1)
        case isFalse notAlias => exact ⟨other, notAlias, pipe⟩
    refine ⟨⟨plain.good.close own, ?_, ?_, ?_, ?_⟩, ?_, ?_⟩
    · intro i unused pipe
      obtain ⟨other, _, before⟩ := dev i pipe
      exact (plain.good.close_used own i).mpr ⟨other, plain.live before⟩ unused
    · intro i redirected pipe
      obtain ⟨_, _, before⟩ := dev _ pipe
      obtain ⟨_, _, u, linked, second⟩ :=
        plain.good.close_redirected own (link_eq_some.mpr ⟨redirected, rfl⟩)
      rcases second with same | linkedU
      · obtain ⟨redirectedI, index⟩ := link_eq_some.mp linked
        exact plain.target i redirectedI (by rw [index, same]; exact before)
      · obtain ⟨redirectedU, index⟩ := link_eq_some.mp linkedU
        exact plain.target u redirectedU (by rw [index]; exact before)
    · intro i pipe
      obtain ⟨other, notAlias, before⟩ := dev i pipe
      rw [plain.good.close_pfd own, if_neg other, if_neg notAlias]
      exact plain.own i before
    · intro i j x memI memJ
      rw [ends] at memI memJ
      obtain ⟨_, memI⟩ := ite_none_left_eq_some.mp memI
      obtain ⟨_, memJ⟩ := ite_none_left_eq_some.mp memJ
      exact plain.once i j x memI memJ
    · intro e n
      have change := ownEnds_change s.pfd (fat32Close s fd).2.pfd k
        (fun i other => by rw [ends, if_neg other]) e n
      rw [ends k, if_pos rfl] at change
      have least := counted e n
      rw [close_pipe plain own, dropFd_eq]
      cases named : (s.pfd k).endOf with
      | none =>
        simp only [named, reduceCtorEq, if_false] at change ⊢
        omega
      | some x =>
        obtain ⟨e', n'⟩ := x
        simp only [named, some.injEq, reduceCtorEq, if_false] at change
        simp only [closeEnd_valid]
        by_cases same : (e', n') = (e, n)
        · rw [if_pos same] at change ⊢
          omega
        · rw [if_neg same] at change ⊢
          omega
    · intro before n
      rw [close_pipe plain own, dropFd_eq]
      cases (s.pfd k).endOf with
      | none => exact before n
      | some x => exact closeEnd_buffered before x.1 x.2 n

theorem dup_keepsEnds {srcFd : Nat}
    (other : ∀ i, getFdIndex s.pfd srcFd = some (some i) → (s.pfd i).dev ≠ .pipe)
    (run : fat32Dup s srcFd = some (r, next)) : KeepsEnds s next := by
  rcases dup_effect plain.good run with
    ⟨_, rfl⟩ | ⟨src, u, number, found, inUse, unused, fresh, _, rfl⟩
  · exact .refl plain
  · exact .write plain (plain.good.alias_ unused inUse fresh) (plain.unused_dev u unused)
      (other src found) fun _ => other src found

theorem dup3_keepsEnds (counted : ∀ e n, ownEnds s.pfd e n ≤ (s.pipe n).valid e) {srcFd dstFd : Nat}
    (ok : RedirectOk s (.dup3 srcFd dstFd))
    (room : firstNumbered s.pfd dstFd ≠ none ∨ firstUnused s.pfd ≠ none)
    (other : ∀ i, getFdIndex s.pfd srcFd = some (some i) → (s.pfd i).dev ≠ .pipe)
    (run : fat32Dup3 s srcFd dstFd = some (r, next)) : KeepsEnds s next := by
  rcases dup3_effect plain.good ok room run with
    ⟨_, rfl⟩ | ⟨src, closed, u, dev, _, _, found, from_, good, inUse, unused, free, devFrom, rfl⟩
  · exact .refl plain
  have keeps : KeepsEnds s closed ∧ (closed.pfd src).dev ≠ .pipe := by
    rcases from_ with rfl | rfl
    · exact ⟨.refl plain, other src found⟩
    · refine ⟨close_keepsEnds plain counted dstFd, ?_⟩
      cases own : getFdIndexWithoutRedirect s.pfd dstFd with
      | none =>
        have same : (fat32Close s dstFd).2 = s := by simp [fat32Close, own]
        rw [same]
        exact other src found
      | some k =>
        rw [plain.good.close_pfd own]
        split
        case isTrue => simp [resetFd]
        case isFalse =>
          split
          case isTrue aliased => exact aliased.2.2 ▸ plain.target src aliased.2.1
          case isFalse => exact other src found
  have after : dev ≠ .pipe := by
    rcases devFrom with rfl | rfl
    · exact keeps.2
    · exact keeps.1.plain.unused_dev u unused
  exact keeps.1.trans (.write keeps.1.plain (good.alias_ unused inUse free)
    (keeps.1.plain.unused_dev u unused) after fun _ => keeps.2)

end

theorem newEnd_endOf (fd : Fd) (number n : Nat) (isRead : Bool) :
    (fd.newEnd number n isRead).endOf = some (if isRead then .read else .write, n) := by
  cases isRead <;> rfl

theorem EndsPlain.openEnd (plain : EndsPlain t) {n number : Nat} (isRead : Bool)
    (unused : (t u).used = .unused) (fresh : ∀ j, (t j).inUse → (t j).fdNum ≠ number)
    (first : ∀ i, (t i).endOf ≠ some (if isRead then .read else .write, n)) :
    EndsPlain (update t u ((t u).newEnd number n isRead)) := by
  have named := newEnd_endOf (t u) number n isRead
  have notTarget : ∀ i, (t i).redirected = true → (t i).redirectedFdIndex ≠ u := by
    rintro i redirected rfl
    exact plain.good.target_used i redirected unused
  have plainU := plain.good.unused_plain u unused
  refine ⟨?_, ?_, ?_, ?_, ?_⟩
  · exact plain.good.fill unused fresh ⟨rfl, rfl, rfl, rfl, rfl⟩
  · intro i unusedI
    by_cases same : i = u
    · simp [same, Fd.newEnd, Fd.asPipe] at unusedI
    · rw [update_of_ne same] at unusedI ⊢
      exact plain.unused_dev i unusedI
  · intro i redirected
    by_cases same : i = u
    · simp [same, Fd.newEnd, Fd.asPipe, plainU] at redirected
    · rw [update_of_ne same] at redirected ⊢
      rw [update_of_ne (notTarget i redirected)]
      exact plain.target i redirected
  · intro i pipe
    by_cases same : i = u
    · simp [same, Fd.newEnd, Fd.asPipe, plainU]
    · rw [update_of_ne same] at pipe ⊢
      exact plain.own i pipe
  · intro i j x memI memJ
    by_cases atI : i = u
    · by_cases atJ : j = u
      · rw [atI, atJ]
      · rw [atI, update_self, named] at memI
        rw [update_of_ne atJ, ← memI] at memJ
        exact absurd memJ (first j)
    · by_cases atJ : j = u
      · rw [atJ, update_self, named] at memJ
        rw [update_of_ne atI, ← memJ] at memI
        exact absurd memI (first i)
      · rw [update_of_ne atI] at memI
        rw [update_of_ne atJ] at memJ
        exact plain.once i j x memI memJ

theorem ownEnds_openEnd {n number : Nat} {isRead : Bool}
    (before : (t u).endOf = none) (e : PipeEnd) (m : Nat) :
    ownEnds (update t u ((t u).newEnd number n isRead)) e m =
      ownEnds t e m + if (if isRead then PipeEnd.read else .write, n) = (e, m) then 1 else 0 := by
  have change := ownEnds_change t (update t u ((t u).newEnd number n isRead)) u
    (fun i other => by rw [update_of_ne other]) e m
  rw [update_self, newEnd_endOf, before] at change
  simpa using change

theorem pipe2_keepsEnds (plain : EndsPlain s.pfd)
    (counted : ∀ e n, ownEnds s.pfd e n ≤ (s.pipe n).valid e)
    (room : freePipe s.pipe = none ∨
      ∃ u v, u ≠ v ∧ (s.pfd u).used = .unused ∧ (s.pfd v).used = .unused)
    {fds : List Nat} (run : fat32Pipe2 s = some (r, fds, next)) : KeepsEnds s next := by
  rcases pipe2_effect plain.good room run with
    ⟨_, rfl⟩ | ⟨n, u, v, fd0, fd1, _, _, freeN, unusedU, freshU, apart, unusedV, differ, freshV, rfl⟩
  · exact .refl plain
  have zero : (s.pipe n).rValid = 0 ∧ (s.pipe n).wValid = 0 := by simpa using List.find?_some freeN
  have none_ : ∀ e i, (s.pfd i).endOf ≠ some (e, n) := by
    intro e i named
    have least := counted e n
    have noneLeft : (s.pipe n).valid e = 0 := by cases e <;> simp [Pipe.valid, zero]
    have member : i ∈ Finset.univ.filter fun i => (s.pfd i).endOf = some (e, n) := by
      simpa using named
    have positive : 0 < ownEnds s.pfd e n := Finset.card_pos.mpr ⟨i, member⟩
    omega
  have plainFirst := plain.openEnd true unusedU freshU (none_ .read)
  -- the second end goes to a slot that taking the first one left as it was
  have keptV : update s.pfd u ((s.pfd u).newEnd fd0 n true) v = s.pfd v :=
    update_of_ne apart _ _
  rw [← keptV] at unusedV ⊢
  refine ⟨plainFirst.openEnd false unusedV ?_ ?_, ?_, ?_⟩
  · intro j inUse
    by_cases same : j = u
    · rw [same, update_self]
      exact Ne.symm differ
    · rw [update_of_ne same] at inUse ⊢
      exact freshV j inUse
  · intro i named
    by_cases same : i = u
    · rw [same, update_self, newEnd_endOf] at named
      cases named
    · rw [update_of_ne same] at named
      exact none_ .write i named
  · intro e m
    rw [ownEnds_openEnd (endOf_eq_none (plainFirst.unused_dev v unusedV)),
      ownEnds_openEnd (endOf_eq_none (plain.unused_dev u unusedU))]
    rcases eq_or_ne m n with rfl | same
    · cases e <;> simp [Pipe.valid, zero, Nat.add_comm]
    · simp [same, Ne.symm same]
  · intro before m
    by_cases same : m = n
    · simp [same, Pipe.Buffered]
    · simpa [same] using before m

end Calls

variable {pipes : Nat → Pipe}

/-- Whether a slot counts for an end. -/
def endBit (t : Table) (e : PipeEnd) (n : Nat) (i : Slot) : Nat :=
  if (t i).endOf = some (e, n) then 1 else 0

theorem ownEnds_eq_sum (t : Table) (e : PipeEnd) (n : Nat) :
    ownEnds t e n = ((List.finRange maxFdNum).map (endBit t e n)).sum := by
  rw [ownEnds, Finset.card_filter, Fin.sum_univ_def]
  rfl

theorem foldl_bumpPipe (plain : EndsPlain t) (slots : List Slot)
    (fits : ∀ e n, (pipes n).valid e + (slots.map (endBit t e n)).sum < 256)
    (opened : ∀ i ∈ slots, ∀ e n, (t i).endOf = some (e, n) → 1 ≤ (pipes n).valid e)
    (buffered : ∀ n, (pipes n).Buffered) :
    let copied := slots.foldl (fun pipes i => bumpPipe pipes (t i)) pipes
    (∀ e n, (copied n).valid e = (pipes n).valid e + (slots.map (endBit t e n)).sum) ∧
      ∀ n, (copied n).Buffered := by
  induction slots generalizing pipes with
  | nil => exact ⟨fun _ _ => rfl, buffered⟩
  | cons i rest ih =>
    simp only [map_cons, sum_cons] at fits ⊢
    rw [foldl_cons, bumpPipe_eq pipes (fun pipe => plain.live pipe)]
    cases named : (t i).endOf with
    | none =>
      have zero : ∀ e n, endBit t e n i = 0 := fun e n => by simp [endBit, named]
      simp only [zero, Nat.zero_add] at fits ⊢
      exact ih fits (fun j mem => opened j (mem_cons_of_mem _ mem)) buffered
    | some x =>
      obtain ⟨e', n'⟩ := x
      have bit : ∀ e n, endBit t e n i = if (e', n') = (e, n) then 1 else 0 := by
        intro e n
        simp [endBit, named]
      have grown : ∀ e n, (openEnd pipes e' n' n).valid e = (pipes n).valid e + endBit t e n i := by
        intro e n
        have room := fits e n
        rw [openEnd_valid, bit] at *
        split
        case isTrue same =>
          rw [if_pos same] at room
          exact Nat.mod_eq_of_lt (by omega)
        case isFalse => rfl
      have least := opened i (by simp) e' n' named
      have still : ∀ n, (openEnd pipes e' n' n).Buffered := by
        intro n
        rcases eq_or_ne n n' with rfl | same
        · have before : (pipes n).hasBuf = true ↔ _ := buffered n
          have held : (pipes n).hasBuf = true := by
            apply before.mpr
            cases e' <;> simp only [Pipe.valid] at least <;> omega
          have room := fits e' n
          rw [bit, if_pos rfl] at room
          cases e' <;>
          · simp only [openEnd, update_self, Pipe.Buffered, held, true_iff]
            simp only [Pipe.valid] at room least
            omega
        · cases e' <;> simpa [openEnd, same] using buffered n
      obtain ⟨valid, kept⟩ := @ih (openEnd pipes e' n')
        (fun e n => by rw [grown]; have room := fits e n; omega)
        (fun j mem e n named => by
          rw [grown]
          have before := opened j (mem_cons_of_mem _ mem) e n named
          omega)
        still
      refine ⟨fun e n => ?_, kept⟩
      rw [valid, grown]
      omega

theorem foldl_dropFd (slots : List Slot) (buffered : ∀ n, (pipes n).Buffered) :
    let dropped := slots.foldl (fun pipes i => dropFd pipes (t i)) pipes
    (∀ e n, (dropped n).valid e = (pipes n).valid e - (slots.map (endBit t e n)).sum) ∧
      ∀ n, (dropped n).Buffered := by
  induction slots generalizing pipes with
  | nil => exact ⟨fun _ _ => rfl, buffered⟩
  | cons i rest ih =>
    have shrunk : (∀ e n, (dropFd pipes (t i) n).valid e = (pipes n).valid e - endBit t e n i) ∧
        ∀ n, (dropFd pipes (t i) n).Buffered := by
      rw [dropFd_eq]
      cases named : (t i).endOf with
      | none => exact ⟨fun e n => by simp [endBit, named], buffered⟩
      | some x =>
        refine ⟨fun e n => ?_, closeEnd_buffered buffered x.1 x.2⟩
        simp only [closeEnd_valid, endBit, named, some.injEq]
        split <;> simp_all
    obtain ⟨valid, kept⟩ := ih shrunk.2
    rw [foldl_cons]
    refine ⟨fun e n => ?_, kept⟩
    rw [valid, shrunk.1, map_cons, sum_cons, Nat.sub_sub]

/-! ## The invariant of the system -/

def tableTerm (x : PfdTable) (e : PipeEnd) (n : Nat) : Nat :=
  if x.used then ownEnds x.pfd e n else 0

def tableEnds (tables : Fin maxFdTable → PfdTable) (e : PipeEnd) (n : Nat) : Nat :=
  ∑ t, tableTerm (tables t) e n

def sharers (pfd : Fin numMaxTask → Option (Fin maxFdTable)) (t : Fin maxFdTable) : Nat :=
  (Finset.univ.filter fun p => pfd p = some t).card

theorem tableEnds_update (tables : Fin maxFdTable → PfdTable) (t : Fin maxFdTable) (x : PfdTable)
    (e : PipeEnd) (n : Nat) : tableEnds (update tables t x) e n + tableTerm (tables t) e n =
    tableEnds tables e n + tableTerm x e n := by
  have change := sum_change (f := fun t => tableTerm (tables t) e n)
    (g := fun t' => tableTerm (update tables t x t') e n) t
    (fun t' other => by rw [update_of_ne other])
  rwa [update_self] at change

theorem sharers_update (pfd : Fin numMaxTask → Option (Fin maxFdTable)) (p : Fin numMaxTask)
    (x : Option (Fin maxFdTable)) (t : Fin maxFdTable) :
    sharers (update pfd p x) t + (if pfd p = some t then 1 else 0) =
      sharers pfd t + if x = some t then 1 else 0 := owners_update pfd p x t

structure CountsKept (w : FdSys) : Prop where
  plain : ∀ t, (w.tables t).used = true → EndsPlain (w.tables t).pfd
  valid : ∀ e n, (w.pipe n).valid e = tableEnds w.tables e n
  buffered : ∀ n, (w.pipe n).Buffered
  holds : ∀ p t, w.pfd p = some t → (w.tables t).used = true
  num : ∀ t, (w.tables t).used = true → (w.tables t).num = sharers w.pfd t

namespace CountsKept

variable {w next : FdSys} {t : Fin maxFdTable} {p child : Fin numMaxTask}

section
variable (kept : CountsKept w)
include kept

theorem counted : Counted w where
  valid e n := by
    rw [kept.valid, allEnds, tableEnds]
    refine Finset.sum_congr rfl ?_
    intro t _
    unfold tableTerm
    split
    case isTrue used => exact ((kept.plain t used).ends_eq e n).symm
    case isFalse => rfl
  buffered := kept.buffered

theorem ownEnds_le (used : (w.tables t).used = true) (e : PipeEnd) (n : Nat) :
    ownEnds (w.tables t).pfd e n ≤ (w.pipe n).valid e := by
  rw [kept.valid, tableEnds]
  have one := Finset.single_le_sum (s := Finset.univ) (f := fun t => tableTerm (w.tables t) e n)
    (fun _ _ => Nat.zero_le _) (Finset.mem_univ t)
  simpa [tableTerm, used] using one

theorem valid_le (e : PipeEnd) (n : Nat) : (w.pipe n).valid e ≤ maxFdTable := by
  rw [kept.valid, tableEnds]
  refine (Finset.sum_le_card_nsmul Finset.univ _ 1 ?_).trans (by simp)
  intro t _
  unfold tableTerm
  split
  case isTrue used => exact (kept.plain t used).ownEnds_le_one e n
  case isFalse => exact Nat.zero_le 1

theorem setFiles (used : (w.tables t).used = true) {s : Files}
    (keeps : KeepsEnds (w.files t) s) : CountsKept (w.setFiles t s) where
  plain t' used' := by
    rcases eq_or_ne t' t with rfl | same
    · simpa [FdSys.setFiles] using keeps.plain
    · simpa [FdSys.setFiles, same] using kept.plain t' (by simpa [FdSys.setFiles, same] using used')
  valid e n := by
    have balanced : (s.pipe n).valid e + ownEnds (w.tables t).pfd e n =
      (w.pipe n).valid e + ownEnds s.pfd e n := keeps.balanced e n
    have before := kept.valid e n
    have change := tableEnds_update w.tables t { w.tables t with pfd := s.pfd } e n
    have old : tableTerm (w.tables t) e n = ownEnds (w.tables t).pfd e n := if_pos used
    have new : tableTerm { w.tables t with pfd := s.pfd } e n = ownEnds s.pfd e n := if_pos used
    rw [old, new] at change
    have total : (s.pipe n).valid e =
      tableEnds (update w.tables t { w.tables t with pfd := s.pfd }) e n := by omega
    exact total
  buffered := keeps.buffered kept.buffered
  holds q t' points := by
    by_cases same : t' = t
    · simpa [FdSys.setFiles, same] using used
    · simpa [FdSys.setFiles, same] using kept.holds q t' points
  num t' used' := by
    have count : (w.tables t').used = true → (w.tables t').num = sharers w.pfd t' := kept.num t'
    rcases eq_or_ne t' t with rfl | same
    · simp only [FdSys.setFiles, update_self]
      exact count used
    · simp only [FdSys.setFiles, update_of_ne same] at used' ⊢
      exact count used'

theorem reshare (q : Fin numMaxTask) (x : Option (Fin maxFdTable)) (num : Nat)
    (gets : ∀ t', x = some t' → (w.tables t').used = true)
    (here : num = sharers (update w.pfd q x) t)
    (others : ∀ t', t' ≠ t → sharers (update w.pfd q x) t' = sharers w.pfd t') : CountsKept { w with
    tables := update w.tables t { w.tables t with num := num }
    pfd := update w.pfd q x } := by
  have tables : ∀ t', ((update w.tables t { w.tables t with num := num }) t').used =
      (w.tables t').used ∧
      ((update w.tables t { w.tables t with num := num }) t').pfd = (w.tables t').pfd := by
    intro t'
    rcases eq_or_ne t' t with rfl | same
    · simp
    · simp [same]
  refine ⟨?_, ?_, kept.buffered, ?_, ?_⟩
  · intro t' used'
    simp only [tables] at used' ⊢
    exact kept.plain t' used'
  · intro e n
    simp only [tableEnds, tableTerm, tables]
    exact kept.valid e n
  · intro q' t' points
    simp only [tables] at points ⊢
    by_cases same : q' = q
    · rw [same, update_self] at points
      exact gets t' points
    · rw [update_of_ne same] at points
      exact kept.holds q' t' points
  · intro t' used'
    simp only [tables] at used'
    rcases eq_or_ne t' t with rfl | same
    · simp only [update_self]
      exact here
    · simp only [update_of_ne same]
      rw [others t' same]
      exact kept.num t' used'

theorem cloneShared (used : (w.tables t).used = true)
    (free : w.pfd child = none) (run : cloneFiles w child t true = some next) : CountsKept next := by
  simp only [cloneFiles, if_true, some.injEq] at run
  subst run
  have change := sharers_update w.pfd child (some t)
  simp only [free, reduceCtorEq, if_false, some.injEq] at change
  refine kept.reshare child (some t) _ ?_ ?_ ?_
  · rintro t' ⟨⟩
    exact used
  · have here := change t
    rw [if_pos rfl] at here
    have count := kept.num t used
    omega
  · intro t' other
    simpa [Ne.symm other] using change t'

theorem cloneCopied (used : (w.tables t).used = true)
    (free : w.pfd child = none) (run : cloneFiles w child t false = some next) :
    CountsKept next := by
  simp only [cloneFiles, Bool.false_eq_true, if_false, map_eq_some_iff] at run
  obtain ⟨t', alloc, rfl⟩ := run
  have unused : (w.tables t').used = false := by simpa using List.find?_some alloc
  have plain := kept.plain t used
  have copied := @foldl_bumpPipe _ w.pipe plain (List.finRange maxFdNum) (fun e n => by
      rw [← ownEnds_eq_sum]
      have one := plain.ownEnds_le_one e n
      have few := kept.valid_le e n
      unfold maxFdTable at few
      omega)
    (fun i _ e n named => by
      have least := kept.ownEnds_le used e n
      have member : i ∈ Finset.univ.filter fun i => ((w.tables t).pfd i).endOf = some (e, n) := by
        simpa using named
      have positive : 0 < ownEnds (w.tables t).pfd e n := Finset.card_pos.mpr ⟨i, member⟩
      omega)
    kept.buffered
  refine ⟨?_, ?_, copied.2, ?_, ?_⟩
  · intro t'' used''
    rcases eq_or_ne t'' t' with rfl | same
    · simpa using plain
    · simpa [same] using kept.plain t'' (by simpa [same] using used'')
  · intro e n
    have total : (copyTable w.pipe (w.tables t).pfd n).valid e = _ := copied.1 e n
    rw [← ownEnds_eq_sum, kept.valid] at total
    have change := tableEnds_update w.tables t' ⟨true, 1, (w.tables t).pfd⟩ e n
    simp only [tableTerm, unused, Bool.false_eq_true, if_false, if_true] at change
    exact total.trans change.symm
  · intro q t'' points
    by_cases same : q = child
    · simp only [same, update_self] at points
      cases points
      simp
    · simp only [update_of_ne same] at points
      have usedBefore := kept.holds q t'' points
      by_cases here : t'' = t'
      · simp [here]
      · simpa [here] using usedBefore
  · intro t'' used''
    have change := sharers_update w.pfd child (some t') t''
    rw [free] at change
    rcases eq_or_ne t'' t' with rfl | same
    · have nobody : sharers w.pfd t'' = 0 := by
        refine Finset.card_eq_zero.mpr (Finset.filter_eq_empty_iff.mpr ?_)
        intro q _ points
        rw [kept.holds q t'' points] at unused
        cases unused
      simp only [update_self, reduceCtorEq, if_false, if_true] at change ⊢
      omega
    · have count := kept.num t'' (by simpa [same] using used'')
      simp only [update_of_ne same, reduceCtorEq, if_false, some.injEq, Ne.symm same] at change ⊢
      omega

theorem exitLast (points : w.pfd p = some t)
    (last : (w.tables t).num - 1 = 0) : CountsKept (exitFiles w p t) := by
  have used := kept.holds p t points
  have count := kept.num t used
  have dropped := foldl_dropFd (t := (w.tables t).pfd) (List.finRange maxFdNum) kept.buffered
  have alone : ∀ q, w.pfd q = some t → q = p := by
    intro q same
    have one : sharers w.pfd t ≤ 1 := by omega
    exact Finset.card_le_one.mp one q (by simpa using same) p (by simpa using points)
  rw [exitFiles, freeFdTable, if_pos last]
  refine ⟨?_, ?_, dropped.2, ?_, ?_⟩
  · intro t' used'
    by_cases same : t' = t
    · simp [same] at used'
    · simpa [same] using kept.plain t' (by simpa [same] using used')
  · intro e n
    have total := dropped.1 e n
    rw [← ownEnds_eq_sum, kept.valid] at total
    have change := tableEnds_update w.tables t
      ⟨false, (w.tables t).num - 1, fun i => clearFd ((w.tables t).pfd i)⟩ e n
    simp only [tableTerm, used, Bool.false_eq_true, if_false, if_true, Nat.add_zero] at change
    rw [← change, Nat.add_sub_cancel] at total
    exact total
  · intro q t' pointsQ
    by_cases same : q = p
    · simp [same] at pointsQ
    · simp only [update_of_ne same] at pointsQ
      have other : t' ≠ t := by
        rintro rfl
        exact same (alone q pointsQ)
      simpa [other] using kept.holds q t' pointsQ
  · intro t' used'
    by_cases same : t' = t
    · simp [same] at used'
    · have countT := kept.num t' (by simpa [same] using used')
      have change := sharers_update w.pfd p none t'
      rw [points] at change
      simp only [update_of_ne same, reduceCtorEq, if_false, some.injEq, Ne.symm same] at change ⊢
      omega

theorem exit (points : w.pfd p = some t) : CountsKept (exitFiles w p t) := by
  have count := kept.num t (kept.holds p t points)
  by_cases last : (w.tables t).num - 1 = 0
  · exact kept.exitLast points last
  · have change := sharers_update w.pfd p none
    simp only [points, some.injEq, reduceCtorEq, if_false, Nat.add_zero] at change
    rw [exitFiles, freeFdTable, if_neg last]
    refine kept.reshare p none _ ?_ ?_ ?_
    · rintro t' ⟨⟩
    · have here := change t
      rw [if_pos rfl] at here
      omega
    · intro t' other
      simpa [Ne.symm other] using change t'

theorem step {act : FdAct} (plain : act.Plain w)
    (ran : fdStep w act = some next) : CountsKept next := by
  obtain ⟨t, points, ran⟩ := bind_eq_some_iff.mp ran
  have used := kept.holds _ t points
  have plainT := kept.plain t used
  have counted := kept.ownEnds_le used
  have side := plain t points
  cases act with
  | pipe2 p =>
    obtain ⟨r, run, rfl⟩ := map_eq_some_iff.mp ran
    exact kept.setFiles used (pipe2_keepsEnds (s := w.files t) plainT counted side run)
  | dup p src =>
    obtain ⟨r, run, rfl⟩ := map_eq_some_iff.mp ran
    exact kept.setFiles used (dup_keepsEnds (s := w.files t) plainT side run)
  | dup3 p src dst =>
    obtain ⟨r, run, rfl⟩ := map_eq_some_iff.mp ran
    exact kept.setFiles used
      (dup3_keepsEnds (s := w.files t) plainT counted side.1 side.2.1 side.2.2 run)
  | close p fd =>
    cases ran
    exact kept.setFiles used (close_keepsEnds (s := w.files t) plainT counted fd)
  | clone p child files =>
    rw [fdStepIn, ite_none_right_eq_some] at ran
    obtain ⟨free, ran⟩ := ran
    cases files with
    | true => exact kept.cloneShared used free ran
    | false => exact kept.cloneCopied used free ran
  | exit p =>
    cases ran
    exact kept.exit points

end
end CountsKept

/-- A system at boot: no pipe is open, and every process has a fresh table of its
own or shares one. -/
structure FdBoot (w : FdSys) : Prop where
  closed : ∀ n, w.pipe n = ⟨0, 0, false⟩
  fresh : ∀ t, (w.tables t).used = true → ∃ old, Released old ∧ (w.tables t).pfd = initFd old
  holds : ∀ p t, w.pfd p = some t → (w.tables t).used = true
  num : ∀ t, (w.tables t).used = true → (w.tables t).num = sharers w.pfd t

theorem endsPlain_initFd {old : Table} (released : Released old) : EndsPlain (initFd old) := by
  have dev : ∀ i, (initFd old i).dev ≠ .pipe := by
    intro i
    unfold initFd
    split_ifs <;> simp
  refine ⟨good_initFd released, fun i _ => dev i, fun i _ => dev _, ?_, ?_⟩
  · exact fun i pipe => absurd pipe (dev i)
  · intro i j x named
    rw [endOf_eq_none (dev i)] at named
    cases named

theorem FdBoot.kept {w : FdSys} (boot : FdBoot w) : CountsKept w where
  plain t used := by
    obtain ⟨old, released, same⟩ := boot.fresh t used
    rw [same]
    exact endsPlain_initFd released
  valid e n := by
    have zero : (w.pipe n).valid e = 0 := by
      rw [boot.closed]
      cases e <;> rfl
    rw [zero]
    refine (Finset.sum_eq_zero ?_).symm
    intro t _
    unfold tableTerm
    split
    case isTrue used =>
      obtain ⟨old, released, same⟩ := boot.fresh t used
      refine Finset.card_eq_zero.mpr (Finset.filter_eq_empty_iff.mpr ?_)
      intro i _ named
      have dev := dev_of_endOf named
      rw [same] at dev
      unfold initFd at dev
      split_ifs at dev
    case isFalse => rfl
  buffered n := by simp [boot.closed, Pipe.Buffered]
  holds := boot.holds
  num := boot.num

/-- In every run whose steps are all plain the counters of every pipe are the
numbers of slots that denote its ends. -/
theorem counted_along (w : FdSys) (acts : List FdAct) (boot : FdBoot w)
    (plain : StepsMeet fdStep (fun w act => act.Plain w) w acts) :
    HoldsAlong fdStep Counted w acts :=
  holdsAlong_of_stepsMeet fdStep _ CountsKept Counted (fun _ kept => kept.counted)
    (fun _ _ _ kept plain ran => kept.step plain ran) w acts boot.kept plain

/-- One process with a fresh table. -/
def bootSys : FdSys where
  tables t := if t = 0 then ⟨true, 1, initFd fun _ => blankFd⟩ else ⟨false, 0, fun _ => blankFd⟩
  pipe _ := ⟨0, 0, false⟩
  sockUsed _ := false
  pfd p := if p = 0 then some 0 else none

theorem bootSys_boot : FdBoot bootSys where
  closed _ := rfl
  fresh t used := by
    by_cases first : t = 0
    · exact ⟨fun _ => blankFd, fun _ => ⟨rfl, rfl⟩, by simp [bootSys, first]⟩
    · simp [bootSys, first] at used
  holds p t points := by
    by_cases first : p = 0
    · simp only [bootSys, first, if_true, some.injEq] at points
      simp [bootSys, ← points]
    · simp [bootSys, first] at points
  num t used := by
    rcases eq_or_ne t 0 with rfl | first
    · decide +kernel
    · simp [bootSys, first] at used

theorem counted_along_small : HoldsAlong fdStep Counted bootSys
    [.pipe2 0, .clone 0 1 false, .close 0 3, .exit 1, .close 0 4] := by
  refine counted_along bootSys _ bootSys_boot ⟨?_, fun _ _ => ⟨fun _ _ => trivial, fun _ _ =>
    ⟨fun _ _ => trivial, fun _ _ => ⟨fun _ _ => trivial, fun _ _ => ⟨fun _ _ => trivial,
      fun _ _ => trivial⟩⟩⟩⟩⟩
  rintro t ⟨⟩
  exact .inr ⟨3, 4, by decide, rfl, rfl⟩

/-- `dup` of the write end into the slot of the closed read end: the new slot has
the device of a pipe and the stale fields of a read end, and no counter moves.
The copy counts neither as the read end it denotes nor as the write end it is
redirected to. -/
theorem dup_is_not_counted : ∃ w, runActs fdStep bootSys [.pipe2 0, .close 0 3, .dup 0 4] = some w ∧
    (w.pipe 0).rValid = 0 ∧ allEnds w .read 0 = 1 ∧ (w.pipe 0).wValid = 1 ∧
    link (w.tables 0).pfd 3 = some 4 ∧ ((w.tables 0).pfd 4).endOf = some (.write, 0) ∧
    ¬ Counted w := by
  refine exists_evaluated (P := fun w => (w.pipe 0).rValid = 0 ∧ allEnds w .read 0 = 1 ∧
    (w.pipe 0).wValid = 1 ∧ link (w.tables 0).pfd 3 = some 4 ∧
    ((w.tables 0).pfd 4).endOf = some (.write, 0)) (by decide +kernel) ?_
  rintro w ⟨reads, denoted, writes, linked, named⟩
  refine ⟨reads, denoted, writes, linked, named, ?_⟩
  intro counted
  have valid := counted.valid .read 0
  rw [denoted] at valid
  simp only [Pipe.valid, reads] at valid
  omega

end CCore.Fs
