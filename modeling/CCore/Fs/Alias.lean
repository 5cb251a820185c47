import CCore.Fat.Loops
import CCore.Fs.Through

/-!
# Descriptors that share an open file

A descriptor number stands for an open file object: `fat32_openat`,
`fat32_pipe2` and `do_socket` make new objects, and `fat32_dup` and `fat32_dup3`
give the object of their source a further number.  `Aliasing` says that all
numbers of one object are as good as each other: every call gives the same
answer and the same next state through any of them, and there is one offset.

The code reaches this for files on the volume and of the kernel, whose
redirections `get_fd_index` follows.  It does not for other devices, where the
copy is a slot of its own with stale fields, and not when a file with two
further numbers loses the one that holds it: `fat32_close` then gives each of
the others a copy.
-/
namespace CCore.Fs

open Fat Chase Run Loop Function Option

def maxSockNum : Nat := 16

/-- The first free socket of `sock[1..MAX_SOCK_NUM]`. -/
def freeSock (sockUsed : Nat → Bool) : Option Nat :=
  ((List.range maxSockNum).map (· + 1)).find? fun i => !sockUsed i

def Fd.asSock (fd : Fd) (i : Nat) (cloexec nonblock : Bool) : Fd :=
  { fd with
    dev := .sock, sockNum := i
    mode := if cloexec then fd.mode ||| 1 else fd.mode
    flags := if nonblock then fd.flags ||| 0o4000 else fd.flags }

/-- The socket stays taken when no descriptor is free. -/
def doSocket (s : Files) (cloexec nonblock : Bool) : Option (Int × Files) :=
  match freeSock s.sockUsed with
  | none => some (-enfile, s)
  | some i =>
    let taken := update s.sockUsed i true
    let (number, t) := getOneFd s.pfd
    if number = noFd then some (-enfile, { s with pfd := t, sockUsed := taken })
    else
      (getFdIndex t number).map fun index =>
        (asInt number,
          { s with pfd := writeAt t index fun fd => fd.asSock i cloexec nonblock
                   sockUsed := taken })

/-! ## Objects -/

namespace FdState

def files (s : FdState) : Files := ⟨s.pfd, s.world.pipes.ends, s.sockUsed⟩

def setFiles (s : FdState) (f : Files) : FdState :=
  { pfd := f.pfd, sockUsed := f.sockUsed
    world := { s.world with pipes := { s.world.pipes with ends := f.pipe } } }

/-- `init_ring_buffer` and the new buffer page of a pipe that was opened. -/
def initPipe (s : FdState) (n : Option Nat) : FdState :=
  match n with
  | none => s
  | some n =>
    { s with world := { s.world with pipes := { s.world.pipes with
        rbuf := update s.world.pipes.rbuf n (initRingBuffer fun _ => 0) } } }

end FdState

/-- `object fd` is the open file that number `fd` stands for. -/
structure OpenFiles where
  state : FdState
  object : Nat → Option Nat
  fresh : Nat

inductive AliasAct where
  | openat (env : OpenEnv) (fd : Nat) (path : String) (flags : Nat)
  | pipe2
  | socket (cloexec nonblock : Bool)
  | dup (src : Nat)
  | dup3 (src dst : Nat)
  | close (fd : Nat)
  | io (p fd : Nat) (call : IoCall)

namespace OpenFiles

/-- A number that was returned for a new object. -/
def opened (o : OpenFiles) (s : FdState) (value : Int) : OpenFiles :=
  if 0 ≤ value then ⟨s, update o.object value.toNat (some o.fresh), o.fresh + 1⟩
  else { o with state := s }

/-- A number that was returned for the object of `src`. -/
def shared (o : OpenFiles) (s : FdState) (src : Nat) (value : Int) : OpenFiles :=
  if 0 ≤ value then { o with state := s, object := update o.object value.toNat (o.object src) }
  else { o with state := s }

end OpenFiles

/-- A call of a process that uses the table; `none` when it does not return. -/
def aliasStep (o : OpenFiles) : AliasAct → Option OpenFiles
  | .openat env fd path flags =>
    (fat32Openat env o.state.files fd path flags).map fun (value, f) =>
      o.opened (o.state.setFiles f) value
  | .pipe2 =>
    (fat32Pipe2 o.state.files).map fun (value, fds, f) =>
      let s := (o.state.setFiles f).initPipe (freePipe o.state.world.pipes.ends)
      if value = 0 then
        ⟨s, update (update o.object (fds.getD 0 0) (some o.fresh))
          (fds.getD 1 0) (some (o.fresh + 1)), o.fresh + 2⟩
      else { o with state := s }
  | .socket cloexec nonblock =>
    (doSocket o.state.files cloexec nonblock).map fun (value, f) =>
      o.opened (o.state.setFiles f) value
  | .dup src =>
    (fat32Dup o.state.files src).map fun (value, f) => o.shared (o.state.setFiles f) src value
  | .dup3 src dst =>
    (fat32Dup3 o.state.files src dst).map fun (value, f) => o.shared (o.state.setFiles f) src value
  | .close fd =>
    let (value, f) := fat32Close o.state.files fd
    some { o with
      state := o.state.setFiles f
      object := if value = 0 then update o.object fd none else o.object }
  | .io p fd call => (through o.state p fd call).map fun (_, s) => { o with state := s }

/-- All numbers of an open file are as good as each other. -/
def Aliasing (o : OpenFiles) : Prop :=
  ∀ a b x, o.object a = some x → o.object b = some x →
    (∀ p call, through o.state p a call = through o.state p b call) ∧
      offset o.state.pfd a = offset o.state.pfd b ∧ (offset o.state.pfd a).isSome

/-- At most one slot is redirected to `k`. -/
def OneAlias (t : Table) (k : Slot) : Prop := ∀ i j, Alias t k i → Alias t k j → i = j

/-- The side condition.  Only descriptors of files are duplicated, a slot that two
others are redirected to is not closed, `fat32_dup3` is not made onto the slot
its source resolves to, and a slot is free where one is needed. -/
def AliasAct.Single (o : OpenFiles) : AliasAct → Prop
  | .pipe2 =>
    freePipe o.state.world.pipes.ends = none ∨
      ∃ u v, u ≠ v ∧ (o.state.pfd u).used = .unused ∧ (o.state.pfd v).used = .unused
  | .dup src => ∀ i, getFdIndex o.state.pfd src = some (some i) → (o.state.pfd i).dev = .default
  | .dup3 src dst =>
    dst < 2 ^ 31 ∧ (firstNumbered o.state.pfd dst ≠ none ∨ firstUnused o.state.pfd ≠ none) ∧
      (∀ i, getFdIndex o.state.pfd src = some (some i) → (o.state.pfd i).dev = .default ∧
        getFdIndexWithoutRedirect o.state.pfd dst ≠ some i) ∧
      ∀ k, getFdIndexWithoutRedirect o.state.pfd dst = some k → OneAlias o.state.pfd k
  | .close fd => ∀ k, getFdIndexWithoutRedirect o.state.pfd fd = some k → OneAlias o.state.pfd k
  | .openat .. | .socket .. | .io .. => True

instance (t : Table) (k : Slot) : Decidable (OneAlias t k) :=
  inferInstanceAs (Decidable (∀ _ _, _ → _ → _))

instance (o : OpenFiles) : (act : AliasAct) → Decidable (act.Single o)
  | .pipe2 | .dup _ | .dup3 _ _ | .close _ => by unfold AliasAct.Single; infer_instance
  | .openat .. | .socket .. | .io .. => .isTrue trivial

def root (t : Table) (i : Slot) : Slot :=
  if (t i).redirected then (t i).redirectedFdIndex else i

/-- Tables in which only files are redirected, and one hop at a time. -/
structure FileLinks (t : Table) : Prop where
  good : Good t
  unused_default : ∀ i, (t i).used = .unused → (t i).dev = .default
  target : ∀ i, (t i).redirected = true → (t i).dev = .default ∧
    (t (t i).redirectedFdIndex).dev = .default ∧ (t (t i).redirectedFdIndex).redirected = false

/-- The objects of the slots in use. -/
structure Objects (t : Table) (object : Nat → Option Nat) (fresh : Nat) : Prop where
  held : ∀ i, (t i).inUse → (object (t i).fdNum).isSome
  live : ∀ fd, (object fd).isSome → ∃ i, (t i).inUse ∧ (t i).fdNum = fd
  below : ∀ fd x, object fd = some x → x < fresh
  same : ∀ i j, (t i).inUse → (t j).inUse → object (t i).fdNum = object (t j).fdNum →
    root t i = root t j

structure Sharing (o : OpenFiles) : Prop where
  links : FileLinks o.state.pfd
  objects : Objects o.state.pfd o.object o.fresh

variable {fd : Nat} {i : Slot} {a b : Fd} {r : IoResult × Fd × FileWorld} {data : List UInt8} {t :
  Table}

theorem FileLinks.getFdIndex_root (links : FileLinks t) (inUse : (t i).inUse) :
    getFdIndex t (t i).fdNum = some (some (root t i)) := by
  have own : getFdIndexWithoutRedirect t (t i).fdNum = some i :=
    own_eq_of_unique ⟨inUse, rfl⟩ fun j used number =>
      links.good.number_unique j i used inUse number
  have run : chase (hop t) maxFdNum i = some (root t i) := by
    unfold root
    split
    case isTrue redirected =>
      obtain ⟨dev, _, plain⟩ := links.target i redirected
      have first : hop t i = some (t i).redirectedFdIndex := by simp [hop, link, dev, redirected]
      have stops : hop t (t i).redirectedFdIndex = none := by simp [hop, link, plain]
      rw [show maxFdNum = 108 + 1 + 1 from rfl, chase, first]
      simp only
      rw [chase, stops]
    case isFalse plain =>
      have stops : hop t i = none := by simp [hop, link, plain]
      rw [show maxFdNum = 109 + 1 from rfl, chase, stops]
  have live : (t (root t i)).inUse := by
    unfold root
    split
    case isTrue redirected => exact links.good.target_used i redirected
    case isFalse => exact inUse
  rw [getFdIndex, own]
  simp only [run, map_some]
  rw [if_neg (fun both => live both.2)]

theorem FileLinks.found (links : FileLinks t) (look : getFdIndex t fd = some (some i)) :
    ∃ k, (t k).inUse ∧ (t k).fdNum = fd ∧ root t k = i ∧ (t i).inUse := by
  rcases links.good.getFdIndex_cases fd with ⟨_, missing⟩ | ⟨k, j, own, foundJ, inUse⟩
  · rw [missing] at look
    cases look
  · obtain ⟨inUseK, number⟩ := own_some own
    have atRoot := links.getFdIndex_root inUseK
    rw [number, look] at atRoot
    obtain rfl : i = root t k := by simpa using atRoot
    obtain rfl : j = root t k := by simpa using foundJ.symm.trans look
    exact ⟨k, inUseK, number, rfl, inUse⟩

theorem FileLinks.root_plain (links : FileLinks t) (k : Slot) :
    (t (root t k)).redirected = false := by
  unfold root
  split
  case isTrue redirected => exact (links.target k redirected).2.2
  case isFalse plain => simpa using plain

theorem Sharing.aliasing {o : OpenFiles} (sharing : Sharing o) : Aliasing o := by
  intro a b x objectA objectB
  obtain ⟨i, inUseI, numberI⟩ := sharing.objects.live a (by simp [objectA])
  obtain ⟨j, inUseJ, numberJ⟩ := sharing.objects.live b (by simp [objectB])
  have roots : root o.state.pfd i = root o.state.pfd j :=
    sharing.objects.same i j inUseI inUseJ (by rw [numberI, numberJ, objectA, objectB])
  have lookA := sharing.links.getFdIndex_root inUseI
  have lookB := sharing.links.getFdIndex_root inUseJ
  rw [numberI] at lookA
  rw [numberJ, ← roots] at lookB
  refine ⟨fun p call => ?_, ?_, ?_⟩
  · unfold through
    rw [lookA, lookB]
  · unfold offset
    rw [lookA, lookB]
  · unfold offset
    rw [lookA]
    rfl

variable {object : Nat → Option Nat} {fresh number : Nat} {u : Slot} {f : Fd}

theorem FileLinks.not_target (links : FileLinks t) (unused : (t u).used = .unused)
    (redirected : (t i).redirected = true) : (t i).redirectedFdIndex ≠ u := by
  rintro rfl
  exact links.good.target_used i redirected unused

theorem root_update (other : i ≠ u) : root (update t u f) i = root t i := by
  unfold root
  rw [update_of_ne other]

theorem FileLinks.put (links : FileLinks t) (unused : (t u).used = .unused)
    (good : Good (update t u f)) (inUse : f.inUse)
    (target : f.redirected = true → f.dev = .default ∧ f.redirectedFdIndex ≠ u ∧
      (t f.redirectedFdIndex).dev = .default ∧ (t f.redirectedFdIndex).redirected = false) :
    FileLinks (update t u f) where
  good := good
  unused_default := by
    intro i unusedI
    by_cases same : i = u
    · rw [same, update_self] at unusedI
      exact absurd unusedI inUse
    · rw [update_of_ne same] at unusedI ⊢
      exact links.unused_default i unusedI
  target := by
    intro i redirected
    by_cases same : i = u
    · rw [same, update_self] at redirected ⊢
      obtain ⟨dev, other, plain⟩ := target redirected
      rw [update_of_ne other]
      exact ⟨dev, plain⟩
    · rw [update_of_ne same] at redirected ⊢
      rw [update_of_ne (links.not_target unused redirected)]
      exact links.target i redirected

theorem FileLinks.fill (links : FileLinks t) (unused : (t u).used = .unused)
    (free : ∀ j, (t j).inUse → (t j).fdNum ≠ number)
    (shape : Good.SameShape f { t u with used := .used, fdNum := number }) :
    FileLinks (update t u f) := by
  refine links.put unused (links.good.fill unused free shape) (by simp [Fd.inUse, shape.1]) ?_
  intro redirected
  rw [shape.2.1, links.good.unused_plain u unused] at redirected
  cases redirected

section
variable (objects : Objects t object fresh)
  (unused : (t u).used = .unused)
  (free : ∀ j, (t j).inUse → (t j).fdNum ≠ number)
include objects unused free

theorem Objects.take (inUse : f.inUse) (named : f.fdNum = number)
    {x fresh' : Nat} (small : x < fresh') (grows : fresh ≤ fresh')
    (owners : ∀ j, (t j).inUse → object (t j).fdNum = some x → root t j = root (update t u f) u) :
    Objects (update t u f) (update object number (some x)) fresh' := by
  have others : ∀ j, j ≠ u → (update t u f j).inUse → (t j).inUse ∧
      update object number (some x) (update t u f j).fdNum = object (t j).fdNum := by
    intro j other inUseJ
    rw [update_of_ne other] at inUseJ ⊢
    exact ⟨inUseJ, update_of_ne (free j inUseJ) _ _⟩
  have here : update object number (some x) (update t u f u).fdNum = some x := by
    rw [update_self, named, update_self]
  refine ⟨?_, ?_, ?_, ?_⟩
  · intro i inUseI
    by_cases same : i = u
    · rw [same, here]
      rfl
    · obtain ⟨before, kept⟩ := others i same inUseI
      rw [kept]
      exact objects.held i before
  · intro fd some
    by_cases same : fd = number
    · exact ⟨u, by rwa [update_self], by rw [update_self, named, same]⟩
    · rw [update_of_ne same] at some
      obtain ⟨i, inUseI, numberI⟩ := objects.live fd some
      have other : i ≠ u := fun at_ => inUseI (at_ ▸ unused)
      exact ⟨i, by rwa [update_of_ne other], by rwa [update_of_ne other]⟩
  · intro fd y value
    by_cases same : fd = number
    · rw [same, update_self] at value
      exact Option.some.inj value ▸ small
    · rw [update_of_ne same] at value
      exact (objects.below fd y value).trans_le grows
  · intro i j inUseI inUseJ equal
    by_cases atI : i = u <;> by_cases atJ : j = u
    · rw [atI, atJ]
    · obtain ⟨before, kept⟩ := others j atJ inUseJ
      rw [atI, here, kept] at equal
      rw [atI, root_update atJ]
      exact (owners j before equal.symm).symm
    · obtain ⟨before, kept⟩ := others i atI inUseI
      rw [atJ, here, kept] at equal
      rw [atJ, root_update atI]
      exact owners i before equal
    · obtain ⟨beforeI, keptI⟩ := others i atI inUseI
      obtain ⟨beforeJ, keptJ⟩ := others j atJ inUseJ
      rw [keptI, keptJ] at equal
      rw [root_update atI, root_update atJ]
      exact objects.same i j beforeI beforeJ equal

theorem Objects.add (shape : Good.SameShape f { t u with used := .used, fdNum := number }) :
    Objects (update t u f) (update object number (some fresh)) (fresh + 1) := by
  refine objects.take unused free (by simp [Fd.inUse, shape.1]) shape.2.2.2.1
    (Nat.lt_succ_self fresh) (Nat.le_succ fresh) ?_
  intro j _ taken
  exact absurd (objects.below _ _ taken) (lt_irrefl _)

end

theorem sharing_alias (links : FileLinks t) (objects : Objects t object fresh)
    (unused : (t u).used = .unused) (free : ∀ j, (t j).inUse → (t j).fdNum ≠ number) {k : Slot}
    (inUse : (t k).inUse) (target : (t (root t k)).inUse) (dev : (t (root t k)).dev = .default) :
    FileLinks (update t u ((t u).aliasOf number (root t k) .default)) ∧
      Objects (update t u ((t u).aliasOf number (root t k) .default))
        (update object number (object (t k).fdNum)) fresh := by
  obtain ⟨x, named⟩ := isSome_iff_exists.mp (objects.held k inUse)
  have apart : root t k ≠ u := fun same => target (same ▸ unused)
  refine ⟨links.put unused (links.good.alias_ unused target free) (by simp [Fd.inUse, Fd.aliasOf])
    fun _ => ⟨rfl, apart, dev, links.root_plain k⟩, ?_⟩
  rw [named]
  refine objects.take unused free (by simp [Fd.inUse, Fd.aliasOf]) rfl
    (objects.below _ _ named) le_rfl ?_
  intro j inUseJ same
  have here : root (update t u ((t u).aliasOf number (root t k) .default)) u = root t k := by
    simp [root, Fd.aliasOf]
  rw [here]
  exact objects.same j k inUseJ inUse (same.trans named.symm)

section Closing
variable {s : Files} {k : Slot}

theorem FileLinks.alias_plain (links : FileLinks s.pfd) (aliased : Alias s.pfd k i) :
    (s.pfd k).redirected = false :=
  aliased.2.2 ▸ (links.target i aliased.2.1).2.2

theorem FileLinks.close_root (links : FileLinks s.pfd)
    (own : getFdIndexWithoutRedirect s.pfd fd = some k) (other : i ≠ k) :
    root (fat32Close s fd).2.pfd i = if Alias s.pfd k i then i else root s.pfd i := by
  rw [root, links.good.close_pfd own, if_neg other]
  split
  case isTrue aliased => simp [Fd.withNumber, links.alias_plain aliased]
  case isFalse => rfl

theorem FileLinks.close (links : FileLinks s.pfd)
    (own : getFdIndexWithoutRedirect s.pfd fd = some k) : FileLinks (fat32Close s fd).2.pfd where
  good := links.good.close own
  unused_default := by
    intro i unused
    rw [links.good.close_pfd own] at unused ⊢
    split_ifs at unused ⊢ with same aliased
    · rfl
    · exact absurd unused (own_some own).1
    · exact links.unused_default i unused
  target := by
    intro i redirected
    have pfd := links.good.close_pfd own
    rw [pfd i] at redirected ⊢
    split_ifs at redirected ⊢ with same aliased
    · simp [resetFd] at redirected
    · simp [Fd.withNumber, links.alias_plain aliased] at redirected
    · obtain ⟨dev, devTarget, plain⟩ := links.target i redirected
      have inUse : (s.pfd i).inUse := by
        intro unused
        rw [links.good.unused_plain i unused] at redirected
        cases redirected
      have other : (s.pfd i).redirectedFdIndex ≠ k :=
        fun points => aliased ⟨inUse, redirected, points⟩
      have notAlias : ¬ Alias s.pfd k (s.pfd i).redirectedFdIndex := by
        rintro ⟨_, further, _⟩
        rw [plain] at further
        cases further
      rw [pfd, if_neg other, if_neg notAlias]
      exact ⟨dev, devTarget, plain⟩

theorem Objects.close (objects : Objects s.pfd object fresh) (links : FileLinks s.pfd)
    (own : getFdIndexWithoutRedirect s.pfd fd = some k) (one : OneAlias s.pfd k) :
    Objects (fat32Close s fd).2.pfd (update object fd none) fresh := by
  obtain ⟨inUseK, numberK⟩ := own_some own
  have number := links.good.close_fdNum own
  have used := links.good.close_used own
  have kept : ∀ i, i ≠ k → (s.pfd i).inUse →
      update object fd none (s.pfd i).fdNum = object (s.pfd i).fdNum := by
    intro i other inUse
    refine update_of_ne ?_ _ _
    exact fun same => other (links.good.number_unique i k inUse inUseK (same.trans numberK.symm))
  have root_k : ∀ i, i ≠ k → (s.pfd i).inUse → root s.pfd i = k → Alias s.pfd k i := by
    intro i other inUse leads
    unfold root at leads
    split at leads
    case isTrue redirected => exact ⟨inUse, redirected, leads⟩
    case isFalse => exact absurd leads other
  have alias_root : ∀ i, Alias s.pfd k i → root s.pfd i = k := by
    intro i aliased
    rw [root, if_pos aliased.2.1]
    exact aliased.2.2
  refine ⟨?_, ?_, ?_, ?_⟩
  · intro i inUse
    obtain ⟨other, before⟩ := (used i).mp inUse
    rw [number, kept i other before]
    exact objects.held i before
  · intro fd' some
    have differs : fd' ≠ fd := by
      rintro rfl
      simp at some
    rw [update_of_ne differs] at some
    obtain ⟨i, inUse, numberI⟩ := objects.live fd' some
    have other : i ≠ k := by
      rintro rfl
      exact differs (numberI.symm.trans numberK)
    exact ⟨i, (used i).mpr ⟨other, inUse⟩, (number i).trans numberI⟩
  · intro fd' x value
    by_cases same : fd' = fd
    · simp [same] at value
    · rw [update_of_ne same] at value
      exact objects.below fd' x value
  · intro i j inUseI inUseJ equal
    obtain ⟨otherI, beforeI⟩ := (used i).mp inUseI
    obtain ⟨otherJ, beforeJ⟩ := (used j).mp inUseJ
    rw [number, number, kept i otherI beforeI, kept j otherJ beforeJ] at equal
    have roots := objects.same i j beforeI beforeJ equal
    rw [links.close_root own otherI, links.close_root own otherJ]
    by_cases aliasI : Alias s.pfd k i
    · have aliasJ := root_k j otherJ beforeJ (roots ▸ alias_root i aliasI)
      rw [if_pos aliasI, if_pos aliasJ]
      exact one i j aliasI aliasJ
    · have aliasJ : ¬ Alias s.pfd k j :=
        fun aliasJ => aliasI (root_k i otherI beforeI (roots.trans (alias_root j aliasJ)))
      rw [if_neg aliasI, if_neg aliasJ]
      exact roots

end Closing

/-! ## Reading, writing, seeking -/

/-- What a transfer leaves alone in a descriptor. -/
def Fd.Kept (a b : Fd) : Prop := Good.SameShape a b ∧ a.dev = b.dev

/-- A transfer changes the cursor, the length and the cluster a file starts in, and nothing
else of a descriptor. -/
def Fd.Moved (a b : Fd) : Prop :=
  a = { b with
    pos := a.pos, curSec := a.curSec, curClusNum := a.curClusNum, length := a.length
    firstClusNum := a.firstClusNum }

theorem Fd.Moved.refl (a : Fd) : a.Moved a := rfl

theorem Fd.Moved.trans {c : Fd} (first : a.Moved b) (second : b.Moved c) : a.Moved c := by
  rw [second] at first
  exact first

theorem Fd.Moved.of_length (moved : a.Moved b) (length : Nat) :
    Fd.Moved { a with length := length } b := by
  rw [moved]
  rfl

theorem Fd.Moved.of_cursor (moved : CCore.Fat.Moved b a) : a.Moved b := by
  rw [moved]
  rfl

theorem Fd.Moved.kept (moved : a.Moved b) : a.Kept b := by
  rw [moved]
  exact ⟨⟨rfl, rfl, rfl, rfl, rfl⟩, rfl⟩

variable {fat : FatSb} {d : Disk} {nfd : Fd}

theorem firstCluster_moved {r : Disk × Fd} (run : firstCluster fat d nfd = some r) :
    r.2.Moved nfd := by
  unfold firstCluster at run
  split at run
  · obtain ⟨_, _, rfl⟩ := map_eq_some_iff.mp run
    rfl
  · cases run
    exact .refl nfd

theorem fat32Write_moved {r : Int × Disk × Fd}
    (run : fat32Write fat d nfd data = some r) : r.2.2.Moved nfd := by
  unfold fat32Write at run
  split at run
  · cases run
    exact .refl nfd
  split at run
  · cases run
    exact .refl nfd
  obtain ⟨⟨d', opened⟩, first, run⟩ := bind_eq_some_iff.mp run
  obtain ⟨final, loop, rfl⟩ := map_eq_some_iff.mp run
  have moved : final.nfd.Moved nfd := by
    refine whileLoop_invariant (I := fun s => s.nfd.Moved nfd) ?_ (firstCluster_moved first) loop
    intro s s' moved round
    obtain ⟨_, _, rfl⟩ := map_eq_some_iff.mp round
    exact (Fd.Moved.of_cursor (moved_moveCursor ..)).trans moved
  split
  · exact moved.of_length _
  · exact moved

variable {w : FileWorld} {p : Nat}

theorem readKernelFile_moved (count : Nat) : (readKernelFile w nfd count).2.Moved nfd := by
  unfold readKernelFile
  split
  · exact .refl nfd
  · exact rfl

theorem readSlot_moved {count : Nat} (run : readSlot w p nfd count = some r) : r.2.1.Moved nfd := by
  unfold readSlot at run
  split at run
  case h_1 answer special =>
    cases run
    unfold readSpecialPath at special
    split at special
    case h_7 | h_8 =>
      split at special
      · obtain rfl := Option.some.inj special
        exact readKernelFile_moved count
      · cases special
    all_goals
      obtain rfl := Option.some.inj special
      exact .refl nfd
  case h_2 =>
    obtain ⟨_, read, rfl⟩ := map_eq_some_iff.mp run
    exact .of_cursor (moved_read read)

theorem writeKernelFile_moved (run : writeKernelFile w nfd data = some r) : r.2.1.Moved nfd := by
  unfold writeKernelFile at run
  split at run
  · cases run
  · cases run
    rfl

theorem writeSlot_moved {ignored : Bool}
    (run : writeSlot w p nfd data ignored = some r) : r.2.1.Moved nfd := by
  obtain ⟨special, specialRun, run⟩ := bind_eq_some_iff.mp run
  cases special with
  | some answer =>
    cases run
    unfold writeSpecialPath at specialRun
    split at specialRun
    case h_3 => split at specialRun <;> cases specialRun <;> exact .refl nfd
    case h_7 | h_8 =>
      split at specialRun
      · obtain ⟨_, kernel, same⟩ := map_eq_some_iff.mp specialRun
        cases same
        exact writeKernelFile_moved kernel
      · cases specialRun
    all_goals
      cases specialRun
      exact .refl nfd
  | none =>
    obtain ⟨_, write, rfl⟩ := map_eq_some_iff.mp run
    exact fat32Write_moved write

theorem update_moved {fd : Fd} (moved : fd.Moved (t i)) (j : Slot) :
    (update t i fd j).Moved (t j) := by
  by_cases same : j = i
  · rw [same, update_self]
    exact moved
  · rw [update_of_ne same]
    exact .refl _

theorem updateFdLength_moved (t : Table) (i j : Slot) : (updateFdLength t i j).Moved (t j) := by
  unfold updateFdLength
  split <;> exact .refl _

theorem through_moved {s : FdState} {call : IoCall} {r : Answer × FdState}
    (run : through s p fd call = some r) (j : Slot) : (r.2.pfd j).Moved (s.pfd j) := by
  obtain ⟨index, _, run⟩ := bind_eq_some_iff.mp run
  cases index with
  | none =>
    cases call with
    | fstat => cases run
    | read | write | lseek =>
      cases run
      exact .refl _
  | some i =>
    cases call with
    | read count =>
      obtain ⟨_, slot, rfl⟩ := map_eq_some_iff.mp run
      exact update_moved (readSlot_moved slot) j
    | write data ignored =>
      obtain ⟨_, slot, rfl⟩ := map_eq_some_iff.mp run
      have moved := update_moved (writeSlot_moved slot) j
      dsimp only
      split
      · exact (updateFdLength_moved _ i j).trans moved
      · exact moved
    | lseek off whence =>
      cases run
      exact update_moved (.of_cursor (moved_lseek _ _ _ off whence)) j
    | fstat =>
      cases run
      exact .refl _

theorem FileLinks.of_kept {t' : Table} (links : FileLinks t) (kept : ∀ i, (t' i).Kept (t i)) :
    FileLinks t' where
  good := links.good.of_sameShape fun i => (kept i).1
  unused_default := by
    intro i unused
    rw [(kept i).2]
    exact links.unused_default i ((kept i).1.1.symm.trans unused)
  target := by
    intro i redirected
    rw [(kept i).1.2.1] at redirected
    rw [(kept i).1.2.2.1, (kept i).2, (kept _).2, (kept _).1.2.1]
    exact links.target i redirected

theorem Objects.of_kept {t' : Table} {object : Nat → Option Nat} {fresh : Nat}
    (objects : Objects t object fresh) (kept : ∀ i, (t' i).Kept (t i)) :
    Objects t' object fresh := by
  have used : ∀ i, (t' i).inUse ↔ (t i).inUse := fun i => by rw [Fd.inUse, Fd.inUse, (kept i).1.1]
  have number : ∀ i, (t' i).fdNum = (t i).fdNum := fun i => (kept i).1.2.2.2.1
  have roots : ∀ i, root t' i = root t i := by
    intro i
    rw [root, root, (kept i).1.2.1, (kept i).1.2.2.1]
  refine ⟨?_, ?_, objects.below, ?_⟩
  · intro i inUse
    rw [number]
    exact objects.held i ((used i).mp inUse)
  · intro fd some
    obtain ⟨i, inUse, numberI⟩ := objects.live fd some
    exact ⟨i, (used i).mpr inUse, (number i).trans numberI⟩
  · intro i j inUseI inUseJ
    rw [number, number, roots, roots]
    exact objects.same i j ((used i).mp inUseI) ((used j).mp inUseJ)

/-! ## One call -/

namespace OpenFiles

variable {o : OpenFiles} {s : FdState} {r : Int}

theorem opened_number (number : Nat) :
    o.opened s number = ⟨s, update o.object number (some o.fresh), o.fresh + 1⟩ := by
  simp [opened]

theorem opened_failed (failed : r < 0) : o.opened s r = { o with state := s } := by
  rw [opened, if_neg (by omega)]

theorem shared_number (src number : Nat) : o.shared s src number =
    { o with state := s, object := update o.object number (o.object src) } := by
  simp [shared]

theorem shared_failed (src : Nat) (failed : r < 0) : o.shared s src r = { o with state := s } := by
  rw [shared, if_neg (by omega)]

end OpenFiles

@[simp] theorem initPipe_pfd (s : FdState) (n : Option Nat) : (s.initPipe n).pfd = s.pfd := by
  cases n <;> rfl

theorem doSocket_effect {s next : Files} {cloexec nonblock : Bool} {r : Int} (good : Good s.pfd)
    (run : doSocket s cloexec nonblock = some (r, next)) :
    (r < 0 ∧ next.pfd = s.pfd) ∨ ∃ u number f, (s.pfd u).used = .unused ∧
      (∀ j, (s.pfd j).inUse → (s.pfd j).fdNum ≠ number) ∧ r = (number : Nat) ∧
      Good.SameShape f { s.pfd u with used := .used, fdNum := number } ∧
      next.pfd = update s.pfd u f := by
  unfold doSocket at run
  split at run
  · cases run
    exact .inl ⟨by decide, rfl⟩
  rename_i i _
  rcases getOneFd_cases s.pfd with ⟨full, result⟩ | ⟨number, u, unusedU, valid, fresh, result⟩
  · simp only [result, if_true, some.injEq, Prod.mk.injEq] at run
    exact .inl ⟨run.1 ▸ by decide, by rw [← run.2]⟩
  have unused := firstUnused_some unusedU
  have small : number < 2 ^ 31 := (getOneFd_le result valid).trans_lt (by decide)
  simp only [result, valid, if_false, good.getFdIndex_claimSlot unused fresh, map_some,
    writeAt, some.injEq, Prod.mk.injEq] at run
  refine .inr ⟨u, number,
    ({ s.pfd u with used := .used, fdNum := number } : Fd).asSock i cloexec nonblock, unused, fresh,
    run.1.symm.trans (asInt_small small), ⟨rfl, rfl, rfl, rfl, rfl⟩, ?_⟩
  · rw [← run.2]
    simp [claimSlot]

variable {o next : OpenFiles}

section
variable (sharing : Sharing o)
include sharing

theorem Sharing.object_none {number : Nat}
    (free : ∀ j, (o.state.pfd j).inUse → (o.state.pfd j).fdNum ≠ number) :
    o.object number = none := by
  by_contra some
  obtain ⟨i, inUse, same⟩ := sharing.objects.live number (isSome_iff_ne_none.mpr some)
  exact free i inUse same

theorem Sharing.discard {f : Files} {u : Slot} {number : Nat}
    (pfd : f.pfd = claimSlot o.state.pfd u number) (unused : (o.state.pfd u).used = .unused)
    (free : ∀ j, (o.state.pfd j).inUse → (o.state.pfd j).fdNum ≠ number) :
    FileLinks (fat32Close f number).2.pfd ∧
      Objects (fat32Close f number).2.pfd o.object o.fresh := by
  have shape : Good.SameShape { o.state.pfd u with used := .used, fdNum := number }
      { o.state.pfd u with used := .used, fdNum := number } := ⟨rfl, rfl, rfl, rfl, rfl⟩
  have links : FileLinks f.pfd := pfd ▸ sharing.links.fill unused free shape
  have objects : Objects f.pfd (update o.object number (some o.fresh)) (o.fresh + 1) :=
    pfd ▸ sharing.objects.add unused free shape
  have taken : (f.pfd u).inUse ∧ (f.pfd u).fdNum = number := by simp [pfd, claimSlot, Fd.inUse]
  have own : getFdIndexWithoutRedirect f.pfd number = some u :=
    own_eq_of_unique taken fun j inUse same =>
      links.good.number_unique j u inUse taken.1 (same.trans taken.2.symm)
  have none_ : ∀ i, ¬ Alias f.pfd u i := by
    rintro i ⟨_, redirected, index⟩
    by_cases same : i = u
    · simp [same, pfd, claimSlot, sharing.links.good.unused_plain u unused] at redirected
    · rw [pfd, claimSlot, update_of_ne same] at redirected index
      exact sharing.links.not_target unused redirected index
  have closed := objects.close links own fun i _ aliased => absurd aliased (none_ i)
  have back : update (update o.object number (some o.fresh)) number none = o.object := by
    rw [update_idem, ← sharing.object_none free, update_eq_self]
  rw [back] at closed
  exact ⟨links.close own, closed.held, closed.live, sharing.objects.below, closed.same⟩

theorem Sharing.openat {env : OpenEnv} {path : String}
    {flags : Nat} (run : aliasStep o (.openat env fd path flags) = some next) : Sharing next := by
  obtain ⟨⟨r, f⟩, call, rfl⟩ := map_eq_some_iff.mp run
  rcases openat_effect sharing.links.good call with
    ⟨failed, rfl⟩ | ⟨u, number, unused, free, ⟨fd', rfl, shape, rfl⟩ | ⟨failed, rfl⟩⟩
  · dsimp only
    rw [OpenFiles.opened_failed failed]
    exact sharing
  · dsimp only
    rw [OpenFiles.opened_number]
    exact ⟨sharing.links.fill unused free shape, sharing.objects.add unused free shape⟩
  · dsimp only
    rw [OpenFiles.opened_failed failed]
    obtain ⟨links, objects⟩ := sharing.discard
      (f := { o.state.files with pfd := claimSlot o.state.pfd u number }) rfl unused free
    exact ⟨links, objects⟩

theorem Sharing.socket {cloexec nonblock : Bool}
    (run : aliasStep o (.socket cloexec nonblock) = some next) : Sharing next := by
  obtain ⟨⟨r, f⟩, call, rfl⟩ := map_eq_some_iff.mp run
  rcases doSocket_effect sharing.links.good call with
    ⟨failed, same⟩ | ⟨u, number, fd, unused, free, rfl, shape, same⟩
  · dsimp only
    rw [OpenFiles.opened_failed failed]
    have kept : (o.state.setFiles f).pfd = o.state.pfd := same
    exact ⟨by rw [kept]; exact sharing.links, by rw [kept]; exact sharing.objects⟩
  · dsimp only
    rw [OpenFiles.opened_number]
    have taken : (o.state.setFiles f).pfd = update o.state.pfd u fd := same
    exact ⟨by rw [taken]; exact sharing.links.fill unused free shape,
      by rw [taken]; exact sharing.objects.add unused free shape⟩

theorem Sharing.pipe2 (single : AliasAct.pipe2.Single o)
    (run : aliasStep o .pipe2 = some next) : Sharing next := by
  obtain ⟨⟨r, fds, f⟩, call, rfl⟩ := map_eq_some_iff.mp run
  rcases pipe2_effect (s := o.state.files) sharing.links.good single call with
    ⟨failed, rfl⟩ |
    ⟨n, u, v, fd0, fd1, rfl, rfl, _, unusedU, freeU, apart, unusedV, differ, freeV, rfl⟩
  · dsimp only
    rw [if_neg (by omega)]
    exact ⟨by rw [initPipe_pfd]; exact sharing.links, by rw [initPipe_pfd]; exact sharing.objects⟩
  · dsimp only
    rw [if_pos rfl]
    have shape : ∀ (fd : Fd) (number : Nat) (isRead : Bool),
        Good.SameShape (fd.newEnd number n isRead) { fd with used := .used, fdNum := number } :=
      fun _ _ _ => ⟨rfl, rfl, rfl, rfl, rfl⟩
    have links := sharing.links.fill unusedU freeU (shape _ _ true)
    have objects := sharing.objects.add unusedU freeU (shape _ _ true)
    have keptV : update o.state.pfd u ((o.state.pfd u).newEnd fd0 n true) v =
        o.state.pfd v := update_of_ne apart _ _
    have freeSecond : ∀ j, (update o.state.pfd u ((o.state.pfd u).newEnd fd0 n true) j).inUse →
        (update o.state.pfd u ((o.state.pfd u).newEnd fd0 n true) j).fdNum ≠ fd1 := by
      intro j inUse
      by_cases same : j = u
      · rw [same, update_self]
        exact Ne.symm differ
      · rw [update_of_ne same] at inUse ⊢
        exact freeV j inUse
    have unusedSecond : (update o.state.pfd u
        ((o.state.pfd u).newEnd fd0 n true) v).used = .unused := by
      rw [keptV]
      exact unusedV
    have linksBoth := links.fill unusedSecond freeSecond (shape _ _ false)
    have objectsBoth := objects.add unusedSecond freeSecond (shape _ _ false)
    rw [keptV] at linksBoth objectsBoth
    exact ⟨by rw [initPipe_pfd]; exact linksBoth, by rw [initPipe_pfd]; exact objectsBoth⟩

theorem Sharing.dup {src : Nat} (single : (AliasAct.dup src).Single o)
    (run : aliasStep o (.dup src) = some next) : Sharing next := by
  obtain ⟨⟨r, f⟩, call, rfl⟩ := map_eq_some_iff.mp run
  rcases dup_effect sharing.links.good call with
    ⟨failed, rfl⟩ | ⟨i, u, number, found, inUse, unused, free, rfl, rfl⟩
  · dsimp only
    rw [OpenFiles.shared_failed src failed]
    exact sharing
  · dsimp only
    rw [OpenFiles.shared_number]
    have dev : (o.state.files.pfd i).dev = .default := single i found
    obtain ⟨k, inUseK, rfl, rfl, _⟩ := sharing.links.found found
    rw [dev]
    obtain ⟨links, objects⟩ :=
      sharing_alias sharing.links sharing.objects unused free inUseK inUse dev
    exact ⟨links, objects⟩

theorem Sharing.close (single : (AliasAct.close fd).Single o)
    (run : aliasStep o (.close fd) = some next) : Sharing next := by
  simp only [aliasStep, some.injEq] at run
  rw [← run]
  cases own : getFdIndexWithoutRedirect o.state.files.pfd fd with
  | none =>
    have failed : fat32Close o.state.files fd = (-ebadf, o.state.files) := by rw [fat32Close, own]
    rw [failed, if_neg (show (-ebadf : Int) ≠ 0 by decide)]
    exact sharing
  | some k =>
    have closed : (fat32Close o.state.files fd).1 = 0 := by
      rw [fat32Close, own]
      dsimp only
      split <;> rfl
    rw [if_pos closed]
    have links : FileLinks o.state.files.pfd := sharing.links
    have objects : Objects o.state.files.pfd o.object o.fresh := sharing.objects
    exact ⟨links.close own, objects.close links own (single k own)⟩

end

theorem FileLinks.close_keeps_root {s : Files} (links : FileLinks s.pfd) {k : Slot}
    (own : getFdIndexWithoutRedirect s.pfd fd = some k) (other : i ≠ k) (leads : root s.pfd i ≠ k) :
    root (fat32Close s fd).2.pfd i = root s.pfd i ∧
      (fat32Close s fd).2.pfd (root s.pfd i) = s.pfd (root s.pfd i) := by
  have notAlias : ∀ j, root s.pfd j ≠ k → ¬ Alias s.pfd k j := by
    rintro j away ⟨_, redirected, index⟩
    rw [root, if_pos redirected] at away
    exact away index
  have rootPlain : ¬ Alias s.pfd k (root s.pfd i) := by
    rintro ⟨_, redirected, _⟩
    rw [links.root_plain i] at redirected
    cases redirected
  rw [links.close_root own other, if_neg (notAlias i leads), links.good.close_pfd own,
    if_neg leads, if_neg rootPlain]
  exact ⟨rfl, rfl⟩

theorem Sharing.dup3 (sharing : Sharing o) {src dst : Nat}
    (single : (AliasAct.dup3 src dst).Single o)
    (run : aliasStep o (.dup3 src dst) = some next) : Sharing next := by
  obtain ⟨small, room, source, one⟩ := single
  have ok : RedirectOk o.state.files (.dup3 src dst) := by
    intro _ i found
    refine ⟨(source i found).2, fun missing full => ?_⟩
    exact absurd room (by simp only [FdState.files] at missing full; simp [missing, full])
  obtain ⟨⟨r, f⟩, call, rfl⟩ := map_eq_some_iff.mp run
  have linksNow : FileLinks o.state.files.pfd := sharing.links
  have objectsNow : Objects o.state.files.pfd o.object o.fresh := sharing.objects
  rcases dup3_effect linksNow.good ok room call with
    ⟨failed, rfl⟩ |
    ⟨i, closed, u, dev, differ, rfl, found, from_, _, inUse, unused, free, devFrom, rfl⟩
  · dsimp only
    rw [OpenFiles.shared_failed src failed]
    exact sharing
  dsimp only
  rw [asInt_small small, OpenFiles.shared_number]
  have devI : (o.state.files.pfd i).dev = .default := (source i found).1
  obtain ⟨k, inUseK, rfl, rfl, _⟩ := linksNow.found found
  -- the source's slot and its way are untouched whether or not the target was closed
  have after : ∃ object, FileLinks closed.pfd ∧ Objects closed.pfd object o.fresh ∧
      (closed.pfd k).inUse ∧ (closed.pfd k).fdNum = (o.state.files.pfd k).fdNum ∧
      root closed.pfd k = root o.state.files.pfd k ∧
      (closed.pfd (root o.state.files.pfd k)).dev = .default ∧
      update object dst (object (o.state.files.pfd k).fdNum) =
        update o.object dst (o.object (o.state.files.pfd k).fdNum) := by
    rcases from_ with rfl | rfl
    · exact ⟨o.object, linksNow, objectsNow, inUseK, rfl, rfl, devI, rfl⟩
    cases own : getFdIndexWithoutRedirect o.state.files.pfd dst with
    | none =>
      have same : (fat32Close o.state.files dst).2 = o.state.files := by simp [fat32Close, own]
      rw [same]
      exact ⟨o.object, linksNow, objectsNow, inUseK, rfl, rfl, devI, rfl⟩
    | some m =>
      have other : k ≠ m := by
        rintro rfl
        exact differ (own_some own).2
      have leads := ((linksNow.good.close_used own _).mp inUse).1
      obtain ⟨roots, slot⟩ := linksNow.close_keeps_root own other leads
      refine ⟨update o.object dst none, linksNow.close own,
        objectsNow.close linksNow own (one m own),
        (linksNow.good.close_used own k).mpr ⟨other, inUseK⟩, linksNow.good.close_fdNum own k,
        roots, slot ▸ devI, ?_⟩
      rw [update_idem, update_of_ne differ]
  obtain ⟨object, links, objects, inUseK', number, roots, devRoot, same⟩ := after
  have devDefault : dev = .default := by
    rcases devFrom with rfl | rfl
    · exact devRoot
    · exact links.unused_default u unused
  rw [← same, ← number, devDefault, ← roots]
  rw [← roots] at devRoot inUse
  obtain ⟨linksAfter, objectsAfter⟩ :=
    sharing_alias links objects unused free inUseK' inUse devRoot
  exact ⟨linksAfter, objectsAfter⟩

theorem Sharing.step (sharing : Sharing o) (act : AliasAct) (single : act.Single o)
    (run : aliasStep o act = some next) : Sharing next := by
  cases act with
  | openat env fd path flags => exact sharing.openat run
  | pipe2 => exact sharing.pipe2 single run
  | socket cloexec nonblock => exact sharing.socket run
  | dup src => exact sharing.dup single run
  | dup3 src dst => exact sharing.dup3 single run
  | close fd => exact sharing.close single run
  | io p fd call =>
    obtain ⟨_, through, rfl⟩ := map_eq_some_iff.mp run
    have kept := fun i => (through_moved through i).kept
    exact ⟨sharing.links.of_kept kept, sharing.objects.of_kept kept⟩

def bootOpen (t : Table) (sockUsed : Nat → Bool) (world : FileWorld) : OpenFiles where
  state := ⟨initFd t, sockUsed, world⟩
  object fd := if fd < 3 then some fd else none
  fresh := 3

theorem initFd_inUse : (initFd t i).inUse ↔ i.val < 3 := by
  unfold initFd Fd.inUse
  split_ifs <;> simp <;> omega

theorem initFd_fdNum (t : Table) (i : Slot) : (initFd t i).fdNum = i.val := by
  unfold initFd
  split_ifs <;> simp_all

theorem initFd_default (unused : (initFd t i).used = .unused) : (initFd t i).dev = .default := by
  unfold initFd at unused ⊢
  split_ifs at unused ⊢
  rfl

theorem sharing_boot (released : Released t) (sockUsed : Nat → Bool)
    (world : FileWorld) : Sharing (bootOpen t sockUsed world) := by
  have plain : ∀ i, (initFd t i).redirected = false := by
    intro i
    unfold initFd
    split_ifs <;> exact (released i).1
  refine ⟨⟨good_initFd released, ?_, ?_⟩, ?_, ?_, ?_, ?_⟩
  · exact fun i unused => initFd_default unused
  · intro i redirected
    exact absurd redirected (by simp [bootOpen, plain i])
  · intro i inUse
    simp [bootOpen, initFd_fdNum, initFd_inUse.mp inUse]
  · intro fd some
    have small : fd < 3 := by
      by_contra large
      simp [bootOpen, large] at some
    exact ⟨⟨fd, by unfold maxFdNum; omega⟩, initFd_inUse.mpr small, initFd_fdNum t _⟩
  · intro fd x value
    simp only [bootOpen] at value ⊢
    split at value
    · cases value
      assumption
    · cases value
  · intro i j inUseI inUseJ equal
    simp only [bootOpen, initFd_fdNum, initFd_inUse.mp inUseI, initFd_inUse.mp inUseJ, if_true,
      some.injEq] at equal
    rw [Fin.ext equal]

def bootWorld : FileWorld where
  fat := oneFile.fat
  disk _ := 0
  pipes := { onePipe with ends := fun _ => ⟨0, 0, false⟩ }
  stdinBuf := initRingBuffer fun _ => 0
  stdoutBuf := initRingBuffer fun _ => 0
  stderrBuf := initRingBuffer fun _ => 0
  screen := []
  kernelFile _ _ := 0

def freshOpen : OpenFiles := bootOpen (fun _ => blankFd) (fun _ => false) bootWorld

end CCore.Fs
