import CCore.Fs.Descriptor
import CCore.Fs.RingBuffer
import CCore.Lib.Run

/-!
# Readers and writers of a pipe (`kernel/fat32/pipe.c`)

`pipe_read` sleeps on `r_list` while the buffer is empty and somebody may still
write, `pipe_write` on `w_list` while nothing could be written and somebody may
still read.  A process is switched away from only inside `do_block`, so a call
runs from its start, or from its wake-up, to its next sleep or its return in one
step.  A transfer wakes everybody on the other list; a close wakes nobody.
-/
namespace CCore.Fs

open Run Function List Option RingBuffer

/-- Where a process is: outside the two calls, or in the loop of one of them. -/
inductive PipePlace where
  | outside
  | reading (n count : Nat)
  | writing (n : Nat) (data : List UInt8)
  deriving DecidableEq

/-- The array `pipe` and the processes that use it. -/
structure PipeSys where
  ends : Nat → Pipe
  rbuf : Nat → RingBuffer
  rList : Nat → List Nat
  wList : Nat → List Nat
  place : Nat → PipePlace

/-- What a call gave its process: a result, or a place on a wait list. -/
inductive PipeResult where
  | returned (value : Int) (bytes : List UInt8)
  | blocked
  deriving DecidableEq

namespace PipeSys

/-- `do_block(&current_running->list, &pipe[n].r_list)`. -/
def blockReader (s : PipeSys) (p n count : Nat) : PipeSys :=
  { s with
    rList := update s.rList n (p :: s.rList n)
    place := update s.place p (.reading n count) }

def blockWriter (s : PipeSys) (p n : Nat) (data : List UInt8) : PipeSys :=
  { s with
    wList := update s.wList n (p :: s.wList n)
    place := update s.place p (.writing n data) }

def leave (s : PipeSys) (p : Nat) : PipeSys :=
  { s with place := update s.place p .outside }

/-- The loop of `pipe_read`, from one attempt to the next sleep or the return. -/
def tryRead (s : PipeSys) (p n count : Nat) : PipeResult × PipeSys :=
  let (bytes, rbuf) := (s.rbuf n).read count
  if bytes = [] then
    if (s.ends n).wValid = 0 then (.returned 0 [], s.leave p)
    else (.blocked, s.blockReader p n count)
  else
    (.returned bytes.length bytes,
      { s with rbuf := update s.rbuf n rbuf, wList := update s.wList n [] }.leave p)

def tryWrite (s : PipeSys) (p n : Nat) (data : List UInt8) : PipeResult × PipeSys :=
  let (size, rbuf) := (s.rbuf n).write data
  if size = 0 then
    if (s.ends n).rValid = 0 then (.returned 0 [], s.leave p)
    else (.blocked, s.blockWriter p n data)
  else
    (.returned size [],
      { s with rbuf := update s.rbuf n rbuf, rList := update s.rList n [] }.leave p)

def pipeRead (s : PipeSys) (p n count : Nat) : PipeResult × PipeSys :=
  if count = 0 then (.returned 0 [], s)
  else if (s.ends n).rValid = 0 then (.returned (-einval) [], s)
  else s.tryRead p n count

def pipeWrite (s : PipeSys) (p n : Nat) (data : List UInt8) : PipeResult × PipeSys :=
  if (s.ends n).wValid = 0 then (.returned (-einval) [], s)
  else s.tryWrite p n data

end PipeSys

inductive PipeAct where
  | read (p n count : Nat)
  | write (p n : Nat) (data : List UInt8)
  | closeRead (n : Nat)
  | closeWrite (n : Nat)
  | resume (p : Nat)

/-- A process that was taken off its wait list and has not run since. -/
def Woken (s : PipeSys) (p : Nat) : Prop :=
  match s.place p with
  | .outside => False
  | .reading n _ => p ∉ s.rList n
  | .writing n _ => p ∉ s.wList n

instance (s : PipeSys) (p : Nat) : Decidable (Woken s p) := by
  unfold Woken
  split <;> infer_instance

/-- Only a process outside the calls makes one, and only a woken process goes
on. -/
def pipeStep (s : PipeSys) : PipeAct → Option PipeSys
  | .read p n count => if s.place p = .outside then some (s.pipeRead p n count).2 else none
  | .write p n data => if s.place p = .outside then some (s.pipeWrite p n data).2 else none
  | .closeRead n => some { s with ends := closePipeRead s.ends n }
  | .closeWrite n => some { s with ends := closePipeWrite s.ends n }
  | .resume p =>
    if Woken s p then
      match s.place p with
      | .outside => none
      | .reading n count => some (s.tryRead p n count).2
      | .writing n data => some (s.tryWrite p n data).2
    else none

/-- A waiter waits for something that can still happen, or a woken process has
yet to run. -/
def NotStranded (s : PipeSys) (n : Nat) : Prop :=
  (s.rList n ≠ [] → (s.rbuf n).used = 0 ∧ 0 < (s.ends n).wValid ∨ ∃ p, Woken s p) ∧
    (s.wList n ≠ [] → (s.rbuf n).free = 0 ∧ 0 < (s.ends n).rValid ∨ ∃ p, Woken s p)

/-- The last writer does not close while a reader waits, nor the last reader
while a writer waits, and nobody who could be made to wait writes zero bytes. -/
def PipeAct.Careful (s : PipeSys) : PipeAct → Prop
  | .write _ n data => data ≠ [] ∨ (s.ends n).wValid = 0 ∨ (s.ends n).rValid = 0
  | .closeRead n => (s.ends n).rValid = 1 → s.wList n = []
  | .closeWrite n => (s.ends n).wValid = 1 → s.rList n = []
  | .read .. | .resume _ => True

instance (s : PipeSys) : (act : PipeAct) → Decidable (act.Careful s)
  | .write _ _ _ => inferInstanceAs (Decidable (_ ∨ _ ∨ _))
  | .closeRead _ => inferInstanceAs (Decidable (_ → _))
  | .closeWrite _ => inferInstanceAs (Decidable (_ → _))
  | .read .. | .resume _ => isTrue trivial

/-- The pipes as `alloc_one_pipe` leaves them, with any number of ends open and
nobody in a call. -/
structure Opened (s : PipeSys) : Prop where
  empty : ∀ n, ∃ buf, s.rbuf n = initRingBuffer buf
  noReader : ∀ n, s.rList n = []
  noWriter : ∀ n, s.wList n = []
  outside : ∀ p, s.place p = .outside

/-! ## The invariant -/

/-- Readers wait at an empty buffer with a writer left, writers at a full one
with a reader left, and every waiting call asks for at least one byte. -/
structure Waiting (s : PipeSys) : Prop where
  wellFormed : ∀ n, (s.rbuf n).WellFormed
  readers : ∀ n, s.rList n ≠ [] → (s.rbuf n).used = 0 ∧ 0 < (s.ends n).wValid
  writers : ∀ n, s.wList n ≠ [] → (s.rbuf n).free = 0 ∧ 0 < (s.ends n).rValid
  asksRead : ∀ p n count, s.place p = .reading n count → count ≠ 0
  asksWrite : ∀ p n data, s.place p = .writing n data → data ≠ []

theorem Waiting.notStranded {s : PipeSys} (waiting : Waiting s) (n : Nat) : NotStranded s n :=
  ⟨fun some => .inl (waiting.readers n some), fun some => .inl (waiting.writers n some)⟩

theorem Opened.waiting {s : PipeSys} (opened : Opened s) : Waiting s where
  wellFormed n := by
    obtain ⟨buf, same⟩ := opened.empty n
    rw [same]
    exact wellFormed_init buf
  readers n some := absurd (opened.noReader n) some
  writers n some := absurd (opened.noWriter n) some
  asksRead p n count at_ := by simp [opened.outside p] at at_
  asksWrite p n data at_ := by simp [opened.outside p] at at_

variable {s : PipeSys} {p n count : Nat} {data : List UInt8}

section
variable (waiting : Waiting s)
include waiting

theorem Waiting.goTo (p : Nat) {place : PipePlace}
    (read : ∀ m c, place = .reading m c → c ≠ 0) (write : ∀ m d, place = .writing m d → d ≠ []) :
    Waiting { s with place := update s.place p place } :=
  { waiting with
    asksRead := by
      intro q m c at_
      by_cases same : q = p
      · exact read m c (by simpa [same] using at_)
      · exact waiting.asksRead q m c (by simpa [same] using at_)
    asksWrite := by
      intro q m d at_
      by_cases same : q = p
      · exact write m d (by simpa [same] using at_)
      · exact waiting.asksWrite q m d (by simpa [same] using at_) }

theorem Waiting.leave (p : Nat) : Waiting (s.leave p) := waiting.goTo p nofun nofun

theorem Waiting.blockReader (asked : count ≠ 0)
    (empty : (s.rbuf n).used = 0) (open_ : (s.ends n).wValid ≠ 0) :
    Waiting (s.blockReader p n count) := by
  have gone : Waiting { s with place := update s.place p (.reading n count) } :=
    waiting.goTo p (fun m c is => (PipePlace.reading.inj is).2 ▸ asked) nofun
  refine { gone with readers := ?_ }
  intro m some
  rcases eq_or_ne m n with rfl | same
  · exact ⟨empty, Nat.pos_of_ne_zero open_⟩
  · exact waiting.readers m (by simpa [PipeSys.blockReader, same] using some)

theorem Waiting.blockWriter (asked : data ≠ [])
    (full : (s.rbuf n).free = 0) (open_ : (s.ends n).rValid ≠ 0) :
    Waiting (s.blockWriter p n data) := by
  have gone : Waiting { s with place := update s.place p (.writing n data) } :=
    waiting.goTo p nofun (fun m d is => (PipePlace.writing.inj is).2 ▸ asked)
  refine { gone with writers := ?_ }
  intro m some
  rcases eq_or_ne m n with rfl | same
  · exact ⟨full, Nat.pos_of_ne_zero open_⟩
  · exact waiting.writers m (by simpa [PipeSys.blockWriter, same] using some)

theorem Waiting.drained {rbuf : RingBuffer} (wf : rbuf.WellFormed) (filled : (s.rbuf n).used ≠ 0) :
    Waiting { s with
      rbuf := update s.rbuf n rbuf, wList := update s.wList n [] } where
  wellFormed m := by
    by_cases same : m = n
    · simpa [same] using wf
    · simpa [same] using waiting.wellFormed m
  readers m some := by
    rcases eq_or_ne m n with rfl | same
    · exact absurd (waiting.readers m some).1 filled
    · simpa [same] using waiting.readers m some
  writers m some := by
    by_cases same : m = n
    · simp [same] at some
    · simpa [same] using waiting.writers m (by simpa [same] using some)
  asksRead := waiting.asksRead
  asksWrite := waiting.asksWrite

theorem Waiting.stored {rbuf : RingBuffer} (wf : rbuf.WellFormed) (room : (s.rbuf n).free ≠ 0) :
    Waiting { s with
      rbuf := update s.rbuf n rbuf, rList := update s.rList n [] } where
  wellFormed m := by
    by_cases same : m = n
    · simpa [same] using wf
    · simpa [same] using waiting.wellFormed m
  readers m some := by
    by_cases same : m = n
    · simp [same] at some
    · simpa [same] using waiting.readers m (by simpa [same] using some)
  writers m some := by
    rcases eq_or_ne m n with rfl | same
    · exact absurd (waiting.writers m some).1 room
    · simpa [same] using waiting.writers m some
  asksRead := waiting.asksRead
  asksWrite := waiting.asksWrite

theorem Waiting.tryRead (asked : count ≠ 0) : Waiting (s.tryRead p n count).2 := by
  have wf := waiting.wellFormed n
  have length := length_read wf count
  unfold PipeSys.tryRead
  simp only
  split
  case isTrue none =>
    have empty : (s.rbuf n).used = 0 := by
      rw [none, length_nil] at length
      omega
    split
    case isTrue => exact waiting.leave p
    case isFalse open_ => exact waiting.blockReader asked empty open_
  case isFalse some =>
    have filled : (s.rbuf n).used ≠ 0 := by
      intro empty
      rw [empty, Nat.zero_min, length_eq_zero_iff] at length
      exact some length
    exact (waiting.drained (wf.read count) filled).leave p

theorem Waiting.tryWrite (asked : data ≠ [] ∨ (s.ends n).rValid = 0) :
    Waiting (s.tryWrite p n data).2 := by
  have wf := waiting.wellFormed n
  have taken := write_fst (s.rbuf n) data
  unfold PipeSys.tryWrite
  simp only
  split
  case isTrue none =>
    split
    case isTrue => exact waiting.leave p
    case isFalse open_ =>
      have some : data ≠ [] := asked.resolve_right open_
      have length := length_pos_of_ne_nil some
      exact waiting.blockWriter some (by omega) open_
  case isFalse some => exact (waiting.stored (wf.write data) (by omega)).leave p

theorem Waiting.closeRead (careful : (s.ends n).rValid = 1 → s.wList n = []) :
    Waiting { s with ends := closePipeRead s.ends n } where
  wellFormed := waiting.wellFormed
  readers m some := by simpa only [closePipeRead_wValid] using waiting.readers m some
  writers m some := by
    obtain ⟨full, reader⟩ := waiting.writers m some
    refine ⟨full, ?_⟩
    simp only [closePipeRead_rValid]
    split
    case isTrue same =>
      have several : (s.ends m).rValid ≠ 1 := fun one => some (same ▸ careful (same ▸ one))
      omega
    case isFalse => exact reader
  asksRead := waiting.asksRead
  asksWrite := waiting.asksWrite

theorem Waiting.closeWrite (careful : (s.ends n).wValid = 1 → s.rList n = []) :
    Waiting { s with ends := closePipeWrite s.ends n } where
  wellFormed := waiting.wellFormed
  readers m some := by
    obtain ⟨empty, writer⟩ := waiting.readers m some
    refine ⟨empty, ?_⟩
    simp only [closePipeWrite_wValid]
    split
    case isTrue same =>
      have several : (s.ends m).wValid ≠ 1 := fun one => some (same ▸ careful (same ▸ one))
      omega
    case isFalse => exact writer
  writers m some := by simpa only [closePipeWrite_rValid] using waiting.writers m some
  asksRead := waiting.asksRead
  asksWrite := waiting.asksWrite

end

theorem pipeStep_keeps {s next : PipeSys} {act : PipeAct} (waiting : Waiting s)
    (careful : act.Careful s) (ran : pipeStep s act = some next) : Waiting next := by
  cases act with
  | read p n count =>
    rw [pipeStep, ite_none_right_eq_some, some.injEq] at ran
    rw [← ran.2, PipeSys.pipeRead]
    split
    case isTrue => exact waiting
    case isFalse asked =>
      split
      case isTrue => exact waiting
      case isFalse => exact waiting.tryRead asked
  | write p n data =>
    rw [pipeStep, ite_none_right_eq_some, some.injEq] at ran
    rw [← ran.2, PipeSys.pipeWrite]
    split
    case isTrue => exact waiting
    case isFalse open_ =>
      refine waiting.tryWrite ?_
      rcases careful with some | closed | closed
      · exact .inl some
      · exact absurd closed open_
      · exact .inr closed
  | closeRead n =>
    cases ran
    exact waiting.closeRead careful
  | closeWrite n =>
    cases ran
    exact waiting.closeWrite careful
  | resume p =>
    rw [pipeStep, ite_none_right_eq_some] at ran
    obtain ⟨_, ran⟩ := ran
    cases place : s.place p with
    | outside => simp [place] at ran
    | reading n count =>
      simp only [place, some.injEq] at ran
      exact ran ▸ waiting.tryRead (waiting.asksRead p n count place)
    | writing n data =>
      simp only [place, some.injEq] at ran
      exact ran ▸ waiting.tryWrite (.inl (waiting.asksWrite p n data place))

/-- In every run whose steps are all careful no pipe strands a waiter. -/
theorem notStranded_along (s : PipeSys) (acts : List PipeAct) (opened : Opened s)
    (careful : StepsMeet pipeStep (fun s act => act.Careful s) s acts) :
    HoldsAlong pipeStep (fun s => ∀ n, NotStranded s n) s acts :=
  holdsAlong_of_stepsMeet pipeStep _ Waiting _ (fun _ waiting => waiting.notStranded)
    (fun _ _ _ waiting careful ran => pipeStep_keeps waiting careful ran) s acts opened.waiting
    careful

/-- One pipe with one reader and one writer. -/
def onePipe : PipeSys where
  ends _ := ⟨1, 1, true⟩
  rbuf _ := initRingBuffer fun _ => 0
  rList _ := []
  wList _ := []
  place _ := .outside

theorem onePipe_opened : Opened onePipe :=
  ⟨fun _ => ⟨_, rfl⟩, fun _ => rfl, fun _ => rfl, fun _ => rfl⟩

theorem notStranded_along_small : HoldsAlong pipeStep (fun s => ∀ n, NotStranded s n) onePipe
    [.read 1 0 10, .write 2 0 [7, 8], .resume 1, .closeWrite 0, .closeRead 0] :=
  notStranded_along onePipe _ onePipe_opened (by decide +kernel)

/-- The last writer closes while a reader sleeps: nobody wakes the reader. -/
theorem close_strands_reader :
    StepsMeet pipeStep (fun s act => act.Careful s) onePipe [.read 1 0 10] ∧
      ¬ HoldsAlong pipeStep (fun s => ∀ n, NotStranded s n) onePipe
        [.read 1 0 10, .closeWrite 0] := by
  refine ⟨by decide +kernel, ?_⟩
  intro along
  have asleep : pipeStep onePipe (.read 1 0 10) = some (onePipe.blockReader 1 0 10) := rfl
  have stranded := (along.2 _ asleep).2 _ rfl 0
  rcases stranded.1 (by simp [PipeSys.blockReader]) with ⟨_, writer⟩ | ⟨p, woken⟩
  · revert writer
    decide +kernel
  · by_cases reader : p = 1
    · simp [Woken, PipeSys.blockReader, reader] at woken
    · simp [Woken, PipeSys.blockReader, reader, onePipe] at woken

end CCore.Fs
