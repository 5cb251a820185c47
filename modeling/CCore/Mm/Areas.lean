import CCore.Mm.Break

/-!
# Mapped areas (`fat32_mmap`, `fat32_munmap`)

An area is placed at the break, rounded up to a page, and the break is moved behind
it with `lazy_brk`, whose result is not looked at.  The only record of a file mapping
is the `mmap` field of its descriptor; an anonymous one has no record.  The pages of
an area, their contents and what `fat32_munmap` writes back to the file are not part
of the state here.
-/
namespace CCore.Areas

open Run List

/-- The `mmap` field of a descriptor; `used` is the one of the descriptor, 2 for a
closed one whose mapping is still there. -/
structure Fd where
  used : Nat
  mmapUsed : Bool
  start : Nat
  len : Nat
  off : Nat
  deriving DecidableEq

/-- A mapping that was returned, as it was asked for. -/
structure Mapping where
  start : Nat
  len : Nat
  file : Bool
  off : Nat
  deriving DecidableEq

/-- `pfd` is the descriptor table up to `MAX_FILE_NUM`; `live` is not part of the
code's state. -/
structure State where
  edata : Nat
  userStackBase : Nat
  pfd : List Fd
  live : List Mapping
  deriving DecidableEq

def u64 (n : Nat) : Nat := n % 2 ^ 64

/-- `ROUND(a, PAGE_SIZE)`. -/
def round (a : Nat) : Nat := u64 (a + 4095) / 4096 * 4096

/-- The value and the break that `lazy_brk` leaves. -/
def lazyBrk (s : State) (ptr : Nat) : Nat × State :=
  if s.userStackBase < ptr then (2 ^ 64 - 12, s)
  else if ptr = 0 then (s.edata, s)
  else (ptr, { s with edata := ptr })

/-- Where `fat32_mmap` puts an area when `start` is null. -/
def place (s : State) (len : Nat) : Nat × State :=
  let (edata, s) := lazyBrk s 0
  let (start, s) := lazyBrk s (round edata)
  let (_, s) := lazyBrk s (u64 (start + round len))
  (start, s)

/-- The new area is live unless the value returned is negative. -/
def record (s : State) (mapping : Mapping) : State :=
  if mapping.start < 2 ^ 63 then { s with live := mapping :: s.live } else s

def roundOff (off : Nat) : Nat :=
  if off % 4096 ≠ 0 then off - off % 4096 + 4096 else off

def mmapAnonymous (s : State) (len : Nat) : State :=
  if len = 0 then s
  else
    let (start, s) := place s len
    record s ⟨start, len, false, 0⟩

/-- `index` is what `get_fd_index` gives. -/
def mmapFile (s : State) (index len off : Nat) : State :=
  if len = 0 then s
  else
    match s.pfd[index]? with
    | none => s
    | some fd =>
      let (start, s) := place s len
      let fd :=
        { fd with mmapUsed := true, start := start, len := len, off := roundOff off }
      record { s with pfd := s.pfd.set index fd } ⟨start, len, true, off⟩

/-- What is left of a descriptor and of a mapping after `munmap(start, len)`. -/
def Fd.unmap (fd : Fd) (len : Nat) : Fd :=
  let fd :=
    if fd.len = len then { fd with mmapUsed := false }
    else if len < fd.len then
      { fd with start := u64 (fd.start + len), len := fd.len - len, off := fd.off + len }
    else fd
  if fd.used = 2 ∧ fd.mmapUsed = false then { fd with used := 0 } else fd

def Mapping.unmap (mapping : Mapping) (start len : Nat) : Option Mapping :=
  if mapping.file ∧ mapping.start = start then
    if mapping.len = len then none
    else if len < mapping.len then
      some { mapping with start := start + len, len := mapping.len - len, off := mapping.off + len }
    else some mapping
  else some mapping

def Fd.maps (start : Nat) (fd : Fd) : Bool :=
  fd.used ≠ 0 && fd.mmapUsed && fd.start == start

def munmap (s : State) (start len : Nat) : State :=
  match s.pfd.findIdx? (Fd.maps start) with
  | none => s
  | some index =>
    { s with
      pfd := s.pfd.modify index (·.unmap len)
      edata := if s.edata = u64 (start + round len) then start else s.edata
      live := s.live.filterMap (·.unmap start len) }

/-- The break after `do_brk`. -/
def brk (s : State) (ptr : Nat) : State := (lazyBrk s ptr).2

inductive Act
  | anonymous (len : Nat)
  | file (index len off : Nat)
  | munmap (start len : Nat)
  | brk (ptr : Nat)
  deriving DecidableEq

def step (s : State) : Act → Option State
  | .anonymous len => some (mmapAnonymous s len)
  | .file index len off => some (mmapFile s index len off)
  | .munmap start len => some (munmap s start len)
  | .brk ptr => some (brk s ptr)

theorem lazyBrk_returns (s : State) (p ptr : Nat) {m m' : Mm.Mem} {value : Int} {edata : Nat}
    (run : Mm.lazyBrk p ⟨s.edata, s.userStackBase⟩ m ptr = .returned value m' edata) :
    (lazyBrk s ptr).2.edata = edata ∧
      (lazyBrk s ptr).1 = if value < 0 then 2 ^ 64 - value.natAbs else value.toNat := by
  unfold Mm.lazyBrk Mm.brkBy at run
  unfold lazyBrk
  split_ifs at run with above zero <;> cases run
  · rw [if_pos above]
    exact ⟨rfl, rfl⟩
  · rw [if_neg above, if_pos zero, if_neg (by omega)]
    exact ⟨rfl, rfl⟩
  all_goals
    rw [if_neg above, if_neg zero, if_neg (by omega)]
    exact ⟨rfl, rfl⟩

/-! ## The property -/

def roundUp (a : Nat) : Nat := (a + 4095) / 4096 * 4096

def Mapping.stop (mapping : Mapping) : Nat := mapping.start + roundUp mapping.len

def Apart (a b : Mapping) : Prop := a.stop ≤ b.start ∨ b.stop ≤ a.start

def Records (fd : Fd) (mapping : Mapping) : Prop :=
  fd.used ≠ 0 ∧ fd.mmapUsed = true ∧ fd.start = mapping.start ∧ fd.len = mapping.len ∧
    fd.off = mapping.off

instance (a b : Mapping) : Decidable (Apart a b) := inferInstanceAs (Decidable (_ ∨ _))

instance (fd : Fd) (mapping : Mapping) : Decidable (Records fd mapping) :=
  inferInstanceAs (Decidable (_ ∧ _))

structure Disjoint (s : State) : Prop where
  apart : s.live.Pairwise Apart
  below : ∀ mapping ∈ s.live, mapping.stop ≤ s.userStackBase
  recorded : ∀ mapping ∈ s.live, mapping.file = true → ∃ fd ∈ s.pfd, Records fd mapping

def Room (s : State) (len : Nat) : Prop :=
  roundUp s.edata + roundUp len ≤ s.userStackBase

/-- A file is mapped at a page boundary through a descriptor that has no mapping, a
mapping is unmapped as a whole, and the break only grows. -/
def Fits (s : State) : Act → Prop
  | .anonymous len => len ≠ 0 → Room s len
  | .file index len off => len ≠ 0 → ∀ fd ∈ s.pfd[index]?,
      Room s len ∧ fd.used ≠ 0 ∧ fd.mmapUsed = false ∧ off % 4096 = 0
  | .munmap start len => ∀ index ∈ s.pfd.findIdx? (Fd.maps start), ∀ fd ∈ s.pfd[index]?,
      fd.len = len
  | .brk ptr => ptr ≤ s.userStackBase → ptr ≠ 0 → s.edata ≤ ptr

instance (s : State) (len : Nat) : Decidable (Room s len) :=
  inferInstanceAs (Decidable (_ ≤ _))

instance (s : State) : (act : Act) → Decidable (Fits s act)
  | .anonymous _ => inferInstanceAs (Decidable (_ → _))
  | .file _ _ _ => inferInstanceAs (Decidable (_ → ∀ fd ∈ _, _))
  | .munmap _ _ => inferInstanceAs (Decidable (∀ index ∈ _, _))
  | .brk _ => inferInstanceAs (Decidable (_ → _))

/-- The descriptor counts as a record. -/
def Fd.Active (fd : Fd) : Prop := fd.used ≠ 0 ∧ fd.mmapUsed = true

/-- Every area lies below the break, and the descriptors with a mapping are the
records of the live file mappings. -/
structure Sound (s : State) : Prop where
  bound : s.userStackBase < 2 ^ 63
  apart : s.live.Pairwise Apart
  nonempty : ∀ mapping ∈ s.live, mapping.len ≠ 0
  below : ∀ mapping ∈ s.live, mapping.stop ≤ s.userStackBase
  under : ∀ mapping ∈ s.live, mapping.stop ≤ s.edata
  recorded : ∀ mapping ∈ s.live, mapping.file = true → ∃ fd ∈ s.pfd, Records fd mapping
  known : ∀ fd ∈ s.pfd, fd.Active → ∃ mapping ∈ s.live, mapping.file = true ∧ Records fd mapping
  distinct : ∀ (i j : Nat) (fd fd' : Fd), s.pfd[i]? = some fd → s.pfd[j]? = some fd' →
    fd.Active → fd'.Active → fd.start = fd'.start → i = j

theorem Sound.disjoint {s : State} (sound : Sound s) : Disjoint s :=
  ⟨sound.apart, sound.below, sound.recorded⟩

theorem Mapping.start_lt_stop {mapping : Mapping} (nonempty : mapping.len ≠ 0) :
    mapping.start < mapping.stop := by
  unfold Mapping.stop roundUp
  omega

instance : Std.Symm Apart := ⟨fun _ _ => Or.symm⟩

theorem Sound.eq_of_start {s : State} (sound : Sound s) {a b : Mapping} (memA : a ∈ s.live)
    (memB : b ∈ s.live) (same : a.start = b.start) : a = b := by
  by_contra other
  have apart := sound.apart.forall memA memB other
  have lowA := Mapping.start_lt_stop (sound.nonempty a memA)
  have lowB := Mapping.start_lt_stop (sound.nonempty b memB)
  unfold Apart at apart
  omega

/-! ## Placing an area -/

theorem round_eq {a : Nat} (small : roundUp a < 2 ^ 63) : round a = roundUp a := by
  unfold round roundUp u64 at *
  omega

theorem place_eq {s : State} {len : Nat} (bound : s.userStackBase < 2 ^ 63) (nonempty : len ≠ 0)
    (room : Room s len) : place s len =
    (roundUp s.edata, { s with edata := roundUp s.edata + roundUp len }) := by
  unfold Room at room
  have positive : 0 < roundUp len := by
    unfold roundUp
    omega
  have first : round s.edata = roundUp s.edata := round_eq (by omega)
  have size : round len = roundUp len := round_eq (by omega)
  have whole : u64 (roundUp s.edata + roundUp len) = roundUp s.edata + roundUp len :=
    Nat.mod_eq_of_lt (by omega)
  -- a break of zero is asked for and left as it is
  have start : lazyBrk s (roundUp s.edata) =
      (roundUp s.edata, { s with edata := roundUp s.edata }) := by
    rw [lazyBrk, if_neg (by omega)]
    by_cases zero : roundUp s.edata = 0
    · have none : s.edata = 0 := by
        unfold roundUp at zero
        omega
      rw [if_pos zero, zero, none]
      cases s
      simp_all
    · rw [if_neg zero]
  have query : lazyBrk s 0 = (s.edata, s) := by
    rw [lazyBrk, if_neg (by omega), if_pos rfl]
  rw [place, query]
  dsimp only
  rw [first, start]
  rw [size, whole]
  unfold lazyBrk
  dsimp only
  rw [if_neg (by omega), if_neg (by omega)]

theorem Sound.placed {s : State} (sound : Sound s) (len off : Nat) (file : Bool)
    (nonempty : len ≠ 0) (room : Room s len) :
    (⟨roundUp s.edata, len, file, off⟩ :: s.live).Pairwise Apart ∧
    (∀ mapping ∈ (⟨roundUp s.edata, len, file, off⟩ : Mapping) :: s.live, mapping.len ≠ 0) ∧
    (∀ mapping ∈ (⟨roundUp s.edata, len, file, off⟩ : Mapping) :: s.live,
      mapping.stop ≤ s.userStackBase) ∧
    (∀ mapping ∈ (⟨roundUp s.edata, len, file, off⟩ : Mapping) :: s.live,
      mapping.stop ≤ roundUp s.edata + roundUp len) := by
  have above : s.edata ≤ roundUp s.edata := by
    unfold roundUp
    omega
  refine ⟨pairwise_cons.mpr ⟨?_, sound.apart⟩, ?_, ?_, ?_⟩
  · intro mapping mem
    exact .inr ((sound.under mapping mem).trans above)
  · intro mapping mem
    rcases mem_cons.mp mem with rfl | mem
    · exact nonempty
    · exact sound.nonempty mapping mem
  · intro mapping mem
    rcases mem_cons.mp mem with rfl | mem
    · exact room
    · exact sound.below mapping mem
  · intro mapping mem
    rcases mem_cons.mp mem with rfl | mem
    · exact Nat.le_refl _
    · exact (sound.under mapping mem).trans (by omega)

section Steps
variable {s : State} (sound : Sound s)
include sound

theorem Sound.anonymous {len : Nat} (fits : Fits s (.anonymous len)) :
    Sound (mmapAnonymous s len) := by
  unfold mmapAnonymous
  by_cases empty : len = 0
  · rw [if_pos empty]
    exact sound
  have room : Room s len := fits empty
  have bound := sound.bound
  rw [if_neg empty, place_eq bound empty room]
  unfold Room at room
  unfold record
  dsimp only
  rw [if_pos (by omega)]
  obtain ⟨apart, nonempty, below, under⟩ := sound.placed len 0 false empty room
  refine ⟨bound, apart, nonempty, below, under, ?_, ?_, sound.distinct⟩
  · intro mapping mem file
    rcases mem_cons.mp mem with rfl | mem
    · cases file
    · exact sound.recorded mapping mem file
  · intro fd mem active
    obtain ⟨mapping, live, facts⟩ := sound.known fd mem active
    exact ⟨mapping, mem_cons_of_mem _ live, facts⟩

theorem Sound.brk {ptr : Nat} (fits : Fits s (.brk ptr)) : Sound (brk s ptr) := by
  unfold Areas.brk lazyBrk
  by_cases above : s.userStackBase < ptr
  · rw [if_pos above]
    exact sound
  rw [if_neg above]
  by_cases zero : ptr = 0
  · rw [if_pos zero]
    exact sound
  rw [if_neg zero]
  have grows : s.edata ≤ ptr := fits (by omega) zero
  exact { sound with under := fun mapping mem => (sound.under mapping mem).trans grows }

theorem Sound.file {index len off : Nat} (fits : Fits s (.file index len off)) :
    Sound (mmapFile s index len off) := by
  unfold mmapFile
  by_cases empty : len = 0
  · rw [if_pos empty]
    exact sound
  rw [if_neg empty]
  cases found : s.pfd[index]? with
  | none => exact sound
  | some fd =>
  obtain ⟨room, used, free, aligned⟩ := fits empty fd found
  have bound := sound.bound
  have offset : roundOff off = off := if_neg (by omega)
  have inRange := (List.getElem?_eq_some_iff.mp found).1
  rw [place_eq bound empty room, offset]
  unfold Room at room
  unfold record
  dsimp only
  rw [if_pos (by omega)]
  obtain ⟨apart, nonempty, below, under⟩ := sound.placed len off true empty room
  -- a descriptor of the new table is the changed one or an old one
  have table : ∀ (j : Nat) (fd' : Fd), (s.pfd.set index
        { fd with mmapUsed := true, start := roundUp s.edata, len := len, off := off })[j]? =
        some fd' →
      j = index ∧ fd' = { fd with mmapUsed := true, start := roundUp s.edata, len := len, off := off } ∨
        j ≠ index ∧ s.pfd[j]? = some fd' := by
    intro j fd' at'
    rw [List.getElem?_set] at at'
    by_cases same : index = j
    · rw [if_pos same, if_pos (same ▸ inRange)] at at'
      exact .inl ⟨same.symm, (Option.some.inj at').symm⟩
    · rw [if_neg same] at at'
      exact .inr ⟨Ne.symm same, at'⟩
  -- the old records start below the new area
  have lower : ∀ (j : Nat) (fd' : Fd), s.pfd[j]? = some fd' → fd'.Active →
      fd'.start ≠ roundUp s.edata := by
    intro j fd' at' active
    obtain ⟨mapping, live, _, record⟩ := sound.known fd' (mem_of_getElem? at') active
    have low := Mapping.start_lt_stop (sound.nonempty mapping live)
    have top := sound.under mapping live
    have start := record.2.2.1
    unfold roundUp
    omega
  refine ⟨bound, apart, nonempty, below, under, ?_, ?_, ?_⟩
  · intro mapping mem file
    rcases mem_cons.mp mem with rfl | mem
    · exact ⟨_, mem_set inRange _, used, rfl, rfl, rfl, rfl⟩
    · obtain ⟨fd', mem', record⟩ := sound.recorded mapping mem file
      obtain ⟨j, at'⟩ := mem_iff_getElem?.mp mem'
      have other : index ≠ j := by
        rintro rfl
        rw [found] at at'
        cases at'
        have mapped := record.2.1
        rw [free] at mapped
        cases mapped
      refine ⟨fd', mem_iff_getElem?.mpr ⟨j, ?_⟩, record⟩
      rw [List.getElem?_set, if_neg other]
      exact at'
  · intro fd' mem' active
    obtain ⟨j, at'⟩ := mem_iff_getElem?.mp mem'
    rcases table j fd' at' with ⟨_, rfl⟩ | ⟨_, old⟩
    · exact ⟨_, mem_cons_self, rfl, used, rfl, rfl, rfl, rfl⟩
    · obtain ⟨mapping, live, facts⟩ := sound.known fd' (mem_of_getElem? old) active
      exact ⟨mapping, mem_cons_of_mem _ live, facts⟩
  · intro i j fd₁ fd₂ at₁ at₂ active₁ active₂ start
    rcases table i fd₁ at₁ with ⟨here₁, rfl⟩ | ⟨_, old₁⟩
    · rcases table j fd₂ at₂ with ⟨here₂, rfl⟩ | ⟨_, old₂⟩
      · rw [here₁, here₂]
      · exact absurd start.symm (lower j fd₂ old₂ active₂)
    · rcases table j fd₂ at₂ with ⟨here₂, rfl⟩ | ⟨_, old₂⟩
      · exact absurd start (lower i fd₁ old₁ active₁)
      · exact sound.distinct i j fd₁ fd₂ old₁ old₂ active₁ active₂ start

theorem Sound.filterMap_unmap {gone : Mapping} (live : gone ∈ s.live) (file : gone.file = true) :
    s.live.filterMap (·.unmap gone.start gone.len) = s.live.filter (· ≠ gone) := by
  rw [← filterMap_eq_filter]
  refine filterMap_congr ?_
  intro mapping mem
  unfold Mapping.unmap
  rcases eq_or_ne mapping gone with rfl | same
  · simp [file, Option.guard]
  · have other : ¬ (mapping.file = true ∧ mapping.start = gone.start) :=
      fun both => same (sound.eq_of_start mem live both.2)
    rw [if_neg other]
    simp [Option.guard, same]

theorem Sound.munmap {start len : Nat} (fits : Fits s (.munmap start len)) :
    Sound (munmap s start len) := by
  unfold Areas.munmap
  cases found : s.pfd.findIdx? (Fd.maps start) with
  | none => exact sound
  | some index =>
  obtain ⟨inRange, hit, _⟩ := List.findIdx?_eq_some_iff_getElem.mp found
  have at₀ : s.pfd[index]? = some s.pfd[index] := List.getElem?_eq_getElem inRange
  have whole : s.pfd[index].len = len := fits index found _ at₀
  simp only [Fd.maps, Bool.and_eq_true, decide_eq_true_eq, beq_iff_eq] at hit
  obtain ⟨gone, live, file, record⟩ :=
    sound.known s.pfd[index] (getElem_mem inRange) ⟨hit.1.1, hit.1.2⟩
  have startEq : gone.start = start := record.2.2.1.symm.trans hit.2
  have lenEq : gone.len = len := record.2.2.2.1.symm.trans whole
  subst startEq lenEq
  rw [sound.filterMap_unmap live file]
  -- the areas that stay are disjoint from the one that goes
  have stays : ∀ mapping ∈ s.live.filter (· ≠ gone),
      mapping ∈ s.live ∧ mapping ≠ gone ∧ Apart mapping gone := by
    intro mapping mem
    obtain ⟨mem, other⟩ := mem_filter.mp mem
    have ne : mapping ≠ gone := by simpa using other
    exact ⟨mem, ne, sound.apart.forall mem live ne⟩
  have cleared : ((s.pfd[index]).unmap gone.len).mmapUsed = false := by
    rw [Fd.unmap, if_pos whole]
    split <;> rfl
  have table : ∀ (j : Nat) (fd' : Fd),
      (s.pfd.modify index (·.unmap gone.len))[j]? = some fd' → fd'.Active →
      j ≠ index ∧ s.pfd[j]? = some fd' := by
    intro j fd' at' active
    by_cases same : index = j
    · subst same
      rw [List.getElem?_modify_eq, at₀] at at'
      cases at'
      rw [Fd.Active, cleared] at active
      cases active.2
    · rw [List.getElem?_modify_ne _ _ same] at at'
      exact ⟨Ne.symm same, at'⟩
  refine ⟨sound.bound, sound.apart.filter _, ?_, ?_, ?_, ?_, ?_, ?_⟩
  · exact fun mapping mem => sound.nonempty mapping (stays mapping mem).1
  · exact fun mapping mem => sound.below mapping (stays mapping mem).1
  · intro mapping mem
    obtain ⟨old, _, apart⟩ := stays mapping mem
    have top := sound.under mapping old
    have low := Mapping.start_lt_stop (sound.nonempty mapping old)
    have base := sound.below gone live
    have bound := sound.bound
    have stop : gone.stop = gone.start + roundUp gone.len := rfl
    have size : round gone.len = roundUp gone.len := round_eq (by omega)
    have sum : u64 (gone.start + round gone.len) = gone.stop := by
      rw [size]
      exact Nat.mod_eq_of_lt (by omega)
    dsimp only
    rw [sum]
    unfold Apart at apart
    by_cases last : s.edata = gone.stop
    · rw [if_pos last]
      omega
    · rw [if_neg last]
      exact top
  · intro mapping mem isFile
    obtain ⟨old, other, _⟩ := stays mapping mem
    obtain ⟨fd', mem', record'⟩ := sound.recorded mapping old isFile
    obtain ⟨j, at'⟩ := mem_iff_getElem?.mp mem'
    have away : index ≠ j := by
      rintro rfl
      rw [at₀] at at'
      cases at'
      exact other (sound.eq_of_start old live (record'.2.2.1.symm.trans hit.2))
    refine ⟨fd', mem_iff_getElem?.mpr ⟨j, ?_⟩, record'⟩
    rw [List.getElem?_modify_ne _ _ away]
    exact at'
  · intro fd' mem' active
    obtain ⟨j, at'⟩ := mem_iff_getElem?.mp mem'
    obtain ⟨away, old⟩ := table j fd' at' active
    obtain ⟨mapping, liveM, fileM, recordM⟩ := sound.known fd' (mem_of_getElem? old) active
    refine ⟨mapping, mem_filter.mpr ⟨liveM, ?_⟩, fileM, recordM⟩
    -- the record of the mapping that goes is the one at `index`
    have ne : mapping ≠ gone := by
      rintro rfl
      exact away (sound.distinct j index fd' _ old at₀ active ⟨hit.1.1, hit.1.2⟩
        (recordM.2.2.1.trans hit.2.symm))
    simpa using ne
  · intro i j fd₁ fd₂ at₁ at₂ active₁ active₂ same
    exact sound.distinct i j fd₁ fd₂ (table i fd₁ at₁ active₁).2 (table j fd₂ at₂ active₂).2
      active₁ active₂ same

theorem Sound.step {act : Act} {s' : State} (fits : Fits s act)
    (run : step s act = some s') : Sound s' := by
  cases act with
  | anonymous len =>
    cases run
    exact sound.anonymous fits
  | file index len off =>
    cases run
    exact sound.file fits
  | munmap start len =>
    cases run
    exact sound.munmap fits
  | brk ptr =>
    cases run
    exact sound.brk fits

end Steps

/-- A process that has mapped nothing yet. -/
structure Start (s : State) : Prop where
  bound : s.userStackBase < 2 ^ 63
  live : s.live = []
  unmapped : ∀ fd ∈ s.pfd, fd.used ≠ 0 → fd.mmapUsed = false

theorem Start.sound {s : State} (start : Start s) : Sound s := by
  have inactive : ∀ fd ∈ s.pfd, ¬ fd.Active := by
    intro fd mem active
    have unmapped := start.unmapped fd mem active.1
    rw [active.2] at unmapped
    cases unmapped
  refine ⟨start.bound, ?_, ?_, ?_, ?_, ?_, ?_, ?_⟩
  · rw [start.live]
    exact List.Pairwise.nil
  · simp [start.live]
  · simp [start.live]
  · simp [start.live]
  · simp [start.live]
  · exact fun fd mem active => absurd active (inactive fd mem)
  · exact fun i j fd fd' at₁ _ active => absurd active (inactive fd (mem_of_getElem? at₁))

/-- Areas stay disjoint, below the stack and recorded in every run whose calls fit. -/
theorem areas_disjoint_along (s : State) (acts : List Act) (start : Start s)
    (fits : StepsMeet step Fits s acts) : HoldsAlong step Disjoint s acts :=
  holdsAlong_of_stepsMeet step Fits Sound Disjoint (fun _ sound => sound.disjoint)
    (fun _ _ _ sound ok run => sound.step ok run) s acts start.sound fits

def smallAreas : State where
  edata := 0x10234
  userStackBase := 0x20000
  pfd := [⟨1, false, 0, 0, 0⟩, ⟨1, false, 0, 0, 0⟩]
  live := []

theorem smallAreas_start : Start smallAreas := ⟨by decide, rfl, by decide⟩

def smallCalls : List Act :=
  [.file 0 5000 0, .anonymous 100, .file 1 4096 8192, .munmap 0x14000 4096, .brk 0x15000,
    .file 1 300 4096]

theorem areas_disjoint_small :
    StepsMeet step Fits smallAreas smallCalls ∧ HoldsAlong step Disjoint smallAreas smallCalls := by
  have fits : StepsMeet step Fits smallAreas smallCalls := by decide +kernel
  exact ⟨fits, areas_disjoint_along smallAreas smallCalls smallAreas_start fits⟩

/-- The second mapping of a file takes the record of the first one; and where there
is no room, two areas are returned at the same address. -/
theorem areas_collide : Start smallAreas ∧
    (∃ s, runActs step smallAreas [.file 0 4096 0, .file 0 4096 4096] = some s ∧
      (⟨0x11000, 4096, true, 0⟩ : Mapping) ∈ s.live ∧
      (∀ fd ∈ s.pfd, ¬ Records fd ⟨0x11000, 4096, true, 0⟩) ∧ ¬ Disjoint s) ∧
    (∃ s, runActs step smallAreas [.anonymous 0x10000, .anonymous 4096] = some s ∧
      s.live = [⟨0x11000, 4096, false, 0⟩, ⟨0x11000, 0x10000, false, 0⟩] ∧ ¬ Disjoint s) := by
  refine ⟨smallAreas_start, ⟨_, rfl, by decide, by decide, ?_⟩, ⟨_, rfl, by decide, ?_⟩⟩
  · intro disjoint
    have recorded := disjoint.recorded ⟨0x11000, 4096, true, 0⟩ (by decide) rfl
    exact absurd recorded (by decide)
  · intro disjoint
    exact absurd disjoint.apart (by decide)

end CCore.Areas
