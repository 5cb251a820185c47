import Mathlib.Data.List.Forall2
import CCore.Elf.FastLoad
import CCore.Mm.PageTree

/-!
# What the preloaded buffers hold

The bytes of a segment are cut at the page boundaries of the file, which are those
of the addresses because `p_offset` and `p_vaddr` agree modulo the page size.  Cut
`j` starts at `mark j` bytes into the segment, and buffer `j` of the segment holds
the bytes of the file from there up to the next cut.
-/
namespace CCore.Elf

open Bytes Loop PageTable Function List Option

def InPage (page a : Nat) : Prop := page ≤ a ∧ a < page + 4096

instance (page a : Nat) : Decidable (InPage page a) := inferInstanceAs (Decidable (_ ∧ _))

theorem inPage_unique {page other a : Nat} (aligned : KernelPage page)
    (otherAligned : KernelPage other) (here : InPage page a) (there : InPage other a) :
    page = other := by
  obtain ⟨frame, -, rfl⟩ := (kernelPage_iff page).mp aligned
  obtain ⟨frame', -, rfl⟩ := (kernelPage_iff other).mp otherAligned
  obtain ⟨low, high⟩ := here
  obtain ⟨low', high'⟩ := there
  omega

theorem clearPage_eq (bytes : Nat → UInt8) (page a : Nat) :
    clearPage bytes page a = if InPage page a then 0 else bytes a := rfl

theorem clearPages_eq (pages : List Nat) (bytes : Nat → UInt8) (a : Nat) :
    pages.foldl clearPage bytes a = if ∃ page ∈ pages, InPage page a then 0 else bytes a := by
  induction pages generalizing bytes with
  | nil => simp
  | cons page rest ih =>
    rw [foldl_cons, ih, clearPage_eq]
    by_cases later : ∃ other ∈ rest, InPage other a
    · obtain ⟨other, member, inside⟩ := later
      rw [if_pos ⟨other, member, inside⟩, if_pos ⟨other, mem_cons_of_mem _ member, inside⟩]
    · rw [if_neg later]
      by_cases here : InPage page a
      · rw [if_pos here, if_pos ⟨page, mem_cons_self, here⟩]
      · have nowhere : ¬ ∃ other ∈ page :: rest, InPage other a := by
          rintro ⟨other, member, inside⟩
          rcases mem_cons.mp member with rfl | tail
          · exact here inside
          · exact later ⟨other, tail, inside⟩
        rw [if_neg here, if_neg nowhere]

theorem Memory.take_eq (m : Memory) (taken rest : List Nat) (supply : m.supply = taken ++ rest) :
    m.take rest = ⟨taken.foldl clearPage m.bytes, rest⟩ := by
  rw [Memory.take, supply, length_append, Nat.add_sub_cancel, take_left]

/-! ## Cuts of a segment -/

def mark (ph : Phdr) (j : Nat) : Nat := j * 4096 - ph.pVaddr % 4096

def rounds (ph : Phdr) (size : Nat) : Nat :=
  if size = 0 then 0 else (ph.pVaddr % 4096 + size + 4095) / 4096

theorem mark_lt_iff (ph : Phdr) (j size : Nat) : mark ph j < size ↔ j < rounds ph size := by
  rw [mark, rounds]
  split <;> omega

theorem mark_zero (ph : Phdr) : mark ph 0 = 0 := by
  rw [mark]
  omega

theorem mark_lt_succ (ph : Phdr) (j : Nat) : mark ph j < mark ph (j + 1) := by
  rw [mark, mark]
  omega

theorem mark_succ_le (ph : Phdr) (j : Nat) : mark ph (j + 1) ≤ mark ph j + 4096 := by
  rw [mark, mark]
  omega

def chunk (ph : Phdr) (j : Nat) : Nat × Nat :=
  (ph.pOffset + mark ph j, min ph.pFilesz (mark ph (j + 1)) - mark ph j)

def chunks (ph : Phdr) : List (Nat × Nat) :=
  (List.range (rounds ph ph.pFilesz)).map (chunk ph)

/-- A buffer holds a cut of the file. -/
def ChunkAt (byte bytes : Nat → UInt8) (cut : Nat × Nat) (buffer : Nat) : Prop :=
  cut.2 ≤ 4096 ∧ ∀ x < cut.2, bytes (buffer + x) = byte (cut.1 + x)

theorem chunk_length (ph : Phdr) (j : Nat) : (chunk ph j).2 ≤ 4096 := by
  have := mark_succ_le ph j
  rw [chunk]
  omega

theorem ChunkAt.congr {byte bytes bytes' : Nat → UInt8} {cut : Nat × Nat} {buffer : Nat}
    (holds : ChunkAt byte bytes cut buffer)
    (same : ∀ a, InPage buffer a → bytes' a = bytes a) : ChunkAt byte bytes' cut buffer := by
  refine ⟨holds.1, fun x inside => ?_⟩
  have := holds.1
  rw [same (buffer + x) ⟨by omega, by omega⟩]
  exact holds.2 x inside

theorem buffers_congr {byte bytes bytes' : Nat → UInt8} {spec : List (Nat × Nat)}
    {buffers : List Nat} (hold : List.Forall₂ (ChunkAt byte bytes) spec buffers)
    (same : ∀ buffer ∈ buffers, ∀ a, InPage buffer a → bytes' a = bytes a) :
    List.Forall₂ (ChunkAt byte bytes') spec buffers := by
  induction hold with
  | nil => exact .nil
  | cons first _ ih =>
    refine .cons (first.congr (same _ mem_cons_self)) (ih ?_)
    intro buffer member
    exact same buffer (mem_cons_of_mem _ member)

structure Took (byte : Nat → UInt8) (before after : Memory) (spec : List (Nat × Nat))
    (buffers : List Nat) : Prop where
  supply : before.supply = buffers ++ after.supply
  hold : List.Forall₂ (ChunkAt byte after.bytes) spec buffers
  frame : ∀ a, (∀ buffer ∈ buffers, ¬ InPage buffer a) → after.bytes a = before.bytes a

theorem Took.refl (byte : Nat → UInt8) (m : Memory) : Took byte m m [] [] :=
  ⟨rfl, .nil, fun _ _ => rfl⟩

theorem Took.trans {byte : Nat → UInt8} {m₁ m₂ m₃ : Memory} {spec spec' : List (Nat × Nat)}
    {buffers buffers' : List Nat} (first : Took byte m₁ m₂ spec buffers)
    (second : Took byte m₂ m₃ spec' buffers') (distinct : m₁.supply.Nodup)
    (aligned : ∀ page ∈ m₁.supply, KernelPage page) :
    Took byte m₁ m₃ (spec ++ spec') (buffers ++ buffers') := by
  have supply : m₁.supply = (buffers ++ buffers') ++ m₃.supply := by
    rw [first.supply, second.supply, append_assoc]
  have apart : ∀ buffer ∈ buffers, ∀ other ∈ buffers', ∀ a, InPage buffer a → ¬ InPage other a := by
    intro buffer member other otherMember a inside otherInside
    rw [supply] at distinct aligned
    have same := inPage_unique
      (aligned buffer (mem_append_left _ (mem_append_left _ member)))
      (aligned other (mem_append_left _ (mem_append_right _ otherMember)))
      inside otherInside
    have both := List.nodup_append.mp (List.nodup_append.mp distinct).1
    exact both.2.2 buffer member other otherMember same
  refine ⟨supply, ?_, ?_⟩
  · refine rel_append (buffers_congr first.hold ?_) second.hold
    intro buffer member a inside
    exact second.frame a fun other otherMember => apart buffer member other otherMember a inside
  · intro a outside
    rw [second.frame a fun buffer member => outside buffer (mem_append_right _ member),
      first.frame a fun buffer member => outside buffer (mem_append_left _ member)]

structure ReadBefore (byte : Nat → UInt8) (ph : Phdr) (m : Memory) (list : List Nat) (j : Nat)
    (s : Reading) : Prop where
  fdBase : s.fdBase = ph.pOffset + min (mark ph j) ph.pFilesz
  alLength : s.alLength = min (mark ph j) ph.pFilesz
  length : s.length = ph.pFilesz - min (mark ph j) ph.pFilesz
  buffers : ∃ buffers, buffers.length = j ∧ s.list = list ++ buffers ∧
    Took byte m s.mem ((List.range j).map (chunk ph)) buffers

theorem readLength_eq (ph : Phdr) (j : Nat) (same : ph.pOffset % 4096 = ph.pVaddr % 4096)
    (inside : mark ph j < ph.pFilesz) :
    (if round (ph.pOffset + mark ph j) - (ph.pOffset + mark ph j) ≠ 0 then
      min (round (ph.pOffset + mark ph j) - (ph.pOffset + mark ph j)) (ph.pFilesz - mark ph j)
    else if ph.pFilesz - mark ph j ≥ 4096 then 4096 else ph.pFilesz - mark ph j) =
      (chunk ph j).2 := by
  rw [chunk, round]
  cases j with
  | zero =>
    have next : mark ph (0 + 1) = 4096 - ph.pVaddr % 4096 := by rw [mark]
    rw [mark_zero] at inside ⊢
    rw [next]
    split
    · omega
    · split <;> omega
  | succ j =>
    have aligned : (ph.pOffset + mark ph (j + 1)) % 4096 = 0 := by
      rw [mark]
      omega
    have next : mark ph (j + 1 + 1) = mark ph (j + 1) + 4096 := by
      rw [mark, mark]
      omega
    rw [next]
    split
    · omega
    · split <;> omega

section
variable (byte : Nat → UInt8)
  (ph : Phdr)
  (m : Memory)
  (list : List Nat)
  (same : ph.pOffset % 4096 = ph.pVaddr % 4096)
  (distinct : m.supply.Nodup)
  (aligned : ∀ page ∈ m.supply, KernelPage page)
  (enough : rounds ph ph.pFilesz ≤ m.supply.length)
include byte ph m list same distinct aligned enough

theorem readChunk_step (j : Nat) (s : Reading)
    (more : j < rounds ph ph.pFilesz) (now : ReadBefore byte ph m list j s) :
    decide (s.length ≠ 0) = true ∧ ∃ s', readChunk byte ph s = some s' ∧
      ReadBefore byte ph m list (j + 1) s' := by
  obtain ⟨buffers, count, listed, took⟩ := now.buffers
  have inside : mark ph j < ph.pFilesz := (mark_lt_iff ph j _).mpr more
  have part : min (mark ph j) ph.pFilesz = mark ph j := by omega
  have next := mark_lt_succ ph j
  have fdBase : s.fdBase = ph.pOffset + mark ph j := by rw [now.fdBase, part]
  have alLength : s.alLength = mark ph j := by rw [now.alLength, part]
  have length : s.length = ph.pFilesz - mark ph j := by rw [now.length, part]
  have left : s.mem.supply ≠ [] := by
    intro empty
    have := congrArg List.length took.supply
    rw [empty, append_nil] at this
    omega
  obtain ⟨buffer, rest, supply⟩ := exists_cons_of_ne_nil left
  have read := readLength_eq ph j same inside
  refine ⟨decide_eq_true (by omega), ?_⟩
  have chunkShort := chunk_length ph j
  have sum : mark ph j + (chunk ph j).2 = min (mark ph (j + 1)) ph.pFilesz := by
    rw [chunk]
    omega
  have one : Took byte s.mem ⟨blit (clearPage s.mem.bytes buffer) buffer (chunk ph j).2
        fun x => byte (ph.pOffset + mark ph j + x), rest⟩ [chunk ph j] [buffer] := by
    refine ⟨supply, .cons ⟨chunkShort, ?_⟩ .nil, ?_⟩
    · intro x short
      exact (blit_inside short : blit (clearPage s.mem.bytes buffer) buffer (chunk ph j).2
        (fun x => byte (ph.pOffset + mark ph j + x)) (buffer + x) = _)
    · intro a outside
      have away : ¬ InPage buffer a := outside buffer (mem_singleton_self buffer)
      have range : a < buffer ∨ buffer + (chunk ph j).2 ≤ a := by
        rw [InPage] at away
        omega
      have cleared : clearPage s.mem.bytes buffer a = s.mem.bytes a := if_neg away
      have kept : blit (clearPage s.mem.bytes buffer) buffer (chunk ph j).2
          (fun x => byte (ph.pOffset + mark ph j + x)) a = clearPage s.mem.bytes buffer a :=
        blit_outside range
      exact kept.trans cleared
  refine ⟨⟨⟨blit (clearPage s.mem.bytes buffer) buffer (chunk ph j).2
    fun x => byte (ph.pOffset + mark ph j + x), rest⟩, s.list ++ [buffer],
    ph.pFilesz - mark ph j - (chunk ph j).2, mark ph j + (chunk ph j).2,
    ph.pOffset + mark ph j + (chunk ph j).2⟩, ?_, ?_⟩
  · rw [readChunk, Memory.allocPage, supply]
    simp only [bind_eq_bind, bind_some, fdBase, alLength, length]
    rw [read]
  · refine ⟨?_, ?_, ?_, buffers ++ [buffer], ?_, ?_, ?_⟩
    · show ph.pOffset + mark ph j + (chunk ph j).2 = _
      omega
    · exact sum
    · show ph.pFilesz - mark ph j - (chunk ph j).2 = _
      omega
    · simp [count]
    · simp [listed]
    · rw [range_succ, map_append]
      exact took.trans one distinct aligned

theorem readSegment_spec : ∃ read buffers, readSegment byte ph m list = some read ∧
    buffers.length = rounds ph ph.pFilesz ∧ read.list = list ++ buffers ∧
    Took byte m read.mem (chunks ph) buffers := by
  have start : ReadBefore byte ph m list 0 ⟨m, list, ph.pFilesz, 0, ph.pOffset⟩ := by
    refine ⟨?_, ?_, ?_, [], rfl, (append_nil _).symm, Took.refl byte m⟩ <;>
      simp [mark_zero]
  have stop : ∀ s, ReadBefore byte ph m list (rounds ph ph.pFilesz) s →
      decide (s.length ≠ 0) = false := by
    intro s last
    have past : ¬ mark ph (rounds ph ph.pFilesz) < ph.pFilesz := fun more =>
      Nat.lt_irrefl _ ((mark_lt_iff ph _ _).mp more)
    have := last.length
    simp only [ne_eq, decide_not, Bool.not_eq_false', decide_eq_true_eq]
    omega
  have few : rounds ph ph.pFilesz ≤ 0 + ph.pFilesz := by
    rw [rounds]
    split <;> omega
  obtain ⟨read, run, final⟩ := whileLoop_counted
    (readChunk_step byte ph m list same distinct aligned enough) stop
    few (Nat.zero_le _) start
  obtain ⟨buffers, count, listed, took⟩ := final.buffers
  exact ⟨read, buffers, run, count, listed, took⟩

end

/-- The `PT_LOAD` headers of a file. -/
def ElfFile.segments (file : ElfFile) : List Phdr :=
  file.phdrs.filter fun ph => ph.pType = ptLoad

theorem chunks_length (ph : Phdr) : (chunks ph).length = rounds ph ph.pFilesz := by simp [chunks]

structure ParsedBefore (byte : Nat → UInt8) (m : Memory) (segs : List Phdr) (s : Parsing) :
    Prop where
  index : s.index = segs.length
  phdrNum : s.load.phdrNum = segs.length
  phdr : (List.range segs.length).map s.load.phdr = segs
  took : Took byte m s.mem (segs.flatMap chunks) s.load.list

theorem parseHeader_load (byte : Nat → UInt8) (m : Memory) (segs : List Phdr) (s : Parsing)
    (ph : Phdr) (loadable : ph.pType = ptLoad) (same : ph.pOffset % 4096 = ph.pVaddr % 4096)
    (distinct : m.supply.Nodup) (aligned : ∀ page ∈ m.supply, KernelPage page)
    (few : segs.length < 2) (enough : ((segs ++ [ph]).flatMap chunks).length ≤ m.supply.length)
    (now : ParsedBefore byte m segs s) :
    ∃ s', parseHeader byte s ph = some s' ∧ ParsedBefore byte m (segs ++ [ph]) s' := by
  have supply := now.took.supply
  have sub : ∀ page ∈ s.mem.supply, page ∈ m.supply := by
    intro page member
    rw [supply]
    exact mem_append_right _ member
  have distinctNow : s.mem.supply.Nodup := by
    rw [supply] at distinct
    exact (List.nodup_append.mp distinct).2.1
  have count := now.took.hold.length_eq
  have left : rounds ph ph.pFilesz ≤ s.mem.supply.length := by
    rw [flatMap_append, length_append, supply, length_append,
      flatMap_singleton, chunks_length] at enough
    omega
  obtain ⟨read, buffers, run, -, listed, took⟩ := readSegment_spec byte ph s.mem s.load.list
    same distinctNow (fun page member => aligned page (sub page member)) left
  have notInterp : ph.pType ≠ ptInterp := by
    rw [loadable]
    decide
  have inArray : s.index ≠ 2 := by
    rw [now.index]
    omega
  have headers : (List.range (segs ++ [ph]).length).map
      (update s.load.phdr segs.length ph) = segs ++ [ph] := by
    rw [length_append, length_singleton, range_succ, map_append, map_singleton, update_self]
    congr 1
    rw [← now.phdr]
    simp only [length_map, length_range]
    refine map_congr_left fun k member => update_of_ne ?_ _ _
    exact Nat.ne_of_lt (mem_range.mp member)
  have list : Took byte m read.mem ((segs ++ [ph]).flatMap chunks) read.list := by
    rw [flatMap_append, flatMap_singleton, listed]
    exact now.took.trans took distinct aligned
  rw [parseHeader, if_neg notInterp, if_pos loadable, ExeLoad.storePhdr, if_neg inArray]
  simp only [run, bind_eq_bind, bind_some]
  refine ⟨_, rfl, ?_, ?_, ?_, ?_⟩
  · simp [now.index]
  · cases s.isFirst <;> simp [now.phdrNum]
  · cases s.isFirst <;> simpa [now.index] using headers
  · cases s.isFirst <;> exact list

theorem parseHeaders_spec (byte : Nat → UInt8) (m : Memory) (distinct : m.supply.Nodup)
    (aligned : ∀ page ∈ m.supply, KernelPage page) (phdrs segs : List Phdr) (s : Parsing)
    (same : ∀ ph ∈ phdrs, ph.pType = ptLoad → ph.pOffset % 4096 = ph.pVaddr % 4096)
    (few : (segs ++ phdrs.filter fun ph => ph.pType = ptLoad).length ≤ 2)
    (enough : ((segs ++ phdrs.filter fun ph => ph.pType = ptLoad).flatMap chunks).length ≤
      m.supply.length) (now : ParsedBefore byte m segs s) :
    ∃ final, phdrs.foldlM (parseHeader byte) s = some final ∧
      ParsedBefore byte m (segs ++ phdrs.filter fun ph => ph.pType = ptLoad) final := by
  induction phdrs generalizing segs s with
  | nil => exact ⟨s, rfl, by simpa using now⟩
  | cons ph rest ih =>
    have sameRest : ∀ other ∈ rest, other.pType = ptLoad →
        other.pOffset % 4096 = other.pVaddr % 4096 :=
      fun other member => same other (mem_cons_of_mem _ member)
    by_cases loadable : ph.pType = ptLoad
    · have split : segs ++ (ph :: rest).filter (fun ph => ph.pType = ptLoad) =
          segs ++ [ph] ++ rest.filter (fun ph => ph.pType = ptLoad) := by
        rw [filter_cons_of_pos (by simpa using loadable), append_assoc, singleton_append]
      rw [split] at few enough ⊢
      have fewNow : segs.length < 2 := by
        simp only [length_append, length_singleton] at few
        omega
      have enoughNow : ((segs ++ [ph]).flatMap chunks).length ≤ m.supply.length := by
        rw [flatMap_append, length_append] at enough
        omega
      obtain ⟨s', run, next⟩ := parseHeader_load byte m segs s ph loadable
        (same ph mem_cons_self loadable) distinct aligned fewNow enoughNow now
      obtain ⟨final, restRun, result⟩ := ih (segs ++ [ph]) s' sameRest few enough next
      exact ⟨final, by simp [foldlM_cons, run, restRun], result⟩
    · rw [filter_cons_of_neg (by simpa using loadable)] at few enough ⊢
      have skip : ∃ s', parseHeader byte s ph = some s' ∧ ParsedBefore byte m segs s' := by
        rw [parseHeader, if_neg loadable]
        refine ⟨_, rfl, now.index, ?_, ?_, ?_⟩
        · split <;> exact now.phdrNum
        · split <;> exact now.phdr
        · split <;> exact now.took
      obtain ⟨s', run, next⟩ := skip
      obtain ⟨final, restRun, result⟩ := ih segs s' sameRest few enough next
      exact ⟨final, by simp [foldlM_cons, run, restRun], result⟩

/-- With at most two loadable segments the preloaded list holds their cuts in
order, and only the pages of the list have changed. -/
theorem doPreElf_spec (file : ElfFile) (load : ExeLoad) (m : Memory) (empty : load.list = [])
    (distinct : m.supply.Nodup) (aligned : ∀ page ∈ m.supply, KernelPage page)
    (same : ∀ ph ∈ file.segments, ph.pOffset % 4096 = ph.pVaddr % 4096)
    (few : file.segments.length ≤ 2)
    (enough : (file.segments.flatMap chunks).length ≤ m.supply.length) :
    ∃ load' m', doPreElf file load m = some (load', m') ∧ load'.phdrNum = file.segments.length ∧
      (List.range file.segments.length).map load'.phdr = file.segments ∧
      Took file.byte m m' (file.segments.flatMap chunks) load'.list := by
  have begin : ParsedBefore file.byte m [] ⟨load.saveHeader file, m, 0, true⟩ := by
    refine ⟨rfl, rfl, rfl, ?_⟩
    show Took file.byte m m [] load.list
    rw [empty]
    exact Took.refl _ m
  have sameAll : ∀ ph ∈ file.phdrs, ph.pType = ptLoad → ph.pOffset % 4096 = ph.pVaddr % 4096 := by
    intro ph member loadable
    exact same ph (mem_filter.mpr ⟨member, by simpa using loadable⟩)
  obtain ⟨final, run, parsed⟩ := parseHeaders_spec file.byte m distinct aligned file.phdrs []
    _ sameAll few enough begin
  refine ⟨final.load, final.mem, ?_, parsed.phdrNum, parsed.phdr, parsed.took⟩
  rw [doPreElf, run]
  rfl

end CCore.Elf
