import CCore.Elf.Preload

/-!
# The image of a loaded file

Every round of `fast_load_elf` maps one page of a segment.  `Loaded` says what has
been mapped so far and what the buffers still to come hold; a round adds one page
to it and writes to no page that was there before.
-/
namespace CCore.Elf

open Bytes Loop PageTable Function List Option Loading

def firstPage (ph : Phdr) : Nat := ph.pVaddr / 4096

/-- Byte `k` of a segment. -/
def content (byte : Nat → UInt8) (ph : Phdr) (k : Nat) : UInt8 :=
  if k < ph.pFilesz then byte (ph.pOffset + k) else 0

def PageDone (byte bytes : Nat → UInt8) (recorded : Nat → Option Nat) (ph : Phdr) (j : Nat) :
    Prop :=
  ∃ base, recorded (firstPage ph + j) = some base ∧
    ∀ k, mark ph j ≤ k → k < mark ph (j + 1) → k < ph.pMemsz →
      bytes (base + (ph.pVaddr + k) % 4096) = content byte ph k

/-- `pages` are mapped, `spec` are the cuts in the buffers to come, and `start` is
the memory before the load. -/
structure Loaded (byte start : Nat → UInt8) (pgdir : Nat) (pages : List (Phdr × Nat))
    (spec : List (Nat × Nat)) (loadNode : List Nat) (s : Loading)
    (node : List Nat → Option Nat) (recorded : Nat → Option Nat) : Prop where
  ready : Ready pgdir ⟨s.words, s.mem.supply⟩ node recorded
  aligned : ∀ buffer ∈ loadNode, KernelPage buffer
  distinct : (loadNode ++ s.mem.supply).Nodup
  mapped : ∀ v base, recorded v = some base → KernelPage base ∧ base ∉ loadNode ∧
    base ∉ s.mem.supply ∧ ∃ item ∈ pages, v = firstPage item.1 + item.2
  injective : ∀ v v' base, recorded v = some base → recorded v' = some base → v = v'
  buffers : List.Forall₂ (ChunkAt byte s.mem.bytes) spec loadNode
  done : ∀ item ∈ pages, PageDone byte s.mem.bytes recorded item.1 item.2
  frame : ∀ a, s.mem.bytes a ≠ start a → (∃ v base, recorded v = some base ∧ InPage base a) ∨
      ∃ path page, node path = some page ∧ InPage page a

/-- What mapping one page of a segment does: the page at `base` is written, and
the pages taken off the supply are it and new tables. -/
structure Mapped (s s' : Loading) (node node' : List Nat → Option Nat)
    (base : Nat) (taken : List Nat) : Prop where
  grows : Grows ⟨s.words, s.mem.supply⟩ ⟨s'.words, s'.mem.supply⟩ node node' taken
  tables : ∀ new ∈ taken, new = base ∨ ∃ path, node' path = some new
  aligned : KernelPage base
  outside : ∀ a, ¬ InPage base a → (∀ new ∈ taken, ¬ InPage new a) → s'.mem.bytes a = s.mem.bytes a

theorem Loading.kmemcpy_bytes (s : Loading) (dest src len a : Nat) :
    (s.kmemcpy dest src len).mem.bytes a =
      if dest ≤ a ∧ a < dest + len then s.mem.bytes (src + (a - dest)) else s.mem.bytes a := rfl

theorem Loading.zero_bytes (s : Loading) (dest limit a : Nat) : (s.zero dest limit).mem.bytes a =
    if dest ≤ a ∧ a < dest + (limit - dest) then 0 else s.mem.bytes a := rfl

variable {s s' : Loading} {node node' : List Nat → Option Nat} {base buffer j pgdir va : Nat}
  {loadNode loadNode' taken : List Nat} {ph : Phdr} {spec spec' : List (Nat × Nat)} {w : Walk}
  {recorded : Nat → Option Nat} {byte start : Nat → UInt8}

section Round
variable {pages : List (Phdr × Nat)}

section
variable (loaded : Loaded byte start pgdir pages spec loadNode s node recorded)
include loaded

theorem Loaded.kept
    (step : Mapped s s' node node' base taken) {page : Nat} (aligned : KernelPage page)
    (other : page ≠ base) (noSupply : page ∉ s.mem.supply) {a : Nat} (inside : InPage page a) :
    s'.mem.bytes a = s.mem.bytes a := by
  refine step.outside a ?_ ?_
  · intro insideBase
    exact other (inPage_unique aligned step.aligned inside insideBase)
  · intro new member insideNew
    have inSupply : new ∈ s.mem.supply := by
      rw [show s.mem.supply = taken ++ s'.mem.supply from step.grows.supply]
      exact mem_append_left _ member
    have newAligned := (loaded.ready.fresh new inSupply).1
    exact noSupply (inPage_unique aligned newAligned inside insideNew ▸ inSupply)

theorem Loaded.add (unmapped : recorded (firstPage ph + j) = none)
    (ready : Ready pgdir ⟨s'.words, s'.mem.supply⟩ node'
      (update recorded (firstPage ph + j) (some base))) (step : Mapped s s' node node' base taken)
    (source : (base ∈ taken ∧ loadNode' <:+ loadNode) ∨ loadNode = base :: loadNode')
    (buffers : List.Forall₂ (ChunkAt byte s.mem.bytes) spec' loadNode')
    (holds : ∀ k, mark ph j ≤ k → k < mark ph (j + 1) → k < ph.pMemsz →
      s'.mem.bytes (base + (ph.pVaddr + k) % 4096) = content byte ph k) :
    Loaded byte start pgdir (pages ++ [(ph, j)]) spec' loadNode' s' node'
      (update recorded (firstPage ph + j) (some base)) := by
  have supply : s.mem.supply = taken ++ s'.mem.supply := step.grows.supply
  have distinct := loaded.distinct
  rw [supply] at distinct
  obtain ⟨nodesDistinct, restDistinct, apart⟩ := List.nodup_append.mp distinct
  obtain ⟨-, supplyDistinct, takenApart⟩ := List.nodup_append.mp restDistinct
  have suffix : loadNode' <:+ loadNode := by
    rcases source with ⟨-, suffix⟩ | same
    · exact suffix
    · exact same ▸ suffix_cons base loadNode'
  have inNodes : ∀ buffer ∈ loadNode', buffer ∈ loadNode := fun buffer member =>
    suffix.subset member
  have inSupply : ∀ page ∈ s'.mem.supply, page ∈ s.mem.supply := by
    intro page member
    rw [supply]
    exact mem_append_right _ member
  have baseNotNode : base ∉ loadNode' := by
    rcases source with ⟨inTaken, -⟩ | same
    · intro member
      exact apart base (inNodes base member) base (mem_append_left _ inTaken) rfl
    · rw [same] at nodesDistinct
      exact (nodup_cons.mp nodesDistinct).1
  have baseNotSupply : base ∉ s'.mem.supply := by
    rcases source with ⟨inTaken, -⟩ | same
    · intro member
      exact takenApart base inTaken base member rfl
    · intro member
      refine apart base ?_ base (mem_append_right _ member) rfl
      rw [same]
      exact mem_cons_self
  have baseNew : ∀ v, recorded v ≠ some base := by
    intro v found
    obtain ⟨-, notNode, notSupply, -⟩ := loaded.mapped v base found
    rcases source with ⟨inTaken, -⟩ | same
    · exact notSupply (supply ▸ mem_append_left _ inTaken)
    · exact notNode (same ▸ mem_cons_self)
  have look : ∀ v page, update recorded (firstPage ph + j) (some base) v = some page →
      (v = firstPage ph + j ∧ page = base) ∨ (v ≠ firstPage ph + j ∧ recorded v = some page) := by
    intro v page found
    by_cases same : v = firstPage ph + j
    · rw [same, update_self] at found
      exact .inl ⟨same, (Option.some.inj found).symm⟩
    · rw [update_of_ne same] at found
      exact .inr ⟨same, found⟩
  have still : ∀ v page, recorded v = some page →
      update recorded (firstPage ph + j) (some base) v = some page := by
    intro v page found
    rw [update_of_ne]
    · exact found
    · intro same
      rw [same, unmapped] at found
      cases found
  refine ⟨ready, ?_, ?_, ?_, ?_, ?_, ?_, ?_⟩
  · exact fun buffer member => loaded.aligned buffer (inNodes buffer member)
  · refine List.nodup_append.mpr ⟨suffix.sublist.nodup nodesDistinct, supplyDistinct, ?_⟩
    intro buffer member page pageMember same
    exact apart buffer (inNodes buffer member) page (mem_append_right _ pageMember) same
  · intro v page found
    rcases look v page found with ⟨rfl, rfl⟩ | ⟨-, old⟩
    · exact ⟨step.aligned, baseNotNode, baseNotSupply, (ph, j),
        mem_append_right _ (mem_singleton_self _), rfl⟩
    · obtain ⟨pageAligned, notNode, notSupply, item, member, number⟩ := loaded.mapped v page old
      exact ⟨pageAligned, fun inNode => notNode (inNodes page inNode),
        fun inRest => notSupply (inSupply page inRest), item, mem_append_left _ member, number⟩
  · intro v v' page found found'
    rcases look v page found with ⟨rfl, rfl⟩ | ⟨-, old⟩
    · rcases look v' page found' with ⟨rfl, -⟩ | ⟨-, old'⟩
      · rfl
      · exact absurd old' (baseNew v')
    · rcases look v' page found' with ⟨-, rfl⟩ | ⟨-, old'⟩
      · exact absurd old (baseNew v)
      · exact loaded.injective v v' page old old'
  · refine buffers_congr buffers fun buffer member a inside => ?_
    refine loaded.kept step (loaded.aligned buffer (inNodes buffer member)) ?_ ?_ inside
    · exact fun same => baseNotNode (same ▸ member)
    · intro inAll
      rw [supply] at inAll
      exact apart buffer (inNodes buffer member) buffer inAll rfl
  · intro item member
    rcases mem_append.mp member with old | new
    · obtain ⟨page, found, bytes⟩ := loaded.done item old
      obtain ⟨pageAligned, -, notSupply, -⟩ := loaded.mapped _ page found
      refine ⟨page, still _ page found, fun k low high inside => ?_⟩
      rw [loaded.kept step pageAligned (fun same => baseNew _ (same ▸ found)) notSupply
        (a := page + (item.1.pVaddr + k) % 4096) ⟨by omega, by omega⟩]
      exact bytes k low high inside
    · obtain rfl := mem_singleton.mp new
      exact ⟨base, update_self _ _ _, holds⟩
  · intro a changed
    by_cases now : s'.mem.bytes a = s.mem.bytes a
    · rw [now] at changed
      rcases loaded.frame a changed with ⟨v, page, found, inside⟩ | ⟨path, page, found, inside⟩
      · exact .inl ⟨v, page, still v page found, inside⟩
      · exact .inr ⟨path, page, step.grows.keeps path page found, inside⟩
    · by_cases inBase : InPage base a
      · exact .inl ⟨_, base, update_self _ _ _, inBase⟩
      · by_contra nowhere
        refine now (step.outside a inBase fun new member insideNew => nowhere ?_)
        rcases step.tables new member with rfl | ⟨path, found⟩
        · exact absurd insideNew inBase
        · exact .inr ⟨path, new, found, insideNew⟩

theorem Loaded.alloc (plain : Plain va) (unmapped : recorded (va / 4096) = none)
    (enough : 3 ≤ s.mem.supply.length) :
    ∃ base state node' taken, s.allocPageHelper va pgdir = some (base + va % 4096, state) ∧
      Ready pgdir ⟨state.words, state.mem.supply⟩ node' (update recorded (va / 4096) (some base)) ∧
      Mapped s state node node' base taken ∧ base ∈ taken ∧
      s.mem.supply.length ≤ state.mem.supply.length + 3 ∧
      (∀ a, InPage base a → state.mem.bytes a = 0) ∧
      ∀ a, (∀ new ∈ taken, ¬ InPage new a) → state.mem.bytes a = s.mem.bytes a := by
  obtain ⟨result, next, run⟩ :=
    allocPageHelper_returns ⟨s.words, s.mem.supply⟩ va pgdir .mapUser enough
  obtain ⟨node', base, taken, ready, grows, aligned, address, few, tables, fresh⟩ :=
    loaded.ready.allocPageHelper plain run
  have supply : s.mem.supply = taken ++ next.supply := grows.supply
  have inTaken : base ∈ taken := by
    rcases fresh with old | new
    · rw [unmapped] at old
      cases old
    · exact new.2
  have memory := Memory.take_eq s.mem taken next.supply supply
  have bytes : ∀ a, (s.mem.take next.supply).bytes a =
      if ∃ page ∈ taken, InPage page a then 0 else s.mem.bytes a := by
    intro a
    rw [memory]
    exact clearPages_eq taken s.mem.bytes a
  have outside : ∀ a, (∀ new ∈ taken, ¬ InPage new a) →
      (s.mem.take next.supply).bytes a = s.mem.bytes a := by
    intro a away
    rw [bytes a, if_neg]
    rintro ⟨page, member, inside⟩
    exact away page member inside
  refine ⟨base, ⟨s.mem.take next.supply, next.words⟩, node', taken, ?_, ?_,
    ⟨?_, tables, aligned, fun a _ away => outside a away⟩, inTaken, ?_, ?_, outside⟩
  · rw [Loading.allocPageHelper, run, address, or_offset base va aligned]
    rfl
  · rw [memory]
    exact ready
  · rw [memory]
    exact grows
  · rw [memory, supply, length_append]
    show taken.length + next.supply.length ≤ next.supply.length + 3
    omega
  · intro a inside
    rw [bytes a, if_pos ⟨base, inTaken, inside⟩]

theorem Loaded.point {kva : Nat} (plain : Plain va) (aligned : KernelPage kva)
    (enough : 3 ≤ s.mem.supply.length) :
    ∃ state node' taken, s.allocPagePointPhyc va pgdir kva = some state ∧
      Ready pgdir ⟨state.words, state.mem.supply⟩ node' (update recorded (va / 4096) (some kva)) ∧
      Mapped s state node node' kva taken ∧ s.mem.supply.length ≤ state.mem.supply.length + 3 ∧
      ∀ a, (∀ new ∈ taken, ¬ InPage new a) → state.mem.bytes a = s.mem.bytes a := by
  obtain ⟨slot, next, run⟩ :=
    allocPagePointPhyc_returns ⟨s.words, s.mem.supply⟩ va pgdir kva .mapUser enough
  obtain ⟨node', taken, ready, grows, few, tables⟩ :=
    loaded.ready.allocPagePointPhyc plain aligned run
  have supply : s.mem.supply = taken ++ next.supply := grows.supply
  have memory := Memory.take_eq s.mem taken next.supply supply
  have outside : ∀ a, (∀ new ∈ taken, ¬ InPage new a) →
      (s.mem.take next.supply).bytes a = s.mem.bytes a := by
    intro a away
    rw [memory]
    refine (clearPages_eq taken s.mem.bytes a).trans (if_neg ?_)
    rintro ⟨page, member, inside⟩
    exact away page member inside
  refine ⟨⟨s.mem.take next.supply, next.words⟩, node', taken, ?_, ?_,
    ⟨?_, fun new member => .inr (tables new member), aligned, fun a _ away => outside a away⟩,
    ?_, outside⟩
  · rw [Loading.allocPagePointPhyc, run]
    rfl
  · rw [memory]
    exact ready
  · rw [memory]
    exact grows
  · rw [memory, supply, length_append]
    show taken.length + next.supply.length ≤ next.supply.length + 3
    omega

theorem Loaded.buffer_away (waiting : buffer ∈ loadNode) {rest : List Nat}
    (supply : s.mem.supply = taken ++ rest) {x : Nat} (inside : x < 4096) :
    ∀ new ∈ taken, ¬ InPage new (buffer + x) := by
  intro new member insideNew
  have inSupply : new ∈ s.mem.supply := supply ▸ mem_append_left _ member
  have same := inPage_unique (loaded.aligned buffer waiting) (loaded.ready.fresh new inSupply).1
    (a := buffer + x) ⟨by omega, by omega⟩ insideNew
  exact (List.nodup_append.mp loaded.distinct).2.2 buffer waiting new inSupply same

end

theorem Mapped.write {s'' : Loading} (step : Mapped s s' node node' base taken)
    (words : s''.words = s'.words) (supply : s''.mem.supply = s'.mem.supply)
    (inside : ∀ a, ¬ InPage base a → s''.mem.bytes a = s'.mem.bytes a) :
    Mapped s s'' node node' base taken where
  grows := by
    rw [words, supply]
    exact step.grows
  tables := step.tables
  aligned := step.aligned
  outside := by
    intro a away awayTaken
    rw [inside a away]
    exact step.outside a away awayTaken

end Round

/-- What the loader needs of a segment: the agreement of offset and address, user
addresses outside the boot map's leaves, and a start at a page boundary unless
file bytes fill the first page and the segment goes on behind it. -/
structure Fitting (ph : Phdr) : Prop where
  congruent : ph.pOffset % 4096 = ph.pVaddr % 4096
  sizes : ph.pFilesz ≤ ph.pMemsz
  small : ph.pMemsz + 8192 ≤ 2 ^ 31
  user : ph.pVaddr + ph.pMemsz ≤ 0x80200000 ∨
    (0x80c00000 ≤ ph.pVaddr ∧ ph.pVaddr + ph.pMemsz ≤ 2 ^ 38)
  start : ph.pMemsz = 0 ∨ ph.pVaddr % 4096 = 0 ∨
    (4096 - ph.pVaddr % 4096 ≤ ph.pFilesz ∧ 4096 - ph.pVaddr % 4096 < ph.pMemsz)

theorem Fitting.plain (fits : Fitting ph) {k : Nat} (inside : k < ph.pMemsz) :
    Plain (ph.pVaddr + k) := by
  have user := fits.user
  refine ⟨?_, ?_⟩
  · omega
  · omega

theorem page_of_mark (ph : Phdr) (j : Nat) : (ph.pVaddr + mark ph j) / 4096 = firstPage ph + j := by
  rw [mark, firstPage]
  omega

theorem asInt_small {n : Nat} (small : n < 2 ^ 31) : asInt n = n := by
  have word : n % 2 ^ 32 = n := Nat.mod_eq_of_lt (by omega)
  rw [asInt, word, if_pos small]

theorem mark_aligned (ph : Phdr) (j : Nat) (boundary : j ≠ 0 ∨ ph.pVaddr % 4096 = 0) :
    (ph.pVaddr + mark ph j) % 4096 = 0 ∧ mark ph (j + 1) = mark ph j + 4096 := by
  rw [mark, mark]
  omega

section Rounds
variable {pages : List (Phdr × Nat)}

def After (byte start : Nat → UInt8) (pgdir : Nat) (pages : List (Phdr × Nat))
    (spec : List (Nat × Nat)) (loadNode : List Nat) (before after : Loading) : Prop :=
  before.mem.supply.length ≤ after.mem.supply.length + 3 ∧
    ∃ node recorded, Loaded byte start pgdir pages spec loadNode after node recorded

section
variable (loaded : Loaded byte start pgdir pages spec loadNode s node recorded)
include loaded

theorem Loaded.loadAligned (plain : Plain (ph.pVaddr + mark ph j))
    (unmapped : recorded (firstPage ph + j) = none) (enough : 3 ≤ s.mem.supply.length)
    (boundary : j ≠ 0 ∨ ph.pVaddr % 4096 = 0)
    (first : spec = chunk ph j :: spec') (nodes : loadNode = buffer :: loadNode')
    (position : w.i = mark ph j) (state : w.state = s) : ∃ base s' node' taken,
    Elf.loadAligned ph pgdir (ph.pVaddr + mark ph j) buffer w = some (base, s') ∧
    Ready pgdir ⟨s'.words, s'.mem.supply⟩ node' (update recorded (firstPage ph + j) (some base)) ∧
    Mapped s s' node node' base taken ∧
    ((base ∈ taken ∧ loadNode' <:+ loadNode) ∨ loadNode = base :: loadNode') ∧
    s.mem.supply.length ≤ s'.mem.supply.length + 3 ∧ ∀ x < 4096, mark ph j + x < ph.pFilesz →
      s'.mem.bytes (base + x) = byte (ph.pOffset + mark ph j + x) := by
  have number := page_of_mark ph j
  obtain ⟨offset, next⟩ := mark_aligned ph j boundary
  have hold : ChunkAt byte s.mem.bytes (chunk ph j) buffer := by
    have buffers := loaded.buffers
    rw [first, nodes] at buffers
    exact (forall₂_cons.mp buffers).1
  have inNodes : buffer ∈ loadNode := nodes ▸ mem_cons_self
  have bufferAligned := loaded.aligned buffer inNodes
  have chunkByte : ∀ x < 4096, mark ph j + x < ph.pFilesz →
      s.mem.bytes (buffer + x) = byte (ph.pOffset + mark ph j + x) := by
    intro x page inside
    refine hold.2 x ?_
    rw [chunk, next]
    omega
  rw [Elf.loadAligned, state, position]
  by_cases readOnly : ph.pFlags &&& pfW = 0
  · obtain ⟨s', node', taken, run, ready, step, less, outside⟩ :=
      loaded.point plain bufferAligned enough
    rw [number] at ready
    refine ⟨buffer, s', node', taken, ?_, ready, step, .inr nodes, less, ?_⟩
    · rw [if_pos readOnly, run]
      rfl
    · intro x page inside
      rw [outside _ (loaded.buffer_away inNodes step.grows.supply page)]
      exact chunkByte x page inside
  · rw [← number] at unmapped
    obtain ⟨base, s', node', taken, run, ready, step, inTaken, less, -, outside⟩ :=
      loaded.alloc plain unmapped enough
    rw [number] at ready
    refine ⟨base, s'.kmemcpy base buffer (min (ph.pFilesz - mark ph j) 4096), node', taken,
      ?_, ready, step.write rfl rfl ?_, .inl ⟨inTaken, nodes ▸ suffix_cons _ _⟩, less, ?_⟩
    · rw [if_neg readOnly, run, offset]
      rfl
    · intro a away
      rw [kmemcpy_bytes, if_neg]
      rw [InPage] at away
      omega
    · intro x page inside
      rw [kmemcpy_bytes, if_pos (by omega), Nat.add_sub_cancel_left,
        outside _ (loaded.buffer_away inNodes step.grows.supply page)]
      exact chunkByte x page inside

theorem Loaded.fileRound (fits : Fitting ph) (unmapped : recorded (firstPage ph + j) = none)
    (enough : 3 ≤ s.mem.supply.length) (boundary : j ≠ 0 ∨ ph.pVaddr % 4096 = 0)
    (inFile : mark ph j < ph.pFilesz) (first : spec = chunk ph j :: spec')
    (nodes : loadNode = buffer :: loadNode') (position : w.i = mark ph j)
    (state : w.state = s) (waiting : w.loadNode = loadNode) :
    ∃ after, loadPage ph pgdir w = some ⟨mark ph (j + 1), false, loadNode', after⟩ ∧
      After byte start pgdir (pages ++ [(ph, j)]) spec' loadNode' s after := by
  have sizes := fits.sizes
  have small := fits.small
  have plain := fits.plain (Nat.lt_of_lt_of_le inFile sizes)
  obtain ⟨offset, next⟩ := mark_aligned ph j boundary
  have whole : round (ph.pVaddr + mark ph j) - (ph.pVaddr + mark ph j) = 0 := by
    rw [round]
    omega
  have following : asInt (mark ph j + 4096) = mark ph (j + 1) := by
    rw [next]
    exact asInt_small (by omega)
  obtain ⟨base, s', node', taken, run, ready, step, source, less, bytes⟩ :=
    loaded.loadAligned plain unmapped enough boundary first nodes position state
  have buffers : List.Forall₂ (ChunkAt byte s.mem.bytes) spec' loadNode' := by
    have all := loaded.buffers
    rw [first, nodes] at all
    exact (forall₂_cons.mp all).2
  have blank : ph.pFilesz - mark ph j < 4096 →
      (ph.pVaddr + ph.pFilesz) % 4096 = ph.pFilesz - mark ph j := by
    intro short
    omega
  have place : ∀ k, mark ph j ≤ k → k < mark ph (j + 1) →
      (ph.pVaddr + k) % 4096 = k - mark ph j := by
    intro k low high
    omega
  have cut : ∀ k, mark ph j ≤ k → ph.pOffset + mark ph j + (k - mark ph j) = ph.pOffset + k := by
    intro k low
    omega
  refine ⟨if ph.pFilesz - mark ph j < 4096 then s'.fillBlank base ph else s', ?_, ?_, node',
    update recorded (firstPage ph + j) (some base), ?_⟩
  · rw [loadPage, position, waiting, nodes, plain.word, if_pos inFile]
    simp [whole, run, following, bind_eq_bind, bind_some]
  · split <;> exact less
  · by_cases short : ph.pFilesz - mark ph j < 4096
    · rw [if_pos short]
      refine loaded.add unmapped ready (step.write rfl rfl ?_) source buffers ?_
      · intro a away
        rw [Loading.fillBlank, zero_bytes, if_neg]
        rw [InPage] at away
        omega
      · intro k low high inside
        rw [Loading.fillBlank, zero_bytes, blank short, place k low high, content]
        by_cases inner : k < ph.pFilesz
        · rw [if_neg (by omega), if_pos inner, bytes (k - mark ph j) (by omega) (by omega),
            cut k low]
        · rw [if_pos (by omega), if_neg inner]
    · rw [if_neg short]
      refine loaded.add unmapped ready step source buffers ?_
      intro k low high inside
      have inner : k < ph.pFilesz := by omega
      rw [place k low high, content, if_pos inner, bytes (k - mark ph j) (by omega) (by omega),
        cut k low]

theorem Loaded.firstRound (fits : Fitting ph) (unmapped : recorded (firstPage ph + 0) = none)
    (enough : 3 ≤ s.mem.supply.length) (inner : ph.pVaddr % 4096 ≠ 0) (some_left : 0 < ph.pMemsz)
    (first : spec = chunk ph 0 :: spec') (nodes : loadNode = buffer :: loadNode')
    (position : w.i = mark ph 0) (state : w.state = s) (waiting : w.loadNode = loadNode) :
    ∃ after, loadPage ph pgdir w = some ⟨mark ph 1, true, loadNode', after⟩ ∧
      After byte start pgdir (pages ++ [(ph, 0)]) spec' loadNode' s after := by
  have plain := fits.plain some_left
  have fills : 4096 - ph.pVaddr % 4096 ≤ ph.pFilesz := by
    rcases fits.start with zero | boundary | ⟨fills, -⟩
    · omega
    · exact absurd boundary inner
    · exact fills
  have one : mark ph 1 = 4096 - ph.pVaddr % 4096 := by rw [mark]
  have remain : round (ph.pVaddr + 0) - (ph.pVaddr + 0) = mark ph 1 := by
    rw [round, one]
    omega
  have inFile : 0 < ph.pFilesz := by omega
  have copied : min (ph.pFilesz - 0) (mark ph 1) = mark ph 1 := by omega
  have following : asInt (0 + mark ph 1) = mark ph 1 := by
    rw [Nat.zero_add]
    exact asInt_small (by omega)
  have buffers := loaded.buffers
  rw [first, nodes] at buffers
  obtain ⟨hold, later⟩ := forall₂_cons.mp buffers
  have inNodes : buffer ∈ loadNode := nodes ▸ mem_cons_self
  have number : (ph.pVaddr + 0) / 4096 = firstPage ph + 0 := rfl
  rw [mark_zero] at position
  rw [← number] at unmapped
  obtain ⟨base, s', node', taken, run, ready, step, inTaken, less, -, outside⟩ :=
    loaded.alloc plain unmapped enough
  rw [number] at ready unmapped
  have enter : ¬ (mark ph 1 = 0) := by omega
  have stay : ¬ (ph.pFilesz - 0 < mark ph 1) := by omega
  refine ⟨s'.kmemcpy (base + (ph.pVaddr + 0) % 4096) buffer (mark ph 1), ?_, less, node',
    update recorded (firstPage ph + 0) (some base), ?_⟩
  · rw [loadPage, position, waiting, nodes, state, plain.word, if_pos inFile]
    simp only [remain, if_neg enter, run, copied, if_neg stay, following, bind_eq_bind, bind_some]
  · refine loaded.add unmapped ready (step.write rfl rfl ?_)
      (.inl ⟨inTaken, nodes ▸ suffix_cons _ _⟩) later ?_
    · intro a away
      rw [kmemcpy_bytes, if_neg]
      rw [InPage] at away
      omega
    · intro k low high inside
      have short : k < mark ph 1 := high
      have place : (ph.pVaddr + k) % 4096 = (ph.pVaddr + 0) % 4096 + k := by omega
      have inCut : k < min ph.pFilesz (mark ph 1) - mark ph 0 := by
        rw [mark_zero]
        omega
      rw [kmemcpy_bytes, if_pos (by omega), place,
        show base + ((ph.pVaddr + 0) % 4096 + k) - (base + (ph.pVaddr + 0) % 4096) = k by omega,
        outside _ (loaded.buffer_away inNodes step.grows.supply (by omega)), hold.2 k inCut,
        content, if_pos (by omega), chunk, mark_zero]
      rfl

theorem Loaded.bssRound (fits : Fitting ph) (unmapped : recorded (firstPage ph + j) = none)
    (enough : 3 ≤ s.mem.supply.length) (boundary : j ≠ 0 ∨ ph.pVaddr % 4096 = 0)
    (behind : ph.pFilesz ≤ mark ph j) (inMemory : mark ph j < ph.pMemsz)
    (position : w.i = mark ph j) (state : w.state = s) (waiting : w.loadNode = loadNode) :
    ∃ after, loadPage ph pgdir w = some ⟨mark ph (j + 1), false, loadNode, after⟩ ∧
      After byte start pgdir (pages ++ [(ph, j)]) spec loadNode s after := by
  have small := fits.small
  have plain := fits.plain inMemory
  obtain ⟨offset, next⟩ := mark_aligned ph j boundary
  have number := page_of_mark ph j
  have following : asInt (mark ph j + 4096) = mark ph (j + 1) := by
    rw [next]
    exact asInt_small (by omega)
  rw [← number] at unmapped
  obtain ⟨base, s', node', taken, run, ready, step, inTaken, less, cleared, -⟩ :=
    loaded.alloc plain unmapped enough
  rw [number] at ready unmapped
  rw [offset, Nat.add_zero] at run
  have whole : base &&& 0xfff = 0 := by
    obtain ⟨frame, -, shape⟩ := (kernelPage_iff base).mp step.aligned
    rw [show (0xfff : Nat) = 2 ^ 12 - 1 from rfl, and_mask]
    omega
  refine ⟨s'.zero (base + 8 * 0) (base + 4096), ?_, less, node',
    update recorded (firstPage ph + j) (some base), ?_⟩
  · rw [loadPage, position, waiting, state, plain.word, if_neg (by omega)]
    simp [run, whole, following, bind_eq_bind, bind_some]
  · refine loaded.add unmapped ready (step.write rfl rfl ?_)
      (.inl ⟨inTaken, suffix_refl _⟩) loaded.buffers ?_
    · intro a away
      rw [zero_bytes, if_neg]
      rw [InPage] at away
      omega
    · intro k low high inside
      rw [zero_bytes, if_pos (by omega), content, if_neg (by omega)]

end
end Rounds

/-- The pages of a segment. -/
def segmentPages (ph : Phdr) : List (Phdr × Nat) :=
  (List.range (rounds ph ph.pMemsz)).map fun j => (ph, j)

structure WalkBefore (byte start : Nat → UInt8) (pgdir : Nat) (pages : List (Phdr × Nat))
    (rest : List (Nat × Nat)) (extra : Nat) (ph : Phdr) (j : Nat) (w : Walk) : Prop where
  position : w.i = mark ph j
  again : w.again = true → j = 1 ∧ ph.pVaddr % 4096 ≠ 0
  loaded : ∃ node recorded, Loaded byte start pgdir
    (pages ++ (List.range j).map fun j => (ph, j)) ((chunks ph).drop j ++ rest) w.loadNode
    w.state node recorded
  supply : 3 * (rounds ph ph.pMemsz - j) + extra ≤ w.state.mem.supply.length

theorem chunks_drop (ph : Phdr) (j : Nat) (inFile : mark ph j < ph.pFilesz) :
    (chunks ph).drop j = chunk ph j :: (chunks ph).drop (j + 1) := by
  have bound : j < (chunks ph).length := by
    rw [chunks_length]
    exact (mark_lt_iff ph j _).mp inFile
  rw [drop_eq_getElem_cons bound]
  simp [chunks]

theorem chunks_drop_past (ph : Phdr) (j : Nat) (behind : ph.pFilesz ≤ mark ph j) :
    (chunks ph).drop j = [] := by
  apply drop_eq_nil_of_le
  rw [chunks_length]
  by_contra short
  exact absurd ((mark_lt_iff ph j _).mpr (Nat.lt_of_not_le short)) (Nat.not_lt.mpr behind)

section Segment
variable {pages : List (Phdr × Nat)} {rest : List (Nat × Nat)} {extra : Nat}

theorem Loaded.unmapped
    (loaded : Loaded byte start pgdir (pages ++ (List.range j).map fun j => (ph, j)) spec
      loadNode s node recorded)
    (apart : ∀ item ∈ pages, firstPage item.1 + item.2 ≠ firstPage ph + j) :
    recorded (firstPage ph + j) = none := by
  by_contra present
  obtain ⟨base, found⟩ := ne_none_iff_exists'.mp present
  obtain ⟨-, -, -, item, member, number⟩ := loaded.mapped _ base found
  rcases mem_append.mp member with earlier | own
  · exact apart item earlier number.symm
  · obtain ⟨j', inRange, rfl⟩ := mem_map.mp own
    have := mem_range.mp inRange
    have same : firstPage ph + j = firstPage ph + j' := number
    omega

theorem walk_step (fits : Fitting ph) (apart : ∀ item ∈ pages, ∀ j < rounds ph ph.pMemsz,
      firstPage item.1 + item.2 ≠ firstPage ph + j) (j : Nat) (w : Walk)
    (more : j < rounds ph ph.pMemsz) (now : WalkBefore byte start pgdir pages rest extra ph j w) :
    (w.again || decide (w.i < ph.pMemsz)) = true ∧ ∃ w', loadPage ph pgdir w = some w' ∧
      WalkBefore byte start pgdir pages rest extra ph (j + 1) w' := by
  have inMemory : mark ph j < ph.pMemsz := (mark_lt_iff ph j _).mpr more
  have position := now.position
  have supply := now.supply
  have enough : 3 ≤ w.state.mem.supply.length := by omega
  obtain ⟨node, recorded, loaded⟩ := now.loaded
  have unmapped := loaded.unmapped fun item member => apart item member j more
  have tested : (w.again || decide (w.i < ph.pMemsz)) = true := by
    rw [position, decide_eq_true inMemory, Bool.or_true]
  have finish : ∀ (again : Bool) (loadNode' : List Nat) (after : Loading),
      (again = true → j + 1 = 1 ∧ ph.pVaddr % 4096 ≠ 0) →
      After byte start pgdir ((pages ++ (List.range j).map fun j => (ph, j)) ++ [(ph, j)])
        ((chunks ph).drop (j + 1) ++ rest) loadNode' w.state after →
      WalkBefore byte start pgdir pages rest extra ph (j + 1)
        ⟨mark ph (j + 1), again, loadNode', after⟩ := by
    rintro again loadNode' after jumped ⟨less, node', recorded', next⟩
    refine ⟨rfl, jumped, ⟨node', recorded', ?_⟩, ?_⟩
    · rw [range_succ, map_append, ← append_assoc]
      exact next
    · show _ ≤ after.mem.supply.length
      omega
  refine ⟨tested, ?_⟩
  by_cases inFile : mark ph j < ph.pFilesz
  · -- a page with bytes of the file takes the next buffer
    have spec := chunks_drop ph j inFile
    have buffers := loaded.buffers
    rw [spec, cons_append] at buffers
    obtain ⟨buffer, loadNode', -, -, nodes⟩ := forall₂_cons_left_iff.mp buffers
    by_cases boundary : j ≠ 0 ∨ ph.pVaddr % 4096 = 0
    · obtain ⟨after, run, result⟩ := loaded.fileRound fits unmapped enough boundary inFile
        (by rw [spec, cons_append]) nodes position rfl rfl
      exact ⟨_, run, finish false loadNode' after nofun result⟩
    · obtain ⟨rfl, inner⟩ : j = 0 ∧ ph.pVaddr % 4096 ≠ 0 := by omega
      obtain ⟨after, run, result⟩ := loaded.firstRound fits unmapped enough inner
        (Nat.lt_of_le_of_lt (Nat.zero_le _) inMemory)
        (by rw [spec, cons_append]) nodes position rfl rfl
      exact ⟨_, run, finish true loadNode' after (fun _ => ⟨rfl, inner⟩) result⟩
  · have behind : ph.pFilesz ≤ mark ph j := Nat.le_of_not_lt inFile
    have boundary : j ≠ 0 ∨ ph.pVaddr % 4096 = 0 := by
      rcases fits.start with zero | aligned | ⟨fills, -⟩
      · omega
      · exact .inr aligned
      · left
        rintro rfl
        rw [mark_zero] at behind
        have : ph.pVaddr % 4096 < 4096 := Nat.mod_lt _ (by decide)
        omega
    obtain ⟨after, run, result⟩ := loaded.bssRound fits unmapped enough boundary behind
      inMemory position rfl rfl
    refine ⟨_, run, finish false w.loadNode after nofun ?_⟩
    have past := mark_lt_succ ph j
    rw [chunks_drop_past ph j behind] at result
    rw [chunks_drop_past ph (j + 1) (by omega)]
    exact result

theorem walk_stop (fits : Fitting ph) (w : Walk)
    (last : WalkBefore byte start pgdir pages rest extra ph (rounds ph ph.pMemsz) w) :
    (w.again || decide (w.i < ph.pMemsz)) = false := by
  have past : ¬ w.i < ph.pMemsz := by
    rw [last.position]
    exact fun more => Nat.lt_irrefl _ ((mark_lt_iff ph _ _).mp more)
  have noJump : w.again = false := by
    by_contra jump
    obtain ⟨one, inner⟩ := last.again (by simpa using jump)
    rw [last.position, one, mark] at past
    rw [rounds] at one
    rcases fits.start with zero | aligned | ⟨-, longer⟩
    · rw [if_pos zero] at one
      cases one
    · exact inner aligned
    · omega
  rw [noJump, decide_eq_false past]
  rfl

theorem rounds_mono (ph : Phdr) {size size' : Nat} (le : size ≤ size') :
    rounds ph size ≤ rounds ph size' := by
  rw [rounds, rounds]
  split <;> split <;> omega

theorem loadSegment_spec (fits : Fitting ph) (apart : ∀ item ∈ pages, ∀ j < rounds ph ph.pMemsz,
      firstPage item.1 + item.2 ≠ firstPage ph + j)
    (loaded : ∃ node recorded, Loaded byte start pgdir pages (chunks ph ++ rest) loadNode s
      node recorded) (enough : 3 * rounds ph ph.pMemsz + extra ≤ s.mem.supply.length) :
    ∃ loadNode' s', loadSegment pgdir (loadNode, s) ph = some (loadNode', s') ∧
      (∃ node recorded, Loaded byte start pgdir (pages ++ segmentPages ph) rest loadNode' s'
        node recorded) ∧ extra ≤ s'.mem.supply.length := by
  have begin : WalkBefore byte start pgdir pages rest extra ph 0 ⟨0, false, loadNode, s⟩ := by
    refine ⟨(mark_zero ph).symm, nofun, ?_, enough⟩
    simpa using loaded
  have few : rounds ph ph.pMemsz ≤ 0 + (ph.pMemsz + 2) := by
    rw [rounds]
    split <;> omega
  obtain ⟨w, run, last⟩ :=
    whileLoop_counted (walk_step fits apart) (walk_stop fits) few (Nat.zero_le _) begin
  refine ⟨w.loadNode, w.state, ?_, ?_, ?_⟩
  · rw [loadSegment, run]
    rfl
  · have empty : (chunks ph).drop (rounds ph ph.pMemsz) = [] := by
      apply drop_eq_nil_of_le
      rw [chunks_length]
      exact rounds_mono ph fits.sizes
    have final := last.loaded
    rw [empty] at final
    exact final
  · have := last.supply
    omega

end Segment

/-! ## The whole file -/

/-- The segments touch no page in common. -/
def PagesApart (a b : Phdr) : Prop :=
  a.pMemsz = 0 ∨ b.pMemsz = 0 ∨ (a.pVaddr + a.pMemsz - 1) / 4096 < b.pVaddr / 4096 ∨
    (b.pVaddr + b.pMemsz - 1) / 4096 < a.pVaddr / 4096

instance (a b : Phdr) : Decidable (PagesApart a b) := inferInstanceAs (Decidable (_ ∨ _))

theorem PagesApart.pages {a b : Phdr} (apart : PagesApart a b) {i : Nat}
    (inA : i < rounds a a.pMemsz) (inB : j < rounds b b.pMemsz) :
    firstPage a + i ≠ firstPage b + j := by
  rw [rounds] at inA inB
  rw [firstPage, firstPage]
  rcases apart with emptyA | emptyB | before | after
  · rw [if_pos emptyA] at inA
    omega
  · rw [if_pos emptyB] at inB
    omega
  · split at inA
    · omega
    · omega
  · split at inB
    · omega
    · omega

theorem loadSegments_spec (segs : List Phdr)
    (fits : ∀ ph ∈ segs, Fitting ph) (disjoint : segs.Pairwise PagesApart)
    (pages : List (Phdr × Nat)) (apart : ∀ item ∈ pages, ∀ ph ∈ segs, ∀ j < rounds ph ph.pMemsz,
      firstPage item.1 + item.2 ≠ firstPage ph + j)
    (loaded : ∃ node recorded, Loaded byte start pgdir pages (segs.flatMap chunks) loadNode s
      node recorded)
    (enough : (segs.map fun ph => 3 * rounds ph ph.pMemsz).sum ≤ s.mem.supply.length) :
    ∃ final, segs.foldlM (loadSegment pgdir) (loadNode, s) = some final ∧
      ∃ node recorded, Loaded byte start pgdir (pages ++ segs.flatMap segmentPages) []
        final.1 final.2 node recorded := by
  induction segs generalizing pages loadNode s with
  | nil => exact ⟨(loadNode, s), rfl, by simpa using loaded⟩
  | cons ph later ih =>
    rw [flatMap_cons] at loaded
    rw [map_cons, sum_cons] at enough
    obtain ⟨fromPh, disjointLater⟩ := pairwise_cons.mp disjoint
    obtain ⟨loadNode', s', run, next, left⟩ := loadSegment_spec (fits ph mem_cons_self)
      (fun item member => apart item member ph mem_cons_self) loaded enough
    have apartLater : ∀ item ∈ pages ++ segmentPages ph, ∀ other ∈ later,
        ∀ j < rounds other other.pMemsz, firstPage item.1 + item.2 ≠ firstPage other + j := by
      intro item member other otherMember j inside
      rcases mem_append.mp member with earlier | own
      · exact apart item earlier other (mem_cons_of_mem _ otherMember) j inside
      · obtain ⟨i, inRange, rfl⟩ := mem_map.mp own
        exact (fromPh other otherMember).pages (mem_range.mp inRange) inside
    obtain ⟨final, restRun, result⟩ := ih
      (fun other member => fits other (mem_cons_of_mem _ member)) disjointLater
      (pages ++ segmentPages ph) apartLater next left
    refine ⟨final, ?_, ?_⟩
    · rw [foldlM_cons, run]
      exact restRun
    · rw [flatMap_cons, ← append_assoc]
      exact result

/-- What the law assumes of a file. -/
structure WellFormed (file : ElfFile) : Prop where
  congruent : ∀ ph ∈ file.segments, ph.pOffset % 4096 = ph.pVaddr % 4096
  sizes : ∀ ph ∈ file.segments, ph.pFilesz ≤ ph.pMemsz
  apart : file.segments.Pairwise PagesApart

/-- What the loader needs beyond that. -/
structure Loadable (file : ElfFile) : Prop where
  few : file.segments.length ≤ 2
  small : ∀ ph ∈ file.segments, ph.pMemsz + 8192 ≤ 2 ^ 31
  user : ∀ ph ∈ file.segments, ph.pVaddr + ph.pMemsz ≤ 0x80200000 ∨
    (0x80c00000 ≤ ph.pVaddr ∧ ph.pVaddr + ph.pMemsz ≤ 2 ^ 38)
  start : ∀ ph ∈ file.segments, ph.pMemsz = 0 ∨ ph.pVaddr % 4096 = 0 ∨
    (4096 - ph.pVaddr % 4096 ≤ ph.pFilesz ∧ 4096 - ph.pVaddr % 4096 < ph.pMemsz)

def pagesNeeded (file : ElfFile) : Nat :=
  (file.segments.flatMap chunks).length + (file.segments.map fun ph => 3 * rounds ph ph.pMemsz).sum

/-- Every address of a segment holds its byte of the file, or zero behind them. -/
def HoldsImage (file : ElfFile) (pgdir : Nat) (s : Loading) : Prop :=
  ∀ ph ∈ file.segments, ∀ k < ph.pMemsz, getKvaOf s.words (ph.pVaddr + k) pgdir ≠ 0 ∧
    s.mem.bytes (getKvaOf s.words (ph.pVaddr + k) pgdir) = content file.byte ph k

/-- The bytes that changed are in pages mapped into the table or in its tables. -/
def ChangesOwn (pgdir : Nat) (start : Nat → UInt8) (s : Loading) : Prop :=
  ∀ a, s.mem.bytes a ≠ start a → (∃ va < 2 ^ 38, getKvaOf s.words va pgdir ≠ 0 ∧
      InPage (getKvaOf s.words va pgdir / 4096 * 4096) a) ∨
    ∃ page, TablePage s.words pgdir page ∧ InPage page a

theorem Loaded.translation {pages : List (Phdr × Nat)}
    (loaded : Loaded byte start pgdir pages spec loadNode s node recorded)
    (plain : Plain va) (found : recorded (va / 4096) = some base) :
    getKvaOf s.words va pgdir = base + va % 4096 ∧ KernelPage base := by
  have holds : Holds pgdir ⟨s.words, recorded⟩ := ⟨node, loaded.ready.tree⟩
  have here := holds.translates.kva_eq plain
  refine ⟨?_, (loaded.mapped _ base found).1⟩
  rw [here]
  simp [found]

theorem kernelPage_pos {page : Nat} (aligned : KernelPage page) : 0 < page ∧ page % 4096 = 0 := by
  obtain ⟨frame, -, rfl⟩ := (kernelPage_iff page).mp aligned
  omega

theorem Loaded.image {segs : List Phdr}
    (loaded : Loaded byte start pgdir (segs.flatMap segmentPages) spec loadNode s node recorded)
    (fits : ∀ ph ∈ segs, Fitting ph) (ph : Phdr) (member : ph ∈ segs) (k : Nat)
    (inside : k < ph.pMemsz) : getKvaOf s.words (ph.pVaddr + k) pgdir ≠ 0 ∧
    s.mem.bytes (getKvaOf s.words (ph.pVaddr + k) pgdir) = content byte ph k := by
  -- the page of the address
  have low : mark ph ((ph.pVaddr % 4096 + k) / 4096) ≤ k := by
    rw [mark]
    omega
  have high : k < mark ph ((ph.pVaddr % 4096 + k) / 4096 + 1) := by
    rw [mark]
    omega
  have item : (ph, (ph.pVaddr % 4096 + k) / 4096) ∈ segs.flatMap segmentPages := by
    refine mem_flatMap.mpr ⟨ph, member, mem_map.mpr ⟨_, mem_range.mpr ?_, rfl⟩⟩
    exact (mark_lt_iff ph _ _).mp (by omega)
  obtain ⟨base, found, bytes⟩ := loaded.done _ item
  have number : (ph.pVaddr + k) / 4096 = firstPage ph + (ph.pVaddr % 4096 + k) / 4096 := by
    rw [firstPage]
    omega
  rw [← number] at found
  obtain ⟨address, aligned⟩ := loaded.translation ((fits ph member).plain inside) found
  have positive := (kernelPage_pos aligned).1
  rw [address]
  exact ⟨by omega, bytes k low high inside⟩

theorem Loaded.changesOwn {segs : List Phdr}
    (loaded : Loaded byte start pgdir (segs.flatMap segmentPages) spec loadNode s node recorded)
    (fits : ∀ ph ∈ segs, Fitting ph) : ChangesOwn pgdir start s := by
  intro a changed
  rcases loaded.frame a changed with ⟨v, base, found, inside⟩ | ⟨path, page, found, inside⟩
  · left
    obtain ⟨-, -, -, item, member, rfl⟩ := loaded.mapped v base found
    obtain ⟨ph, inSegs, own⟩ := mem_flatMap.mp member
    obtain ⟨j, inRange, rfl⟩ := mem_map.mp own
    have inMemory := (mark_lt_iff ph j _).mpr (mem_range.mp inRange)
    have plain := (fits ph inSegs).plain inMemory
    rw [← page_of_mark ph j] at found
    obtain ⟨address, aligned⟩ := loaded.translation plain found
    have shape := kernelPage_pos aligned
    have page : (base + (ph.pVaddr + mark ph j) % 4096) / 4096 * 4096 = base := by omega
    refine ⟨ph.pVaddr + mark ph j, plain.1, ?_, ?_⟩
    · rw [address]
      omega
    · rw [address, page]
      exact inside
  · exact .inr ⟨page, loaded.ready.tree.tablePage path page found, inside⟩

/-- With enough free pages, preloading a file and loading it into a new page table
gives the image of its segments and changes no other page. -/
theorem load_gives_image (file : ElfFile) (load : ExeLoad) (w : Words) (pgdir : Nat)
    (bytes : Nat → UInt8) (supply : List Nat) (boot : BootMap w) (aligned : KernelPage pgdir)
    (fresh : ¬ TablePage w kernelPgdir pgdir)
    (freshSupply : FreshSupply (sharePgtable w pgdir).words pgdir supply)
    (empty : load.list = []) (wellFormed : WellFormed file) (loadable : Loadable file)
    (enough : pagesNeeded file ≤ supply.length) :
    ∃ load' m entry s, doPreElf file load ⟨bytes, supply⟩ = some (load', m) ∧
      fastLoadElf load' pgdir ⟨m, (sharePgtable w pgdir).words⟩ = some (entry, s) ∧
      HoldsImage file pgdir s ∧ ChangesOwn pgdir m.bytes s ∧
      ∀ a, m.bytes a ≠ bytes a → ∃ buffer ∈ load'.list, InPage buffer a := by
  have fits : ∀ ph ∈ file.segments, Fitting ph := fun ph member =>
    ⟨wellFormed.congruent ph member, wellFormed.sizes ph member, loadable.small ph member,
      loadable.user ph member, loadable.start ph member⟩
  rw [pagesNeeded] at enough
  obtain ⟨load', m, preRun, count, headers, took⟩ := doPreElf_spec file load ⟨bytes, supply⟩
    empty freshSupply.1 (fun page member => (freshSupply.2 page member).1)
    wellFormed.congruent loadable.few (by show _ ≤ supply.length; omega)
  have split : supply = load'.list ++ m.supply := took.supply
  obtain ⟨node, tree⟩ := sharePgtable_holds w pgdir boot aligned fresh
  have freshRest : FreshSupply (sharePgtable w pgdir).words pgdir m.supply := by
    refine ⟨?_, fun page member => freshSupply.2 page ?_⟩
    · exact (List.nodup_append.mp (split ▸ freshSupply.1)).2.1
    · exact split ▸ mem_append_right _ member
  have begin : Loaded file.byte m.bytes pgdir [] (file.segments.flatMap chunks) load'.list
      ⟨m, (sharePgtable w pgdir).words⟩ node (sharePgtable w pgdir).recorded := by
    refine ⟨tree.ready m.supply freshRest, ?_, split ▸ freshSupply.1, ?_, ?_, took.hold, ?_, ?_⟩
    · intro buffer member
      exact (freshSupply.2 buffer (split ▸ mem_append_left _ member)).1
    · intro v base found
      cases found
    · intro v v' base found
      cases found
    · intro item member
      cases member
    · intro a changed
      exact absurd rfl changed
  have left : (file.segments.map fun ph => 3 * rounds ph ph.pMemsz).sum ≤ m.supply.length := by
    have total := congrArg List.length split
    rw [length_append, ← took.hold.length_eq] at total
    omega
  obtain ⟨final, run, node', recorded, loaded⟩ := loadSegments_spec file.segments fits
    wellFormed.apart [] nofun ⟨node, _, begin⟩ left
  refine ⟨load', m, load'.elf.entry, final.2, preRun, ?_, ?_, ?_, ?_⟩
  · rw [fastLoadElf, count, headers, run]
    rfl
  · exact fun ph member k inside => loaded.image fits ph member k inside
  · exact loaded.changesOwn fits
  · intro a changed
    by_contra nowhere
    refine changed (took.frame a fun buffer member inside => nowhere ⟨buffer, member, inside⟩)

def freeLoad : ExeLoad := ⟨[], fun _ => ⟨0, 0, 0, 0, 0, 0, 0, 0⟩, 0, ⟨0, 0, 0, 0, 0, 0⟩, false⟩

def freePages (count : Nat) : List Nat :=
  (List.range count).map fun k => 0xffffffc080311000 + k * 4096

/-- Writable data of `0x100` bytes in the middle of a page, with memory that ends
in the next page. -/
def smallData : ElfFile :=
  ⟨64, 56, 0x10000, [⟨1, 6, 0x800, 0x10800, 0, 0x100, 0x1000, 4096⟩], fun a => UInt8.ofNat a⟩

/-- The second page of the segment is not mapped, and the blank is filled in from
an address inside the page up to the middle of the next physical page, which is not
the process's own. -/
theorem small_data_spoiled : WellFormed smallData ∧
    ∃ load m entry s, doPreElf smallData freeLoad ⟨fun _ => 7, freePages 4⟩ = some (load, m) ∧
      fastLoadElf load 0xffffffc080310000
        ⟨m, (sharePgtable bootMemory 0xffffffc080310000).words⟩ = some (entry, s) ∧
      ¬ HoldsImage smallData 0xffffffc080310000 s ∧
      getKvaOf s.words 0x10800 0xffffffc080310000 = 0xffffffc080314800 ∧
      m.bytes 0xffffffc080315100 = 7 ∧ s.mem.bytes 0xffffffc080315100 = 0 := by
  refine ⟨⟨by decide, by decide, by decide⟩, ?_⟩
  have result : ((doPreElf smallData freeLoad ⟨fun _ => 7, freePages 4⟩).bind fun pre =>
      (fastLoadElf pre.1 0xffffffc080310000
        ⟨pre.2, (sharePgtable bootMemory 0xffffffc080310000).words⟩).map fun final =>
          (getKvaOf final.2.words 0x11000 0xffffffc080310000,
            getKvaOf final.2.words 0x10800 0xffffffc080310000,
            pre.2.bytes 0xffffffc080315100, final.2.mem.bytes 0xffffffc080315100)) =
      some (0, 0xffffffc080314800, 7, 0) := by decide +kernel
  obtain ⟨⟨load, m⟩, preRun, rest⟩ := bind_eq_some_iff.mp result
  obtain ⟨⟨entry, s⟩, run, values⟩ := map_eq_some_iff.mp rest
  simp only [Prod.mk.injEq] at values
  obtain ⟨unmapped, first, before, after⟩ := values
  refine ⟨load, m, entry, s, preRun, run, ?_, first, before, after⟩
  intro image
  exact (image _ mem_cons_self 0x800 (by decide)).1 unmapped

end CCore.Elf
