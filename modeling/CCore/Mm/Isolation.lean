import CCore.Mm.Faults

/-!
# Copy-on-write isolation

Next to the machine runs a memory for each process that no other process can
reach: a store changes only the memory of the process that makes it, a clone
copies the parent's, and what was never stored is zero.  `isolated_along` says
that the processes read exactly these memories in every state of a run, for runs
that stay clear of three things: addresses in the kernel's root slots, a
`share_num` that would wrap around, and a copy that has to wait for a free page.
-/
namespace CCore.Mm

open Run Holders Function List Option Mem Bool
open Relation (ReflTransGen)

/-- What process `p` reads at an address, if the page is mapped. -/
def Mem.read (m : Mem) (p va : Nat) : Option Nat :=
  (getPTEOf m p (va / 4096)).map fun e => m.bytes e.frame (va % 4096)

/-- The machine and the memories the processes would have on their own. -/
structure World where
  sys : Sys
  mine : Nat → Nat → Nat

/-- The memories after a step: a store counts when it finds its page writable, a
clone when it returns. -/
def World.expect (w : World) (next : Sys) : Act → Nat → Nat → Nat
  | .store p va value =>
    if (getPTEOf w.sys.mem p (va / 4096)).any Pte.write then
      update w.mine p (update (w.mine p) va value)
    else w.mine
  | .clone p c => if next.life c = .live .user then update w.mine c (w.mine p) else w.mine
  | .resume p =>
    match w.sys.life p with
    | .live (.clone c _) => if next.life c = .live .user then update w.mine c (w.mine p) else w.mine
    | _ => w.mine
  | .load _ _ | .exit _ => w.mine

theorem World.expect_store (w : World) (next : Sys) (p va value : Nat) :
    w.expect next (.store p va value) = if (getPTEOf w.sys.mem p (va / 4096)).any Pte.write then
        update w.mine p (update (w.mine p) va value) else w.mine := rfl

def watch (load : ExeLoad) (w : World) (a : Act) : Option World :=
  (step load w.sys a).map fun next => ⟨next, w.expect next a⟩

/-- Every process reads its own memory. -/
def Isolated (w : World) : Prop :=
  ∀ p task, w.sys.life p = .live task →
    ∀ va value, w.sys.mem.read p va = some value → value = w.mine p va

/-- The pages that a clone of `p` has still to share with `c` can take one more
share. -/
def Room (m : Mem) (p c : Nat) : Prop :=
  ∀ page e, m.entry (.leaf (.user p) page) = some e →
    m.entry (.leaf (.user c) page) = none → m.shareNum e.frame < 255

/-- The steps that keep the processes apart. -/
def Safe (w : World) : Act → Prop
  | .load _ va => kernelBase (va / 2 ^ 30) = false
  | .store p va _ => kernelBase (va / 2 ^ 30) = false ∧
      ∀ e, getPTEOf w.sys.mem p (va / 4096) = some e → e.write = false →
        w.sys.mem.shareNum e.frame ≠ 1 → w.sys.mem.free ≠ []
  | .clone p c => Room w.sys.mem p c
  | .resume p => ∀ c stage, w.sys.life p = .live (.clone c stage) → Room w.sys.mem p c
  | .exit _ => True

variable {m m' m₁ : Mem} {slot : Slot} {c p page : Nat} {e : Pte} {load : ExeLoad} {w w' : World}
  {task : Task}

/-- The memory in the middle of a `do_clone` that began in `m`. -/
structure Forking (p c : Nat) (m m' : Mem) : Prop where
  sound : Sound m'
  others : ∀ o, o ≠ .user c → ∀ page, m'.content o page = m.content o page
  child : ∀ page b, m'.content (.user c) page = some b → m.content (.user p) page = some b
  room : Room m' p c

section
variable (forking : Forking p c m m₁) (apart : p ≠ c)
include forking apart

theorem Forking.take (e : Pte) {rest : List Nat} {fill : Nat → Nat}
    (vacant : Vacant (.user c) slot m₁) (free : m₁.free = e.frame :: rest)
    (filled : ∀ page, slot = .leaf (.user c) page → m₁.content (.user p) page = some fill) :
    Forking p c m (m₁.take slot e rest fill) := by
  have mem : e.frame ∈ m₁.free := by rw [free]; exact mem_cons_self
  refine ⟨forking.sound.take e vacant free fill, ?_, ?_, ?_⟩
  · intro o other page
    rw [forking.sound.content_take e free fill, forking.others o other page]
    rintro rfl
    exact other vacant.mine
  · intro page b seen
    by_cases here : Slot.leaf (.user c) page = slot
    · subst here
      rw [content_take_self] at seen
      rw [← forking.others (.user p) (fun same => apart (Owner.user.inj same)),
        filled page rfl, seen]
    · rw [forking.sound.content_take e free fill here] at seen
      exact forking.child page b seen
  · intro page e' mapped absent
    have ne : Slot.leaf (.user p) page ≠ slot := by
      rintro rfl
      exact apart (Owner.user.inj vacant.mine)
    rw [m₁.take_entry_of_ne e rest fill ne] at mapped
    have absentBefore : m₁.entry (.leaf (.user c) page) = none := by
      by_cases here : Slot.leaf (.user c) page = slot
      · rw [here]
        exact vacant.absent
      · rwa [m₁.take_entry_of_ne e rest fill here] at absent
    have other : e'.frame ≠ e.frame := by
      intro same
      exact forking.sound.free_unheld mem _ (same ▸ frameAt_of_entry mapped)
    rw [take_shareNum, update_of_ne other]
    exact forking.room page e' mapped absentBefore

theorem Forking.share (vacant : Vacant (.user c) (.leaf (.user c) page) m₁)
    (mapped : m₁.entry (.leaf (.user p) page) = some e) :
    Forking p c m (m₁.shareEntry p c page e) := by
  have room := forking.room page e mapped vacant.absent
  have parent : ∀ page, m₁.content (.user p) page = m.content (.user p) page :=
    forking.others (.user p) fun same => apart (Owner.user.inj same)
  refine ⟨forking.sound.share apart vacant mapped room, ?_, ?_, ?_⟩
  · intro o other page'
    rw [content_shareEntry apart mapped, forking.others o other page']
    intro same
    exact other (Slot.leaf.inj same).1
  · intro page' b seen
    rcases eq_or_ne page' page with rfl | here
    · rw [content_shareEntry_child] at seen
      rw [← parent, content_of_entry mapped, seen]
    · rw [content_shareEntry apart mapped (by simpa using here)] at seen
      exact forking.child page' b seen
  · intro page' e' mapped' absent
    have here : page' ≠ page := by
      rintro rfl
      rw [shareEntry_child] at absent
      cases absent
    rw [shareEntry_of_ne m₁ e (by simp [here]) (by simp [here])] at mapped' absent
    -- another page of the parent is another physical page
    have other : e'.frame ≠ e.frame := by
      intro same
      exact here (forking.sound.aligned _ _ _ _ e.frame (frameAt_of_entry mapped)
        (same ▸ frameAt_of_entry mapped'))
    have shares : (m₁.shareEntry p c page e).shareNum =
        update m₁.shareNum e.frame ((m₁.shareNum e.frame + 1) % 256) := rfl
    rw [shares, update_of_ne other]
    exact forking.room page' e' mapped' absent

theorem Forking.again {e' : Pte} (mapped : m₁.entry (.leaf (owner p page) page) = some e)
    (copied : m₁.entry (.leaf (owner c page) page) = some e') :
    m₁.fillPage e'.frame (m₁.bytes e.frame) = m₁ := by
  have same : m₁.bytes e'.frame = m₁.bytes e.frame := by
    cases side : kernelBase (page / 512 / 512) with
    | true =>
      rw [owner_kernel side] at mapped copied
      rw [Option.some.inj (mapped.symm.trans copied)]
    | false =>
      rw [owner_user side] at mapped copied
      have seen := forking.child page _ (content_of_entry copied)
      rw [← forking.others (.user p) (fun same => apart (Owner.user.inj same)),
        content_of_entry mapped] at seen
      exact (Option.some.inj seen).symm
  rw [← same]
  rw [Mem.fillPage, update_eq_self]

theorem Forking.move {m₂ : Mem} (move : CloneMove p c m₁ m₂) : Forking p c m m₂ := by
  cases move with
  | table move =>
    cases move with
    | mk vacant inner free =>
      exact forking.take apart _ vacant free fun page same => absurd same (inner _ page)
  | stack vacant mapped free =>
    rename_i page f e rest
    refine forking.take apart _ vacant free ?_
    intro page' same
    obtain rfl := (Slot.leaf.inj same).2
    have other : e.frame ≠ f := by
      rintro rfl
      exact forking.sound.free_unheld (by rw [free]; exact mem_cons_self) _
        (frameAt_of_entry mapped)
    rw [content_of_entry mapped, update_of_ne other]
  | again mapped copied => rwa [forking.again apart mapped copied]
  | share vacant mapped => exact forking.share apart vacant mapped

end

theorem Forking.moves (start : Sound m) (apart : p ≠ c) (room : Room m p c)
    (part : ∀ page b, m.content (.user c) page = some b → m.content (.user p) page = some b)
    (moves : Moves p c m m') : Forking p c m m' := by
  induction moves with
  | refl => exact ⟨start, fun _ _ _ => rfl, part, room⟩
  | tail _ move ih => exact ih.move apart move

theorem ExitMove.sound (start : Sound m) (move : ExitMove load p m m') : Sound m' := by
  cases move with
  | keep kept =>
    refine start.keep ?_
    intro below link
    cases below <;> cases link
  | free mine present bare lost => exact start.free present bare

theorem ExitMove.content (move : ExitMove load p m m')
    {o : Owner} (other : o ≠ .user p) (page : Nat) : m'.content o page = m.content o page := by
  have bytes : m'.bytes = m.bytes := by
    cases move with
    | keep kept => rfl
    | free mine present bare lost => rw [clear_bytes, freePage_bytes]
  unfold Mem.content Mem.frameAt
  rcases move.entry (.leaf o page) with same | gone
  · rw [same, bytes]
  · exact absurd gone.1 other

theorem Exits.effect (start : Sound m) (exits : Exits load p m m') :
    Sound m' ∧ ∀ o, o ≠ .user p → ∀ page, m'.content o page = m.content o page := by
  induction exits with
  | refl => exact ⟨start, fun _ _ _ => rfl⟩
  | tail _ move ih =>
    exact ⟨move.sound ih.1, fun o other page => (move.content other page).trans (ih.2 o other page)⟩

def Mem.seen (m : Mem) (p va : Nat) : Nat :=
  ((m.content (.user p) (va / 4096)).map (· (va % 4096))).getD 0

/-- Where a sleeping process may be. -/
def TaskOk (s : Sys) (p : Nat) : Task → Prop
  | .user => True
  | .touch page => kernelBase (page / 512 / 512) = false ∧ page / 512 / 512 < 512
  | .copy _ => False
  | .clone c stage => s.life c = .building p ∧ stage.Ready c s.mem ∧
      ∀ page b, s.mem.content (.user c) page = some b → s.mem.content (.user p) page = some b

def ProcOk (w : World) (p : Nat) : Prop :=
  match w.sys.life p with
  | .unused => ∀ slot : Slot, slot.holder = .user p → w.sys.mem.entry slot = none
  | .building _ => True
  | .live task => w.mine p = w.sys.mem.seen p ∧ TaskOk w.sys p task

structure Isolating (w : World) : Prop where
  sound : Sound w.sys.mem
  kernel : ∀ page, w.sys.mem.entry (.leaf .kernel page) = none
  procs : ∀ p, ProcOk w p

theorem Mem.seen_congr (same : ∀ page, m'.content (.user p) page = m.content (.user p) page) :
    m'.seen p = m.seen p := by
  funext va
  rw [seen, same]
  rfl

theorem Isolating.isolated (iso : Isolating w) : Isolated w := by
  intro p task life va value read
  obtain ⟨e, found, value'⟩ := map_eq_some_iff.mp read
  rw [iso.sound.getPTEOf_eq] at found
  have ok := iso.procs p
  rw [ProcOk, life] at ok
  cases side : kernelBase (va / 4096 / 512 / 512) with
  | true =>
    rw [owner_kernel side, iso.kernel] at found
    cases found
  | false =>
    rw [owner_user side] at found
    rw [ok.1, Mem.seen, content_of_entry found, ← value']
    rfl

structure Unmoved (m m' : Mem) (q : Nat) : Prop where
  content : ∀ page, m'.content (.user q) page = m.content (.user q) page
  entry : ∀ slot : Slot, slot.holder = .user q → (m'.entry slot).isSome = (m.entry slot).isSome

theorem absent_of_isSome_eq
    (same : (m'.entry slot).isSome = (m.entry slot).isSome) (absent : m.entry slot = none) :
    m'.entry slot = none := by
  rw [absent] at same
  exact not_isSome_iff_eq_none.mp (by rw [same]; exact Bool.false_ne_true)

theorem Unmoved.absent {q : Nat} (unmoved : Unmoved m m' q)
    (held : slot.holder = .user q) (absent : m.entry slot = none) : m'.entry slot = none :=
  absent_of_isSome_eq (unmoved.entry slot held) absent

theorem Stage.Ready.later {stage : Stage} (ready : stage.Ready c m)
    (unmoved : Unmoved m m' c) : stage.Ready c m' := by
  cases stage with
  | pgdir => exact ⟨unmoved.absent rfl ready.1, unmoved.absent rfl ready.2⟩
  | kernelStack => exact unmoved.absent rfl ready
  | userStack top => exact ready
  | tables => trivial

theorem ProcOk.later {q : Nat} (ok : ProcOk w q) (life : w'.sys.life q = w.sys.life q)
    (mine : w'.mine q = w.mine q) (unmoved : Unmoved w.sys.mem w'.sys.mem q)
    (child : ∀ c stage, w.sys.life q = .live (.clone c stage) →
      w'.sys.life c = w.sys.life c ∧ Unmoved w.sys.mem w'.sys.mem c) : ProcOk w' q := by
  unfold ProcOk at ok ⊢
  rw [life]
  cases state : w.sys.life q with
  | unused =>
    rw [state] at ok
    exact fun slot held => unmoved.absent held (ok slot held)
  | building parent => trivial
  | live task =>
    rw [state] at ok
    refine ⟨?_, ?_⟩
    · rw [mine, ok.1, seen_congr unmoved.content]
    · cases task with
      | user => trivial
      | touch page => exact ok.2
      | copy page => exact ok.2
      | clone c stage =>
        obtain ⟨lifeChild, unmovedChild⟩ := child c stage state
        obtain ⟨building, ready, part⟩ := ok.2
        refine ⟨lifeChild.trans building, ready.later unmovedChild, ?_⟩
        intro page b seen
        rw [unmovedChild.content] at seen
        rw [unmoved.content]
        exact part page b seen

theorem Isolating.next (iso : Isolating w) (live : w.sys.life p = .live task)
    (partner : c = p ∨ w.sys.life c = .unused ∨ w.sys.life c = .building p)
    (sound : Sound w'.sys.mem) (kernel : ∀ page, w'.sys.mem.entry (.leaf .kernel page) = none)
    (lives : ∀ q, q ≠ p → q ≠ c → w'.sys.life q = w.sys.life q)
    (mines : ∀ q, q ≠ p → q ≠ c → w'.mine q = w.mine q)
    (unmoved : ∀ q, q ≠ p → q ≠ c → Unmoved w.sys.mem w'.sys.mem q)
    (actor : ProcOk w' p) (second : ProcOk w' c) : Isolating w' := by
  refine ⟨sound, kernel, ?_⟩
  intro q
  by_cases isActor : q = p
  · rwa [isActor]
  by_cases isSecond : q = c
  · rwa [isSecond]
  refine (iso.procs q).later (lives q isActor isSecond) (mines q isActor isSecond)
    (unmoved q isActor isSecond) ?_
  intro child stage cloning
  have ok := iso.procs q
  rw [ProcOk, cloning] at ok
  have building : w.sys.life child = .building q := ok.2.1
  have notActor : child ≠ p := by
    rintro rfl
    rw [live] at building
    cases building
  have notSecond : child ≠ c := by
    rintro rfl
    rcases partner with same | unused | ours
    · exact notActor same
    · rw [unused] at building
      cases building
    · rw [ours] at building
      exact isActor (Life.building.inj building).symm
  exact ⟨lives child notActor notSecond, unmoved child notActor notSecond⟩

section Steps
variable (iso : Isolating w)
include iso

theorem Isolating.live (life : w.sys.life p = .live task) :
    w.mine p = w.sys.mem.seen p ∧ TaskOk w.sys p task := by
  have ok := iso.procs p
  unfold ProcOk at ok
  rwa [life] at ok

theorem Isolating.touch (life : w.sys.life p = .live task)
    (ours : kernelBase (page / 512 / 512) = false) (low : page / 512 / 512 < 512)
    (same : SameMap w.sys.mem m₁) : Isolating ⟨w.sys.ran p (dealNoAlloc p page m₁), w.mine⟩ := by
  have touches := dealNoAlloc_touches (p := p) m₁ low
  rw [owner_user ours] at touches
  have result : ∀ (m' : Mem) (after : Task), Touches (.user p) page m₁ m' →
      TaskOk ⟨m', update w.sys.life p (.live after)⟩ p after →
      Isolating ⟨⟨m', update w.sys.life p (.live after)⟩, w.mine⟩ := by
    intro m' after moves place
    obtain ⟨sound, others, here, entries⟩ := moves.effect (same.sound iso.sound)
    have seen : m'.seen p = w.sys.mem.seen p := by
      funext va
      unfold Mem.seen
      rw [← same.content]
      by_cases at' : va / 4096 = page
      · rw [at']
        rcases here with equal | ⟨before, zeros⟩
        · rw [equal]
        · rw [before, zeros]
          rfl
      · rw [others _ _ (by simpa using at')]
    have unmoved : ∀ q, q ≠ p → q ≠ p → Unmoved w.sys.mem m' q := by
      intro q other _
      refine ⟨?_, ?_⟩
      · intro page'
        rw [others _ _ (by simp [other]), same.content]
      · intro slot held
        rw [entries slot (by rw [held]; simpa using other), same.isSome]
    have actor : ProcOk ⟨⟨m', update w.sys.life p (.live after)⟩, w.mine⟩ p := by
      unfold ProcOk
      simp only [update_self]
      exact ⟨(iso.live life).1.trans seen.symm, place⟩
    refine iso.next (c := p) life (.inl rfl) sound ?_ ?_ (fun _ _ _ => rfl) unmoved actor actor
    · intro page'
      rw [entries _ (by simp [Slot.holder]), same.absent]
      exact iso.kernel page'
    · exact fun q other _ => update_of_ne other ..
  cases run : dealNoAlloc p page m₁ with
  | ok _ m' =>
    rw [run] at touches
    exact result m' .user touches.1 trivial
  | error after m' =>
    rw [run] at touches
    obtain ⟨rfl, moves⟩ := touches
    exact result m' (.touch page) moves ⟨ours, low⟩

section
variable (life : w.sys.life p = .live .user)
include life

theorem Isolating.store {va value : Nat} (ours : kernelBase (va / 4096 / 512 / 512) = false)
    (mapped : getPTEOf w.sys.mem p (va / 4096) = some e) (write : e.write = true) :
    Isolating ⟨{ w.sys with mem := w.sys.mem.setByte e.frame (va % 4096) value },
      update w.mine p (update (w.mine p) va value)⟩ := by
  rw [iso.sound.getPTEOf_eq, owner_user ours] at mapped
  have held := frameAt_of_entry mapped
  have alone : ∀ o page, w.sys.mem.frameAt (.leaf o page) = some e.frame →
      Slot.leaf o page = .leaf (.user p) (va / 4096) :=
    fun o page holds => iso.sound.sole _ _ e.frame ((writable_of_entry mapped).trans write) held
      holds
  generalize stored : w.sys.mem.setByte e.frame (va % 4096) value = m'
  have entries : m'.entry = w.sys.mem.entry := by rw [← stored]; rfl
  have bytes : m'.bytes = update w.sys.mem.bytes e.frame
      (update (w.sys.mem.bytes e.frame) (va % 4096) value) := by rw [← stored]; rfl
  have frames : m'.frameAt = w.sys.mem.frameAt := by
    funext slot
    rw [Mem.frameAt, entries]
    rfl
  have contents : ∀ o page, Slot.leaf o page ≠ .leaf (.user p) (va / 4096) →
      m'.content o page = w.sys.mem.content o page := by
    intro o page ne
    unfold Mem.content
    rw [frames, bytes]
    cases holds : w.sys.mem.frameAt (.leaf o page) with
    | none => rfl
    | some f =>
      have other : f ≠ e.frame := by
        rintro rfl
        exact ne (alone o page holds)
      exact congrArg some (update_of_ne other ..)
  have here : m'.content (.user p) (va / 4096) =
      some (update (w.sys.mem.bytes e.frame) (va % 4096) value) := by
    unfold Mem.content
    rw [frames, bytes, held]
    exact congrArg some (update_self ..)
  have seen : m'.seen p = update (w.sys.mem.seen p) va value := by
    funext va'
    unfold Mem.seen
    by_cases page : va' / 4096 = va / 4096
    · rw [page, here]
      by_cases same : va' = va
      · simp [same]
      · have offset : va' % 4096 ≠ va % 4096 := by omega
        rw [update_of_ne same, page, content_of_entry mapped]
        simp [offset]
    · have same : va' ≠ va := by
        rintro rfl
        exact page rfl
      rw [update_of_ne same, contents _ _ (by simpa using page)]
  have sound : Sound m' := by
    refine iso.sound.congr frames ?_ ?_ ?_
    · funext slot
      rw [Mem.writable, entries]
      rfl
    · rw [← stored]
      rfl
    · rw [← stored]
      rfl
  have actor : ProcOk ⟨{ w.sys with mem := m' },
      update w.mine p (update (w.mine p) va value)⟩ p := by
    obtain ⟨mine, place⟩ := iso.live life
    unfold ProcOk
    simp only [life, update_self]
    exact ⟨by rw [seen, mine], place⟩
  refine iso.next (c := p) life (.inl rfl) sound ?_ (fun _ _ _ => rfl) ?_ ?_ actor actor
  · intro page
    rw [entries]
    exact iso.kernel page
  · exact fun q other _ => update_of_ne other ..
  · exact fun q other _ => ⟨fun page => contents _ _ (by simp [other]), fun _ _ => by rw [entries]⟩

theorem Isolating.unseen (sound : Sound m')
    (contents : ∀ o page, m'.content o page = w.sys.mem.content o page)
    (entries : ∀ slot, (m'.entry slot).isSome = (w.sys.mem.entry slot).isSome) :
    Isolating ⟨⟨m', update w.sys.life p (.live .user)⟩, w.mine⟩ := by
  have actor : ProcOk ⟨⟨m', update w.sys.life p (.live .user)⟩, w.mine⟩ p := by
    simp only [ProcOk, update_self]
    exact ⟨(iso.live life).1.trans (seen_congr (contents _)).symm, trivial⟩
  refine iso.next (c := p) life (.inl rfl) sound ?_ ?_ (fun _ _ _ => rfl) ?_ actor actor
  · exact fun page => absent_of_isSome_eq (entries _) (iso.kernel page)
  · exact fun q other _ => update_of_ne other ..
  · exact fun q _ _ => ⟨contents _, fun slot _ => entries slot⟩

theorem Isolating.noW (same : SameMap w.sys.mem m₁) (mapped : getPTEOf w.sys.mem p page = some e)
    (fresh : w.sys.mem.shareNum e.frame ≠ 1 → w.sys.mem.free ≠ []) :
    Isolating ⟨w.sys.ran p (dealNoW p page m₁), w.mine⟩ := by
  have sound₁ := same.sound iso.sound
  rw [iso.sound.getPTEOf_eq] at mapped
  obtain ⟨e₁, mapped₁, frame, _⟩ := same.found mapped
  have walked₁ : getPTEOf m₁ p page = some e₁ := by rw [sound₁.getPTEOf_eq, mapped₁]
  by_cases one : m₁.shareNum e₁.frame = 1
  · rw [dealNoW_mine walked₁ one]
    refine iso.unseen life (sound₁.mine mapped₁ one) ?_ ?_
    · exact fun o page' => (content_put { e₁ with write := true } mapped₁ rfl o page').trans
        (same.content o page')
    · intro slot
      by_cases here : slot = .leaf (owner p page) page
      · rw [here, put_entry_self, ← same.isSome, mapped₁]
        rfl
      · rw [put_entry_of_ne _ _ here, same.isSome]
  · have free := fresh (by rwa [same.shareNum, frame] at one)
    rw [← same.free] at free
    obtain ⟨f, rest, list⟩ := exists_cons_of_ne_nil free
    rw [dealNoW_copy walked₁ one list]
    obtain ⟨sound, others⟩ := sound₁.copy mapped₁ one list (update m₁.bytes f (fun _ => 0) e₁.frame)
    refine iso.unseen life sound ?_ ?_
    · intro o page'
      by_cases here : Slot.leaf o page' = .leaf (owner p page) page
      · obtain ⟨rfl, rfl⟩ := Slot.leaf.inj here
        have other : e₁.frame ≠ f := by
          rintro rfl
          exact sound₁.free_unheld (by rw [list]; exact mem_cons_self) _
            (frameAt_of_entry mapped₁)
        rw [content_take_self, update_of_ne other, ← same.content, content_of_entry mapped₁]
      · rw [others o page' here, same.content]
    · intro slot
      by_cases here : slot = .leaf (owner p page) page
      · rw [here, take_entry_self, ← same.isSome, mapped₁]
        rfl
      · rw [take_entry_of_ne _ _ _ _ here]
        exact same.isSome slot

end

theorem Isolating.clone (life : w.sys.life p = .live task) {stage : Stage}
    (partner : w.sys.life c = .unused ∨ w.sys.life c = .building p) (room : Room w.sys.mem p c)
    (ready : stage.Ready c w.sys.mem) (part : ∀ page b, w.sys.mem.content (.user c) page = some b →
      w.sys.mem.content (.user p) page = some b) :
    let next := w.sys.cloned p c (cloneFrom p c stage w.sys.mem)
    Isolating ⟨next, if next.life c = .live .user then update w.mine c (w.mine p)
      else w.mine⟩ := by
  have apart : p ≠ c := by
    rintro rfl
    rw [life] at partner
    rcases partner with other | other <;> cases other
  have mine := (iso.live life).1
  have facts : ∀ m', Moves p c w.sys.mem m' → Sound m' ∧
      (∀ q, q ≠ c → ∀ page, m'.content (.user q) page = w.sys.mem.content (.user q) page) ∧
      (∀ page b, m'.content (.user c) page = some b → m'.content (.user p) page = some b) ∧
      (∀ page, m'.entry (.leaf .kernel page) = none) ∧
      ∀ q, q ≠ p → q ≠ c → Unmoved w.sys.mem m' q := by
    intro m' moves
    have forking := Forking.moves iso.sound apart room part moves
    have others : ∀ q, q ≠ c → ∀ page, m'.content (.user q) page =
        w.sys.mem.content (.user q) page :=
      fun q other => forking.others (.user q) (by simpa using other)
    refine ⟨forking.sound, others, ?_, ?_, ?_⟩
    · intro page b seen
      rw [others p apart]
      exact forking.child page b seen
    · exact fun page => absent_of_isSome_eq (moves.others _ (by simp [Slot.holder]))
        (iso.kernel page)
    · exact fun q _ other => ⟨others q other, fun slot held =>
        moves.others slot (by rw [held]; simpa using other)⟩
  have ends := cloneFrom_moves w.sys.mem apart (iso.sound.walkable p) stage ready
  cases run : cloneFrom p c stage w.sys.mem with
  | ok _ m' =>
    rw [run] at ends
    obtain ⟨moves, copied⟩ := ends
    obtain ⟨sound, others, child, kernel, unmoved⟩ := facts m' moves
    have equal : ∀ page, m'.content (.user c) page = m'.content (.user p) page := by
      intro page
      cases seen : m'.content (.user c) page with
      | some b => exact (child page b seen).symm
      | none =>
        symm
        rw [content_eq_none] at seen ⊢
        by_contra present
        have there := isSome_iff_ne_none.mpr present
        rw [moves.others (.leaf (.user p) page) fun same => apart (Owner.user.inj same)] at there
        have got := copied page there
        rw [seen] at got
        cases got
    have seenChild : m'.seen c = w.sys.mem.seen p := by
      funext va
      rw [Mem.seen, equal, others p apart]
      rfl
    have lifeChild : (w.sys.cloned p c (.ok () m')).life c = .live .user := by
      unfold Sys.cloned
      simp [apart.symm]
    have lifeParent : (w.sys.cloned p c (.ok () m')).life p = .live .user := by
      unfold Sys.cloned
      simp
    simp only [lifeChild, if_true]
    refine iso.next life (.inr partner) sound kernel ?_ ?_ unmoved ?_ ?_
    · intro q notParent notChild
      unfold Sys.cloned
      simp [notParent, notChild]
    · exact fun q _ other => update_of_ne other ..
    · simp only [ProcOk, lifeParent]
      refine ⟨?_, trivial⟩
      rw [update_of_ne apart, mine]
      exact (seen_congr (others p apart)).symm
    · simp only [ProcOk, lifeChild]
      refine ⟨?_, trivial⟩
      rw [update_self, mine]
      exact seenChild.symm
  | error after m' =>
    rw [run] at ends
    obtain ⟨later, rfl, readyLater, moves⟩ := ends
    obtain ⟨sound, others, child, kernel, unmoved⟩ := facts m' moves
    have lifeChild : (w.sys.cloned p c (.error (.clone c later) m')).life c = .building p := by
      unfold Sys.cloned
      simp [apart.symm]
    have lifeParent : (w.sys.cloned p c (.error (.clone c later) m')).life p =
        .live (.clone c later) := by
      unfold Sys.cloned
      simp
    simp only [lifeChild]
    refine iso.next life (.inr partner) sound kernel ?_ (fun _ _ _ => rfl) unmoved ?_ ?_
    · intro q notParent notChild
      unfold Sys.cloned
      simp [notParent, notChild]
    · simp only [ProcOk, lifeParent]
      refine ⟨?_, lifeChild, readyLater, child⟩
      show w.mine p = _
      rw [mine]
      exact (seen_congr (others p apart)).symm
    · unfold ProcOk
      simp [lifeChild]

theorem Isolating.exit (load : ExeLoad) (life : w.sys.life p = .live task) :
    Isolating ⟨⟨handleExitPcb load p w.sys.mem, update w.sys.life p .unused⟩, w.mine⟩ := by
  obtain ⟨exits, cleared⟩ := handleExitPcb_exits load w.sys.mem (iso.sound.walkable p)
  obtain ⟨sound, others⟩ := Exits.effect iso.sound exits
  generalize handleExitPcb load p w.sys.mem = m' at exits cleared sound others
  have kept : ∀ slot : Slot, slot.holder ≠ .user p → m'.entry slot = w.sys.mem.entry slot :=
    fun slot other => (exits.entry slot).resolve_right fun gone => other gone.1
  have actor : ProcOk ⟨⟨m', update w.sys.life p .unused⟩, w.mine⟩ p := by
    simp only [ProcOk, update_self]
    exact cleared
  refine iso.next (c := p) life (.inl rfl) sound ?_ ?_ (fun _ _ _ => rfl) ?_ actor actor
  · intro page
    rw [kept _ (by simp [Slot.holder])]
    exact iso.kernel page
  · exact fun q other _ => update_of_ne other ..
  · intro q other _
    refine ⟨others (.user q) (by simpa using other), ?_⟩
    intro slot held
    rw [kept slot (by rw [held]; simpa using other)]

end Steps

theorem userAddr_low {va : Nat} (user : userAddr va = true) : va / 4096 / 512 / 512 < 512 := by
  have small : va < 2 ^ 38 := by
    simp only [userAddr, and_eq_true, decide_eq_true_eq] at user
    exact user.1
  omega

theorem Isolating.step (iso : Isolating w) {a : Act}
    (safe : Safe w a) (run : watch load w a = some w') : Isolating w' := by
  obtain ⟨next, stepped, rfl⟩ := map_eq_some_iff.mp run
  have slot : ∀ va : Nat, va / 2 ^ 30 = va / 4096 / 512 / 512 := by
    intro va
    omega
  cases a with
  | load p va =>
    rw [Mm.step] at stepped
    split at stepped
    · rename_i enabled
      have ours : kernelBase (va / 4096 / 512 / 512) = false := by rw [← slot]; exact safe
      split at stepped
      · obtain rfl := Option.some.inj stepped
        exact iso
      · rename_i unmapped
        split at stepped
        · obtain rfl := Option.some.inj stepped
          obtain ⟨m₁, same, handler⟩ := handlePageFault_unmapped .load unmapped
          rw [handler]
          exact iso.touch enabled.1 ours (userAddr_low enabled.2) same
        · cases stepped
    · cases stepped
  | store p va value =>
    rw [Mm.step] at stepped
    split at stepped
    · rename_i enabled
      have ours : kernelBase (va / 4096 / 512 / 512) = false := by rw [← slot]; exact safe.1
      cases mapped : getPTEOf w.sys.mem p (va / 4096) with
      | none =>
        rw [mapped] at stepped
        obtain rfl := Option.some.inj stepped
        obtain ⟨m₁, same, handler⟩ := handlePageFault_unmapped .store mapped
        rw [World.expect_store, handler, mapped]
        exact iso.touch enabled.1 ours (userAddr_low enabled.2) same
      | some e =>
        rw [mapped] at stepped
        cases write : e.write with
        | true =>
          simp only [write, if_true] at stepped
          obtain rfl := Option.some.inj stepped
          rw [World.expect_store, mapped]
          simp only [any_some, write, if_true]
          exact iso.store enabled.1 ours mapped write
        | false =>
          simp only [write, false_eq_true, if_false] at stepped
          obtain rfl := Option.some.inj stepped
          obtain ⟨m₁, same, handler⟩ := handlePageFault_noW mapped write
          rw [World.expect_store, handler, mapped]
          simp only [any_some, write, false_eq_true, if_false]
          exact iso.noW enabled.1 same mapped (safe.2 e mapped write)
    · cases stepped
  | clone p c =>
    rw [Mm.step] at stepped
    split at stepped
    · rename_i enabled
      obtain rfl := Option.some.inj stepped
      have ok := iso.procs c
      rw [ProcOk, enabled.2] at ok
      refine iso.clone enabled.1 (.inl enabled.2) safe ⟨ok _ rfl, ok _ rfl⟩ ?_
      intro page b seen
      rw [Mem.content_eq_none.mpr (ok _ rfl)] at seen
      cases seen
    · cases stepped
  | exit p =>
    rw [Mm.step] at stepped
    split at stepped
    · rename_i task life
      obtain rfl := Option.some.inj stepped
      exact iso.exit load life
    · cases stepped
  | resume p =>
    rw [Mm.step] at stepped
    cases life : w.sys.life p with
    | unused | building =>
      rw [life] at stepped
      cases stepped
    | live task =>
      rw [life] at stepped
      have place := (iso.live life).2
      cases task with
      | user => cases stepped
      | touch page =>
        obtain rfl := Option.some.inj stepped
        rw [World.expect, life]
        exact iso.touch life place.1 place.2 (.refl _)
      | copy page => exact place.elim
      | clone c stage =>
        obtain rfl := Option.some.inj stepped
        rw [World.expect, life]
        exact iso.clone life (.inr place.1) (safe c stage life) place.2.1 place.2.2

/-- Where a run begins: processes in user mode, with pages that came from
`alloc_page_helper` and are counted right. -/
structure Start (w : World) : Prop where
  sound : Sound w.sys.mem
  kernel : ∀ page, w.sys.mem.entry (.leaf .kernel page) = none
  user : ∀ p, w.sys.life p = .unused ∧
      (∀ slot : Slot, slot.holder = .user p → w.sys.mem.entry slot = none) ∨
    w.sys.life p = .live .user ∧ w.mine p = w.sys.mem.seen p

theorem Start.isolating (start : Start w) : Isolating w := by
  refine ⟨start.sound, start.kernel, ?_⟩
  intro p
  unfold ProcOk
  rcases start.user p with ⟨life, empty⟩ | ⟨life, mine⟩
  · rw [life]
    exact empty
  · rw [life]
    exact ⟨mine, trivial⟩

/-- In every state of a run whose steps are all safe, every process reads what it
stored itself, or else what its parent had when it was cloned, or else zero. -/
theorem isolated_along (load : ExeLoad) (w : World) (acts : List Act) (start : Start w)
    (safe : StepsMeet (watch load) Safe w acts) : HoldsAlong (watch load) Isolated w acts :=
  holdsAlong_of_stepsMeet (watch load) Safe Isolating Isolated (fun _ iso => iso.isolated)
    (fun _ _ _ iso ok run => iso.step ok run) w acts start.isolating safe

/-- In such a run no free page is ever mapped, a page that one entry may write has no other
entry, and no page has more entries than its `share_num`. -/
theorem frames_sound_along (load : ExeLoad) (w : World) (acts : List Act) (start : Start w)
    (safe : StepsMeet (watch load) Safe w acts) :
    HoldsAlong (watch load) (fun w => Sound w.sys.mem) w acts :=
  holdsAlong_of_stepsMeet (watch load) Safe Isolating _ (fun _ iso => iso.sound)
    (fun _ _ _ iso ok run => iso.step ok run) w acts start.isolating safe

/-- A memory of forty free pages. -/
def blankMem : Mem := ⟨List.range 40, 40, fun _ => 0, fun _ _ => 0, fun _ => none⟩

/-- The next free page goes to a slot, as `allocPage` and the assignment after it
do it. -/
def Mem.give (m : Mem) (slot : Slot) (write : Bool) : Mem :=
  match m.free with
  | [] => m
  | f :: rest => m.take slot ⟨f, write, false, false⟩ rest fun _ => 0

def Mem.giveAll (m : Mem) : List (Slot × Bool) → Mem
  | [] => m
  | (slot, write) :: rest => (m.give slot write).giveAll rest

def Mem.fits (m : Mem) (slot : Slot) : Bool :=
  (m.entry slot).isNone && slot.above.all (fun up => (m.entry up).isSome) && !m.free.isEmpty &&
    match slot with
    | .root (.user p) vpn2 => p == 0 && kernelBase vpn2 == false && vpn2 < 512
    | .leaf .kernel _ => false
    | _ => slot.holder = .kernel || slot.holder = .user 0

def Mem.fitAll (m : Mem) : List (Slot × Bool) → Bool
  | [] => true
  | (slot, write) :: rest => m.fits slot && (m.give slot write).fitAll rest

/-- A memory that only process 0 has pages of, each with one share. -/
structure Young (m : Mem) : Prop where
  sound : Sound m
  shares : ∀ f, m.shareNum f ≤ 1
  others : ∀ p slot, slot.holder = .user p → p ≠ 0 → m.entry slot = none
  kernel : ∀ page, m.entry (.leaf .kernel page) = none

theorem young_blankMem : Young blankMem := by
  refine ⟨⟨?_, fun _ => Nat.zero_lt_succ 255, fun _ _ => rfl, nodup_range, ?_, ?_, ?_, ?_⟩,
    fun _ => Nat.zero_le 1, fun _ _ _ _ => rfl, fun _ => rfl⟩
  · intro f
    have empty : holders blankMem.frameAt f = ∅ := Set.eq_empty_of_forall_notMem nofun
    rw [empty, Set.encard_empty]
    exact bot_le
  · intro u v f write
    cases write
  · intro o o' page page' f holds
    cases holds
  · intro u up _ present
    cases present
  · intro p vpn2 present
    cases present

theorem Young.give (young : Young m) (write : Bool)
    (fits : m.fits slot = true) : Young (m.give slot write) := by
  simp only [Mem.fits, and_eq_true, isNone_iff_eq_none] at fits
  obtain ⟨⟨⟨absent, above⟩, stock⟩, who⟩ := fits
  obtain ⟨f, rest, free⟩ := exists_cons_of_ne_nil (by simpa using stock)
  have holder : slot.holder = .kernel ∨ slot.holder = .user 0 := by
    cases slot with
    | root o vpn2 => cases o <;> simp_all [Slot.holder]
    | leaf o page => cases o <;> simp_all [Slot.holder]
    | middle | pgdir | kernelStack => simpa using who
  have vacant : Vacant slot.holder slot m := by
    refine ⟨rfl, absent, ?_, ?_⟩
    · intro up link
      rw [link] at above
      exact above
    · rintro p vpn2 rfl
      simp only [and_eq_true, beq_iff_eq, decide_eq_true_eq] at who
      exact ⟨who.1.2, who.2⟩
  have zero := young.sound.unshared f (by rw [free]; exact mem_cons_self)
  rw [Mem.give, free]
  refine ⟨young.sound.take _ vacant free _, ?_, ?_, ?_⟩
  · intro g
    rw [take_shareNum]
    by_cases same : g = f
    · simp [same, zero]
    · simp only [update_of_ne same]
      exact young.shares g
  · intro p other held away
    rw [take_entry_of_ne]
    · exact young.others p other held away
    · rintro rfl
      rcases holder with kernel | ours
      · rw [kernel] at held
        cases held
      · rw [ours] at held
        exact away (Owner.user.inj held).symm
  · intro page
    rw [take_entry_of_ne]
    · exact young.kernel page
    · rintro rfl
      cases who

theorem Young.giveAll (young : Young m) (slots : List (Slot × Bool))
    (fits : m.fitAll slots = true) : Young (m.giveAll slots) := by
  induction slots generalizing m with
  | nil => exact young
  | cons first rest ih =>
    rw [Mem.fitAll, and_eq_true] at fits
    exact ih (young.give first.2 fits.1) fits.2

def smallMem : Mem :=
  blankMem.giveAll [(.root .kernel 2, false), (.pgdir 0, false), (.kernelStack 0, false),
    (.root (.user 0) 60, false), (.middle (.user 0) 30720, false),
    (.leaf (.user 0) 0xf0000f, true), (.leaf (.user 0) 0xf00005, true)]

def smallWorld : World where
  sys := ⟨smallMem, fun p => if p = 0 then .live .user else .unused⟩
  mine := smallMem.seen

def smallLoad : ExeLoad := ⟨0x20000, 0x1000, 0x30000, 0x40000, 0x40000, none⟩

theorem smallMem_young : Young smallMem := young_blankMem.giveAll _ (by decide)

theorem smallWorld_start : Start smallWorld := by
  refine ⟨smallMem_young.sound, smallMem_young.kernel, ?_⟩
  intro p
  by_cases first : p = 0
  · exact .inr ⟨if_pos first, rfl⟩
  · exact .inl ⟨if_neg first, fun slot held => smallMem_young.others p slot held first⟩

def smallActs : List Act := [.clone 0 1, .store 1 0xf00005000 5, .store 1 0xf00005000 5]

theorem smallActs_safe : StepsMeet (watch smallLoad) Safe smallWorld smallActs := by
  have stock : (watch smallLoad smallWorld (.clone 0 1)).all (fun w =>
      !w.sys.mem.free.isEmpty && (watch smallLoad w (.store 1 0xf00005000 5)).all fun w' =>
        !w'.sys.mem.free.isEmpty) = true := by decide +kernel
  refine ⟨?_, ?_⟩
  · intro page e _ _
    exact Nat.lt_of_le_of_lt (smallMem_young.shares e.frame) (by decide)
  · intro cloned run
    rw [run, all_some, and_eq_true] at stock
    refine ⟨⟨by decide, fun _ _ _ _ => by simpa using stock.1⟩, ?_⟩
    intro copied run'
    have last := stock.2
    rw [run', all_some] at last
    exact ⟨⟨by decide, fun _ _ _ _ => by simpa using last⟩, fun _ _ => trivial⟩

theorem isolated_along_small : StepsMeet (watch smallLoad) Safe smallWorld smallActs ∧
    HoldsAlong (watch smallLoad) Isolated smallWorld smallActs :=
  ⟨smallActs_safe, isolated_along smallLoad smallWorld smallActs smallWorld_start smallActs_safe⟩

theorem frames_sound_small :
    HoldsAlong (watch smallLoad) (fun w => Sound w.sys.mem) smallWorld smallActs :=
  frames_sound_along smallLoad smallWorld smallActs smallWorld_start smallActs_safe

/-- The boot map is never cancelled, so root slot 2 leads every process into the
kernel's second-level table: what process 0 stores at `0x90000000` is what its
child finds there. -/
theorem store_shows_in_child : Start smallWorld ∧ ∃ final, runActs (watch smallLoad) smallWorld
    [.clone 0 1, .store 0 0x90000000 7, .store 0 0x90000000 7] = some final ∧
    ¬ Isolated final := by
  refine ⟨smallWorld_start, exists_evaluated (P := fun w => w.sys.life 1 = .live .user ∧
    w.sys.mem.read 1 0x90000000 = some 7 ∧ w.mine 1 0x90000000 = 0) (by decide +kernel) ?_⟩
  rintro final ⟨life, read, mine⟩ isolated
  have equal := isolated 1 .user life 0x90000000 7 read
  rw [mine] at equal
  cases equal

end CCore.Mm
