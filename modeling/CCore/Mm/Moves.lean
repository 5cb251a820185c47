import Mathlib.Logic.Relation
import CCore.Mm.Fork

/-!
# The moves of the page manager

Whatever `do_clone` does to the memory, up to the point where it returns or
sleeps, is a sequence of four moves: a fresh page goes to an empty table slot of
the child, a page of the parent's stack is copied, a page already copied is
copied again, or a page of the parent is shared.  The exit of a process is a
sequence of two, and the first touch of a page one of two.  The loops over the
page tables are unrolled here once; the invariants of the later modules are
checked move by move.
-/

set_option maxRecDepth 4096

namespace CCore.Mm

open Sleep Function List Mem Ends
open Relation (ReflTransGen)

/-- Whose slot it is. -/
def Slot.holder : Slot → Owner
  | .root o _ | .middle o _ | .leaf o _ => o
  | .pgdir p | .kernelStack p => .user p

variable {other slot : Slot} {e : Pte} {page : Nat} {m m' : Mem}

namespace Mem

def take (m : Mem) (slot : Slot) (e : Pte) (rest : List Nat) (fill : Nat → Nat) : Mem where
  free := rest
  sourceNum := m.sourceNum - 1
  shareNum := update m.shareNum e.frame ((m.shareNum e.frame + 1) % 256)
  bytes := update m.bytes e.frame fill
  entry := update m.entry slot (some e)

theorem take_entry_self (m : Mem) (slot : Slot) (e : Pte) (rest : List Nat) (fill : Nat → Nat) :
    (m.take slot e rest fill).entry slot = some e := update_self ..

theorem take_entry_of_ne (m : Mem) (e : Pte) (rest : List Nat)
    (fill : Nat → Nat) (ne : other ≠ slot) :
    (m.take slot e rest fill).entry other = m.entry other := update_of_ne ne ..

theorem put_entry_self (m : Mem) (slot : Slot) (e : Pte) : (m.put slot e).entry slot = some e :=
  update_self ..

theorem put_entry_of_ne (m : Mem) (e : Pte) (ne : other ≠ slot) :
    (m.put slot e).entry other = m.entry other := update_of_ne ne ..

theorem clear_entry_self (m : Mem) (slot : Slot) : (m.clear slot).entry slot = none :=
  update_self ..

theorem clear_entry_of_ne (m : Mem) (ne : other ≠ slot) :
    (m.clear slot).entry other = m.entry other := update_of_ne ne ..

theorem take_shareNum (m : Mem) (slot : Slot) (e : Pte) (rest : List Nat) (fill : Nat → Nat) :
    (m.take slot e rest fill).shareNum =
      update m.shareNum e.frame ((m.shareNum e.frame + 1) % 256) := rfl

theorem freePage_shareNum (m : Mem) (f : Nat) :
    (m.freePage f).shareNum = update m.shareNum f ((m.shareNum f + 255) % 256) := by
  unfold freePage
  split <;> rfl

theorem freePage_free (m : Mem) (f : Nat) :
    (m.shareNum f + 255) % 256 ≠ 0 ∧ (m.freePage f).free = m.free ∨
      (m.shareNum f + 255) % 256 = 0 ∧ (m.freePage f).free = f :: m.free := by
  unfold freePage
  split
  · exact .inl ⟨‹_›, rfl⟩
  · exact .inr ⟨by omega, rfl⟩

theorem clear_shareNum (m : Mem) (slot : Slot) : (m.clear slot).shareNum = m.shareNum := rfl

theorem clear_bytes (m : Mem) (slot : Slot) : (m.clear slot).bytes = m.bytes := rfl

@[simp] theorem freePage_entry (m : Mem) (f : Nat) : (m.freePage f).entry = m.entry := by
  unfold freePage
  split <;> rfl

@[simp] theorem freePage_bytes (m : Mem) (f : Nat) : (m.freePage f).bytes = m.bytes := by
  unfold freePage
  split <;> rfl

end Mem

structure Vacant (o : Owner) (slot : Slot) (m : Mem) : Prop where
  mine : slot.holder = o
  absent : m.entry slot = none
  above : ∀ up, slot.above = some up → (m.entry up).isSome
  root : ∀ p vpn2, slot = .root (.user p) vpn2 → kernelBase vpn2 = false ∧ vpn2 < 512

section AllocPage
variable (again : Task) (write : Bool)

theorem allocPage_ok {f : Nat} {rest : List Nat} (free : m.free = f :: rest) : allocPage again m =
    .ok f (({ m with free := rest, sourceNum := m.sourceNum - 1 }.shareAdd f).fillPage f
      fun _ => 0) := by
  rw [allocPage, free]

theorem allocPage_sleep (free : m.free = []) : allocPage again m = .error again m := by
  rw [allocPage, free]

theorem checkPageSetFlag_present (present : m.entry slot = some e) :
    checkPageSetFlag again slot write m = .ok e.frame m := by
  rw [checkPageSetFlag, get_bind, present]
  rfl

theorem checkPageSetFlag_take {f : Nat} {rest : List Nat} (absent : m.entry slot = none)
    (free : m.free = f :: rest) : checkPageSetFlag again slot write m =
    .ok f (m.take slot ⟨f, write, false, false⟩ rest fun _ => 0) := by
  rw [checkPageSetFlag, get_bind, absent]
  exact bind_of_ok (allocPage_ok again free)

theorem checkPageSetFlag_sleep (absent : m.entry slot = none) (free : m.free = []) :
    checkPageSetFlag again slot write m = .error again m := by
  rw [checkPageSetFlag, get_bind, absent]
  exact bind_of_error (allocPage_sleep again free)

end AllocPage

/-- A fresh page for a table of `o`, or for a PCB field. -/
inductive TableMove (o : Owner) : Mem → Mem → Prop
  | mk {m : Mem} {slot : Slot} {f : Nat} {rest : List Nat} (vacant : Vacant o slot m)
      (inner : ∀ o page, slot ≠ .leaf o page) (free : m.free = f :: rest) :
      TableMove o m (m.take slot ⟨f, false, false, false⟩ rest fun _ => 0)

theorem checkPageSetFlag_table (again : Task) {o : Owner} (m : Mem)
    (mine : slot.holder = o) (inner : ∀ o page, slot ≠ .leaf o page)
    (above : ∀ up, slot.above = some up → (m.entry up).isSome)
    (root : ∀ p vpn2, slot = .root (.user p) vpn2 → kernelBase vpn2 = false ∧ vpn2 < 512) :
    Ends (checkPageSetFlag again slot false m)
      (fun _ m' => ReflTransGen (TableMove o) m m' ∧ (m'.entry slot).isSome ∧
        ∀ other, other ≠ slot → m'.entry other = m.entry other)
      (fun task m' => task = again ∧ m' = m) := by
  cases entry : m.entry slot with
  | some e =>
    rw [checkPageSetFlag_present again false entry]
    exact ⟨.refl, by rw [entry]; rfl, fun _ _ => rfl⟩
  | none =>
    cases free : m.free with
    | nil =>
      rw [checkPageSetFlag_sleep again false entry free]
      exact ⟨rfl, rfl⟩
    | cons f rest =>
      rw [checkPageSetFlag_take again false entry free]
      refine ⟨.single ⟨⟨mine, entry, above, root⟩, inner, free⟩, ?_, ?_⟩
      · rw [take_entry_self]
        rfl
      · exact fun other ne => take_entry_of_ne m _ _ _ ne

/-- What `do_clone` of `p` with the child PCB `c` does to the memory. -/
inductive CloneMove (p c : Nat) : Mem → Mem → Prop
  | table {m m' : Mem} (move : TableMove (.user c) m m') : CloneMove p c m m'
  | stack {m : Mem} {page f : Nat} {e : Pte} {rest : List Nat}
      (vacant : Vacant (.user c) (.leaf (.user c) page) m)
      (mapped : m.entry (.leaf (.user p) page) = some e) (free : m.free = f :: rest) :
      CloneMove p c m (m.take (.leaf (.user c) page) ⟨f, true, false, false⟩ rest
        (update m.bytes f (fun _ => 0) e.frame))
  | again {m : Mem} {page : Nat} {e e' : Pte} (mapped : m.entry (.leaf (owner p page) page) = some e)
      (copied : m.entry (.leaf (owner c page) page) = some e') :
      CloneMove p c m (m.fillPage e'.frame (m.bytes e.frame))
  | share {m : Mem} {page : Nat} {e : Pte} (vacant : Vacant (.user c) (.leaf (.user c) page) m)
      (mapped : m.entry (.leaf (.user p) page) = some e) : CloneMove p c m (m.shareEntry p c page e)

abbrev Moves (p c : Nat) : Mem → Mem → Prop := ReflTransGen (CloneMove p c)

variable {load : ExeLoad} {p c : Nat}

theorem Mem.shareEntry_child (m : Mem) (page : Nat) (e : Pte) :
    (m.shareEntry p c page e).entry (.leaf (.user c) page) = some { e with write := false } :=
  update_self ..

theorem Mem.shareEntry_parent (m : Mem) (apart : p ≠ c) (page : Nat) (e : Pte) :
    (m.shareEntry p c page e).entry (.leaf (.user p) page) = some { e with write := false } := by
  have ne : Slot.leaf (.user p) page ≠ .leaf (.user c) page := by simpa using apart
  exact (update_of_ne ne ..).trans (update_self ..)

theorem Mem.shareEntry_of_ne (m : Mem) (e : Pte)
    (notChild : slot ≠ .leaf (.user c) page) (notParent : slot ≠ .leaf (.user p) page) :
    (m.shareEntry p c page e).entry slot = m.entry slot :=
  (update_of_ne notChild ..).trans (update_of_ne notParent ..)

theorem CloneMove.mono (move : CloneMove p c m m') (slot : Slot)
    (present : (m.entry slot).isSome) : (m'.entry slot).isSome := by
  cases move with
  | table move =>
    cases move with
    | mk vacant inner free =>
    rename_i taken f rest
    by_cases same : slot = taken
    · rw [same, take_entry_self]
      rfl
    · rwa [take_entry_of_ne m _ _ _ same]
  | stack vacant mapped free =>
    rename_i page f e rest
    by_cases same : slot = .leaf (.user c) page
    · rw [same, take_entry_self]
      rfl
    · rwa [take_entry_of_ne m _ _ _ same]
  | again mapped copied => exact present
  | share vacant mapped =>
    rename_i page e
    by_cases child : slot = .leaf (.user c) page
    · rw [child, shareEntry_child]
      rfl
    · by_cases parent : slot = .leaf (.user p) page
      · by_cases same : p = c
        · exact absurd (same ▸ parent) child
        · rw [parent, shareEntry_parent m same]
          rfl
      · rwa [shareEntry_of_ne m e child parent]

theorem CloneMove.others (move : CloneMove p c m m') (slot : Slot)
    (other : slot.holder ≠ .user c) : (m'.entry slot).isSome = (m.entry slot).isSome := by
  have notMine : ∀ {taken : Slot}, taken.holder = .user c → slot ≠ taken := by
    rintro taken mine rfl
    exact other mine
  cases move with
  | table move =>
    cases move with
    | mk vacant inner free => rw [take_entry_of_ne m _ _ _ (notMine vacant.mine)]
  | stack vacant mapped free => rw [take_entry_of_ne m _ _ _ (notMine rfl)]
  | again mapped copied => rfl
  | share vacant mapped =>
    rename_i page e
    by_cases parent : slot = .leaf (.user p) page
    · subst parent
      have apart : p ≠ c := fun same => other (congrArg Owner.user same)
      rw [shareEntry_parent m apart, mapped]
      rfl
    · rw [shareEntry_of_ne m e (notMine rfl) parent]

theorem Moves.mono (moves : Moves p c m m') (slot : Slot)
    (present : (m.entry slot).isSome) : (m'.entry slot).isSome := by
  induction moves with
  | refl => exact present
  | tail _ move ih => exact move.mono slot ih

theorem Moves.others (moves : Moves p c m m') (slot : Slot)
    (other : slot.holder ≠ .user c) : (m'.entry slot).isSome = (m.entry slot).isSome := by
  induction moves with
  | refl => rfl
  | tail _ move ih => rw [move.others slot other, ih]

def Copied (p c : Nat) (m m' : Mem) (page : Nat) : Prop :=
  (m.entry (.leaf (.user p) page)).isSome → (m'.entry (.leaf (.user c) page)).isSome

theorem Copied.later {m'' : Mem} (copied : Copied p c m m' page)
    (moves : Moves p c m' m'') : Copied p c m m'' page :=
  fun present => moves.mono _ (copied present)

theorem Copied.earlier {m'' : Mem} (apart : p ≠ c) (moves : Moves p c m m')
    (copied : Copied p c m' m'' page) : Copied p c m m'' page := by
  intro present
  refine copied ?_
  rwa [moves.others (.leaf (.user p) page) fun same => apart (Owner.user.inj same)]

/-- The tables of a process lead to every page it has. -/
structure Walkable (m : Mem) (p : Nat) : Prop where
  middle : ∀ page, (m.entry (.leaf (.user p) page)).isSome →
    (m.entry (.middle (.user p) (page / 512))).isSome
  root : ∀ index, (m.entry (.middle (.user p) index)).isSome →
    (m.entry (.root (.user p) (index / 512))).isSome
  user : ∀ vpn2, (m.entry (.root (.user p) vpn2)).isSome → kernelBase vpn2 = false ∧ vpn2 < 512

theorem Walkable.later (walk : Walkable m p) (apart : p ≠ c)
    (moves : Moves p c m m') : Walkable m' p := by
  have same : ∀ slot : Slot, slot.holder = .user p →
      (m'.entry slot).isSome = (m.entry slot).isSome := by
    intro slot held
    exact moves.others slot fun mine => apart (Owner.user.inj (held.symm.trans mine))
  refine ⟨?_, ?_, ?_⟩
  · intro page
    rw [same (.leaf (.user p) page) rfl, same (.middle (.user p) (page / 512)) rfl]
    exact walk.middle page
  · intro index
    rw [same (.middle (.user p) index) rfl, same (.root (.user p) (index / 512)) rfl]
    exact walk.root index
  · intro vpn2
    rw [same (.root (.user p) vpn2) rfl]
    exact walk.user vpn2

theorem checkPageSetFlag_moves (again : Task) (m : Mem)
    (mine : slot.holder = .user c) (inner : ∀ o page, slot ≠ .leaf o page)
    (above : ∀ up, slot.above = some up → (m.entry up).isSome)
    (root : ∀ p vpn2, slot = .root (.user p) vpn2 → kernelBase vpn2 = false ∧ vpn2 < 512) :
    Ends (checkPageSetFlag again slot false m)
      (fun _ m' => Moves p c m m' ∧ (m'.entry slot).isSome ∧
        ∀ other, other ≠ slot → m'.entry other = m.entry other)
      (fun task m' => task = again ∧ Moves p c m m') := by
  refine (checkPageSetFlag_table again m mine inner above root).weaken ?_ ?_
  · rintro _ m' ⟨tables, rest⟩
    exact ⟨tables.lift id fun _ _ => .table, rest⟩
  · rintro task m' ⟨place, rfl⟩
    exact ⟨place, .refl⟩

theorem copyLeaf_moves (m : Mem) (page : Nat)
    (above : (m.entry (.middle (.user c) (page / 512))).isSome) :
    Ends (copyLeaf p c page m) (fun _ m' => Moves p c m m' ∧ Copied p c m m' page)
      (fun _ _ => False) := by
  rw [copyLeaf, get_bind, get_bind]
  cases parent : m.entry (.leaf (.user p) page) with
  | none => exact ⟨.refl, fun present => by rw [parent] at present; cases present⟩
  | some e =>
    cases child : m.entry (.leaf (.user c) page) with
    | some e' => exact ⟨.refl, fun _ => by rw [child]; rfl⟩
    | none =>
      have vacant : Vacant (.user c) (.leaf (.user c) page) m := by
        refine ⟨rfl, child, ?_, nofun⟩
        intro up link
        cases link
        exact above
      refine ⟨.single (.share vacant parent), fun _ => ?_⟩
      rw [shareEntry_child]
      rfl

theorem copyMiddle_moves (m : Mem) (index : Nat) (apart : p ≠ c) (walk : Walkable m p)
    (above : (m.entry (.root (.user c) (index / 512))).isSome) : Ends (copyMiddle p c index m)
    (fun _ m' => Moves p c m m' ∧ ∀ page, page / 512 = index → Copied p c m m' page)
    (fun task m' => task = .clone c .tables ∧ Moves p c m m') := by
  rw [copyMiddle, get_bind]
  cases parent : m.entry (.middle (.user p) index) with
  | none =>
    refine ⟨.refl, ?_⟩
    rintro page rfl present
    have reached := walk.middle page present
    rw [parent] at reached
    cases reached
  | some e =>
    refine Ends.bind _ (checkPageSetFlag_moves (.clone c .tables) m rfl nofun ?_ nofun) ?_
    · intro up link
      cases link
      exact above
    intro _ first reached
    have loop := forM_each (fun vpn0 => copyLeaf p c (index * 512 + vpn0))
      (fun task m' => task = .clone c .tables ∧ Moves p c m m')
      (fun m' => Moves p c m m' ∧ (m'.entry (.middle (.user c) index)).isSome)
      (fun vpn0 m' => Copied p c m m' (index * 512 + vpn0)) (List.range 512) ?_ first
      ⟨reached.1, reached.2.1⟩
    · refine loop.weaken ?_ (fun _ _ stop => stop)
      rintro _ m' ⟨⟨moves, _⟩, all, _⟩
      refine ⟨moves, ?_⟩
      rintro page rfl
      have split : page / 512 * 512 + page % 512 = page := by omega
      have done := all (page % 512) (mem_range.mpr (by omega))
      rwa [split] at done
    · rintro vpn0 mem m' ⟨moves, present⟩
      have small : vpn0 < 512 := mem_range.mp mem
      have under : (index * 512 + vpn0) / 512 = index := by omega
      refine (copyLeaf_moves m' (index * 512 + vpn0) (by rwa [under])).weaken ?_
        (fun _ _ never => never.elim)
      rintro _ m'' ⟨more, copied⟩
      exact ⟨⟨moves.trans more, more.mono _ present⟩, copied.earlier apart moves,
        fun _ earlier => earlier.later more⟩

theorem copyRoot_moves (m : Mem) (vpn2 : Nat) (apart : p ≠ c) (walk : Walkable m p) :
    Ends (copyRoot p c vpn2 m)
      (fun _ m' => Moves p c m m' ∧ ∀ page, page / 512 / 512 = vpn2 → Copied p c m m' page)
      (fun task m' => task = .clone c .tables ∧ Moves p c m m') := by
  rw [copyRoot, get_bind]
  cases parent : m.entry (.root (.user p) vpn2) with
  | none =>
    have skipped : ∀ page, page / 512 / 512 = vpn2 → Copied p c m m page := by
      rintro page rfl present
      have reached := walk.root _ (walk.middle page present)
      rw [parent] at reached
      cases reached
    cases kernelBase vpn2 <;> exact ⟨.refl, skipped⟩
  | some e =>
    obtain ⟨ours, small⟩ := walk.user vpn2 (by rw [parent]; rfl)
    rw [ours]
    refine Ends.bind _ (checkPageSetFlag_moves (.clone c .tables) m rfl nofun nofun ?_) ?_
    · rintro _ _ ⟨⟩
      exact ⟨ours, small⟩
    intro _ first reached
    have loop := forM_each (fun vpn1 => copyMiddle p c (vpn2 * 512 + vpn1))
      (fun task m' => task = .clone c .tables ∧ Moves p c m m')
      (fun m' => Moves p c m m' ∧ (m'.entry (.root (.user c) vpn2)).isSome)
      (fun vpn1 m' => ∀ page, page / 512 = vpn2 * 512 + vpn1 → Copied p c m m' page)
      (List.range 512) ?_ first ⟨reached.1, reached.2.1⟩
    · refine loop.weaken ?_ (fun _ _ stop => stop)
      rintro _ m' ⟨⟨moves, _⟩, all, _⟩
      refine ⟨moves, ?_⟩
      rintro page rfl
      exact all (page / 512 % 512) (mem_range.mpr (by omega)) page (by omega)
    · rintro vpn1 mem m' ⟨moves, present⟩
      have small : vpn1 < 512 := mem_range.mp mem
      have under : (vpn2 * 512 + vpn1) / 512 = vpn2 := by omega
      refine (copyMiddle_moves m' (vpn2 * 512 + vpn1) apart (walk.later apart moves)
        (by rwa [under])).weaken ?_ ?_
      · rintro _ m'' ⟨more, copied⟩
        refine ⟨⟨moves.trans more, more.mono _ present⟩, ?_, ?_⟩
        · exact fun page place => (copied page place).earlier apart moves
        · exact fun _ earlier page place => (earlier page place).later more
      · rintro task m'' ⟨place, more⟩
        exact ⟨place, moves.trans more⟩

theorem copyOnWrite_moves (m : Mem) (apart : p ≠ c) (walk : Walkable m p) : Ends (copyOnWrite p c m)
    (fun _ m' => Moves p c m m' ∧ ∀ page, Copied p c m m' page)
    (fun task m' => task = .clone c .tables ∧ Moves p c m m') := by
  have loop := forM_each (copyRoot p c)
    (fun task m' => task = .clone c .tables ∧ Moves p c m m') (Moves p c m)
    (fun vpn2 m' => ∀ page, page / 512 / 512 = vpn2 → Copied p c m m' page)
    (List.range 512) ?_ m .refl
  · refine loop.weaken ?_ (fun _ _ stop => stop)
    rintro _ m' ⟨moves, all, _⟩
    refine ⟨moves, ?_⟩
    intro page present
    have reached := walk.user _ (walk.root _ (walk.middle page present))
    exact all (page / 512 / 512) (mem_range.mpr reached.2) page rfl present
  · intro vpn2 mem m' moves
    refine (copyRoot_moves m' vpn2 apart (walk.later apart moves)).weaken ?_ ?_
    · rintro _ m'' ⟨more, copied⟩
      refine ⟨moves.trans more, ?_, ?_⟩
      · exact fun page place => (copied page place).earlier apart moves
      · exact fun _ earlier page place => (earlier page place).later more
    · rintro task m'' ⟨place, more⟩
      exact ⟨place, moves.trans more⟩

theorem getPTEOf_eq_some (found : getPTEOf m p page = some e) :
    (m.entry (.root (owner p page) (page / 512 / 512))).isSome ∧
      (m.entry (.middle (owner p page) (page / 512))).isSome ∧
      m.entry (.leaf (owner p page) page) = some e := by
  obtain ⟨second, root, rest⟩ := Option.bind_eq_some_iff.mp found
  obtain ⟨third, middle, leaf⟩ := Option.bind_eq_some_iff.mp rest
  exact ⟨by rw [root]; rfl, by rw [middle]; rfl, leaf⟩

theorem owner_kernel (kernel : kernelBase (page / 512 / 512) = true) (p : Nat) :
    owner p page = .kernel := by
  rw [owner, kernel]
  rfl

theorem owner_user (ours : kernelBase (page / 512 / 512) = false) (p : Nat) :
    owner p page = .user p := by
  rw [owner, ours]
  rfl

theorem copyStackPage_kernel (again : Task) (m : Mem)
    (kernel : kernelBase (page / 512 / 512) = true) (found : getPTEOf m p page = some e) :
    allocPageHelper again c page m = .ok e.frame m := by
  obtain ⟨root, middle, leaf⟩ := getPTEOf_eq_some found
  obtain ⟨second, root⟩ := Option.isSome_iff_exists.mp root
  obtain ⟨third, middle⟩ := Option.isSome_iff_exists.mp middle
  rw [owner_kernel kernel] at root middle leaf
  rw [allocPageHelper, owner_kernel kernel]
  rw [bind_of_ok (checkPageSetFlag_present again false root)]
  rw [bind_of_ok (checkPageSetFlag_present again false middle)]
  exact checkPageSetFlag_present again true leaf

theorem copyStackPage_moves (again : Task) (m : Mem)
    (low : page < userStackTop) (found : getPTEOf m p page = some e) :
    Ends ((allocPageHelper again c page >>= fun f =>
        modify fun m => m.fillPage f (m.bytes e.frame)) m)
      (fun _ m' => Moves p c m m') (fun task m' => task = again ∧ Moves p c m m') := by
  obtain ⟨_, _, mapped⟩ := getPTEOf_eq_some found
  cases side : kernelBase (page / 512 / 512) with
  | true =>
    rw [bind_of_ok (copyStackPage_kernel again m side found)]
    have same : m.entry (.leaf (owner c page) page) = some e := by
      rwa [owner_kernel side] at mapped ⊢
    exact ReflTransGen.single (.again mapped same)
  | false =>
    rw [owner_user side] at mapped
    rw [allocPageHelper, owner_user side]
    refine Ends.bind (fun f m' => Moves p c m (m'.fillPage f (m'.bytes e.frame))) ?_
      (fun f m' moves => of_modify moves)
    refine Ends.bind _ (checkPageSetFlag_moves again m rfl nofun nofun ?_) ?_
    · rintro _ _ ⟨⟩
      exact ⟨side, by unfold userStackTop at low; omega⟩
    intro _ first reached
    have movesFirst : Moves p c m first := reached.1
    refine Ends.bind _ ((checkPageSetFlag_moves (p := p) again first rfl
      (fun _ _ other => by cases other) ?_ (fun _ _ other => by cases other)).weaken
        (fun _ _ done => done) ?_) ?_
    · intro up link
      cases link
      exact reached.2.1
    · rintro task m' ⟨place, moves⟩
      exact ⟨place, movesFirst.trans moves⟩
    intro _ second reachedSecond
    have movesSecond : Moves p c m second := movesFirst.trans reachedSecond.1
    have mappedSecond : second.entry (.leaf (.user p) page) = some e := by
      rw [reachedSecond.2.2 _ (by simp), reached.2.2 _ (by simp), mapped]
    cases child : second.entry (.leaf (.user c) page) with
    | some e' =>
      rw [checkPageSetFlag_present again true child]
      rw [← owner_user side p] at mappedSecond
      rw [← owner_user side c] at child
      exact movesSecond.tail (.again mappedSecond child)
    | none =>
      cases free : second.free with
      | nil =>
        rw [checkPageSetFlag_sleep again true child free]
        exact ⟨rfl, movesSecond⟩
      | cons f rest =>
        rw [checkPageSetFlag_take again true child free]
        have vacant : Vacant (.user c) (.leaf (.user c) page) second := by
          refine ⟨rfl, child, ?_, nofun⟩
          intro up link
          cases link
          exact reachedSecond.2.1
        have move := CloneMove.stack vacant mappedSecond free
        refine movesSecond.tail ?_
        convert move using 1
        simp [Mem.fillPage, Mem.take]

theorem copyStack_moves (top : Nat) (low : top ≤ userStackTop) (m : Mem) :
    Ends (copyStack p c top m) (fun _ m' => Moves p c m m')
      (fun task m' => (∃ t ≤ userStackTop, task = .clone c (.userStack t)) ∧ Moves p c m m') := by
  induction top generalizing m with
  | zero => exact ReflTransGen.refl
  | succ page ih =>
    rw [copyStack, get_bind]
    cases found : getPTEOf m p page with
    | none => exact ReflTransGen.refl
    | some e =>
      show Ends ((allocPageHelper (.clone c (.userStack (page + 1))) c page >>= fun f =>
        (modify fun m => m.fillPage f (m.bytes e.frame)) >>= fun _ => copyStack p c page) m) _ _
      rw [← bind_assoc]
      refine Ends.bind _ ((copyStackPage_moves _ m low found).weaken (fun _ _ done => done) ?_) ?_
      · rintro task m' ⟨place, moves⟩
        exact ⟨⟨page + 1, low, place⟩, moves⟩
      · intro _ middle moves
        refine (ih (by omega) middle).weaken (fun _ _ more => moves.trans more) ?_
        rintro task m' ⟨place, more⟩
        exact ⟨place, moves.trans more⟩

def Stage.Ready (c : Nat) (m : Mem) : Stage → Prop
  | .pgdir => m.entry (.pgdir c) = none ∧ m.entry (.kernelStack c) = none
  | .kernelStack => m.entry (.kernelStack c) = none
  | .userStack top => top ≤ userStackTop
  | .tables => True

theorem allocField_moves (again : Task) (m : Mem) (mine : slot.holder = .user c)
    (bottom : slot.above = none) (field : ∀ o vpn2, slot ≠ .root o vpn2)
    (absent : m.entry slot = none) : Ends (allocField again slot m)
    (fun _ m' => Moves p c m m' ∧ ∀ other, other ≠ slot → m'.entry other = m.entry other)
    (fun task m' => task = again ∧ m' = m) := by
  have inner : ∀ o page, slot ≠ .leaf o page := by
    rintro o page rfl
    cases bottom
  have vacant : Vacant (.user c) slot m := by
    refine ⟨mine, absent, ?_, fun p vpn2 same => absurd same (field (.user p) vpn2)⟩
    intro up link
    rw [bottom] at link
    cases link
  unfold allocField
  cases free : m.free with
  | nil =>
    rw [bind_of_error (allocPage_sleep again free)]
    exact ⟨rfl, rfl⟩
  | cons f rest =>
    rw [bind_of_ok (allocPage_ok again free)]
    exact ⟨.single (.table ⟨vacant, inner, free⟩), fun other ne => take_entry_of_ne m _ _ _ ne⟩

/-- How a part of a `do_clone` that began in `m` ends. -/
abbrev CloneEnds (p c : Nat) (m : Mem) (part : EStateM.Result Task Mem Unit) : Prop :=
  Ends part (fun _ m' => Moves p c m m' ∧ ∀ page, Copied p c m m' page) fun task m' =>
    ∃ later : Stage, task = .clone c later ∧ later.Ready c m' ∧ Moves p c m m'

/-- `do_clone`, from the beginning or from where it slept, is a sequence of
moves; when it returns, the child has every page of the parent. -/
theorem cloneFrom_moves (m : Mem) (apart : p ≠ c) (walk : Walkable m p) (stage : Stage)
    (ready : stage.Ready c m) : CloneEnds p c m (cloneFrom p c stage m) := by
  -- the stages follow one another; each is reached with the moves made so far
  have tables : ∀ m', Moves p c m m' → CloneEnds p c m (copyOnWrite p c m') := by
    intro m' moves
    refine (copyOnWrite_moves m' apart (walk.later apart moves)).weaken ?_ ?_
    · rintro _ m'' ⟨more, copied⟩
      exact ⟨moves.trans more, fun page => (copied page).earlier apart moves⟩
    · rintro task m'' ⟨place, more⟩
      exact ⟨.tables, place, trivial, moves.trans more⟩
  have userStack : ∀ top ≤ userStackTop, ∀ m', Moves p c m m' →
      CloneEnds p c m ((copyStack p c top >>= fun _ => copyOnWrite p c) m') := by
    intro top low m' moves
    refine Ends.bind _ ((copyStack_moves top low m').weaken (fun _ _ done => done) ?_)
      (fun _ m'' more => tables m'' (moves.trans more))
    rintro task m'' ⟨⟨t, small, place⟩, more⟩
    exact ⟨.userStack t, place, small, moves.trans more⟩
  have kernelStack : ∀ m', Moves p c m m' → m'.entry (.kernelStack c) = none →
      CloneEnds p c m ((allocField (.clone c .kernelStack) (.kernelStack c) >>= fun _ =>
        copyStack p c userStackTop >>= fun _ => copyOnWrite p c) m') := by
    intro m' moves absent
    refine Ends.bind _ ((allocField_moves (p := p) (.clone c .kernelStack) m' rfl rfl
      (fun _ _ other => by cases other) absent).weaken (fun _ _ done => done) ?_)
      (fun _ m'' done => userStack userStackTop (Nat.le_refl _) m'' (moves.trans done.1))
    rintro task m'' ⟨place, rfl⟩
    exact ⟨.kernelStack, place, absent, moves⟩
  cases stage with
  | tables => exact tables m .refl
  | userStack top => exact userStack top ready m .refl
  | kernelStack => exact kernelStack m .refl ready
  | pgdir =>
    refine Ends.bind _ ((allocField_moves (p := p) (.clone c .pgdir) m rfl rfl
      (fun _ _ other => by cases other) ready.1).weaken (fun _ _ done => done) ?_) ?_
    · rintro task m' ⟨place, rfl⟩
      exact ⟨.pgdir, place, ready, .refl⟩
    · intro _ m' done
      refine kernelStack m' done.1 ?_
      rw [done.2 (.kernelStack c) (by simp)]
      exact ready.2

/-- What `alloc_page_helper` does for a page that is touched first. -/
inductive TouchMove (o : Owner) (page : Nat) : Mem → Mem → Prop
  | table {m m' : Mem} (move : TableMove o m m') : TouchMove o page m m'
  | leaf {m : Mem} {f : Nat} {rest : List Nat} (vacant : Vacant o (.leaf o page) m)
      (free : m.free = f :: rest) :
      TouchMove o page m (m.take (.leaf o page) ⟨f, true, false, false⟩ rest fun _ => 0)

abbrev Touches (o : Owner) (page : Nat) : Mem → Mem → Prop := ReflTransGen (TouchMove o page)

theorem dealNoAlloc_touches (m : Mem) (low : page / 512 / 512 < 512) : Ends (dealNoAlloc p page m)
    (fun _ m' => Touches (owner p page) page m m' ∧ (m'.entry (.leaf (owner p page) page)).isSome)
    (fun task m' => task = .touch page ∧ Touches (owner p page) page m m') := by
  have ours : ∀ q vpn2, Slot.root (owner p page) (page / 512 / 512) = .root (.user q) vpn2 →
      kernelBase vpn2 = false ∧ vpn2 < 512 := by
    intro q vpn2 same
    obtain ⟨holder, rfl⟩ := Slot.root.inj same
    refine ⟨?_, low⟩
    by_contra kernel
    rw [owner_kernel (by simpa using kernel)] at holder
    cases holder
  unfold dealNoAlloc allocPageHelper
  generalize owner p page = o at ours ⊢
  simp only [bind_assoc]
  have lift : ∀ {m₁ m₂ : Mem}, ReflTransGen (TableMove o) m₁ m₂ → Touches o page m₁ m₂ :=
    fun tables => tables.lift id fun _ _ => .table
  refine Ends.bind _ ((checkPageSetFlag_table (.touch page) m rfl
    (fun _ _ other => by cases other) (fun _ link => by cases link) ours).weaken
      (fun _ _ done => done) ?_) ?_
  · rintro task m' ⟨place, rfl⟩
    exact ⟨place, .refl⟩
  intro _ first reached
  refine Ends.bind _ ((checkPageSetFlag_table (.touch page) first rfl
    (fun _ _ other => by cases other) ?_ (fun _ _ other => by cases other)).weaken
      (fun _ _ done => done) ?_) ?_
  · intro up link
    cases link
    exact reached.2.1
  · rintro task m' ⟨place, rfl⟩
    exact ⟨place, lift reached.1⟩
  intro _ second reachedSecond
  have touched : Touches o page m second := lift (reached.1.trans reachedSecond.1)
  cases entry : second.entry (.leaf o page) with
  | some e =>
    rw [bind_of_ok (checkPageSetFlag_present (.touch page) true entry)]
    exact ⟨touched, by rw [entry]; rfl⟩
  | none =>
    cases free : second.free with
    | nil =>
      rw [bind_of_error (checkPageSetFlag_sleep (.touch page) true entry free)]
      exact ⟨rfl, touched⟩
    | cons f rest =>
      rw [bind_of_ok (checkPageSetFlag_take (.touch page) true entry free)]
      have vacant : Vacant o (.leaf o page) second := by
        refine ⟨rfl, entry, ?_, nofun⟩
        intro up link
        cases link
        exact reachedSecond.2.1
      refine ⟨touched.tail (.leaf vacant free), ?_⟩
      rw [take_entry_self]
      rfl

inductive ExitMove (load : ExeLoad) (p : Nat) : Mem → Mem → Prop
  | keep {m : Mem} {page : Nat} (kept : load.keeps (page * 4096) = true) :
      ExitMove load p m (m.clear (.leaf (.user p) page))
  | free {m : Mem} {slot : Slot} {e : Pte} (mine : slot.holder = .user p)
      (present : m.entry slot = some e)
      (bare : ∀ below : Slot, below.above = some slot → m.entry below = none)
      (lost : ∀ page, slot = .leaf (.user p) page → load.keeps (page * 4096) = false) :
      ExitMove load p m ((m.freePage e.frame).clear slot)

abbrev Exits (load : ExeLoad) (p : Nat) : Mem → Mem → Prop := ReflTransGen (ExitMove load p)

theorem Mem.clear_entry_cases (m : Mem) (slot other : Slot) :
    (m.clear slot).entry other = m.entry other ∨
      other = slot ∧ (m.clear slot).entry other = none := by
  by_cases same : other = slot
  · exact .inr ⟨same, by rw [same, clear_entry_self]⟩
  · exact .inl (clear_entry_of_ne m same)

theorem ExitMove.entry (move : ExitMove load p m m') (slot : Slot) :
    m'.entry slot = m.entry slot ∨ slot.holder = .user p ∧ m'.entry slot = none := by
  cases move with
  | keep kept =>
    rename_i page
    exact (m.clear_entry_cases (.leaf (.user p) page) slot).imp_right
      fun cleared => ⟨by rw [cleared.1]; rfl, cleared.2⟩
  | free mine present bare lost =>
    rename_i freed e
    have cases := (m.freePage e.frame).clear_entry_cases freed slot
    rw [freePage_entry] at cases
    exact cases.imp_right fun cleared => ⟨by rw [cleared.1, mine], cleared.2⟩

theorem Exits.entry (exits : Exits load p m m') (slot : Slot) :
    m'.entry slot = m.entry slot ∨ slot.holder = .user p ∧ m'.entry slot = none := by
  induction exits with
  | refl => exact .inl rfl
  | tail _ move ih =>
    rcases move.entry slot with same | gone
    · rwa [same]
    · exact .inr gone

theorem Exits.absent (exits : Exits load p m m')
    (absent : m.entry slot = none) : m'.entry slot = none := by
  rcases exits.entry slot with same | gone
  · rw [same, absent]
  · exact gone.2

theorem ExitMove.walkable (move : ExitMove load p m m') (walk : Walkable m p) : Walkable m' p := by
  have before : ∀ slot, (m'.entry slot).isSome → (m.entry slot).isSome := by
    intro slot present
    rcases move.entry slot with same | gone
    · rwa [← same]
    · rw [gone.2] at present
      cases present
  -- an entry above a present one is still there: a freed slot has nothing below
  have above : ∀ slot up : Slot, slot.above = some up → (m'.entry slot).isSome →
      (m.entry up).isSome → (m'.entry up).isSome := by
    intro slot up link present there
    have presentBefore := before slot present
    cases move with
    | keep kept =>
      rename_i page
      rwa [clear_entry_of_ne m]
      rintro rfl
      cases slot <;> cases link
    | free mine found bare lost =>
      rename_i freed e
      rw [clear_entry_of_ne, freePage_entry]
      · exact there
      rintro rfl
      rw [bare slot link] at presentBefore
      cases presentBefore
  refine ⟨?_, ?_, ?_⟩
  · intro page present
    exact above (.leaf (.user p) page) _ rfl present (walk.middle page (before _ present))
  · intro index present
    exact above (.middle (.user p) index) _ rfl present (walk.root index (before _ present))
  · intro vpn2 present
    exact walk.user vpn2 (before _ present)

theorem Exits.walkable (exits : Exits load p m m') (walk : Walkable m p) : Walkable m' p := by
  induction exits with
  | refl => exact walk
  | tail _ move ih => exact move.walkable ih

variable (load) in
theorem Mem.release_exits (m : Mem) (slot : Slot) (mine : slot.holder = .user p)
    (bare : ∀ below : Slot, below.above = some slot → m.entry below = none)
    (lost : ∀ page, slot = .leaf (.user p) page → load.keeps (page * 4096) = false) :
    Exits load p m (m.release slot) ∧ (m.release slot).entry slot = none := by
  unfold release
  cases present : m.entry slot with
  | none => exact ⟨.refl, present⟩
  | some e => exact ⟨.single (.free mine present bare lost), clear_entry_self ..⟩

variable (load p) in
theorem Mem.recycleLeaf_exits (m : Mem) (page : Nat) : Exits load p m (m.recycleLeaf load p page) ∧
    (m.recycleLeaf load p page).entry (.leaf (.user p) page) = none := by
  unfold recycleLeaf
  cases kept : load.keeps (page * 4096) with
  | true => exact ⟨.single (.keep kept), clear_entry_self ..⟩
  | false =>
    refine m.release_exits load _ rfl ?_ ?_
    · intro below link
      cases below <;> cases link
    · rintro _ ⟨⟩
      exact kept

theorem Exits.clearTable {m : Mem} (recycle : Mem → Nat → Mem) (entryOf : Nat → Slot)
    (each : ∀ m' k, Exits load p m m' →
      Exits load p m' (recycle m' k) ∧ (recycle m' k).entry (entryOf k) = none) :
    Exits load p m ((List.range 512).foldl recycle m) ∧
      ∀ k < 512, ((List.range 512).foldl recycle m).entry (entryOf k) = none := by
  obtain ⟨exits, cleared, _⟩ := foldl_each recycle (Exits load p m)
    (fun k m' => m'.entry (entryOf k) = none) (List.range 512)
    (by
      intro k _ m' exits
      obtain ⟨more, gone⟩ := each m' k exits
      exact ⟨exits.trans more, gone, fun _ absent => more.absent absent⟩) m .refl
  exact ⟨exits, fun k small => cleared k (mem_range.mpr small)⟩

variable (load p) in
theorem Mem.recycleMiddle_exits (m : Mem) (index : Nat) :
    Exits load p m (m.recycleMiddle load p index) ∧
      (m.recycleMiddle load p index).entry (.middle (.user p) index) = none := by
  unfold recycleMiddle
  cases present : m.entry (.middle (.user p) index) with
  | none => exact ⟨.refl, present⟩
  | some e =>
    obtain ⟨exits, cleared⟩ := Exits.clearTable
      (fun m vpn0 => m.recycleLeaf load p (index * 512 + vpn0))
      (fun vpn0 => .leaf (.user p) (index * 512 + vpn0))
      (fun m' vpn0 _ => m'.recycleLeaf_exits load p (index * 512 + vpn0))
    generalize (List.range 512).foldl _ m = emptied at exits cleared ⊢
    have released := emptied.release_exits load (.middle (.user p) index) rfl ?_ nofun
    · exact ⟨exits.trans released.1, released.2⟩
    · intro below link
      cases below with
      | leaf o page =>
        cases link
        have split : page / 512 * 512 + page % 512 = page := by omega
        simpa [split] using cleared (page % 512) (by omega)
      | root | middle | pgdir | kernelStack => cases link

variable (load) in
theorem Mem.recycleRoot_exits (m : Mem) (vpn2 : Nat) (walk : Walkable m p) :
    Exits load p m (m.recycleRoot load p vpn2) ∧
      (m.recycleRoot load p vpn2).entry (.root (.user p) vpn2) = none := by
  unfold recycleRoot
  cases present : m.entry (.root (.user p) vpn2) with
  | none => cases kernelBase vpn2 <;> exact ⟨.refl, present⟩
  | some e =>
    rw [(walk.user vpn2 (by rw [present]; rfl)).1]
    obtain ⟨exits, cleared⟩ := Exits.clearTable
      (fun m vpn1 => m.recycleMiddle load p (vpn2 * 512 + vpn1))
      (fun vpn1 => .middle (.user p) (vpn2 * 512 + vpn1))
      (fun m' vpn1 _ => m'.recycleMiddle_exits load p (vpn2 * 512 + vpn1))
    generalize (List.range 512).foldl _ m = emptied at exits cleared ⊢
    have released := emptied.release_exits load (.root (.user p) vpn2) rfl ?_ nofun
    · exact ⟨exits.trans released.1, released.2⟩
    · intro below link
      cases below with
      | middle o index =>
        cases link
        have split : index / 512 * 512 + index % 512 = index := by omega
        simpa [split] using cleared (index % 512) (by omega)
      | root | leaf | pgdir | kernelStack => cases link

variable (load) in
theorem handleExitPcb_exits (m : Mem) (walk : Walkable m p) :
    Exits load p m (handleExitPcb load p m) ∧
      ∀ slot : Slot, slot.holder = .user p → (handleExitPcb load p m).entry slot = none := by
  unfold handleExitPcb recyclePagePart
  obtain ⟨exits, cleared⟩ := Exits.clearTable (fun m vpn2 => m.recycleRoot load p vpn2)
    (fun vpn2 => .root (.user p) vpn2)
    (fun m' vpn2 exits => m'.recycleRoot_exits load vpn2 (exits.walkable walk))
  generalize (List.range 512).foldl _ m = emptied at exits cleared ⊢
  have walkEmptied := exits.walkable walk
  have noField : ∀ q : Slot, q = .pgdir p ∨ q = .kernelStack p →
      ∀ m' : Mem, Exits load p m' (m'.release q) ∧ (m'.release q).entry q = none := by
    intro q field m'
    refine m'.release_exits load q (by rcases field with rfl | rfl <;> rfl) ?_ ?_
    · intro below link
      rcases field with rfl | rfl <;> cases below <;> cases link
    · rintro page rfl
      rcases field with other | other <;> cases other
  obtain ⟨first, pgdirGone⟩ := noField (.pgdir p) (.inl rfl) emptied
  obtain ⟨second, stackGone⟩ := noField (.kernelStack p) (.inr rfl) (emptied.release (.pgdir p))
  refine ⟨(exits.trans first).trans second, ?_⟩
  have rootsGone : ∀ vpn2, emptied.entry (.root (.user p) vpn2) = none := by
    intro vpn2
    by_contra present
    have there := Option.isSome_iff_ne_none.mpr present
    exact present (cleared vpn2 (walkEmptied.user vpn2 there).2)
  have middlesGone : ∀ index, emptied.entry (.middle (.user p) index) = none := by
    intro index
    by_contra present
    have there := walkEmptied.root index (Option.isSome_iff_ne_none.mpr present)
    rw [rootsGone] at there
    cases there
  have leavesGone : ∀ page, emptied.entry (.leaf (.user p) page) = none := by
    intro page
    by_contra present
    have there := walkEmptied.middle page (Option.isSome_iff_ne_none.mpr present)
    rw [middlesGone] at there
    cases there
  intro slot held
  cases slot with
  | root o vpn2 =>
    obtain rfl : o = .user p := held
    exact second.absent (first.absent (rootsGone vpn2))
  | middle o index =>
    obtain rfl : o = .user p := held
    exact second.absent (first.absent (middlesGone index))
  | leaf o page =>
    obtain rfl : o = .user p := held
    exact second.absent (first.absent (leavesGone page))
  | pgdir q =>
    obtain rfl : q = p := Owner.user.inj held
    exact second.absent pgdirGone
  | kernelStack q =>
    obtain rfl : q = p := Owner.user.inj held
    exact stackGone

end CCore.Mm
