import CCore.Lib.Accounts
import CCore.Mm.Isolation

/-!
# Clone and exit leave the page counts as they were

The places that a clone and the child's stores fill are entered in an account whose
beginning is the memory just before the clone.  The exit empties the child's places
one by one; what it does not empty with a `freePage` is what the counts keep.
-/
namespace CCore.Mm

open Accounts Run Function List Option Mem
open Relation (ReflTransGen)

/-- Slots, free pages and `share_num`. -/
def Mem.account (m : Mem) : Account Slot Nat := ⟨m.frameAt, m.free, m.shareNum⟩

variable {c p page : Nat} {m m' : Mem} {slot : Slot} {e : Pte} {o : Owner} {load : ExeLoad} {s :
  Sys} {P : Nat → Prop} {Q : Prop}

section Account
variable (m : Mem)

theorem Mem.account_take (slot : Slot) (e : Pte) (rest : List Nat) (fill : Nat → Nat) :
    (m.take slot e rest fill).account = m.account.take 256 slot e.frame rest := by
  rw [Mem.account, frameAt_take]
  rfl

theorem Mem.account_share (mapped : m.entry (.leaf (.user p) page) = some e) :
    (m.shareEntry p c page e).account = m.account.lend 256 (.leaf (.user c) page) e.frame := by
  have parent : update m.frameAt (.leaf (.user p) page) (some e.frame) = m.frameAt := by
    rw [← frameAt_of_entry mapped, update_eq_self]
  have frames : (m.shareEntry p c page e).frameAt =
      update m.frameAt (.leaf (.user c) page) (some e.frame) := by
    show ((m.put (.leaf (.user p) page) { e with write := false }).put (.leaf (.user c) page)
      { e with write := false }).frameAt = _
    rw [frameAt_put, frameAt_put, parent]
  rw [Mem.account, frames]
  rfl

theorem Mem.freePage_free_eq (f : Nat) :
    (m.freePage f).free = if (m.shareNum f + 255) % 256 = 0 then f :: m.free else m.free := by
  rcases m.freePage_free f with ⟨some_left, free⟩ | ⟨none_left, free⟩
  · rw [free, if_neg some_left]
  · rw [free, if_pos none_left]

theorem Mem.clear_free (slot : Slot) : (m.clear slot).free = m.free := rfl

theorem Mem.clear_sourceNum (slot : Slot) : (m.clear slot).sourceNum = m.sourceNum := rfl

theorem Mem.account_free (held : Slot → Option Nat) (slot : Slot) (f : Nat) :
    { ((m.freePage f).clear slot).account with held := update held slot none } =
      ({ m.account with held } : Account Slot Nat).drop 256 slot f := by
  simp only [Mem.account, clear_free, clear_shareNum, freePage_free_eq,
    freePage_shareNum, Account.drop]
  rfl

theorem Mem.account_copy (slot : Slot) (e e' : Pte) (rest : List Nat) (fill : Nat → Nat) :
    ((m.shareSub e.frame).take slot e' rest fill).account =
      (m.account.drop 256 slot e.frame).take 256 slot e'.frame rest := by
  have frames : ((m.shareSub e.frame).take slot e' rest fill).frameAt =
      update (update m.frameAt slot none) slot (some e'.frame) := by
    rw [frameAt_take, update_idem]
    rfl
  rw [Mem.account, frames]
  rfl

end Account

/-! ## The memory between clone and exit -/

/-- The memory just before the clone.  A kernel table leads to a page only where a
process touched an address of the boot map's root slot, and such a page is
writable. -/
structure Parent (m : Mem) (p c : Nat) : Prop where
  nodup : m.free.Nodup
  unshared : ∀ f ∈ m.free, m.shareNum f = 0
  small : ∀ f, m.shareNum f < 256
  count : m.sourceNum = m.free.length
  childless : ∀ slot : Slot, slot.holder = .user c → m.frameAt slot = none
  tree : ∀ u up : Slot, u.above = some up → (m.frameAt u).isSome → (m.frameAt up).isSome
  roots : ∀ q vpn2, (m.frameAt (.root (.user q) vpn2)).isSome → kernelBase vpn2 = false ∧ vpn2 < 512
  used : ∀ page f, m.frameAt (.leaf (.user p) page) = some f → f ∉ m.free ∧ m.shareNum f ≠ 0
  alone : ∀ page page' f, m.frameAt (.leaf (.user p) page) = some f →
    m.frameAt (.leaf (.user p) page') = some f → page = page'
  kernel : ∀ page, (m.frameAt (.leaf .kernel page)).isSome → m.writable (.leaf .kernel page) = true

theorem Parent.opening (parent : Parent m p c) : Opening 256 m.account :=
  ⟨parent.nodup, parent.unshared, parent.small, by decide⟩

/-- A memory between clone and exit of the child.  `P` bounds the pages the child may
have, and `Q` says that the kernel's tables may have grown. -/
structure Forked (m₀ : Mem) (p c : Nat) (P : Nat → Prop) (Q : Prop) (m : Mem) : Prop where
  ledger : Ledger 256 m₀.account m.account
  count : m.sourceNum = m.free.length
  owners : ∀ slot, m₀.frameAt slot = none → (m.frameAt slot).isSome →
    slot.holder = .user c ∨ slot.holder = .kernel
  source : ∀ slot f, m₀.frameAt slot = none → m.frameAt slot = some f →
    f ∈ m₀.free ∨ ∃ page, slot = .leaf (.user c) page ∧ m₀.frameAt (.leaf (.user p) page) = some f
  tree : ∀ u up : Slot, u.above = some up → (m.frameAt u).isSome → (m.frameAt up).isSome
  roots : ∀ q vpn2, (m.frameAt (.root (.user q) vpn2)).isSome → kernelBase vpn2 = false ∧ vpn2 < 512
  kernel : ∀ page, (m.frameAt (.leaf .kernel page)).isSome → m.writable (.leaf .kernel page) = true
  pages : ∀ page, (m.frameAt (.leaf (.user c) page)).isSome → P page
  extra : ∀ slot : Slot, slot.holder = .kernel → m₀.frameAt slot = none →
    (m.frameAt slot).isSome → Q

variable {m₀ : Mem}

theorem Parent.forked (parent : Parent m₀ p c) : Forked m₀ p c P Q m₀ where
  ledger := Ledger.refl parent.opening
  count := parent.count
  owners := by
    intro slot empty present
    rw [empty] at present
    cases present
  source := by
    intro slot f empty holds
    rw [empty] at holds
    cases holds
  tree := parent.tree
  roots := parent.roots
  kernel := parent.kernel
  pages := by
    intro page present
    rw [parent.childless (.leaf (.user c) page) rfl] at present
    cases present
  extra := by
    intro slot _ empty present
    rw [empty] at present
    cases present

section
variable (forked : Forked m₀ p c P Q m)
include forked

theorem Forked.walkable (q : Nat) : Walkable m q := walkable_of_tree forked.tree (forked.roots q)

theorem Forked.congr (frames : m'.frameAt = m.frameAt)
    (writes : ∀ page, m'.writable (.leaf .kernel page) = m.writable (.leaf .kernel page))
    (free : m'.free = m.free) (shares : m'.shareNum = m.shareNum)
    (source : m'.sourceNum = m.sourceNum) : Forked m₀ p c P Q m' := by
  have account : m'.account = m.account := by
    rw [Mem.account, frames, free, shares]
    rfl
  have ledger : Ledger 256 m₀.account m'.account := by
    rw [account]
    exact forked.ledger
  refine ⟨ledger, ?_, ?_, ?_, ?_, ?_, ?_, ?_, ?_⟩
  · rw [source, free]
    exact forked.count
  · rw [frames]
    exact forked.owners
  · rw [frames]
    exact forked.source
  · rw [frames]
    exact forked.tree
  · rw [frames]
    exact forked.roots
  · intro page present
    rw [frames] at present
    rw [writes]
    exact forked.kernel page present
  · rw [frames]
    exact forked.pages
  · rw [frames]
    exact forked.extra

theorem Forked.sameMap (same : SameMap m m') : Forked m₀ p c P Q m' :=
  forked.congr same.frameAt (fun page => by rw [same.writable]) same.free same.shareNum
    same.sourceNum

/-- What a filled slot must be, whether it takes a free page or a shared one. -/
structure Fills (m₀ : Mem) (c : Nat) (P : Nat → Prop) (Q : Prop) (m : Mem) (slot : Slot) (e : Pte) :
    Prop where
  owner : slot.holder = .user c ∨ slot.holder = .kernel ∧ Q
  above : ∀ up, slot.above = some up → (m.frameAt up).isSome
  root : ∀ q vpn2, slot = .root (.user q) vpn2 → kernelBase vpn2 = false ∧ vpn2 < 512
  page : ∀ page, slot = .leaf (.user c) page → P page
  write : ∀ page, slot = .leaf .kernel page → e.write = true

theorem Forked.fill (fills : Fills m₀ c P Q m slot e) (ledger : Ledger 256 m₀.account m'.account)
    (count : m'.sourceNum = m'.free.length)
    (frames : m'.frameAt = update m.frameAt slot (some e.frame)) (self : m'.entry slot = some e)
    (writes : ∀ page, Slot.leaf .kernel page ≠ slot →
      m'.writable (.leaf .kernel page) = m.writable (.leaf .kernel page))
    (source : e.frame ∈ m₀.free ∨ ∃ page, slot = .leaf (.user c) page ∧
      m₀.frameAt (.leaf (.user p) page) = some e.frame) : Forked m₀ p c P Q m' := by
  have others : ∀ other, other ≠ slot → m'.frameAt other = m.frameAt other := by
    intro other ne
    rw [frames, update_of_ne ne]
  refine ⟨ledger, count, ?_, ?_, ?_, ?_, ?_, ?_, ?_⟩
  · intro other empty present
    by_cases same : other = slot
    · rw [same]
      exact fills.owner.imp_right And.left
    · rw [others other same] at present
      exact forked.owners other empty present
  · intro other f empty holds
    rcases eq_or_ne other slot with rfl | same
    · rw [frameAt_of_entry self] at holds
      cases holds
      exact source
    · rw [others other same] at holds
      exact forked.source other f empty holds
  · intro u up link present
    have there : (m.frameAt up).isSome := by
      by_cases same : u = slot
      · exact fills.above up (same ▸ link)
      · rw [others u same] at present
        exact forked.tree u up link present
    by_cases same : up = slot
    · rw [same, frameAt_of_entry self]
      rfl
    · rwa [others up same]
  · intro q vpn2 present
    by_cases same : Slot.root (.user q) vpn2 = slot
    · exact fills.root q vpn2 same.symm
    · rw [others _ same] at present
      exact forked.roots q vpn2 present
  · intro page present
    by_cases same : Slot.leaf .kernel page = slot
    · rw [writable_of_entry (same ▸ self)]
      exact fills.write page same.symm
    · rw [others _ same] at present
      rw [writes page same]
      exact forked.kernel page present
  · intro page present
    by_cases same : Slot.leaf (.user c) page = slot
    · exact fills.page page same.symm
    · rw [others _ same] at present
      exact forked.pages page present
  · intro other kernel empty present
    by_cases same : other = slot
    · rcases fills.owner with mine | ⟨-, grown⟩
      · rw [← same, kernel] at mine
        cases mine
      · exact grown
    · rw [others other same] at present
      exact forked.extra other kernel empty present

theorem Forked.take {rest : List Nat} (fills : Fills m₀ c P Q m slot e)
    (absent : m.entry slot = none) (free : m.free = e.frame :: rest) (fill : Nat → Nat) :
    Forked m₀ p c P Q (m.take slot e rest fill) := by
  have member : e.frame ∈ m.free := free ▸ mem_cons_self
  have ledger : Ledger 256 m₀.account (m.take slot e rest fill).account := by
    rw [account_take]
    exact forked.ledger.take (Mem.frameAt_eq_none.mpr absent) free
  refine forked.fill fills ledger ?_ (m.frameAt_take slot e rest fill)
    (m.take_entry_self slot e rest fill) ?_ (.inl ((forked.ledger.free e.frame).mp member).1)
  · show m.sourceNum - 1 = rest.length
    rw [forked.count, free]
    rfl
  · intro page ne
    exact writable_of_ne (m.take_entry_of_ne e rest fill ne)

end

theorem Forked.vacant (vacant : Vacant o slot m)
    (mine : o = .user c ∨ o = .kernel ∧ Q) (page : ∀ page, slot = .leaf (.user c) page → P page)
    (write : ∀ page, slot = .leaf .kernel page → e.write = true) : Fills m₀ c P Q m slot e := by
  refine ⟨by rw [vacant.mine]; exact mine, ?_, vacant.root, page, write⟩
  intro up link
  rw [frameAt_isSome]
  exact vacant.above up link

section
variable (forked : Forked m₀ p c P Q m)
include forked

theorem Forked.parent_leaf (apart : p ≠ c) (page : Nat) :
    m.frameAt (.leaf (.user p) page) = m₀.frameAt (.leaf (.user p) page) := by
  cases first : m₀.frameAt (.leaf (.user p) page) with
  | some f => exact forked.ledger.old _ f first
  | none =>
    cases now : m.frameAt (.leaf (.user p) page) with
    | none => rfl
    | some f =>
      rcases forked.owners _ first (by rw [now]; rfl) with child | kernel
      · exact absurd (Owner.user.inj child) apart
      · exact nomatch kernel

theorem Forked.table
    (move : TableMove o m m') (mine : o = .user c ∨ o = .kernel ∧ Q) : Forked m₀ p c P Q m' := by
  cases move with
  | mk vacant inner free =>
    refine forked.take (Forked.vacant vacant mine ?_ ?_) vacant.absent free _
    · exact fun page leaf => absurd leaf (inner _ page)
    · exact fun page leaf => absurd leaf (inner _ page)

theorem Forked.share (parent : Parent m₀ p c) (apart : p ≠ c)
    (vacant : Vacant (.user c) (.leaf (.user c) page) m)
    (mapped : m.entry (.leaf (.user p) page) = some e) (allowed : P page) :
    Forked m₀ p c P Q (m.shareEntry p c page e) := by
  have first : m₀.frameAt (.leaf (.user p) page) = some e.frame := by
    rw [← forked.parent_leaf apart]
    exact frameAt_of_entry mapped
  obtain ⟨notFree, counted⟩ := parent.used page e.frame first
  have absent := Mem.frameAt_eq_none.mpr vacant.absent
  -- nobody else among the new slots has a page of the parent
  have fresh : ¬ New m₀.account m.account e.frame := by
    rintro ⟨slot, empty, holds⟩
    rcases forked.source slot e.frame empty holds with free | ⟨page', rfl, same⟩
    · exact notFree free
    · cases parent.alone page' page e.frame same first
      have twice : m.frameAt (.leaf (.user c) page) = some e.frame := holds
      rw [absent] at twice
      cases twice
  have account := m.account_share (c := c) mapped
  have ledger : Ledger 256 m₀.account (m.shareEntry p c page e).account := by
    rw [account]
    exact forked.ledger.lend absent fresh notFree counted
  refine forked.fill (e := { e with write := false })
    (Forked.vacant vacant (.inl rfl) ?_ ?_) ledger forked.count
    (congrArg Account.held account) (m.shareEntry_child page e) ?_ (.inr ⟨page, rfl, first⟩)
  · intro page' same
    cases same
    exact allowed
  · exact fun page' same => nomatch same
  · intro page' _
    refine writable_of_ne (m.shareEntry_of_ne e ?_ ?_)
    · exact nofun
    · exact nofun

theorem Forked.cloneMove (parent : Parent m₀ p c)
    (apart : p ≠ c) (allowed : ∀ page, (m₀.frameAt (.leaf (.user p) page)).isSome → P page)
    (move : CloneMove p c m m') : Forked m₀ p c P Q m' := by
  have shared : ∀ page e, m.entry (.leaf (.user p) page) = some e → P page := by
    intro page e mapped
    refine allowed page ?_
    rw [← forked.parent_leaf apart, frameAt_of_entry mapped]
    rfl
  cases move with
  | table move => exact forked.table move (.inl rfl)
  | stack vacant mapped free =>
    refine forked.take (Forked.vacant vacant (.inl rfl) ?_ ?_) vacant.absent free _
    · intro page same
      cases same
      exact shared _ _ mapped
    · exact nofun
  | again mapped copied => exact forked.congr rfl (fun _ => rfl) rfl rfl rfl
  | share vacant mapped => exact forked.share parent apart vacant mapped (shared _ _ mapped)

end

theorem Forked.moves (parent : Parent m₀ p c) (apart : p ≠ c)
    (allowed : ∀ page, (m₀.frameAt (.leaf (.user p) page)).isSome → P page)
    (moves : Moves p c m₀ m') : Forked m₀ p c P Q m' := by
  induction moves with
  | refl => exact parent.forked
  | tail _ move ih => exact ih.cloneMove parent apart allowed move

def Touchable (m₀ : Mem) (c : Nat) (P : Nat → Prop) (Q : Prop) (page : Nat) : Prop :=
  match owner c page with
  | .user _ => P page
  | .kernel => m₀.frameAt (.leaf .kernel page) = none → Q

theorem Forked.touches (forked : Forked m₀ p c P Q m)
    (mine : o = .user c ∧ P page ∨ o = .kernel ∧ Q) (touches : Touches o page m m') :
    Forked m₀ p c P Q m' := by
  have holder : o = .user c ∨ o = .kernel ∧ Q := mine.imp_left And.left
  induction touches with
  | refl => exact forked
  | tail _ move ih =>
    cases move with
    | table move => exact ih.table move holder
    | leaf vacant free =>
      refine ih.take (Forked.vacant vacant holder ?_ fun _ _ => rfl) vacant.absent free _
      intro page' same
      obtain ⟨owner, rfl⟩ := Slot.leaf.inj same
      rcases mine with ⟨-, allowed⟩ | ⟨kernel, -⟩
      · exact allowed
      · rw [kernel] at owner
        cases owner

theorem Touches.mono (touches : Touches o page m m')
    (slot : Slot) (present : (m.entry slot).isSome) : (m'.entry slot).isSome := by
  have taken : ∀ (m : Mem) (other : Slot) (e : Pte) (rest : List Nat) (fill : Nat → Nat),
      (m.entry slot).isSome → ((m.take other e rest fill).entry slot).isSome := by
    intro m other e rest fill there
    by_cases same : slot = other
    · rw [same, take_entry_self]
      rfl
    · rwa [take_entry_of_ne m _ _ _ same]
  induction touches with
  | refl => exact present
  | tail _ move ih =>
    cases move with
    | table move =>
      cases move with
      | mk vacant inner free => exact taken _ _ _ _ _ ih
    | leaf vacant free => exact taken _ _ _ _ _ ih

theorem Forked.copy {f : Nat} {rest : List Nat} (forked : Forked m₀ p c P Q m)
    (parent : Parent m₀ p c) (mapped : m.entry (.leaf (.user c) page) = some e)
    (shared : m.shareNum e.frame ≠ 1) (free : m.free = f :: rest) (fill : Nat → Nat) :
    Forked m₀ p c P Q ((m.shareSub e.frame).take (.leaf (.user c) page) (e.copied f) rest fill) := by
  have held : m.frameAt (.leaf (.user c) page) = some e.frame := frameAt_of_entry mapped
  have before := parent.childless (.leaf (.user c) page) rfl
  have small : m.shareNum e.frame < 256 := by
    have counted := forked.ledger.counted e.frame ⟨_, before, held⟩
    have value : m.shareNum e.frame = (m₀.shareNum e.frame + 1) % 256 := counted
    omega
  have left : ¬ (m.account.share e.frame + (256 - 1)) % 256 = 0 := by
    show ¬ (m.shareNum e.frame + 255) % 256 = 0
    omega
  have dropped : Ledger 256 m₀.account (m.account.drop 256 (.leaf (.user c) page) e.frame) :=
    forked.ledger.drop parent.opening before held
  have freeLeft : (m.account.drop 256 (.leaf (.user c) page) e.frame).free = f :: rest := by
    rw [Account.drop]
    simp only [if_neg left]
    exact free
  have account := m.account_copy (.leaf (.user c) page) e (e.copied f) rest fill
  have ledger : Ledger 256 m₀.account ((m.shareSub e.frame).take (.leaf (.user c) page) (e.copied f) rest fill).account := by
    rw [account]
    exact dropped.take (drop_held_self ..) freeLeft
  have member : f ∈ m.free := free ▸ mem_cons_self
  have fills : Fills m₀ c P Q m (.leaf (.user c) page) (e.copied f) := by
    refine ⟨.inl rfl, ?_, nofun, ?_, nofun⟩
    · intro up link
      exact forked.tree _ up link (by rw [held]; rfl)
    · intro page' same
      cases same
      exact forked.pages page (by rw [held]; rfl)
  refine forked.fill fills ledger ?_ ?_ ?_ ?_ (.inl ((forked.ledger.free f).mp member).1)
  · show m.sourceNum - 1 = rest.length
    rw [forked.count, free]
    rfl
  · exact frameAt_take ..
  · exact take_entry_self ..
  · intro page' ne
    exact writable_of_ne (take_entry_of_ne (m.shareSub e.frame) _ rest fill ne)

/-- The leaf of an access is present afterwards, and no slot is emptied. -/
def Reached (m m' : Mem) (c page : Nat) : Prop :=
  (m'.entry (.leaf (owner c page) page)).isSome ∧
    ∀ slot, (m.entry slot).isSome → (m'.entry slot).isSome

theorem Forked.noW (forked : Forked m₀ p c P Q m)
    (parent : Parent m₀ p c) (mapped : m.entry (.leaf (owner c page) page) = some e)
    (readOnly : e.write = false) (run : dealNoW c page m = .ok () m') :
    Forked m₀ p c P Q m' ∧ Reached m m' c page := by
  have found : getPTEOf m c page = some e := by rw [getPTEOf_of_tree forked.tree, mapped]
  -- a page of the kernel's tables is writable
  have user : owner c page = .user c := by
    rw [owner] at mapped ⊢
    split at mapped
    · have write := forked.kernel page (by rw [frameAt_of_entry mapped]; rfl)
      rw [writable_of_entry mapped, readOnly] at write
      cases write
    · rename_i notKernel
      rw [if_neg notKernel]
  have presence : ∀ (n : Mem) (e' : Pte), n.entry (.leaf (owner c page) page) = some e' →
      (∀ slot, slot ≠ .leaf (owner c page) page → n.entry slot = m.entry slot) →
      Reached m n c page := by
    intro n e' here others
    refine ⟨by rw [here]; rfl, ?_⟩
    intro slot present
    by_cases same : slot = .leaf (owner c page) page
    · rw [same, here]
      rfl
    · rwa [others slot same]
  by_cases one : m.shareNum e.frame = 1
  · rw [dealNoW_mine found one] at run
    cases run
    refine ⟨forked.congr ?_ ?_ rfl rfl rfl,
      presence _ _ (put_entry_self ..) fun slot ne => put_entry_of_ne m _ ne⟩
    · rw [frameAt_put, ← frameAt_of_entry mapped, update_eq_self]
    · intro page'
      refine writable_of_ne (put_entry_of_ne m _ ?_)
      rw [user]
      exact fun same => by cases same
  · cases free : m.free with
    | nil =>
      rw [dealNoW_sleep found one free] at run
      cases run
    | cons f rest =>
      rw [dealNoW_copy found one free] at run
      cases run
      refine ⟨?_, presence _ _ (take_entry_self ..) fun slot ne =>
        take_entry_of_ne (m.shareSub e.frame) _ _ _ ne⟩
      rw [user] at mapped ⊢
      exact forked.copy parent mapped one free _

theorem Forked.noAlloc (forked : Forked m₀ p c P Q m)
    (touchable : Touchable m₀ c P Q page) (low : page / 512 / 512 < 512)
    (absent : m.entry (.leaf (owner c page) page) = none) (run : dealNoAlloc c page m = .ok () m') :
    Forked m₀ p c P Q m' ∧ Reached m m' c page := by
  have ends := dealNoAlloc_touches (p := c) m low
  rw [run] at ends
  obtain ⟨touches, present⟩ := ends
  refine ⟨forked.touches ?_ touches, present, touches.mono⟩
  rw [Touchable] at touchable
  rw [owner] at absent touchable ⊢
  split
  · rename_i kernel
    rw [if_pos kernel] at absent touchable
    exact .inr ⟨rfl, touchable (forked.ledger.empty_before (Mem.frameAt_eq_none.mpr absent))⟩
  · rename_i user
    rw [if_neg user] at touchable
    exact .inl ⟨rfl, touchable⟩

theorem Reached.sameMap {m₁ : Mem} (same : SameMap m m₁)
    (reached : Reached m₁ m' c page) : Reached m m' c page :=
  ⟨reached.1, fun slot present => reached.2 slot (by rwa [same.isSome])⟩

theorem Forked.store {s' : Sys} {va v : Nat} (forked : Forked m₀ p c P Q s.mem)
    (parent : Parent m₀ p c) (touchable : Touchable m₀ c P Q (va / 4096))
    (run : step load s (.store c va v) = some s') (awake : s'.life c = .live .user) :
    Forked m₀ p c P Q s'.mem ∧ Reached s.mem s'.mem c (va / 4096) := by
  have ranOk : ∀ result : EStateM.Result Task Mem Unit, s.ran c result = s' →
      (∀ task m', result = .error task m' → task ≠ .user) →
      ∃ m', result = .ok () m' ∧ s'.mem = m' := by
    intro result same asleep
    cases result with
    | ok u m' => exact ⟨m', rfl, by rw [← same]; rfl⟩
    | error task m' =>
      rw [← same] at awake
      have life : Life.live task = .live .user := (update_self ..).symm.trans awake
      exact absurd (Life.live.inj life) (asleep task m' rfl)
  obtain ⟨guard, run⟩ := ite_none_right_eq_some.mp run
  have low := userAddr_low guard.2
  rw [getPTEOf_of_tree forked.tree] at run
  cases found : s.mem.entry (.leaf (owner c (va / 4096)) (va / 4096)) with
  | some e =>
    rw [found] at run
    simp only at run
    split at run
    · cases run
      refine ⟨forked.congr rfl (fun _ => rfl) rfl rfl rfl, ?_, fun _ => id⟩
      show (s.mem.entry _).isSome
      rw [found]
      rfl
    · rename_i readOnly
      have mapped : getPTEOf s.mem c (va / 4096) = some e := by
        rw [getPTEOf_of_tree forked.tree, found]
      obtain ⟨m₁, same, fault⟩ := handlePageFault_noW mapped (by simpa using readOnly)
      rw [fault] at run
      obtain ⟨e₁, there, -, write⟩ := same.found found
      have forked₁ := forked.sameMap same
      obtain ⟨m', ok, mem⟩ := ranOk _ (Option.some.inj run) (by
        intro task m' error
        have mapped₁ : getPTEOf m₁ c (va / 4096) = some e₁ := by
          rw [getPTEOf_of_tree forked₁.tree, there]
        by_cases one : m₁.shareNum e₁.frame = 1
        · rw [dealNoW_mine mapped₁ one] at error
          cases error
        · cases free : m₁.free with
          | nil =>
            rw [dealNoW_sleep mapped₁ one free] at error
            cases error
            exact nofun
          | cons f rest =>
            rw [dealNoW_copy mapped₁ one free] at error
            cases error)
      rw [mem]
      obtain ⟨done, reached⟩ := forked₁.noW parent there (by rw [write]; simpa using readOnly) ok
      exact ⟨done, reached.sameMap same⟩
  | none =>
    rw [found] at run
    have unmapped : getPTEOf s.mem c (va / 4096) = none := by
      rw [getPTEOf_of_tree forked.tree, found]
    obtain ⟨m₁, same, fault⟩ := handlePageFault_unmapped .store unmapped
    rw [fault] at run
    obtain ⟨m', ok, mem⟩ := ranOk _ (Option.some.inj run) (by
      intro task m' error
      have ends := dealNoAlloc_touches (p := c) m₁ low
      rw [error] at ends
      rw [ends.1]
      exact nofun)
    rw [mem]
    obtain ⟨done, reached⟩ := (forked.sameMap same).noAlloc touchable low (same.absent.mpr found) ok
    exact ⟨done, reached.sameMap same⟩

theorem Mem.freePage_count (count : m.sourceNum = m.free.length) (f : Nat) :
    (m.freePage f).sourceNum = (m.freePage f).free.length := by
  unfold Mem.freePage
  split
  · exact count
  · show m.sourceNum + 1 = m.free.length + 1
    rw [count]

section Exit
variable {start : Mem} {held : Slot → Option Nat}

/-- The exit has got from `start` to `m`.  `held` still has the pages for which no
`freePage` is made. -/
structure Leaving (m₀ : Mem) (load : ExeLoad) (c : Nat) (start : Mem) (held : Slot → Option Nat)
    (m : Mem) : Prop where
  ledger : Ledger 256 m₀.account { m.account with held }
  count : m.sourceNum = m.free.length
  seen : ∀ slot, m.frameAt slot = held slot ∨ m.frameAt slot = none ∧
    ∃ page, slot = .leaf (.user c) page ∧ load.keeps (page * 4096) = true
  kept : ∀ page, load.keeps (page * 4096) = true →
    held (.leaf (.user c) page) = start.frameAt (.leaf (.user c) page)
  others : ∀ slot : Slot, slot.holder ≠ .user c → held slot = start.frameAt slot

theorem Leaving.move (leaving : Leaving m₀ load c start held m)
    (parent : Parent m₀ p c) (move : ExitMove load c m m') :
    ∃ held', Leaving m₀ load c start held' m' := by
  cases move with
  | keep kept =>
    rename_i page
    refine ⟨held, { leaving with seen := ?_ }⟩
    intro slot
    rw [frameAt_clear]
    by_cases same : slot = .leaf (.user c) page
    · rw [same, update_self]
      exact .inr ⟨rfl, page, rfl, kept⟩
    · rw [update_of_ne same]
      exact leaving.seen slot
  | free mine present bare lost =>
    rename_i freed e
    have holds : held freed = some e.frame := by
      have there := frameAt_of_entry present
      rcases leaving.seen freed with same | ⟨gone, -⟩
      · exact same.symm.trans there
      · rw [gone] at there
        cases there
    refine ⟨update held freed none, ?_, ?_, ?_, ?_, ?_⟩
    · rw [account_free]
      exact leaving.ledger.drop parent.opening (parent.childless freed mine) holds
    · rw [clear_sourceNum, clear_free]
      exact freePage_count leaving.count e.frame
    · intro slot
      rw [frameAt_clear, frameAt_freePage]
      by_cases same : slot = freed
      · rw [same, update_self, update_self]
        exact .inl rfl
      · rw [update_of_ne same, update_of_ne same]
        exact leaving.seen slot
    · intro page kept
      have other : Slot.leaf (.user c) page ≠ freed := by
        intro same
        rw [lost page same.symm] at kept
        cases kept
      rw [update_of_ne other]
      exact leaving.kept page kept
    · intro slot other
      have different : slot ≠ freed := by
        rintro rfl
        exact other mine
      rw [update_of_ne different]
      exact leaving.others slot other

theorem Leaving.exits (parent : Parent m₀ p c) (ledger : Ledger 256 m₀.account start.account)
    (count : start.sourceNum = start.free.length) (exits : Exits load c start m) :
    ∃ held, Leaving m₀ load c start held m := by
  induction exits with
  | refl => exact ⟨start.frameAt, ledger, count, fun _ => .inl rfl, fun _ _ => rfl, fun _ _ => rfl⟩
  | tail _ move ih =>
    obtain ⟨held, leaving⟩ := ih
    exact leaving.move parent move

theorem Forked.exit_iff (parent : Parent m₀ p c) (forked : Forked m₀ p c P Q m) :
    ((handleExitPcb load c m).sourceNum = m₀.sourceNum ∧
        (handleExitPcb load c m).shareNum = m₀.shareNum) ↔
      (∀ page, (m.frameAt (.leaf (.user c) page)).isSome → load.keeps (page * 4096) = false) ∧
        ∀ slot : Slot, slot.holder = .kernel → (m.frameAt slot).isSome →
          (m₀.frameAt slot).isSome := by
  obtain ⟨exits, cleared⟩ := handleExitPcb_exits load m (forked.walkable c)
  generalize handleExitPcb load c m = after at exits cleared ⊢
  obtain ⟨held, leaving⟩ := Leaving.exits parent forked.ledger forked.count exits
  rw [leaving.count, parent.count]
  refine (leaving.ledger.back_iff parent.opening).trans ?_
  constructor
  · intro nothing
    refine ⟨?_, ?_⟩
    · intro page present
      by_contra other
      have kept : load.keeps (page * 4096) = true := by simpa using other
      obtain ⟨f, holds⟩ := isSome_iff_exists.mp present
      refine nothing f ⟨.leaf (.user c) page, parent.childless _ rfl, ?_⟩
      exact (leaving.kept page kept).trans holds
    · intro slot kernel present
      by_contra absent
      have first : m₀.frameAt slot = none := by simpa using absent
      obtain ⟨f, holds⟩ := isSome_iff_exists.mp present
      refine nothing f ⟨slot, first, (leaving.others slot ?_).trans holds⟩
      rw [kernel]
      exact nofun
  · rintro ⟨lost, grown⟩ f ⟨slot, first, holds⟩
    have here : held slot = some f := holds
    by_cases mine : slot.holder = .user c
    · -- the exit has emptied it, so it is one of those it keeps
      have gone : after.frameAt slot = none :=
        Mem.frameAt_eq_none.mpr (cleared slot mine)
      rcases leaving.seen slot with same | ⟨-, page, rfl, kept⟩
      · rw [gone, here] at same
        cases same
      · rw [leaving.kept page kept] at here
        rw [lost page (by rw [here]; rfl)] at kept
        cases kept
    · rw [leaving.others slot mine] at here
      have kernel := (forked.owners slot first (by rw [here]; rfl)).resolve_left mine
      have before := grown slot kernel (by rw [here]; rfl)
      rw [show m₀.frameAt slot = none from first] at before
      cases before

end Exit

/-! ## Clone, stores, exit -/

def childStores (c : Nat) (stores : List (Nat × Nat)) : List Act :=
  stores.map fun st => .store c st.1 st.2

theorem stores_awake {stores : List (Nat × Nat)} {final : Sys}
    (run : runActs (step load) s (childStores c stores) = some final)
    (awake : final.life c = .live .user) : s.life c = .live .user := by
  cases stores with
  | nil =>
    cases run
    exact awake
  | cons st rest =>
    obtain ⟨next, first, -⟩ := bind_eq_some_iff.mp run
    rw [step] at first
    split at first
    · rename_i guard
      exact guard.1
    · cases first

theorem Forked.stores {m₀ : Mem} (parent : Parent m₀ p c) {stores : List (Nat × Nat)} {final : Sys}
    (forked : Forked m₀ p c P Q s.mem) (touchable : ∀ st ∈ stores, Touchable m₀ c P Q (st.1 / 4096))
    (run : runActs (step load) s (childStores c stores) = some final)
    (awake : final.life c = .live .user) : Forked m₀ p c P Q final.mem ∧
    (∀ st ∈ stores, (final.mem.frameAt (.leaf (owner c (st.1 / 4096)) (st.1 / 4096))).isSome) ∧
    ∀ slot, (s.mem.frameAt slot).isSome → (final.mem.frameAt slot).isSome := by
  induction stores generalizing s with
  | nil =>
    cases run
    exact ⟨forked, fun _ member => absurd member not_mem_nil, fun _ => id⟩
  | cons st rest ih =>
    obtain ⟨next, first, more⟩ := bind_eq_some_iff.mp run
    obtain ⟨forkedNext, here, stays⟩ := forked.store parent (touchable st mem_cons_self) first
      (stores_awake more awake)
    obtain ⟨done, reached, staysAll⟩ := ih forkedNext
      (fun other member => touchable other (mem_cons_of_mem st member)) more
    refine ⟨done, ?_, ?_⟩
    · intro other member
      rcases mem_cons.mp member with rfl | tail
      · exact staysAll _ (by rw [frameAt_isSome]; exact here)
      · exact reached other tail
    · intro slot present
      refine staysAll slot ?_
      rw [frameAt_isSome] at present ⊢
      exact stays slot present

/-- A store of the child leaves nothing behind: its page is outside the kept addresses
or, under a root slot of the kernel, was there before the clone. -/
def StoreNeutral (load : ExeLoad) (m₀ : Mem) (c page : Nat) : Prop :=
  match owner c page with
  | .user _ => load.keeps (page * 4096) = false
  | .kernel => (m₀.frameAt (.leaf .kernel page)).isSome

instance (load : ExeLoad) (m₀ : Mem) (c page : Nat) : Decidable (StoreNeutral load m₀ c page) := by
  unfold StoreNeutral
  cases owner c page <;> infer_instance

theorem Forked.clone {s' : Sys} (parent : Parent s.mem p c)
    (allowed : ∀ page, (s.mem.frameAt (.leaf (.user p) page)).isSome → P page)
    (run : step load s (.clone p c) = some s') (awake : s'.life c = .live .user) :
    Forked s.mem p c P Q s'.mem ∧ ∀ page, (s.mem.frameAt (.leaf (.user p) page)).isSome →
        (s'.mem.frameAt (.leaf (.user c) page)).isSome := by
  obtain ⟨guard, run⟩ := ite_none_right_eq_some.mp run
  have apart : p ≠ c := by
    rintro rfl
    exact nomatch guard.1.symm.trans guard.2
  have start : Forked s.mem p c P Q s.mem := parent.forked
  have ready : Stage.Ready c s.mem .pgdir :=
    ⟨Mem.frameAt_eq_none.mp (parent.childless (.pgdir c) rfl),
      Mem.frameAt_eq_none.mp (parent.childless (.kernelStack c) rfl)⟩
  have ends := cloneFrom_moves s.mem apart (start.walkable p) .pgdir ready
  cases result : cloneFrom p c .pgdir s.mem with
  | ok u m' =>
    rw [result] at ends run
    cases run
    obtain ⟨moves, copied⟩ := ends
    refine ⟨Forked.moves parent apart allowed moves, ?_⟩
    intro page present
    rw [frameAt_isSome] at present ⊢
    exact copied page present
  | error task m' =>
    rw [result] at run
    cases run
    have building : update (update s.life c (.building p)) p (.live task) c = .building p := by
      rw [update_of_ne (Ne.symm apart), update_self]
    exact nomatch building.symm.trans awake

/-- After a clone, any stores of the child that are over and the child's exit,
`source_num` and every `share_num` are as before the clone exactly when the parent
has no page at an address that `recycle_page_part` keeps and each store is neutral. -/
theorem fork_exit_neutral_iff (load : ExeLoad) (s forked final : Sys) (p c : Nat)
    (stores : List (Nat × Nat)) (parent : Parent s.mem p c)
    (run : runActs (step load) s (.clone p c :: childStores c stores) = some forked)
    (awake : forked.life c = .live .user) (exit : step load forked (.exit c) = some final) :
    (final.mem.sourceNum = s.mem.sourceNum ∧ final.mem.shareNum = s.mem.shareNum) ↔
      (∀ page, (s.mem.frameAt (.leaf (.user p) page)).isSome → load.keeps (page * 4096) = false) ∧
        ∀ st ∈ stores, StoreNeutral load s.mem c (st.1 / 4096) := by
  obtain ⟨cloned, first, more⟩ := bind_eq_some_iff.mp run
  let P : Nat → Prop := fun page => (s.mem.frameAt (.leaf (.user p) page)).isSome ∨
    ∃ st ∈ stores, owner c page = .user c ∧ st.1 / 4096 = page
  let Q : Prop := ∃ st ∈ stores, owner c (st.1 / 4096) = .kernel ∧
    s.mem.frameAt (.leaf .kernel (st.1 / 4096)) = none
  obtain ⟨start, copied⟩ : Forked s.mem p c P Q cloned.mem ∧ _ :=
    Forked.clone parent (fun _ present => .inl present) first (stores_awake more awake)
  have ours : ∀ page, owner c page = .user c ∨ owner c page = .kernel := by
    intro page
    rw [owner]
    split
    · exact .inr rfl
    · exact .inl rfl
  have touchable : ∀ st ∈ stores, Touchable s.mem c P Q (st.1 / 4096) := by
    intro st member
    rw [Touchable]
    rcases ours (st.1 / 4096) with user | kernel
    · rw [user]
      exact .inr ⟨st, member, user, rfl⟩
    · rw [kernel]
      exact fun absent => ⟨st, member, kernel, absent⟩
  obtain ⟨done, reached, stays⟩ := start.stores parent touchable more awake
  have memory : final.mem = handleExitPcb load c forked.mem := by
    rw [step, awake] at exit
    rw [← Option.some.inj exit]
  rw [memory, done.exit_iff parent]
  constructor
  · rintro ⟨lost, grown⟩
    refine ⟨fun page present => lost page (stays _ (copied page present)), ?_⟩
    intro st member
    have here := reached st member
    rw [StoreNeutral]
    rcases ours (st.1 / 4096) with user | kernel
    · rw [user] at here ⊢
      exact lost _ here
    · rw [kernel] at here ⊢
      exact grown _ rfl here
  · rintro ⟨lost, neutral⟩
    refine ⟨?_, ?_⟩
    · intro page present
      rcases done.pages page present with first | ⟨st, member, user, rfl⟩
      · exact lost page first
      · have here := neutral st member
        rw [StoreNeutral, user] at here
        exact here
    · intro slot kernel present
      by_contra absent
      obtain ⟨st, member, kernelPage, missing⟩ :=
        done.extra slot kernel (by simpa using absent) present
      have here := neutral st member
      rw [StoreNeutral, kernelPage] at here
      simp only [missing] at here
      cases here

theorem Young.parent (young : Young m) (count : m.sourceNum = m.free.length)
    (other : c ≠ 0) : Parent m 0 c where
  nodup := young.sound.nodup
  unshared := young.sound.unshared
  small := young.sound.small
  count := count
  childless := fun slot mine => Mem.frameAt_eq_none.mpr (young.others c slot mine other)
  tree := young.sound.tree
  roots := young.sound.roots
  used := by
    intro page f holds
    have counted := young.sound.held_share holds
    exact ⟨young.sound.held_not_free holds, by omega⟩
  alone := fun page page' f holds holds' => (young.sound.aligned _ _ page page' f holds holds').symm
  kernel := by
    intro page present
    rw [frameAt_isSome, young.kernel page] at present
    cases present

theorem fork_exit_neutral_small : ∃ forked final, runActs (step smallLoad) smallWorld.sys
      (.clone 0 1 :: childStores 1 [(0xf00005000, 5), (0xf00005000, 5)]) = some forked ∧
    step smallLoad forked (.exit 1) = some final ∧
    final.mem.sourceNum = smallMem.sourceNum ∧ final.mem.shareNum = smallMem.shareNum := by
  have lives : (runActs (step smallLoad) smallWorld.sys
      (.clone 0 1 :: childStores 1 [(0xf00005000, 5), (0xf00005000, 5)])).map
        (fun s => s.life 1) = some (.live .user) := by decide +kernel
  obtain ⟨forked, run, awake⟩ := map_eq_some_iff.mp lives
  obtain ⟨final, exit⟩ : ∃ final, step smallLoad forked (.exit 1) = some final := by
    rw [step, awake]
    exact ⟨_, rfl⟩
  have parent : Parent smallWorld.sys.mem 0 1 := smallMem_young.parent (by decide) (by decide)
  refine ⟨forked, final, run, exit,
    (fork_exit_neutral_iff smallLoad smallWorld.sys forked final 0 1 _ parent run awake exit).mpr
      ⟨?_, by decide⟩⟩
  intro page present
  by_contra other
  have kept : smallLoad.keeps (page * 4096) = true := by simpa using other
  have range : page = 32 ∨ page = 33 := by
    simp only [ExeLoad.keeps, smallLoad, Bool.or_false, Bool.and_eq_true] at kept
    have low := of_decide_eq_true kept.1
    have high := of_decide_eq_true kept.2
    omega
  rcases range with rfl | rfl <;> exact absurd present (by decide)

/-- The same process with a page of its text at `0x20000`. -/
def textMem : Mem :=
  smallMem.giveAll [(.root (.user 0) 0, false), (.middle (.user 0) 0, false),
    (.leaf (.user 0) 32, false)]

/-- `copy_on_write` adds a share to the text page and `recycle_page_part` leaves it
out, so the share stays. -/
theorem text_share_stays : Parent textMem 0 1 ∧ ∃ forked final,
    runActs (step smallLoad) { smallWorld.sys with mem := textMem }
      (.clone 0 1 :: childStores 1 []) = some forked ∧
    forked.life 1 = .live .user ∧ step smallLoad forked (.exit 1) = some final ∧
    ¬ (final.mem.sourceNum = textMem.sourceNum ∧ final.mem.shareNum = textMem.shareNum) := by
  have young : Young textMem := smallMem_young.giveAll _ (by decide)
  have parent : Parent textMem 0 1 := young.parent (by decide) (by decide)
  refine ⟨parent, ?_⟩
  have lives : (step smallLoad { smallWorld.sys with mem := textMem } (.clone 0 1)).map
      (fun s => s.life 1) = some (.live .user) := by decide +kernel
  obtain ⟨forked, run, awake⟩ := map_eq_some_iff.mp lives
  obtain ⟨final, exit⟩ : ∃ final, step smallLoad forked (.exit 1) = some final := by
    rw [step, awake]
    exact ⟨_, rfl⟩
  obtain ⟨done, copied⟩ : Forked textMem 0 1 (fun _ => True) True forked.mem ∧ _ :=
    Forked.clone parent (fun _ _ => trivial) run awake
  refine ⟨forked, final, ?_, awake, exit, ?_⟩
  · rw [runActs_cons, run]
    rfl
  · have memory : final.mem = handleExitPcb smallLoad 1 forked.mem := by
      rw [step, awake] at exit
      rw [← Option.some.inj exit]
    rw [memory, done.exit_iff parent]
    rintro ⟨lost, -⟩
    have unkept := lost 32 (copied 32 (by decide))
    exact absurd unkept (by decide)

end CCore.Mm
