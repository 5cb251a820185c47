import CCore.Lib.Holders
import CCore.Mm.Moves

/-!
# What the share counts promise

`Sound` is the invariant behind copy-on-write: `share_num` of a page is at least
the number of slots that hold it, a page that may be written is held by one slot
only, and the free pages are held by none.  The lemmas follow the ways a slot
can change: it takes a free page, changes its flags, is shared, or is emptied.
-/
namespace CCore.Mm

open Holders Function List Option Mem Nat
variable {m m' : Mem} {slot : Slot} {e : Pte} {c f p page : Nat} {o : Owner}

namespace Mem

def frameAt (m : Mem) (slot : Slot) : Option Nat := (m.entry slot).map Pte.frame

def writable (m : Mem) (slot : Slot) : Bool := ((m.entry slot).map Pte.write).getD false

/-- What a process finds on one of its pages. -/
def content (m : Mem) (o : Owner) (page : Nat) : Option (Nat → Nat) :=
  (m.frameAt (.leaf o page)).map m.bytes

theorem frameAt_isSome (m : Mem) (slot : Slot) : (m.frameAt slot).isSome = (m.entry slot).isSome :=
  isSome_map ..

theorem frameAt_eq_none : m.frameAt slot = none ↔ m.entry slot = none :=
  map_eq_none_iff

theorem frameAt_of_entry (found : m.entry slot = some e) : m.frameAt slot = some e.frame := by
  rw [frameAt, found]
  rfl

theorem writable_of_entry (found : m.entry slot = some e) : m.writable slot = e.write := by
  rw [writable, found]
  rfl

theorem frameAt_update (m : Mem) (slot : Slot) (value : Option Pte) :
    (fun u => (update m.entry slot value u).map Pte.frame) =
      update m.frameAt slot (value.map Pte.frame) := by
  funext u
  by_cases same : u = slot
  · rw [same, update_self, update_self]
  · rw [update_of_ne same, update_of_ne same]
    rfl

theorem frameAt_take (m : Mem) (slot : Slot) (e : Pte) (rest : List Nat) (fill : Nat → Nat) :
    (m.take slot e rest fill).frameAt = update m.frameAt slot (some e.frame) :=
  m.frameAt_update slot (some e)

theorem frameAt_put (m : Mem) (slot : Slot) (e : Pte) :
    (m.put slot e).frameAt = update m.frameAt slot (some e.frame) :=
  m.frameAt_update slot (some e)

theorem frameAt_clear (m : Mem) (slot : Slot) :
    (m.clear slot).frameAt = update m.frameAt slot none := m.frameAt_update slot none

theorem frameAt_freePage (m : Mem) (f : Nat) : (m.freePage f).frameAt = m.frameAt := by
  funext slot
  rw [frameAt, freePage_entry]
  rfl

theorem writable_of_ne (same : m'.entry slot = m.entry slot) :
    m'.writable slot = m.writable slot := by
  rw [writable, same]
  rfl

end Mem

theorem getPTEOf_of_tree (tree : ∀ u up : Slot, u.above = some up →
    (m.frameAt u).isSome → (m.frameAt up).isSome) (p page : Nat) :
    getPTEOf m p page = m.entry (.leaf (owner p page) page) := by
  unfold getPTEOf
  cases leaf : m.entry (.leaf (owner p page) page) with
  | none => cases m.entry (.root ..) <;> cases m.entry (.middle ..) <;> rfl
  | some e =>
    have present : (m.frameAt (.leaf (owner p page) page)).isSome := by
      rw [frameAt_of_entry leaf]
      rfl
    have middle := tree _ _ rfl present
    have root := tree _ _ rfl middle
    rw [frameAt_isSome] at middle root
    obtain ⟨third, middle⟩ := isSome_iff_exists.mp middle
    obtain ⟨second, root⟩ := isSome_iff_exists.mp root
    rw [root, middle]
    rfl

theorem walkable_of_tree (tree : ∀ u up : Slot, u.above = some up → (m.frameAt u).isSome →
      (m.frameAt up).isSome)
    (roots : ∀ vpn2, (m.frameAt (.root (.user p) vpn2)).isSome → kernelBase vpn2 = false ∧ vpn2 < 512) :
    Walkable m p := by
  simp only [frameAt_isSome] at tree roots
  exact ⟨fun page => tree (.leaf (.user p) page) _ rfl,
    fun index => tree (.middle (.user p) index) _ rfl, roots⟩

structure Sound (m : Mem) : Prop where
  counts : ∀ f, (holders m.frameAt f).encard ≤ m.shareNum f
  small : ∀ f, m.shareNum f < 256
  unshared : ∀ f ∈ m.free, m.shareNum f = 0
  nodup : m.free.Nodup
  sole : ∀ u v f, m.writable u = true → m.frameAt u = some f → m.frameAt v = some f → v = u
  aligned : ∀ o o' page page' f, m.frameAt (.leaf o page) = some f →
    m.frameAt (.leaf o' page') = some f → page' = page
  tree : ∀ u up : Slot, u.above = some up → (m.frameAt u).isSome → (m.frameAt up).isSome
  roots : ∀ p vpn2, (m.frameAt (.root (.user p) vpn2)).isSome → kernelBase vpn2 = false ∧ vpn2 < 512

namespace Sound

variable (sound : Sound m)
include sound

theorem free_unheld (free : f ∈ m.free) (slot : Slot) : m.frameAt slot ≠ some f := by
  refine not_held ?_ slot
  have count := sound.counts f
  rw [sound.unshared f free] at count
  exact_mod_cast count

theorem held_share (holds : m.frameAt slot = some f) : 1 ≤ m.shareNum f := by
  by_contra none
  have zero : m.shareNum f = 0 := by omega
  have count := sound.counts f
  rw [zero] at count
  exact not_held (by exact_mod_cast count) slot holds

theorem held_not_free (holds : m.frameAt slot = some f) : f ∉ m.free :=
  fun free => sound.free_unheld free slot holds

theorem walkable (p : Nat) : Walkable m p := walkable_of_tree sound.tree (sound.roots p)

theorem getPTEOf_eq (p page : Nat) : getPTEOf m p page = m.entry (.leaf (owner p page) page) :=
  getPTEOf_of_tree sound.tree p page

omit sound in
theorem of_frameAt_update {held : Slot → Option Nat} {g : Nat} {u : Slot}
    (holds : update held slot (some f) u = some g) : u = slot ∧ g = f ∨ held u = some g := by
  by_cases same : u = slot
  · rw [same, update_self] at holds
    exact .inl ⟨same, (Option.some.inj holds).symm⟩
  · rw [update_of_ne same] at holds
    exact .inr holds

/-- A vacant slot gets a page that has no other number in any slot. -/
theorem fill (vacant : Vacant o slot m) (frames : m'.frameAt = update m.frameAt slot (some f))
    (shares : m'.shareNum = update m.shareNum f (m.shareNum f + 1)) (room : m.shareNum f < 255)
    (lists : ∀ g ∈ m'.free, g ∈ m.free ∧ g ≠ f) (nodup : m'.free.Nodup)
    (sole : ∀ u v g, m'.writable u = true → m'.frameAt u = some g → m'.frameAt v = some g → v = u)
    (number : ∀ o page o' page', slot = .leaf o page → m.frameAt (.leaf o' page') = some f →
      page' = page) : Sound m' := by
  refine ⟨?_, ?_, ?_, nodup, sole, ?_, ?_, ?_⟩
  · intro g
    rw [frames, shares]
    by_cases same : g = f
    · rw [same, update_self]
      calc _ ≤ (holders m.frameAt f).encard + 1 := encard_put_le ..
        _ ≤ (m.shareNum f : ℕ∞) + 1 := by gcongr; exact sound.counts f
        _ = ((m.shareNum f + 1 : Nat) : ℕ∞) := by simp
    · rw [update_of_ne same]
      exact (Set.encard_le_encard (holders_put_subset _ _ same)).trans (sound.counts g)
  · intro g
    rw [shares]
    by_cases same : g = f
    · rw [same, update_self]
      omega
    · rw [update_of_ne same]
      exact sound.small g
  · intro g inside
    rw [shares, update_of_ne (lists g inside).2]
    exact sound.unshared g (lists g inside).1
  · intro o o' page page' g holds holds'
    rw [frames] at holds holds'
    rcases of_frameAt_update holds with ⟨same, rfl⟩ | old
    · rcases of_frameAt_update holds' with ⟨same', _⟩ | old'
      · exact (Slot.leaf.inj (same'.trans same.symm)).2
      · exact number o page o' page' same.symm old'
    · rcases of_frameAt_update holds' with ⟨same', rfl⟩ | old'
      · exact (number o' page' o page same'.symm old).symm
      · exact sound.aligned o o' page page' g old old'
  · intro u up link present
    rw [frames] at present ⊢
    have there : (m.frameAt up).isSome := by
      by_cases same : u = slot
      · rw [frameAt_isSome]
        exact vacant.above up (same ▸ link)
      · rw [update_of_ne same] at present
        exact sound.tree u up link present
    by_cases same : up = slot
    · rw [same, update_self]
      rfl
    · rwa [update_of_ne same]
  · intro p vpn2 present
    rw [frames] at present
    by_cases same : Slot.root (.user p) vpn2 = slot
    · exact vacant.root p vpn2 same.symm
    · rw [update_of_ne same] at present
      exact sound.roots p vpn2 present

theorem take (e : Pte) {rest : List Nat} (vacant : Vacant o slot m)
    (free : m.free = e.frame :: rest) (fill : Nat → Nat) : Sound (m.take slot e rest fill) := by
  have mem : e.frame ∈ m.free := by rw [free]; exact mem_cons_self
  have zero := sound.unshared e.frame mem
  have split := nodup_cons.mp (free ▸ sound.nodup)
  have fresh := sound.free_unheld mem
  refine sound.fill vacant (m.frameAt_take slot e rest fill) ?_ (by omega) ?_ split.2 ?_ ?_
  · rw [take_shareNum, zero]
  · intro g inside
    refine ⟨by rw [free]; exact mem_cons_of_mem _ inside, ?_⟩
    rintro rfl
    exact split.1 inside
  · intro u v g write holdsU holdsV
    rw [frameAt_take] at holdsU holdsV
    rcases of_frameAt_update holdsU with ⟨rfl, rfl⟩ | oldU
    · rcases of_frameAt_update holdsV with ⟨same, _⟩ | oldV
      · exact same
      · exact absurd oldV (fresh v)
    · rcases of_frameAt_update holdsV with ⟨rfl, rfl⟩ | oldV
      · exact absurd oldU (fresh u)
      · have ne : u ≠ slot := by
          rintro rfl
          rw [Mem.frameAt_eq_none.mpr vacant.absent] at oldU
          cases oldU
        rw [writable_of_ne (m.take_entry_of_ne e rest fill ne)] at write
        exact sound.sole u v g write oldU oldV
  · exact fun _ _ _ _ _ held => absurd held (fresh _)

theorem put (e' : Pte) (found : m.entry slot = some e) (same : e'.frame = e.frame)
    (alone : e'.write = true → ∀ v, m.frameAt v = some e.frame → v = slot) :
    Sound (m.put slot e') := by
  have frames : (m.put slot e').frameAt = m.frameAt := by
    rw [frameAt_put, same, ← frameAt_of_entry found, update_eq_self]
  refine ⟨?_, sound.small, sound.unshared, sound.nodup, ?_, ?_, ?_, ?_⟩
  · rw [frames]
    exact sound.counts
  · intro u v g write holdsU holdsV
    rw [frames] at holdsU holdsV
    rcases eq_or_ne u slot with rfl | here
    · rw [frameAt_of_entry found] at holdsU
      rw [writable_of_entry (e := e') (update_self ..)] at write
      exact alone write v (holdsV.trans holdsU.symm)
    · rw [writable_of_ne (m := m) (update_of_ne here ..)] at write
      exact sound.sole u v g write holdsU holdsV
  · rw [frames]
    exact sound.aligned
  · rw [frames]
    exact sound.tree
  · rw [frames]
    exact sound.roots

theorem share (apart : p ≠ c) (vacant : Vacant (.user c) (.leaf (.user c) page) m)
    (mapped : m.entry (.leaf (.user p) page) = some e) (room : m.shareNum e.frame < 255) :
    Sound (m.shareEntry p c page e) := by
  have closed := sound.put { e with write := false } mapped rfl nofun
  have kept : ∀ u, u ≠ .leaf (.user p) page →
      (m.put (.leaf (.user p) page) { e with write := false }).entry u = m.entry u :=
    fun u ne => put_entry_of_ne m _ ne
  have mapped₁ := m.put_entry_self (.leaf (.user p) page) { e with write := false }
  have held₁ := frameAt_of_entry mapped₁
  have vacant₁ : Vacant (.user c) (.leaf (.user c) page)
      (m.put (.leaf (.user p) page) { e with write := false }) := by
    refine ⟨rfl, ?_, ?_, nofun⟩
    · rw [kept _ (by simpa using fun same => apart same.symm)]
      exact vacant.absent
    · intro up link
      cases link
      rw [kept _ (by simp)]
      exact vacant.above _ rfl
  have frames := (m.put (.leaf (.user p) page) { e with write := false }).frameAt_put
    (.leaf (.user c) page) { e with write := false }
  refine closed.fill vacant₁ frames ?_ room ?_ closed.nodup ?_ ?_
  · show update m.shareNum e.frame ((m.shareNum e.frame + 1) % 256) = _
    rw [mod_eq_of_lt (by omega)]
    rfl
  · intro g inside
    refine ⟨inside, ?_⟩
    rintro rfl
    exact closed.held_not_free held₁ inside
  · intro u v g write holdsU holdsV
    have notChild : u ≠ .leaf (.user c) page := by
      rintro rfl
      rw [writable_of_entry (m.shareEntry_child page e)] at write
      cases write
    rw [writable_of_ne (m := m.put (.leaf (.user p) page) { e with write := false })
      (update_of_ne notChild ..)] at write
    rw [show (m.shareEntry p c page e).frameAt = _ from frames] at holdsU holdsV
    rw [update_of_ne notChild] at holdsU
    rcases of_frameAt_update holdsV with ⟨_, rfl⟩ | oldV
    · -- a writable slot would be the parent's, which has lost `W`
      obtain rfl := closed.sole u _ e.frame write holdsU held₁
      rw [writable_of_entry mapped₁] at write
      cases write
    · exact closed.sole u v g write holdsU oldV
  · intro o page₁ o' page₂ same holds
    obtain ⟨rfl, rfl⟩ := Slot.leaf.inj same
    exact closed.aligned _ _ _ _ e.frame held₁ holds

theorem drop (frames : m'.frameAt = update m.frameAt slot none)
    (writes : ∀ u, u ≠ slot → m'.writable u = m.writable u)
    (bare : ∀ below : Slot, below.above = some slot → m.entry below = none)
    (counts : ∀ f, (holders m'.frameAt f).encard ≤ m'.shareNum f) (small : ∀ f, m'.shareNum f < 256)
    (unshared : ∀ f ∈ m'.free, m'.shareNum f = 0) (nodup : m'.free.Nodup) : Sound m' := by
  have before : ∀ u f, m'.frameAt u = some f → u ≠ slot ∧ m.frameAt u = some f := by
    intro u f holds
    rw [frames] at holds
    by_cases same : u = slot
    · rw [same, update_self] at holds
      cases holds
    · rw [update_of_ne same] at holds
      exact ⟨same, holds⟩
  have presentBefore : ∀ u, (m'.frameAt u).isSome → (m.frameAt u).isSome := by
    intro u present
    obtain ⟨f, holds⟩ := isSome_iff_exists.mp present
    rw [(before u f holds).2]
    rfl
  refine ⟨counts, small, unshared, nodup, ?_, ?_, ?_, ?_⟩
  · intro u v f write holdsU holdsV
    obtain ⟨ne, oldU⟩ := before u f holdsU
    rw [writes u ne] at write
    exact sound.sole u v f write oldU (before v f holdsV).2
  · intro o o' page page' f holds holds'
    exact sound.aligned o o' page page' f (before _ f holds).2 (before _ f holds').2
  · intro u up link present
    have there := sound.tree u up link (presentBefore u present)
    rw [frames]
    rcases eq_or_ne up slot with rfl | same
    · have gone := bare u link
      have presentU := presentBefore u present
      rw [frameAt_isSome, gone] at presentU
      cases presentU
    · rwa [update_of_ne same]
  · intro p vpn2 present
    exact sound.roots p vpn2 (presentBefore _ present)

theorem keep (bare : ∀ below : Slot, below.above = some slot → m.entry below = none) :
    Sound (m.clear slot) := by
  refine sound.drop (m.frameAt_clear slot) ?_ bare ?_ sound.small sound.unshared sound.nodup
  · exact fun u ne => writable_of_ne (m.clear_entry_of_ne ne)
  · intro f
    rw [frameAt_clear]
    exact (encard_drop_le ..).trans (sound.counts f)

theorem free (found : m.entry slot = some e)
    (bare : ∀ below : Slot, below.above = some slot → m.entry below = none) :
    Sound ((m.freePage e.frame).clear slot) := by
  have held := frameAt_of_entry found
  have one := sound.held_share held
  have bound := sound.small e.frame
  have less : (m.shareNum e.frame + 255) % 256 = m.shareNum e.frame - 1 := by omega
  have shares : ((m.freePage e.frame).clear slot).shareNum =
      update m.shareNum e.frame (m.shareNum e.frame - 1) := by
    rw [clear_shareNum, freePage_shareNum, less]
  have frames : ((m.freePage e.frame).clear slot).frameAt = update m.frameAt slot none := by
    rw [frameAt_clear, frameAt_freePage]
  have entries : ∀ u, u ≠ slot → ((m.freePage e.frame).clear slot).entry u = m.entry u := by
    intro u ne
    rw [clear_entry_of_ne _ ne, freePage_entry]
  have lists : ((m.freePage e.frame).clear slot).free = m.free ∨
      m.shareNum e.frame - 1 = 0 ∧ ((m.freePage e.frame).clear slot).free = e.frame :: m.free := by
    rw [← less]
    exact (m.freePage_free e.frame).imp And.right id
  generalize (m.freePage e.frame).clear slot = m' at shares frames entries lists
  refine sound.drop frames (fun u ne => writable_of_ne (entries u ne)) bare ?_ ?_ ?_ ?_
  · intro g
    rw [frames, shares]
    by_cases same : g = e.frame
    · rw [same, update_self]
      have count := sound.counts e.frame
      have split : m.shareNum e.frame = m.shareNum e.frame - 1 + 1 := by omega
      rw [← encard_drop held, split, cast_add, cast_one] at count
      exact (ENat.add_le_add_iff_right ENat.one_ne_top).mp count
    · rw [update_of_ne same]
      exact (encard_drop_le ..).trans (sound.counts g)
  · intro g
    rw [shares]
    by_cases same : g = e.frame
    · rw [same, update_self]
      omega
    · rw [update_of_ne same]
      exact sound.small g
  · have old : ∀ g ∈ m.free, m'.shareNum g = 0 := by
      intro g inside
      have ne : g ≠ e.frame := by
        rintro rfl
        exact sound.held_not_free held inside
      rw [shares, update_of_ne ne]
      exact sound.unshared g inside
    rcases lists with same | ⟨last, more⟩
    · rwa [same]
    · rw [more]
      refine forall_mem_cons.mpr ⟨?_, old⟩
      rw [shares, update_self, last]
  · rcases lists with same | ⟨_, more⟩
    · rw [same]
      exact sound.nodup
    · rw [more]
      exact nodup_cons.mpr ⟨sound.held_not_free held, sound.nodup⟩

omit sound in
theorem congr (sound : Sound m) (frames : m'.frameAt = m.frameAt)
    (writes : m'.writable = m.writable) (shares : m'.shareNum = m.shareNum)
    (lists : m'.free = m.free) : Sound m' := by
  refine ⟨?_, ?_, ?_, ?_, ?_, ?_, ?_, ?_⟩
  · rw [frames, shares]
    exact sound.counts
  · rw [shares]
    exact sound.small
  · rw [shares, lists]
    exact sound.unshared
  · rw [lists]
    exact sound.nodup
  · rw [frames, writes]
    exact sound.sole
  · rw [frames]
    exact sound.aligned
  · rw [frames]
    exact sound.tree
  · rw [frames]
    exact sound.roots

theorem content_take (e : Pte) {rest : List Nat} (free : m.free = e.frame :: rest)
    (fill : Nat → Nat) (ne : Slot.leaf o page ≠ slot) :
    (m.take slot e rest fill).content o page = m.content o page := by
  have mem : e.frame ∈ m.free := by rw [free]; exact mem_cons_self
  unfold Mem.content
  rw [frameAt_take, update_of_ne ne]
  cases holds : m.frameAt (.leaf o page) with
  | none => rfl
  | some g =>
    have other : g ≠ e.frame := by
      rintro rfl
      exact sound.free_unheld mem _ holds
    exact congrArg some (update_of_ne other ..)

end Sound

namespace Mem

theorem content_of_entry (found : m.entry (.leaf o page) = some e) :
    m.content o page = some (m.bytes e.frame) := by
  rw [content, frameAt_of_entry found]
  rfl

theorem content_eq_none : m.content o page = none ↔ m.entry (.leaf o page) = none :=
  map_eq_none_iff.trans frameAt_eq_none

theorem content_take_self (o : Owner) (page : Nat) (e : Pte) (rest : List Nat) (fill : Nat → Nat) :
    (m.take (.leaf o page) e rest fill).content o page = some fill := by
  rw [content_of_entry (m.take_entry_self ..)]
  exact congrArg some (update_self ..)

theorem content_put (e' : Pte) (found : m.entry slot = some e)
    (same : e'.frame = e.frame) (o : Owner) (page : Nat) :
    (m.put slot e').content o page = m.content o page := by
  rw [content, frameAt_put, same, ← frameAt_of_entry found, update_eq_self]
  rfl

theorem content_shareEntry_child (e : Pte) :
    (m.shareEntry p c page e).content (.user c) page = some (m.bytes e.frame) := by
  rw [content_of_entry (m.shareEntry_child page e)]
  rfl

theorem content_shareEntry (apart : p ≠ c) (mapped : m.entry (.leaf (.user p) page) = some e)
    {page' : Nat} (ne : Slot.leaf o page' ≠ .leaf (.user c) page) :
    (m.shareEntry p c page e).content o page' = m.content o page' := by
  by_cases parent : Slot.leaf o page' = .leaf (.user p) page
  · obtain ⟨rfl, rfl⟩ := Slot.leaf.inj parent
    rw [content_of_entry (m.shareEntry_parent apart page' e), content_of_entry mapped]
    rfl
  · rw [content, frameAt, m.shareEntry_of_ne e ne parent]
    rfl

end Mem
end CCore.Mm
