import Mathlib.Data.List.Nodup
import Mathlib.Data.List.Perm.Basic
import Mathlib.Order.Basic

/-!
# Accounts that return to where they were

Things are held in places, and each thing has a count of its shares, kept modulo
`n`; a thing without a share stands in the free list.  `Ledger n a₀ a` says that
`a` came from `a₀` by filling places that were empty, each thing at most once, and
that the counts say so.  Emptying these places again gives the counts of `a₀` back
exactly when none of them is left out.
-/
namespace CCore.Accounts

open Function List Nat

structure Account (U V : Type) where
  held : U → Option V
  free : List V
  share : V → Nat

variable {U V : Type} {n : Nat} {a₀ a : Account U V} {u : U} {v w : V} {rest : List V}

/-- The account at the beginning. -/
structure Opening (n : Nat) (a₀ : Account U V) : Prop where
  nodup : a₀.free.Nodup
  unshared : ∀ v ∈ a₀.free, a₀.share v = 0
  small : ∀ v, a₀.share v < n
  several : 1 < n

def New (a₀ a : Account U V) (v : V) : Prop := ∃ u, a₀.held u = none ∧ a.held u = some v

/-- What the places hold and how it is counted. -/
structure Books (n : Nat) (a₀ a : Account U V) : Prop where
  old : ∀ u v, a₀.held u = some v → a.held u = some v
  once : ∀ u u' v, a₀.held u = none → a₀.held u' = none → a.held u = some v →
    a.held u' = some v → u = u'
  counted : ∀ v, New a₀ a v → a.share v = (a₀.share v + 1) % n
  same : ∀ v, ¬ New a₀ a v → a.share v = a₀.share v

structure Ledger (n : Nat) (a₀ a : Account U V) : Prop extends Books n a₀ a where
  free : ∀ v, v ∈ a.free ↔ v ∈ a₀.free ∧ ¬ New a₀ a v
  nodup : a.free.Nodup
  used : ∀ v, New a₀ a v → v ∉ a₀.free → a₀.share v ≠ 0

theorem Ledger.refl (opening : Opening n a₀) : Ledger n a₀ a₀ := by
  have none_new : ∀ v, ¬ New a₀ a₀ v := by
    rintro v ⟨u, empty, holds⟩
    rw [empty] at holds
    cases holds
  exact ⟨⟨fun _ _ => id, fun u u' v empty _ holds _ => absurd ⟨u, empty, holds⟩ (none_new v),
    fun v new => absurd new (none_new v), fun _ _ => rfl⟩,
    fun v => ⟨fun member => ⟨member, none_new v⟩, And.left⟩, opening.nodup,
    fun v new => absurd new (none_new v)⟩

theorem Books.empty_before (books : Books n a₀ a) (empty : a.held u = none) : a₀.held u = none := by
  cases before : a₀.held u with
  | none => rfl
  | some v =>
    rw [books.old u v before] at empty
    cases empty

section Operations
variable [DecidableEq U] [DecidableEq V]

def Account.lend (n : Nat) (a : Account U V) (u : U) (v : V) : Account U V where
  held := update a.held u (some v)
  free := a.free
  share := update a.share v ((a.share v + 1) % n)

/-- The first free thing goes to `u`. -/
def Account.take (n : Nat) (a : Account U V) (u : U) (v : V) (rest : List V) : Account U V :=
  { a.lend n u v with free := rest }

/-- The place `u` gives its thing back. -/
def Account.drop (n : Nat) (a : Account U V) (u : U) (v : V) : Account U V where
  held := update a.held u none
  free := if (a.share v + (n - 1)) % n = 0 then v :: a.free else a.free
  share := update a.share v ((a.share v + (n - 1)) % n)

section Fields
variable (n) (a) (u) (v)

theorem lend_held_self : (a.lend n u v).held u = some v := update_self ..

theorem lend_held_of_ne {u' : U} (other : u' ≠ u) : (a.lend n u v).held u' = a.held u' :=
  update_of_ne other ..

theorem lend_share_self : (a.lend n u v).share v = (a.share v + 1) % n := update_self ..

theorem lend_share_of_ne (other : w ≠ v) : (a.lend n u v).share w = a.share w :=
  update_of_ne other ..

theorem drop_held_self : (a.drop n u v).held u = none := update_self ..

theorem drop_held_of_ne {u' : U} (other : u' ≠ u) : (a.drop n u v).held u' = a.held u' :=
  update_of_ne other ..

theorem drop_share_self : (a.drop n u v).share v = (a.share v + (n - 1)) % n :=
  update_self ..

theorem drop_share_of_ne (other : w ≠ v) : (a.drop n u v).share w = a.share w :=
  update_of_ne other ..

end Fields

theorem new_lend (n : Nat) (before : a₀.held u = none) (empty : a.held u = none) :
    New a₀ (a.lend n u v) w ↔ w = v ∨ New a₀ a w := by
  constructor
  · rintro ⟨u', first, holds⟩
    by_cases here : u' = u
    · rw [here, lend_held_self] at holds
      exact .inl (Option.some.inj holds).symm
    · rw [lend_held_of_ne n a u v here] at holds
      exact .inr ⟨u', first, holds⟩
  · rintro (rfl | ⟨u', first, holds⟩)
    · exact ⟨u, before, lend_held_self ..⟩
    · have other : u' ≠ u := by
        rintro rfl
        rw [empty] at holds
        cases holds
      exact ⟨u', first, (lend_held_of_ne n a u v other).trans holds⟩

theorem Books.lend (books : Books n a₀ a) (empty : a.held u = none) (fresh : ¬ New a₀ a v) :
    Books n a₀ (a.lend n u v) := by
  have before := books.empty_before empty
  have self := lend_held_self n a u v
  have rest : ∀ u', u' ≠ u → (a.lend n u v).held u' = a.held u' :=
    fun u' other => lend_held_of_ne n a u v other
  constructor
  case old =>
    intro u' w holds
    have other : u' ≠ u := by
      rintro rfl
      rw [before] at holds
      cases holds
    rw [rest u' other]
    exact books.old u' w holds
  case once =>
    -- two places of one thing: neither can be the one just filled
    have apart : ∀ u' w, a₀.held u' = none → u' ≠ u → (a.lend n u v).held u' = some w → w ≠ v := by
      rintro u' w first other holds rfl
      rw [rest u' other] at holds
      exact fresh ⟨u', first, holds⟩
    intro x y w firstX firstY holdsX holdsY
    rcases eq_or_ne x u with rfl | hereX
    · cases Option.some.inj (self.symm.trans holdsX)
      by_contra different
      exact apart y v firstY (fun same => different same.symm) holdsY rfl
    · rcases eq_or_ne y u with rfl | hereY
      · cases Option.some.inj (self.symm.trans holdsY)
        exact absurd rfl (apart x v firstX hereX holdsX)
      · rw [rest x hereX] at holdsX
        rw [rest y hereY] at holdsY
        exact books.once x y w firstX firstY holdsX holdsY
  case counted =>
    intro w new
    rcases (new_lend n before empty).mp new with rfl | earlier
    · rw [lend_share_self, books.same w fresh]
    · have other : w ≠ v := by
        rintro rfl
        exact fresh earlier
      exact (lend_share_of_ne n a u v other).trans (books.counted w earlier)
  case same =>
    intro w old
    rw [new_lend n before empty, not_or] at old
    exact (lend_share_of_ne n a u v old.1).trans (books.same w old.2)

theorem Ledger.lend (ledger : Ledger n a₀ a) (empty : a.held u = none) (fresh : ¬ New a₀ a v)
    (notFree : v ∉ a₀.free) (used : a₀.share v ≠ 0) : Ledger n a₀ (a.lend n u v) := by
  have before := ledger.empty_before empty
  have new : ∀ w, New a₀ (a.lend n u v) w ↔ w = v ∨ New a₀ a w := fun w => new_lend n before empty
  refine ⟨ledger.toBooks.lend empty fresh, ?_, ledger.nodup, ?_⟩
  · intro w
    rw [new]
    constructor
    · intro member
      obtain ⟨first, notNew⟩ := (ledger.free w).mp member
      refine ⟨first, not_or.mpr ⟨?_, notNew⟩⟩
      rintro rfl
      exact notFree first
    · rintro ⟨first, notNew⟩
      exact (ledger.free w).mpr ⟨first, fun held => notNew (.inr held)⟩
  · intro w held free
    rcases (new w).mp held with rfl | earlier
    · exact used
    · exact ledger.used w earlier free

theorem Ledger.take (ledger : Ledger n a₀ a) (empty : a.held u = none) (free : a.free = v :: rest) :
    Ledger n a₀ (a.take n u v rest) := by
  have before := ledger.empty_before empty
  have new : ∀ w, New a₀ (a.take n u v rest) w ↔ w = v ∨ New a₀ a w :=
    fun w => new_lend n before empty
  have member : v ∈ a.free := free ▸ mem_cons_self
  obtain ⟨first, fresh⟩ := (ledger.free v).mp member
  have split := nodup_cons.mp (free ▸ ledger.nodup)
  have books := ledger.toBooks.lend empty fresh
  refine ⟨{ books with }, ?_, split.2, ?_⟩
  · intro w
    rw [new]
    constructor
    · intro inside
      have stays : w ∈ a.free := free ▸ mem_cons_of_mem v inside
      obtain ⟨was, notNew⟩ := (ledger.free w).mp stays
      refine ⟨was, not_or.mpr ⟨?_, notNew⟩⟩
      rintro rfl
      exact split.1 inside
    · rintro ⟨was, notNew⟩
      rw [not_or] at notNew
      have stays := (ledger.free w).mpr ⟨was, notNew.2⟩
      rw [free] at stays
      exact (mem_cons.mp stays).resolve_left notNew.1
  · intro w held notFree
    rcases (new w).mp held with rfl | earlier
    · exact absurd first notFree
    · exact ledger.used w earlier notFree

theorem Books.new_drop (books : Books n a₀ a) (before : a₀.held u = none)
    (holds : a.held u = some v) : New a₀ (a.drop n u v) w ↔ w ≠ v ∧ New a₀ a w := by
  constructor
  · rintro ⟨u', first, there⟩
    have other : u' ≠ u := by
      rintro rfl
      rw [drop_held_self] at there
      cases there
    rw [drop_held_of_ne n a u v other] at there
    refine ⟨?_, u', first, there⟩
    rintro rfl
    exact other (books.once u' u w first before there holds)
  · rintro ⟨different, u', first, there⟩
    have other : u' ≠ u := by
      rintro rfl
      rw [holds] at there
      exact different (Option.some.inj there).symm
    exact ⟨u', first, (drop_held_of_ne n a u v other).trans there⟩

theorem Ledger.drop (ledger : Ledger n a₀ a) (opening : Opening n a₀) (before : a₀.held u = none)
    (holds : a.held u = some v) : Ledger n a₀ (a.drop n u v) := by
  have new : ∀ w, New a₀ (a.drop n u v) w ↔ w ≠ v ∧ New a₀ a w :=
    fun w => ledger.toBooks.new_drop before holds
  have rest : ∀ u', u' ≠ u → (a.drop n u v).held u' = a.held u' :=
    fun u' other => drop_held_of_ne n a u v other
  have held : ∀ u' w, (a.drop n u v).held u' = some w → a.held u' = some w := by
    intro u' w there
    have other : u' ≠ u := by
      rintro rfl
      rw [drop_held_self] at there
      cases there
    rwa [rest u' other] at there
  have newV : New a₀ a v := ⟨u, before, holds⟩
  -- the share that goes away is the one that was added
  have back : (a.share v + (n - 1)) % n = a₀.share v := by
    have small := opening.small v
    have total : a₀.share v + 1 + (n - 1) = a₀.share v + n := by omega
    rw [ledger.counted v newV, mod_add_mod, total, add_mod_right, mod_eq_of_lt small]
  have pushed : (a.share v + (n - 1)) % n = 0 ↔ v ∈ a₀.free := by
    rw [back]
    constructor
    · intro zero
      by_contra notFree
      exact ledger.used v newV notFree zero
    · exact opening.unshared v
  have absent : v ∉ a.free := fun member => ((ledger.free v).mp member).2 newV
  refine ⟨⟨?_, ?_, ?_, ?_⟩, ?_, ?_, ?_⟩
  · intro u' w there
    have other : u' ≠ u := by
      rintro rfl
      rw [before] at there
      cases there
    rw [rest u' other]
    exact ledger.old u' w there
  · intro x y w firstX firstY holdsX holdsY
    exact ledger.once x y w firstX firstY (held x w holdsX) (held y w holdsY)
  · intro w held'
    obtain ⟨other, earlier⟩ := (new w).mp held'
    exact (drop_share_of_ne n a u v other).trans (ledger.counted w earlier)
  · intro w old
    rcases eq_or_ne w v with rfl | here
    · exact (drop_share_self n a u w).trans back
    · have earlier : ¬ New a₀ a w := fun held' => old ((new w).mpr ⟨here, held'⟩)
      exact (drop_share_of_ne n a u v here).trans (ledger.same w earlier)
  · intro w
    rw [new]
    show w ∈ (if (a.share v + (n - 1)) % n = 0 then v :: a.free else a.free) ↔ _
    by_cases zero : (a.share v + (n - 1)) % n = 0
    · rw [if_pos zero, mem_cons, ledger.free w]
      have first := pushed.mp zero
      rcases eq_or_ne w v with rfl | here
      · simp [first]
      · simp [here]
    · rw [if_neg zero, ledger.free w]
      have first : v ∉ a₀.free := fun member => zero (pushed.mpr member)
      rcases eq_or_ne w v with rfl | here
      · simp [first]
      · simp [here]
  · show (if (a.share v + (n - 1)) % n = 0 then v :: a.free else a.free).Nodup
    split
    · exact nodup_cons.mpr ⟨absent, ledger.nodup⟩
    · exact ledger.nodup
  · intro w held' notFree
    exact ledger.used w ((new w).mp held').2 notFree

end Operations

theorem Ledger.back_iff (ledger : Ledger n a₀ a) (opening : Opening n a₀) :
    (a.free.length = a₀.free.length ∧ a.share = a₀.share) ↔ ∀ v, ¬ New a₀ a v := by
  constructor
  · rintro ⟨-, shares⟩ v new
    have counted := ledger.counted v new
    rw [shares] at counted
    have small := opening.small v
    have several := opening.several
    rcases Nat.lt_or_ge (a₀.share v + 1) n with below | full
    · rw [mod_eq_of_lt below] at counted
      omega
    · have wrap : a₀.share v + 1 = n := by omega
      rw [wrap, mod_self] at counted
      omega
  · intro nothing
    refine ⟨?_, funext fun v => ledger.same v (nothing v)⟩
    have same : a.free.Perm a₀.free := by
      rw [perm_ext_iff_of_nodup ledger.nodup opening.nodup]
      intro v
      rw [ledger.free v]
      exact and_iff_left (nothing v)
    exact same.length_eq

end CCore.Accounts
