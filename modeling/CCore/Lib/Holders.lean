import Mathlib.Data.Set.Card

/-!
# How many places hold a thing

A partial assignment of things to places, and the number of places that hold one
thing.  A reference count that is kept next to such an assignment is at least
this number; the lemmas say how the number moves when one place is filled or
emptied.
-/
namespace CCore.Holders

open Function
variable {U V : Type}

def holders (held : U → Option V) (v : V) : Set U := {u | held u = some v}

theorem mem_holders {held : U → Option V} {u : U} {v : V} :
    u ∈ holders held v ↔ held u = some v := Iff.rfl

theorem not_held {held : U → Option V} {v : V} (none : (holders held v).encard ≤ 0) (u : U) :
    held u ≠ some v := by
  have empty := Set.encard_eq_zero.mp (le_antisymm none bot_le)
  intro holds
  have inside : u ∈ holders held v := holds
  rw [empty] at inside
  exact inside

theorem held_once {held : U → Option V} {v : V} (one : (holders held v).encard ≤ 1) {u u' : U}
    (holds : held u = some v) (holds' : held u' = some v) : u' = u :=
  Set.encard_le_one_iff.mp one u' u holds' holds

variable [DecidableEq U]

section
variable (held : U → Option V) (u : U)
include held u

theorem holders_put (v : V) : holders (update held u (some v)) v = insert u (holders held v) := by
  ext x
  by_cases same : x = u
  · simp [holders, same]
  · simp [holders, same]

theorem holders_put_subset {v w : V} (ne : w ≠ v) :
    holders (update held u (some v)) w ⊆ holders held w := by
  intro x inside
  by_cases same : x = u
  · rw [mem_holders, same, update_self] at inside
    exact absurd (Option.some.inj inside).symm ne
  · rwa [mem_holders, update_of_ne same] at inside

theorem holders_drop (v : V) : holders (update held u none) v = holders held v \ {u} := by
  ext x
  by_cases same : x = u
  · simp [holders, same]
  · simp [holders, same]

theorem encard_put_le (v : V) :
    (holders (update held u (some v)) v).encard ≤ (holders held v).encard + 1 := by
  rw [holders_put]
  exact Set.encard_insert_le ..

end

theorem encard_drop {held : U → Option V} {u : U} {v : V} (holds : held u = some v) :
    (holders (update held u none) v).encard + 1 = (holders held v).encard := by
  rw [holders_drop]
  exact Set.encard_sdiff_singleton_add_one holds

theorem encard_drop_le (held : U → Option V) (u : U) (v : V) :
    (holders (update held u none) v).encard ≤ (holders held v).encard := by
  rw [holders_drop]
  exact Set.encard_le_encard Set.sdiff_subset

end CCore.Holders
