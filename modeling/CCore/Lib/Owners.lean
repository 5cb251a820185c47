import Mathlib.Algebra.BigOperators.Fin
import Mathlib.Algebra.Order.BigOperators.Group.Finset

/-!
# Reference counts

Things that are shared by their owners, each with the number of its owners in it.
-/
namespace CCore.Owners

open Function Finset

theorem sum_change {ι : Type} [Fintype ι] [DecidableEq ι] {f g : ι → Nat} (k : ι)
    (same : ∀ i, i ≠ k → g i = f i) : ∑ i, g i + f k = ∑ i, f i + g k := by
  have rest : ∑ i ∈ Finset.univ.erase k, g i = ∑ i ∈ Finset.univ.erase k, f i :=
    sum_congr rfl fun i mem => same i (ne_of_mem_erase mem)
  rw [← add_sum_erase Finset.univ g (mem_univ k), ← add_sum_erase Finset.univ f (mem_univ k), rest]
  omega

variable {P T X : Type} [Fintype P] [DecidableEq P] [DecidableEq T]

def owners (held : P → Option T) (t : T) : Nat := (Finset.univ.filter fun p => held p = some t).card

theorem owners_change {held held' : P → Option T} (k : P) (same : ∀ q, q ≠ k → held' q = held q)
    (t : T) : owners held' t + (if held k = some t then 1 else 0) =
    owners held t + if held' k = some t then 1 else 0 := by
  unfold owners
  rw [card_filter, card_filter]
  exact sum_change (f := fun q => if held q = some t then 1 else 0)
    (g := fun q => if held' q = some t then 1 else 0) k (fun q other => by rw [same q other])

theorem owners_update (held : P → Option T) (p : P) (x : Option T) (t : T) :
    owners (update held p x) t + (if held p = some t then 1 else 0) =
      owners held t + if x = some t then 1 else 0 := by
  have change := owners_change p (fun q other => update_of_ne other x held) t
  rwa [update_self] at change

/-- Every thing counts its owners, and is in use while it has one. -/
structure RefCounted (used : X → Bool) (num : X → Nat) (held : P → Option T) (table : T → X) :
    Prop where
  count : ∀ t, num (table t) = owners held t
  inUse : ∀ t, used (table t) = true ↔ 0 < num (table t)

namespace RefCounted

variable {used : X → Bool} {num : X → Nat} {held : P → Option T} {table : T → X}
  (counted : RefCounted used num held table) {p : P} {t : T} {x : X}
include counted

theorem recount {x' : Option T} (here : num x = owners (update held p x') t)
    (others : ∀ t', t' ≠ t → owners (update held p x') t' = owners held t')
    (flag : used x = true ↔ 0 < num x) :
    RefCounted used num (update held p x') (update table t x) := by
  refine ⟨fun t' => ?_, fun t' => ?_⟩ <;> rcases eq_or_ne t' t with rfl | other
  · rwa [update_self]
  · rw [update_of_ne other, others t' other, counted.count]
  · rwa [update_self]
  · rw [update_of_ne other, counted.inUse]

theorem gain (free : held p = none) (more : num x = num (table t) + 1) (flag : used x = true) :
    RefCounted used num (update held p (some t)) (update table t x) := by
  have change := owners_update held p (some t)
  simp only [free, reduceCtorEq, if_false, Option.some.injEq, Nat.add_zero] at change
  refine counted.recount ?_ (fun t' other => by simpa [Ne.symm other] using change t') ?_
  · rw [change, if_pos rfl, ← counted.count, more]
  · simp [flag, more]

theorem drop (holds : held p = some t) (less : num x = num (table t) - 1)
    (flag : used x = true ↔ 0 < num x) :
    RefCounted used num (update held p none) (update table t x) := by
  have change := owners_update held p none
  simp only [holds, reduceCtorEq, if_false, Option.some.injEq, Nat.add_zero] at change
  refine counted.recount ?_ (fun t' other => by simpa [Ne.symm other] using change t') flag
  rw [less, counted.count, ← change, if_pos rfl, Nat.add_sub_cancel]

omit [DecidableEq P]

theorem idle (unused : used (table t) = false) : num (table t) = 0 := by
  have flag := counted.inUse t
  rw [unused] at flag
  simpa using flag

theorem live (holds : held p = some t) : used (table t) = true := by
  rw [counted.inUse, counted.count, owners, card_pos]
  exact ⟨p, by simpa using holds⟩

end RefCounted
end CCore.Owners
