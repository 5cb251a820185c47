import Mathlib.Data.List.Basic
import Mathlib.Data.Nat.ModEq

/-!
# Windows of a circular store

A store of `size` cells is read from `start` on, going back to cell 0 behind the last one.
`window` lists the first `len` cells met.  The lemmas cut a window in two, say when two
stores show the same window, and give its two straight pieces.
-/
namespace CCore.Circular

open List Nat
variable {B : Type} {m m' : Nat → B} {size start len k j x : Nat}

def window (m : Nat → B) (size start len : Nat) : List B :=
  (List.range len).map fun k => m ((start + k) % size)

/-- The cells of a window. -/
def Covers (size start len x : Nat) : Prop := ∃ k < len, x = (start + k) % size

instance (size start len x : Nat) : Decidable (Covers size start len x) :=
  inferInstanceAs (Decidable (∃ k < len, _))

@[simp] theorem length_window (m : Nat → B) (size start len : Nat) :
    (window m size start len).length = len := by
  simp [window]

theorem window_congr (same : ∀ x, Covers size start len x → m x = m' x) :
    window m size start len = window m' size start len := by
  apply map_congr_left
  intro k mem
  exact same _ ⟨k, mem_range.mp mem, rfl⟩

theorem window_add (m : Nat → B) (size start a b : Nat) : window m size start (a + b) =
    window m size start a ++ window m size ((start + a) % size) b := by
  rw [window, range_add, map_append, map_map]
  congr 1
  apply map_congr_left
  intro k _
  simp [Nat.add_assoc]

theorem take_window (few : k ≤ len) : (window m size start len).take k = window m size start k := by
  obtain ⟨rest, rfl⟩ := Nat.exists_eq_add_of_le few
  rw [window_add, take_left' (length_window ..)]

theorem drop_window (few : k ≤ len) :
    (window m size start len).drop k = window m size ((start + k) % size) (len - k) := by
  obtain ⟨rest, rfl⟩ := Nat.exists_eq_add_of_le few
  rw [window_add, drop_left' (length_window ..), Nat.add_sub_cancel_left]

theorem wrap (inside : start < size) (turn : k ≤ size) :
    (start + k) % size = if start + k < size then start + k else start + k - size := by
  split
  · rename_i straight
    exact mod_eq_of_lt straight
  · rename_i wrapped
    rw [mod_eq_sub_mod (by omega), mod_eq_of_lt (by omega)]

theorem wrap_injective (inside : start < size) (small : k < size) (small' : j < size)
    (same : (start + k) % size = (start + j) % size) : k = j := by
  rw [wrap inside small.le, wrap inside small'.le] at same
  split at same <;> split at same <;> omega

theorem window_straight (fits : start + len ≤ size) :
    window m size start len = (List.range len).map fun k => m (start + k) := by
  apply map_congr_left
  intro k mem
  have small := mem_range.mp mem
  rw [mod_eq_of_lt (by omega)]

theorem window_wrapped (inside : start < size) (wraps : size < start + len) (turn : len ≤ size) :
    window m size start len = (List.range (size - start)).map (fun k => m (start + k)) ++
        (List.range (len - (size - start))).map m := by
  have pieces : len = (size - start) + (len - (size - start)) := by omega
  rw [pieces, window_add, window_straight (by omega), ← pieces,
    show start + (size - start) = size by omega, mod_self, window_straight (by omega)]
  simp only [Nat.zero_add]

end CCore.Circular
