import Mathlib.Tactic.Ring

/-!
# Byte memories and little-endian words

A memory is a function from addresses to bytes.  `word` reads four bytes as a
little-endian number and `putWord` stores one; `blit` copies a block.
-/
namespace CCore.Bytes

/-- The little-endian 32-bit number at `a`. -/
def word (m : Nat → UInt8) (a : Nat) : Nat :=
  (m a).toNat + (m (a + 1)).toNat * 256 + (m (a + 2)).toNat * 65536 + (m (a + 3)).toNat * 16777216

def putWord (m : Nat → UInt8) (a v : Nat) : Nat → UInt8 := fun x =>
  if a ≤ x ∧ x < a + 4 then UInt8.ofNat (v / 256 ^ (x - a)) else m x

/-- The little-endian 16-bit number `v` at `a`. -/
def putHalf (m : Nat → UInt8) (a v : Nat) : Nat → UInt8 := fun x =>
  if a ≤ x ∧ x < a + 2 then UInt8.ofNat (v / 256 ^ (x - a)) else m x

/-- `size` bytes of `src` at address `a`. -/
def blit (m : Nat → UInt8) (a size : Nat) (src : Nat → UInt8) : Nat → UInt8 := fun x =>
  if a ≤ x ∧ x < a + size then src (x - a) else m x

variable {m m' : Nat → UInt8} {a b v : Nat}

theorem word_congr (same : ∀ k, k < 4 → m (a + k) = m' (b + k)) : word m a = word m' b := by
  have h0 : m a = m' b := same 0 (by omega)
  unfold word
  rw [h0, same 1 (by omega), same 2 (by omega), same 3 (by omega)]

theorem word_putWord_self (bound : v < 2 ^ 32) : word (putWord m a v) a = v := by
  have digit : ∀ k, k < 4 → (putWord m a v (a + k)).toNat = v / 256 ^ k % 256 := by
    intro k small
    have inside : a ≤ a + k ∧ a + k < a + 4 := by omega
    simp [putWord, inside]
  have h0 := digit 0 (by omega)
  have h1 := digit 1 (by omega)
  have h2 := digit 2 (by omega)
  have h3 := digit 3 (by omega)
  simp only [Nat.add_zero] at h0
  rw [word, h0, h1, h2, h3]
  norm_num
  omega

theorem putWord_of_outside {x : Nat} (outside : x < a ∨ a + 4 ≤ x) : putWord m a v x = m x := by
  have apart : ¬ (a ≤ x ∧ x < a + 4) := by omega
  simp [putWord, apart]

theorem word_putWord_of_disjoint (apart : b + 4 ≤ a ∨ a + 4 ≤ b) :
    word (putWord m a v) b = word m b := by
  apply word_congr
  intro k small
  apply putWord_of_outside
  omega

theorem word_eq_zero_iff : word m a = 0 ↔ ∀ k, k < 4 → m (a + k) = 0 := by
  constructor
  · intro zero k small
    unfold word at zero
    apply UInt8.toNat_inj.mp
    have cases : k = 0 ∨ k = 1 ∨ k = 2 ∨ k = 3 := by omega
    rcases cases with rfl | rfl | rfl | rfl <;> simp only [Nat.add_zero, UInt8.toNat_zero] <;> omega
  · intro zero
    have h0 : m a = 0 := zero 0 (by omega)
    rw [word, h0, zero 1 (by omega), zero 2 (by omega), zero 3 (by omega)]
    rfl

theorem blit_inside {size k : Nat} {src : Nat → UInt8} (inside : k < size) :
    blit m a size src (a + k) = src k := by
  have range : a ≤ a + k ∧ a + k < a + size := by omega
  simp [blit, range]

theorem blit_outside {size x : Nat} {src : Nat → UInt8} (outside : x < a ∨ a + size ≤ x) :
    blit m a size src x = m x := by
  have apart : ¬ (a ≤ x ∧ x < a + size) := by omega
  simp [blit, apart]

theorem blit_congr {size : Nat} {src src' : Nat → UInt8} (same : ∀ k, k < size → src k = src' k) :
    blit m a size src = blit m a size src' := by
  funext x
  by_cases inside : a ≤ x ∧ x < a + size
  · obtain ⟨k, rfl⟩ := Nat.exists_eq_add_of_le inside.1
    rw [blit_inside (by omega), blit_inside (by omega), same k (by omega)]
  · rw [blit_outside (by omega), blit_outside (by omega)]

end CCore.Bytes
