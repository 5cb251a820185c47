import CCore.Lib.Bytes
import CCore.Lib.Circular
import Mathlib.Data.List.GetD

/-!
# The ring buffer of pipes and consoles (`include/os/ring_buffer.h`)

A page holds the queued bytes from `head` up to `tail`, wrapping around at
`size`; one place stays empty so that a full buffer differs from an empty one.
The lock inside the buffer is never contended, since its holder does not give up
the processor.
-/
namespace CCore.Fs

open Bytes Circular List Nat

def ringBufferSize : Nat := 4095

structure RingBuffer where
  size : Nat
  head : Nat
  tail : Nat
  buf : Nat → UInt8

def initRingBuffer (buf : Nat → UInt8) : RingBuffer := ⟨ringBufferSize, 0, 0, buf⟩

variable {len : Nat} {data : List UInt8}

namespace RingBuffer

def used (r : RingBuffer) : Nat := (r.tail + r.size - r.head) % r.size

def free (r : RingBuffer) : Nat := r.size - r.used - 1

/-- The bytes that a read copies out, in two pieces when they wrap around. -/
def copied (r : RingBuffer) (len : Nat) : List UInt8 :=
  if r.head + len > r.size then
    let right := r.size - r.head
    (List.range right).map (fun k => r.buf (r.head + k)) ++ (List.range (len - right)).map r.buf
  else (List.range len).map fun k => r.buf (r.head + k)

/-- `read_ring_buffer`; the length of the list is its result. -/
def read (r : RingBuffer) (size : Nat) : List UInt8 × RingBuffer :=
  let len := min r.used size
  if 0 < len then (r.copied len, { r with head := (r.head + len) % r.size }) else ([], r)

/-- The stores of a write of the first `len` bytes of `data`. -/
def filled (r : RingBuffer) (data : List UInt8) (len : Nat) : Nat → UInt8 :=
  let byte := fun k => data.getD k 0
  if r.tail + len > r.size then
    let right := r.size - r.tail
    blit (blit r.buf r.tail right byte) 0 (len - right) fun k => byte (right + k)
  else blit r.buf r.tail len byte

/-- `write_ring_buffer` of all of `data`; returns the number of bytes taken. -/
def write (r : RingBuffer) (data : List UInt8) : Nat × RingBuffer :=
  let len := min r.free data.length
  if 0 < len then
    (len, { r with tail := (r.tail + len) % r.size, buf := r.filled data len })
  else (0, r)

structure WellFormed (r : RingBuffer) : Prop where
  size_eq : r.size = ringBufferSize
  head_lt : r.head < r.size
  tail_lt : r.tail < r.size

theorem wellFormed_init (buf : Nat → UInt8) : WellFormed (initRingBuffer buf) := by
  refine ⟨rfl, ?_, ?_⟩ <;> simp [initRingBuffer, ringBufferSize]

variable {r : RingBuffer}

theorem WellFormed.used_lt (wf : WellFormed r) : r.used < r.size :=
  mod_lt _ (zero_lt_of_lt wf.head_lt)

theorem WellFormed.used_add_free (wf : WellFormed r) : r.used + r.free + 1 = r.size := by
  have below := wf.used_lt
  unfold free
  omega

theorem length_copied (wf : WellFormed r) (len : Nat) : (r.copied len).length = len := by
  have := wf.head_lt
  unfold copied
  split
  · simp
    omega
  · simp

theorem length_read (wf : WellFormed r) (size : Nat) : (r.read size).1.length = min r.used size := by
  unfold read
  simp only
  split
  · exact length_copied wf _
  · simp
    omega

theorem write_fst (r : RingBuffer) (data : List UInt8) :
    (r.write data).1 = min r.free data.length := by
  unfold write
  simp only
  split
  · rfl
  · omega

theorem WellFormed.read (wf : WellFormed r) (size : Nat) : WellFormed (r.read size).2 := by
  unfold RingBuffer.read
  simp only
  split
  · exact ⟨wf.size_eq, mod_lt _ (zero_lt_of_lt wf.head_lt), wf.tail_lt⟩
  · exact wf

theorem WellFormed.write (wf : WellFormed r) (data : List UInt8) : WellFormed (r.write data).2 := by
  unfold RingBuffer.write
  simp only
  split
  · exact ⟨wf.size_eq, wf.head_lt, mod_lt _ (zero_lt_of_lt wf.head_lt)⟩
  · exact wf

/-! ## What the buffer holds -/

/-- The queued bytes, the oldest first. -/
def contents (r : RingBuffer) : List UInt8 := window r.buf r.size r.head r.used

/-- The cells that hold them. -/
def Occupied (r : RingBuffer) (x : Nat) : Prop := Covers r.size r.head r.used x

def Reserved (r : RingBuffer) (len x : Nat) : Prop := Covers r.size r.tail len x

instance (r : RingBuffer) (x : Nat) : Decidable (r.Occupied x) :=
  inferInstanceAs (Decidable (Covers ..))

@[simp] theorem length_contents (r : RingBuffer) : r.contents.length = r.used :=
  length_window ..

theorem contents_init (buf : Nat → UInt8) : (initRingBuffer buf).contents = [] := by
  simp [contents, initRingBuffer, used, window]

theorem contents_congr {r' : RingBuffer} (size : r'.size = r.size) (head : r'.head = r.head)
    (tail : r'.tail = r.tail) (same : ∀ x, r.Occupied x → r'.buf x = r.buf x) :
    r'.contents = r.contents := by
  rw [contents, used, size, head, tail]
  exact window_congr same

section
variable (wf : WellFormed r)
include wf

theorem WellFormed.used_eq :
    r.used = if r.head ≤ r.tail then r.tail - r.head else r.tail + r.size - r.head := by
  have := wf.head_lt
  have := wf.tail_lt
  unfold used
  split
  · rw [show r.tail + r.size - r.head = r.tail - r.head + r.size by omega, add_mod_right,
      mod_eq_of_lt (by omega)]
  · rw [mod_eq_of_lt (by omega)]

theorem WellFormed.tail_eq : r.tail = (r.head + r.used) % r.size := by
  have := wf.head_lt
  have := wf.tail_lt
  rw [wrap wf.head_lt wf.used_lt.le, wf.used_eq]
  split <;> split <;> omega

theorem WellFormed.used_moveHead (few : len ≤ r.used) :
    { r with head := (r.head + len) % r.size }.used = r.used - len := by
  have below := wf.used_lt
  have head := wf.head_lt
  have tail := wf.tail_lt
  have moved : WellFormed { r with head := (r.head + len) % r.size } :=
    ⟨wf.size_eq, mod_lt _ (by omega), wf.tail_lt⟩
  have gap := wf.used_eq
  rw [moved.used_eq]
  dsimp only
  rw [wrap head (by omega)]
  split at gap <;> split <;> split <;> omega

theorem WellFormed.used_moveTail (few : len ≤ r.free) (buf : Nat → UInt8) :
    { r with tail := (r.tail + len) % r.size, buf }.used = r.used + len := by
  have room := wf.used_add_free
  have head := wf.head_lt
  have tail := wf.tail_lt
  have moved : WellFormed { r with tail := (r.tail + len) % r.size, buf } :=
    ⟨wf.size_eq, wf.head_lt, mod_lt _ (by omega)⟩
  have gap := wf.used_eq
  rw [moved.used_eq]
  dsimp only
  rw [wrap tail (by omega)]
  split at gap <;> split <;> split <;> omega

theorem WellFormed.copied_eq (few : len ≤ r.used) :
    r.copied len = window r.buf r.size r.head len := by
  have below := wf.used_lt
  unfold copied
  split
  · rename_i wraps
    rw [window_wrapped wf.head_lt wraps (by omega)]
  · rw [window_straight (by omega)]

theorem WellFormed.read_fst (size : Nat) : (r.read size).1 = r.contents.take size := by
  have take : r.contents.take size = window r.buf r.size r.head (min r.used size) := by
    have few : min r.used size ≤ r.used := Nat.min_le_left ..
    rw [take_eq_take_min, length_contents, Nat.min_comm]
    exact take_window few
  rw [take]
  unfold RingBuffer.read
  simp only
  split
  · exact wf.copied_eq (Nat.min_le_left ..)
  · rename_i nothing
    rw [show min r.used size = 0 by omega]
    rfl

theorem WellFormed.read_contents (size : Nat) : (r.read size).2.contents = r.contents.drop size := by
  have few : min r.used size ≤ r.used := Nat.min_le_left ..
  have drop : r.contents.drop size = r.contents.drop (min r.used size) := by
    rcases Nat.le_total r.used size with all | some
    · rw [Nat.min_eq_left all, drop_eq_nil_of_le (by simpa using all), drop_eq_nil_of_le (by simp)]
    · rw [Nat.min_eq_right some]
  rw [drop]
  unfold RingBuffer.read
  simp only
  split
  · rw [contents, wf.used_moveHead few, contents, drop_window few]
  · rename_i nothing
    rw [show min r.used size = 0 by omega, drop_zero]

theorem WellFormed.filled_reserved {k : Nat} (few : len ≤ r.free) (inside : k < len) :
    r.filled data len ((r.tail + k) % r.size) = data.getD k 0 := by
  have tail := wf.tail_lt
  have room := wf.used_add_free
  rw [wrap tail (by omega)]
  unfold filled
  simp only
  split
  · split
    · rw [blit_outside (by omega), blit_inside (by omega)]
    · have place : r.tail + k - r.size = 0 + (k - (r.size - r.tail)) := by omega
      rw [place, blit_inside (by omega)]
      congr 1
      omega
  · rw [if_pos (by omega), blit_inside inside]

theorem WellFormed.filled_other {x : Nat}
    (few : len ≤ r.free) (inside : x < r.size) (other : ¬ r.Reserved len x) :
    r.filled data len x = r.buf x := by
  have tail := wf.tail_lt
  have room := wf.used_add_free
  have apart : ∀ k < len, x ≠ if r.tail + k < r.size then r.tail + k else r.tail + k - r.size := by
    intro k small same
    rw [← wrap tail (by omega)] at same
    exact other ⟨k, small, same⟩
  unfold filled
  simp only
  split
  · have low : len - (r.size - r.tail) ≤ x := by
      by_contra less
      apply apart (x + (r.size - r.tail)) (by omega)
      split <;> omega
    have high : x < r.tail := by
      by_contra more
      apply apart (x - r.tail) (by omega)
      split <;> omega
    rw [blit_outside (by omega), blit_outside (by omega)]
  · have outside : x < r.tail ∨ r.tail + len ≤ x := by
      by_contra within
      apply apart (x - r.tail) (by omega)
      split <;> omega
    exact blit_outside outside

theorem WellFormed.not_reserved {x : Nat} (few : len ≤ r.free)
    (occupied : r.Occupied x) : ¬ r.Reserved len x := by
  rintro ⟨k, small, same⟩
  obtain ⟨j, below, place⟩ := occupied
  have room := wf.used_add_free
  rw [wf.tail_eq, mod_add_mod, Nat.add_assoc, place] at same
  have equal := wrap_injective wf.head_lt (by omega) (by omega) same
  omega

theorem WellFormed.write_contents
    (fits : data.length ≤ r.free) : (r.write data).2.contents = r.contents ++ data := by
  have len : min r.free data.length = data.length := Nat.min_eq_right fits
  unfold RingBuffer.write
  simp only
  rw [len]
  split
  · rw [contents, wf.used_moveTail fits]
    rw [window_add, ← wf.tail_eq]
    congr 1
    · apply window_congr
      intro x occupied
      have inside : x < r.size := by
        obtain ⟨k, _, rfl⟩ := occupied
        exact mod_lt _ (zero_lt_of_lt wf.head_lt)
      exact wf.filled_other fits inside (wf.not_reserved fits occupied)
    · apply ext_getElem (by simp)
      intro k inWindow inData
      simp only [window, getElem_map, getElem_range]
      rw [wf.filled_reserved fits inData, getD_eq_getElem _ _ inData]
  · rename_i nothing
    have empty : data = [] := eq_nil_of_length_eq_zero (by omega)
    rw [empty, append_nil]

end
end RingBuffer
end CCore.Fs
