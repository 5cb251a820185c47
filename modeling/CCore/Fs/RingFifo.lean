import CCore.Fs.RingBuffer
import CCore.Lib.Run

/-!
# The ring buffer as a queue

`read_ring_buffer` and `write_ring_buffer` with the conversions of C: `head` and `tail` are
`int32_t`, `size` is a `size_t`, and their mixed sums are of the latter type.  On a buffer in
order the conversions change nothing, and every sequence of calls takes bytes out in the order
in which they were put in, without leaving the page.
-/
namespace CCore.Fs

open Bytes Run List RingBuffer

/-- Conversion to `size_t`. -/
def sizeT (x : Int) : Nat := (x % 2 ^ 64).toNat

/-- Conversion to `int` and `int32_t`. -/
def int32 (n : Nat) : Int := Int.bmod n (2 ^ 32)

/-- The arguments of the `kmemcpy` calls of a transfer: offset in the page and length. -/
def pieces (size place len : Nat) : List (Nat × Nat) :=
  if place + len > size then [(place, size - place), (0, len - (size - place))]
  else [(place, len)]

variable {n len : Nat}

namespace RingBuffer

def ringBufferUsed (r : RingBuffer) : Int :=
  int32 ((sizeT (r.tail - r.head) + r.size) % 2 ^ 64 % r.size)

def ringBufferFree (r : RingBuffer) : Int :=
  int32 (sizeT (r.size - sizeT r.ringBufferUsed - 1))

/-- `len` of both functions: `min` compares values of type `size_t`. -/
def lenOf (bound : Int) (size : UInt64) : Int :=
  int32 (if sizeT bound < size.toNat then sizeT bound else size.toNat)

def readLen (r : RingBuffer) (size : UInt64) : Int := lenOf r.ringBufferUsed size

def writeLen (r : RingBuffer) (size : UInt64) : Int := lenOf r.ringBufferFree size

/-- The pieces of the page that `read_ring_buffer` copies. -/
def readPieces (r : RingBuffer) (size : UInt64) : List (Nat × Nat) :=
  if 0 < r.readLen size then pieces r.size r.head (r.readLen size).toNat else []

/-- The pieces of the page that `write_ring_buffer` stores to. -/
def writePieces (r : RingBuffer) (size : UInt64) : List (Nat × Nat) :=
  if 0 < r.writeLen size then pieces r.size r.tail (r.writeLen size).toNat else []

/-- The bytes that are returned; a negative `len` fails an `assert`. -/
def readRingBuffer (r : RingBuffer) (size : UInt64) : Option (List UInt8 × RingBuffer) :=
  let len := r.readLen size
  if len < 0 then none
  else if 0 < len then
    some ((r.readPieces size).flatMap fun (place, n) => (List.range n).map fun k => r.buf (place + k),
      { r with head := (r.head + len.toNat) % r.size })
  else some ([], r)

/-- The stores of the pieces one after the other, with `done` bytes stored already. -/
def store (data : Nat → UInt8) : List (Nat × Nat) → Nat → (Nat → UInt8) → Nat → UInt8
  | [], _, buf => buf
  | (place, n) :: rest, done, buf =>
    store data rest (done + n) (blit buf place n fun k => data (done + k))

/-- The number of bytes that are taken from `data`. -/
def writeRingBuffer (r : RingBuffer) (data : Nat → UInt8) (size : UInt64) :
    Option (Nat × RingBuffer) :=
  let len := r.writeLen size
  if len < 0 then none
  else if 0 < len then
    some (len.toNat, { r with
      tail := (r.tail + len.toNat) % r.size
      buf := store data (r.writePieces size) 0 r.buf })
  else some (0, r)

/-! ## The conversions -/

theorem sizeT_natCast (small : n < 2 ^ 64) : sizeT n = n := by
  unfold sizeT
  omega

theorem int32_of_lt (small : n < 2 ^ 31) : int32 n = n := by
  unfold int32
  rw [Int.bmod_def]
  omega

variable {r : RingBuffer}

theorem WellFormed.ringBufferUsed_eq (wf : WellFormed r) : r.ringBufferUsed = r.used := by
  have size := wf.size_eq
  have head := wf.head_lt
  have tail := wf.tail_lt
  have below := wf.used_lt
  unfold ringBufferSize at size
  have sum : (sizeT ((r.tail : Int) - r.head) + r.size) % 2 ^ 64 = r.tail + r.size - r.head := by
    unfold sizeT
    omega
  rw [ringBufferUsed, sum]
  exact int32_of_lt (show r.used < 2 ^ 31 by omega)

theorem WellFormed.ringBufferFree_eq (wf : WellFormed r) : r.ringBufferFree = r.free := by
  have size := wf.size_eq
  have room := wf.used_add_free
  unfold ringBufferSize at size
  have rest : sizeT ((r.size : Int) - sizeT r.ringBufferUsed - 1) = r.free := by
    rw [wf.ringBufferUsed_eq, sizeT_natCast (by omega)]
    unfold sizeT
    omega
  rw [ringBufferFree, rest]
  exact int32_of_lt (by omega)

theorem lenOf_eq {bound : Nat} (small : bound < 2 ^ 31) (size : UInt64) :
    lenOf bound size = (min bound size.toNat : Nat) := by
  rw [lenOf, sizeT_natCast (by omega)]
  have least : (if bound < size.toNat then bound else size.toNat) = min bound size.toNat := by
    split <;> omega
  rw [least]
  exact int32_of_lt (by omega)

section
variable (wf : WellFormed r) (size : UInt64)
include wf size

theorem WellFormed.readLen_eq : r.readLen size = (min r.used size.toNat : Nat) := by
  have bound := wf.used_lt
  have whole := wf.size_eq
  unfold ringBufferSize at whole
  rw [readLen, wf.ringBufferUsed_eq, lenOf_eq (by omega)]

theorem WellFormed.writeLen_eq : r.writeLen size = (min r.free size.toNat : Nat) := by
  have room := wf.used_add_free
  have whole := wf.size_eq
  unfold ringBufferSize at whole
  rw [writeLen, wf.ringBufferFree_eq, lenOf_eq (by omega)]

theorem WellFormed.readRingBuffer_eq : r.readRingBuffer size = some (r.read size.toNat) := by
  rw [readRingBuffer, readPieces, RingBuffer.read, wf.readLen_eq size]
  simp only [Int.natCast_pos, Int.toNat_natCast, if_neg (Int.not_lt.mpr (Int.natCast_nonneg _))]
  split
  · unfold pieces copied
    split <;> simp
  · rfl

end

theorem filled_congr {data data' : List UInt8}
    (same : ∀ k, k < len → data.getD k 0 = data'.getD k 0) :
    r.filled data len = r.filled data' len := by
  unfold filled
  dsimp only
  split
  · have first : blit r.buf r.tail (r.size - r.tail) (fun k => data.getD k 0) =
        blit r.buf r.tail (r.size - r.tail) fun k => data'.getD k 0 :=
      blit_congr fun k inside => same k (by omega)
    rw [first]
    exact blit_congr fun k inside => same _ (by omega)
  · exact blit_congr same

theorem store_pieces (data : Nat → UInt8) {total : Nat} (few : len ≤ total) :
    store data (pieces r.size r.tail len) 0 r.buf = r.filled ((List.range total).map data) len := by
  have byte : ∀ k, k < len → data k = ((List.range total).map data).getD k 0 := by
    intro k inside
    rw [getD_eq_getElem _ _ (by simp; omega)]
    simp
  unfold pieces filled
  split
  · simp only [store, Nat.zero_add]
    have first : blit r.buf r.tail (r.size - r.tail) data =
        blit r.buf r.tail (r.size - r.tail) fun k => ((List.range total).map data).getD k 0 :=
      blit_congr fun k inside => byte k (by omega)
    rw [first]
    exact blit_congr fun k inside => byte _ (by omega)
  · simp only [store, Nat.zero_add]
    exact blit_congr byte

theorem WellFormed.writeRingBuffer_eq (wf : WellFormed r) (data : Nat → UInt8) (size : UInt64) :
    r.writeRingBuffer data size = some (r.write ((List.range size.toNat).map data)) := by
  rw [writeRingBuffer, writePieces, RingBuffer.write, wf.writeLen_eq size]
  simp only [Int.natCast_pos, Int.toNat_natCast, if_neg (Int.not_lt.mpr (Int.natCast_nonneg _)),
    length_map, length_range]
  split
  · rw [store_pieces data (Nat.min_le_right _ size.toNat)]
  · rfl

theorem pieces_inside {size place : Nat} (inside : place < size) (few : len ≤ size) :
    ∀ piece ∈ pieces size place len, piece.1 + piece.2 ≤ size := by
  intro piece mem
  unfold pieces at mem
  split at mem
  · rcases mem_cons.mp mem with rfl | mem
    · exact (Nat.add_sub_of_le inside.le).le
    · rw [mem_singleton.mp mem]
      omega
  · rw [mem_singleton.mp mem]
    omega

theorem WellFormed.readPieces_inside (wf : WellFormed r) (size : UInt64) :
    ∀ piece ∈ r.readPieces size, piece.1 + piece.2 ≤ ringBufferSize := by
  have below := wf.used_lt
  rw [readPieces, wf.readLen_eq size, ← wf.size_eq]
  split
  · exact pieces_inside wf.head_lt (by rw [Int.toNat_natCast]; omega)
  · simp

theorem WellFormed.writePieces_inside (wf : WellFormed r) (size : UInt64) :
    ∀ piece ∈ r.writePieces size, piece.1 + piece.2 ≤ ringBufferSize := by
  have room := wf.used_add_free
  rw [writePieces, wf.writeLen_eq size, ← wf.size_eq]
  split
  · exact pieces_inside wf.tail_lt (by rw [Int.toNat_natCast]; omega)
  · simp

theorem WellFormed.write_take (wf : WellFormed r) (data : List UInt8) :
    (r.write data).2.contents = r.contents ++ data.take (r.write data).1 := by
  have short : (data.take r.free).length ≤ r.free := by
    rw [List.length_take]
    exact Nat.min_le_left _ _
  have cut : r.write data = r.write (data.take r.free) := by
    have len : min r.free (data.take r.free).length = min r.free data.length := by
      rw [List.length_take]
      omega
    unfold RingBuffer.write
    dsimp only
    rw [len]
    have same : r.filled data (min r.free data.length) =
        r.filled (data.take r.free) (min r.free data.length) := by
      apply filled_congr
      intro k inside
      simp only [getD_eq_getElem?_getD]
      rw [List.getElem?_take_of_lt (by omega)]
    rw [same]
  have taken : data.take (r.write data).1 = data.take r.free := by
    rw [write_fst, take_eq_take_iff]
    omega
  rw [taken, cut, wf.write_contents short]

end RingBuffer

/-! ## Runs -/

structure RingTrace where
  ring : RingBuffer
  accepted : List UInt8
  delivered : List UInt8

inductive RingCall where
  | read (size : UInt64)
  | write (data : Nat → UInt8) (size : UInt64)

def ringStep (s : RingTrace) : RingCall → Option RingTrace
  | .read size => do
    let (bytes, ring) ← s.ring.readRingBuffer size
    some { s with ring, delivered := s.delivered ++ bytes }
  | .write data size => do
    let (taken, ring) ← s.ring.writeRingBuffer data size
    some { s with ring, accepted := s.accepted ++ (List.range taken).map data }

def RingTrace.queued (s : RingTrace) : Nat := s.accepted.length - s.delivered.length

def Serves (s : RingTrace) : RingCall → RingTrace → Prop
  | .read size, next =>
    next.accepted = s.accepted ∧
    (∃ bytes, next.delivered = s.delivered ++ bytes ∧ bytes.length = min size.toNat s.queued) ∧
    ∀ piece ∈ s.ring.readPieces size, piece.1 + piece.2 ≤ ringBufferSize
  | .write data size, next =>
    next.delivered = s.delivered ∧
    next.accepted = s.accepted ++ (List.range (min size.toNat (4094 - s.queued))).map data ∧
    ∀ piece ∈ s.ring.writePieces size, piece.1 + piece.2 ≤ ringBufferSize

structure InOrder (s : RingTrace) : Prop where
  fifo : s.delivered <+: s.accepted
  head : s.ring.head < ringBufferSize
  tail : s.ring.tail < ringBufferSize

/-- The bytes between the two lists are the queued ones. -/
structure Refines (s : RingTrace) : Prop where
  wf : s.ring.WellFormed
  split : s.accepted = s.delivered ++ s.ring.contents

variable {s : RingTrace}

theorem Refines.queued (refines : Refines s) : s.queued = s.ring.used := by
  rw [RingTrace.queued, refines.split, length_append, Nat.add_sub_cancel_left, length_contents]

theorem Refines.inOrder (refines : Refines s) : InOrder s where
  fifo := ⟨s.ring.contents, refines.split.symm⟩
  head := refines.wf.size_eq ▸ refines.wf.head_lt
  tail := refines.wf.size_eq ▸ refines.wf.tail_lt

theorem Refines.step (refines : Refines s) (call : RingCall) :
    ∃ next, ringStep s call = some next ∧ Refines next ∧ Serves s call next := by
  have wf := refines.wf
  cases call with
  | read size =>
    refine ⟨{ s with
      ring := (s.ring.read size.toNat).2
      delivered := s.delivered ++ (s.ring.read size.toNat).1 }, ?_, ⟨wf.read size.toNat, ?_⟩,
      rfl, ⟨_, rfl, ?_⟩, wf.readPieces_inside size⟩
    · rw [ringStep, wf.readRingBuffer_eq]
      rfl
    · show s.accepted = _ ++ _ ++ _
      rw [wf.read_fst, wf.read_contents, append_assoc, take_append_drop, refines.split]
    · rw [length_read wf, refines.queued, Nat.min_comm]
  | write data size =>
    have room := wf.used_add_free
    have whole := wf.size_eq
    unfold ringBufferSize at whole
    have taken : (s.ring.write ((List.range size.toNat).map data)).1 =
        min size.toNat (4094 - s.queued) := by
      rw [write_fst, refines.queued, length_map, length_range]
      omega
    refine ⟨{ s with
      ring := (s.ring.write ((List.range size.toNat).map data)).2
      accepted := s.accepted ++
        (List.range (s.ring.write ((List.range size.toNat).map data)).1).map data }, ?_,
      ⟨wf.write _, ?_⟩, rfl, ?_, wf.writePieces_inside size⟩
    · rw [ringStep, wf.writeRingBuffer_eq]
      rfl
    · show s.accepted ++ _ = s.delivered ++ _
      rw [wf.write_take, refines.split, append_assoc, ← map_take, take_range, taken]
      congr 4
      omega
    · show s.accepted ++ _ = _
      rw [taken]

/-- Every sequence of calls with any sizes on a new buffer returns, each call takes or gives as
many bytes as there is room for or as there are, and the bytes come out in the order in which
they were taken. -/
theorem ring_buffer_fifo (page : Nat → UInt8) (calls : List RingCall) :
    (∃ final, runActs ringStep ⟨initRingBuffer page, [], []⟩ calls = some final) ∧
      HoldsAlong ringStep InOrder ⟨initRingBuffer page, [], []⟩ calls ∧
      StepsGive ringStep Serves ⟨initRingBuffer page, [], []⟩ calls := by
  have start : Refines ⟨initRingBuffer page, [], []⟩ :=
    ⟨wellFormed_init page, by rw [contents_init]; rfl⟩
  obtain ⟨returns, along, serves⟩ := run_total ringStep Refines Serves
    (fun s call refines => refines.step call) _ calls start
  exact ⟨returns, holdsAlong_mono _ (fun _ => Refines.inOrder) _ calls along, serves⟩

end CCore.Fs
