import CCore.Fat.Geometry

/-!
# The transfers of one call

A call at position `pos` for `n` bytes moves them in rounds of at most
`BUFSIZE` bytes: round `j` starts at `mark pos n j` and transfers consecutive
sectors of the disk.  `e i` is the `i`-th cluster of the file, with the mark of
the end of the chain after the last one.  `track` is the cursor before each
round, and `address` is the byte of the disk that a byte of the file is
transferred to or from; `place` is where the chain has it.
-/
namespace CCore.Fat

/-- The start of the sector of `pos`. -/
def sectorBase (pos : Nat) : Nat := 512 * (pos / 512)

namespace Volume

variable (vol : Volume)

/-- Sectors per transfer. -/
def width : Nat := min 8 vol.spc

def mark (pos n j : Nat) : Nat := min (max pos (sectorBase pos + vol.buf * j)) (pos + n)

def rounds (pos n : Nat) : Nat := if n = 0 then 0 else (pos % 512 + n - 1) / vol.buf + 1

def track (e : Nat → Nat) (pos n : Nat) : Nat → Nat × Nat
  | 0 => (pos / vol.cs, vol.first (e (pos / vol.cs)) + pos % vol.cs / 512)
  | j + 1 =>
    let p := vol.mark pos n (j + 1)
    let index := (track e pos n j).1
    if p / vol.cs ≠ pos / vol.cs then
      (index + 1, u32 (vol.fat.firstSecOfClus (e (index + 1)) + p % vol.cs / 512))
    else (index, u32 ((track e pos n j).2 + (p / 512 - pos / 512)))

def address (e : Nat → Nat) (pos n q : Nat) : Nat :=
  512 * (vol.track e pos n ((q - sectorBase pos) / vol.buf)).2 + (q - sectorBase pos) % vol.buf

def place (e : Nat → Nat) (q : Nat) : Nat := 512 * vol.first (e (q / vol.cs)) + q % vol.cs

structure Clusters (e : Nat → Nat) (len : Nat) : Prop where
  valid : ∀ i, i < len → vol.Valid (e i)
  inj : ∀ i j, i < len → j < len → e i = e j → i = j

section Schedule
variable {pos n j q : Nat}

theorem buf_width : vol.buf = 512 * vol.width := vol.buf_eq

theorem width_pos : 0 < vol.width := by
  have positive := vol.spc_pos
  unfold width
  omega

theorem width_le_spc : vol.width ≤ vol.spc := by
  unfold width
  omega

theorem width_le : vol.width ≤ 8 := by
  unfold width
  omega

theorem buf_pos : 0 < vol.buf := by
  have positive := vol.width_pos
  have exact := vol.buf_width
  omega

theorem cs_pos : 0 < vol.cs := by
  have positive := vol.spc_pos
  have exact := vol.cs_eq
  omega

theorem buf_mul (j : Nat) : vol.buf * j = 512 * (vol.width * j) := by
  rw [vol.buf_width, Nat.mul_assoc]

theorem lt_rounds : j < vol.rounds pos n ↔ n ≠ 0 ∧ sectorBase pos + vol.buf * j < pos + n := by
  unfold rounds sectorBase
  by_cases none : n = 0
  · simp [none]
  · rw [if_neg none, Nat.lt_succ_iff, Nat.le_div_iff_mul_le vol.buf_pos, Nat.mul_comm j]
    constructor
    · intro bound
      exact ⟨none, by omega⟩
    · rintro ⟨_, bound⟩
      omega

theorem width_mul_cases (j : Nat) : j = 0 ∧ vol.width * j = 0 ∨ vol.width ≤ vol.width * j := by
  rcases Nat.eq_zero_or_pos j with zero | positive
  · exact .inl ⟨zero, by rw [zero, Nat.mul_zero]⟩
  · exact .inr (Nat.le_mul_of_pos_right _ positive)

theorem mark_zero : vol.mark pos n 0 = pos := by
  unfold mark sectorBase
  omega

theorem mark_of_lt (more : j < vol.rounds pos n) :
    vol.mark pos n j = max pos (sectorBase pos + vol.buf * j) := by
  obtain ⟨_, bound⟩ := vol.lt_rounds.mp more
  unfold mark
  omega

theorem mark_rounds (pos n : Nat) : vol.mark pos n (vol.rounds pos n) = pos + n := by
  have last : ¬ vol.rounds pos n < vol.rounds pos n := Nat.lt_irrefl _
  rw [vol.lt_rounds] at last
  unfold mark
  omega

theorem mark_le (pos n j : Nat) : pos ≤ vol.mark pos n j ∧ vol.mark pos n j ≤ pos + n := by
  unfold mark
  omega

theorem mark_lt_stop (more : j < vol.rounds pos n) : vol.mark pos n j < pos + n := by
  obtain ⟨nonzero, bound⟩ := vol.lt_rounds.mp more
  unfold mark
  omega

theorem mark_succ (more : j < vol.rounds pos n) : vol.mark pos n (j + 1) = vol.mark pos n j +
    min (vol.buf - vol.mark pos n j % 512) (n - (vol.mark pos n j - pos)) := by
  obtain ⟨nonzero, bound⟩ := vol.lt_rounds.mp more
  have here := vol.buf_mul j
  have next : vol.buf * (j + 1) = vol.buf * j + vol.buf := Nat.mul_succ _ _
  unfold mark sectorBase at *
  rw [next]
  rcases vol.width_mul_cases j with ⟨zero, product⟩ | product
  · omega
  · omega

theorem mark_lt_succ (more : j < vol.rounds pos n) : vol.mark pos n j < vol.mark pos n (j + 1) := by
  have below := vol.mark_lt_stop more
  have step := vol.mark_succ more
  have exact := vol.buf_width
  have positive := vol.width_pos
  have above := (vol.mark_le pos n j).1
  omega

theorem rounds_le (pos n : Nat) : vol.rounds pos n ≤ n := by
  have grows : ∀ j, j ≤ vol.rounds pos n → pos + j ≤ vol.mark pos n j := by
    intro j
    induction j with
    | zero =>
      intro _
      rw [vol.mark_zero, Nat.add_zero]
    | succ j ih =>
      intro within
      have step : vol.mark pos n j < vol.mark pos n (j + 1) := vol.mark_lt_succ (by omega)
      omega
  have final := grows _ le_rfl
  rw [vol.mark_rounds] at final
  omega

theorem round_of_mark (more : j < vol.rounds pos n) (lower : vol.mark pos n j ≤ q)
    (upper : q < vol.mark pos n (j + 1)) : (q - sectorBase pos) / vol.buf = j ∧
    (q - sectorBase pos) % vol.buf = vol.mark pos n j % 512 + (q - vol.mark pos n j) := by
  obtain ⟨nonzero, bound⟩ := vol.lt_rounds.mp more
  have here := vol.buf_mul j
  have next : vol.buf * (j + 1) = vol.buf * j + vol.buf := Nat.mul_succ _ _
  have split : q - sectorBase pos = vol.buf * j + (q - sectorBase pos - vol.buf * j) ∧
      q - sectorBase pos - vol.buf * j < vol.buf ∧
      q - sectorBase pos - vol.buf * j = vol.mark pos n j % 512 + (q - vol.mark pos n j) := by
    unfold mark sectorBase at *
    rcases vol.width_mul_cases j with ⟨zero, product⟩ | product
    · omega
    · omega
  obtain ⟨sum, small, offset⟩ := split
  rw [sum]
  constructor
  · rw [Nat.mul_add_div vol.buf_pos, Nat.div_eq_of_lt small, Nat.add_zero]
  · rw [Nat.mul_add_mod, Nat.mod_eq_of_lt small, offset]

theorem round_lt (lower : pos ≤ q) (upper : q < pos + n) :
    (q - sectorBase pos) / vol.buf < vol.rounds pos n := by
  rw [vol.lt_rounds]
  have floor := Nat.mul_div_le (q - sectorBase pos) vol.buf
  unfold sectorBase at *
  omega

end Schedule

section Cursor
variable {pos n j q : Nat} {e : Nat → Nat}

/-- The last round that starts in the cluster of `pos`. -/
def stay (pos : Nat) : Nat := (vol.cs - 1 - sectorBase pos % vol.cs) / vol.buf

/-- The sector that round `j` starts from.  In the first cluster the rounds add
`width`, `2 * width`, … to it; from then on each takes one more cluster. -/
def startSec (e : Nat → Nat) (pos j : Nat) : Nat :=
  if j ≤ vol.stay pos then
    vol.first (e (pos / vol.cs)) + pos % vol.cs / 512 + vol.width * (j * (j + 1) / 2)
  else
    u32 (vol.fat.firstSecOfClus (e (pos / vol.cs + (j - vol.stay pos))) +
      (sectorBase pos + vol.buf * j) % vol.cs / 512)

theorem sectorBase_div (pos : Nat) : sectorBase pos / vol.cs = pos / vol.cs := by
  rw [sectorBase, vol.cs_eq, Nat.mul_div_mul_left _ _ (by omega), Nat.div_div_eq_div_mul]

theorem mod_cs_div (q : Nat) : q % vol.cs / 512 = q / 512 % vol.spc := by
  rw [vol.cs_eq, Nat.mod_mul_right_div_self]

theorem mod_cs_mod (q : Nat) : q % vol.cs % 512 = q % 512 := by
  rw [vol.cs_eq, Nat.mod_mul_right_mod]

theorem sector_lt (q : Nat) : q % vol.cs / 512 < vol.spc := by
  rw [vol.mod_cs_div]
  exact Nat.mod_lt _ vol.spc_pos

theorem div_cs_eq_iff (a t : Nat) : (a + t) / vol.cs = a / vol.cs ↔ a % vol.cs + t < vol.cs := by
  have split : a + t = vol.cs * (a / vol.cs) + (a % vol.cs + t) := by
    have exact := Nat.div_add_mod a vol.cs
    omega
  rw [split, Nat.mul_add_div vol.cs_pos, ← Nat.div_eq_zero_iff_lt vol.cs_pos]
  omega

theorem start_div_eq_iff (pos j : Nat) :
    (sectorBase pos + vol.buf * j) / vol.cs = pos / vol.cs ↔ j ≤ vol.stay pos := by
  have small := Nat.mod_lt (sectorBase pos) vol.cs_pos
  rw [stay, ← vol.sectorBase_div pos, vol.div_cs_eq_iff, Nat.le_div_iff_mul_le vol.buf_pos,
    Nat.mul_comm j]
  omega

theorem mark_eq_start (later : 0 < j) (more : j < vol.rounds pos n) :
    vol.mark pos n j = sectorBase pos + vol.buf * j := by
  have exact := vol.buf_mul j
  have positive := vol.width_pos
  rw [vol.mark_of_lt more]
  unfold sectorBase at *
  rcases vol.width_mul_cases j with ⟨zero, product⟩ | product
  · omega
  · omega

theorem stay_le (pos : Nat) : vol.spc ≤ 8 ∧ vol.stay pos = 0 ∨ vol.width = 8 ∧ vol.stay pos ≤ 15 := by
  have sectors := vol.cs_eq
  have width : vol.width = min 8 vol.spc := rfl
  have buffer := vol.buf_width
  have bound := vol.spc_le
  have positive := vol.spc_pos
  unfold stay
  rcases Nat.lt_or_ge 8 vol.spc with large | small
  · right
    have exact : vol.buf = 4096 := by omega
    rw [exact]
    omega
  · left
    have exact : vol.buf = vol.cs := by omega
    rw [exact]
    exact ⟨small, Nat.div_eq_of_lt (by omega)⟩

theorem drift_le (stays : j ≤ vol.stay pos) : vol.width * (j * (j + 1) / 2) + vol.width ≤ 1024 := by
  have width := vol.width_le
  rcases vol.stay_le pos with ⟨_, none⟩ | ⟨wide, few⟩
  · obtain rfl : j = 0 := by omega
    omega
  · rw [wide]
    have upper : j ≤ 15 := by omega
    interval_cases j <;> omega

theorem firstSec_add {c o : Nat} (valid : vol.Valid c) (inside : o < vol.spc) :
    u32 (vol.fat.firstSecOfClus c + o) = vol.first c + o := by
  have bounds := vol.first_le valid
  have range := vol.in_range'
  rw [vol.firstSecOfClus_eq valid]
  unfold u32
  omega

theorem triangle_succ (j : Nat) : (j + 1) * (j + 1 + 1) / 2 = j * (j + 1) / 2 + (j + 1) := by
  have expand : (j + 1) * (j + 1 + 1) = j * (j + 1) + 2 * (j + 1) := by ring
  rw [expand, Nat.add_mul_div_left _ _ (by omega)]

theorem track_eq (valid : vol.Valid (e (pos / vol.cs))) (more : j < vol.rounds pos n) :
    vol.track e pos n j = (pos / vol.cs + (j - vol.stay pos), vol.startSec e pos j) := by
  induction j with
  | zero => simp [track, startSec]
  | succ j ih =>
    have before := ih (by omega)
    have start := vol.mark_eq_start (by omega) more
    have crossing := vol.start_div_eq_iff pos (j + 1)
    unfold track
    rw [before, start]
    by_cases stays : j + 1 ≤ vol.stay pos
    · -- still in the first cluster: the distance from `pos` is added once more
      have drift := vol.drift_le stays
      have bounds := vol.first_le valid
      have range := vol.in_range'
      have sector := vol.sector_lt pos
      have width := vol.buf_mul (j + 1)
      have step : vol.width * ((j + 1) * (j + 1 + 1) / 2) =
          vol.width * (j * (j + 1) / 2) + vol.width * (j + 1) := by
        rw [triangle_succ, Nat.mul_add]
      have distance : (sectorBase pos + vol.buf * (j + 1)) / 512 - pos / 512 =
          vol.width * (j + 1) := by
        unfold sectorBase
        omega
      rw [if_neg (not_not.mpr (crossing.mpr stays))]
      unfold startSec
      rw [if_pos (by omega), if_pos stays, distance]
      unfold u32
      refine Prod.ext ?_ ?_
      · show _ + (j - _) = _ + (j + 1 - _)
        omega
      · show (_ + _) % 2 ^ 32 = _
        rw [Nat.mod_eq_of_lt (by omega)]
        omega
    · have index : pos / vol.cs + (j - vol.stay pos) + 1 =
          pos / vol.cs + (j + 1 - vol.stay pos) := by omega
      rw [if_pos (fun same => stays (crossing.mp same))]
      unfold startSec
      rw [if_neg stays, index]

theorem startSec_bounds {len : Nat} (clusters : vol.Clusters e len)
    (within : pos / vol.cs + (j - vol.stay pos) < len) :
    vol.fat.firstDataSec ≤ vol.startSec e pos j ∧ vol.startSec e pos j + vol.width ≤ 2 ^ 32 := by
  have range := vol.in_range'
  have valid := clusters.valid _ within
  have bounds := vol.first_le valid
  have width := vol.width_le
  unfold startSec
  by_cases stays : j ≤ vol.stay pos
  · have zero : j - vol.stay pos = 0 := by omega
    rw [zero, Nat.add_zero] at bounds
    have drift := vol.drift_le stays
    have sector := vol.sector_lt pos
    rw [if_pos stays]
    omega
  · have sector := vol.sector_lt (sectorBase pos + vol.buf * j)
    rw [if_neg stays, vol.firstSec_add valid sector]
    omega

def endIndex (pos n : Nat) : Nat :=
  if (pos + n) / vol.cs = pos / vol.cs then pos / vol.cs
  else pos / vol.cs + (vol.rounds pos n - vol.stay pos)

theorem track_succ_index (e : Nat → Nat) (pos n j : Nat) :
    (vol.track e pos n (j + 1)).1 = (vol.track e pos n j).1 +
      if vol.mark pos n (j + 1) / vol.cs ≠ pos / vol.cs then 1 else 0 := by
  rw [track]
  split <;> rfl

theorem track_index_mono (e : Nat → Nat) (pos n : Nat) {i j : Nat} (order : i ≤ j) :
    (vol.track e pos n i).1 ≤ (vol.track e pos n j).1 := by
  induction order with
  | refl => exact le_rfl
  | step _ ih =>
    rw [track_succ_index]
    omega

theorem track_index_eq (e : Nat → Nat) (more : j < vol.rounds pos n) :
    (vol.track e pos n j).1 = pos / vol.cs + (j - vol.stay pos) := by
  induction j with
  | zero => simp [track]
  | succ j ih =>
    have crossing := vol.start_div_eq_iff pos (j + 1)
    rw [track_succ_index, ih (by omega), vol.mark_eq_start (by omega) more]
    by_cases stays : j + 1 ≤ vol.stay pos
    · rw [if_neg (not_not.mpr (crossing.mpr stays))]
      omega
    · rw [if_pos (fun same => stays (crossing.mp same))]
      omega

theorem track_rounds_index (e : Nat → Nat) (pos n : Nat) :
    (vol.track e pos n (vol.rounds pos n)).1 = vol.endIndex pos n := by
  unfold endIndex
  rcases Nat.eq_zero_or_pos (vol.rounds pos n) with none | some
  · have still : n = 0 := by
      have last := vol.mark_rounds pos n
      rw [none, vol.mark_zero] at last
      omega
    rw [none, still, Nat.add_zero, if_pos rfl]
    rfl
  · obtain ⟨j, last⟩ : ∃ j, vol.rounds pos n = j + 1 := ⟨vol.rounds pos n - 1, by omega⟩
    have more : j < vol.rounds pos n := by omega
    have stop := vol.mark_rounds pos n
    obtain ⟨nonzero, started⟩ := vol.lt_rounds.mp more
    have ended : ¬ j + 1 < vol.rounds pos n := by omega
    rw [vol.lt_rounds] at ended
    rw [last] at stop ⊢
    rw [track_succ_index, track_index_eq vol e more, stop]
    have order : pos / vol.cs ≤ (sectorBase pos + vol.buf * j) / vol.cs := by
      rw [← vol.sectorBase_div pos]
      exact Nat.div_le_div_right (by omega)
    by_cases same : (pos + n) / vol.cs = pos / vol.cs
    · -- no round has left the first cluster
      have upper : (sectorBase pos + vol.buf * j) / vol.cs ≤ (pos + n) / vol.cs :=
        Nat.div_le_div_right (by omega)
      have stays := (vol.start_div_eq_iff pos j).mp (by omega)
      rw [if_neg (not_not.mpr same), if_pos same]
      omega
    · have leaves : ¬ j + 1 ≤ vol.stay pos := by
        intro stays
        have inside := (vol.start_div_eq_iff pos (j + 1)).mpr stays
        have upper : (pos + n) / vol.cs ≤ (sectorBase pos + vol.buf * (j + 1)) / vol.cs :=
          Nat.div_le_div_right (by omega)
        have lower : pos / vol.cs ≤ (pos + n) / vol.cs := Nat.div_le_div_right (by omega)
        omega
      rw [if_pos same, if_neg same]
      omega

end Cursor
end Volume
end CCore.Fat
