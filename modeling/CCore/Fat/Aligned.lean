import CCore.Fat.Transfer

/-!
# When the transfers hit the right bytes

A round starts at the right sector if it is round 0, round 1 or the first round
in a new cluster; the round after one of these that is neither starts wrong.
From the right sector a round reaches the right bytes as long as it stays in its
cluster or the next cluster of the file is also the next one on the disk.
`Aligned` puts the two together and `address_eq_place_iff` shows that it is exact.
-/
namespace CCore.Fat.Volume

variable (vol : Volume)

/-- Clusters of more than a page allow two rounds, or three if the third one is
the first in a new cluster. -/
def FewRounds (pos n : Nat) : Prop :=
  vol.cs ≤ 4096 ∨ pos + n ≤ sectorBase pos + 8192 ∨
    pos + n ≤ sectorBase pos + 12288 ∧ sectorBase pos % vol.cs + 4096 < vol.cs ∧
      vol.cs ≤ sectorBase pos % vol.cs + 8192

/-- The transfers of `n` bytes at `pos` reach the bytes that the chain has there:
the rounds are few, and where one runs across the end of a cluster, the cluster
after it is the next one on the disk. -/
def Aligned (e : Nat → Nat) (pos n : Nat) : Prop :=
  vol.FewRounds pos n ∧ ∀ q, pos ≤ q → q < pos + n → q % vol.cs = 0 →
    (q - sectorBase pos) % vol.buf ≠ 0 → e (q / vol.cs) = e (q / vol.cs - 1) + 1

def RoundRight (e : Nat → Nat) (pos j : Nat) : Prop :=
  vol.startSec e pos j = vol.first (e ((sectorBase pos + vol.buf * j) / vol.cs)) +
      (sectorBase pos + vol.buf * j) % vol.cs / 512

variable {e : Nat → Nat} {pos n j q len : Nat}

theorem sectorBase_mod (pos : Nat) : sectorBase pos % vol.cs / 512 = pos % vol.cs / 512 := by
  rw [sectorBase, vol.mod_cs_div, vol.mod_cs_div, Nat.mul_div_cancel_left _ (by omega)]

theorem buf_le_cs : vol.buf ≤ vol.cs := by
  have narrow := vol.width_le_spc
  have buffer := vol.buf_width
  have sectors := vol.cs_eq
  omega

theorem start_mod_512 (pos j : Nat) : (sectorBase pos + vol.buf * j) % 512 = 0 := by
  have exact := vol.buf_mul j
  unfold sectorBase
  omega

theorem sector_add {b : Nat} (t : Nat) (whole : b % 512 = 0) :
    (b + t) / vol.cs = b / vol.cs ∧ (b + t) % vol.cs / 512 = b % vol.cs / 512 + t / 512 ∨
      vol.cs ≤ b % vol.cs + t := by
  have exact := Nat.div_add_mod b vol.cs
  have exact' := Nat.div_add_mod (b + t) vol.cs
  have offset := vol.mod_cs_mod b
  rcases Nat.lt_or_ge (b % vol.cs + t) vol.cs with inside | beyond
  · left
    have same := (vol.div_cs_eq_iff b t).mpr inside
    rw [same] at exact'
    exact ⟨same, by omega⟩
  · exact .inr beyond

theorem sector_add_next {b t : Nat} (whole : b % 512 = 0) (beyond : vol.cs ≤ b % vol.cs + t)
    (near : t ≤ vol.cs) : (b + t) / vol.cs = b / vol.cs + 1 ∧
    (b + t) % vol.cs / 512 + vol.spc = b % vol.cs / 512 + t / 512 := by
  have sectors := vol.cs_eq
  have small := Nat.mod_lt b vol.cs_pos
  have exact := Nat.div_add_mod b vol.cs
  have offset := vol.mod_cs_mod b
  have split : b + t = vol.cs * (b / vol.cs + 1) + (b % vol.cs + t - vol.cs) := by
    rw [Nat.mul_add, Nat.mul_one]
    omega
  have rest : b % vol.cs + t - vol.cs < vol.cs := by omega
  rw [split, Nat.mul_add_div vol.cs_pos, Nat.mul_add_mod, Nat.div_eq_of_lt rest,
    Nat.mod_eq_of_lt rest]
  exact ⟨by omega, by omega⟩

theorem start_succ (pos j : Nat) :
    sectorBase pos + vol.buf * (j + 1) = sectorBase pos + vol.buf * j + vol.buf := by
  rw [Nat.mul_succ, Nat.add_assoc]

theorem start_after_stay (pos : Nat) :
    (sectorBase pos + vol.buf * (vol.stay pos + 1)) / vol.cs = pos / vol.cs + 1 := by
  have inside := vol.start_div_eq_iff pos (vol.stay pos)
  have outside := vol.start_div_eq_iff pos (vol.stay pos + 1)
  have here := inside.mpr le_rfl
  have whole := vol.start_mod_512 pos (vol.stay pos)
  rw [start_succ] at outside ⊢
  rcases vol.sector_add vol.buf whole with ⟨same, _⟩ | beyond
  · rw [same] at outside
    omega
  · rw [(vol.sector_add_next whole beyond vol.buf_le_cs).1, here]

theorem start_div_le (pos j : Nat) :
    (sectorBase pos + vol.buf * j) / vol.cs ≤ pos / vol.cs + (j - vol.stay pos) := by
  induction j with
  | zero =>
    rw [Nat.mul_zero, Nat.add_zero, vol.sectorBase_div]
    omega
  | succ j ih =>
    by_cases stays : j + 1 ≤ vol.stay pos
    · rw [(vol.start_div_eq_iff pos (j + 1)).mpr stays]
      omega
    · have near := vol.buf_le_cs
      have step : (sectorBase pos + vol.buf * (j + 1)) / vol.cs ≤
          (sectorBase pos + vol.buf * j) / vol.cs + 1 := by
        rw [← Nat.add_div_right _ vol.cs_pos, vol.start_succ]
        exact Nat.div_le_div_right (by omega)
      omega

theorem div_le_endIndex (pos n : Nat) : (pos + n) / vol.cs ≤ vol.endIndex pos n := by
  unfold endIndex
  by_cases same : (pos + n) / vol.cs = pos / vol.cs
  · rw [if_pos same, same]
  · have nonzero : n ≠ 0 := by
      rintro rfl
      exact same rfl
    have last : ¬ vol.rounds pos n < vol.rounds pos n := Nat.lt_irrefl _
    rw [vol.lt_rounds] at last
    have bound := vol.start_div_le pos (vol.rounds pos n)
    have upper : (pos + n) / vol.cs ≤ (sectorBase pos + vol.buf * vol.rounds pos n) / vol.cs :=
      Nat.div_le_div_right (by omega)
    rw [if_neg same]
    omega

variable {vol}

/-! ## Rounds that start right -/

theorem roundRight_zero : vol.RoundRight e pos 0 := by
  unfold RoundRight startSec
  rw [if_pos (Nat.zero_le _), Nat.mul_zero vol.buf, Nat.add_zero (sectorBase pos),
    vol.sectorBase_div, sectorBase_mod]
  simp

theorem roundRight_one (stays : 1 ≤ vol.stay pos) : vol.RoundRight e pos 1 := by
  have inside := (vol.start_div_eq_iff pos _).mpr stays
  have whole := vol.start_mod_512 pos 0
  have buffer := vol.buf_width
  have sectors := vol.sectorBase_mod pos
  rw [Nat.mul_one] at inside
  rw [RoundRight, startSec, if_pos stays, Nat.mul_one vol.buf, inside]
  rw [Nat.mul_zero, Nat.add_zero] at whole
  rcases vol.sector_add vol.buf whole with ⟨_, offset⟩ | beyond
  · omega
  · have outside := (vol.div_cs_eq_iff (sectorBase pos) vol.buf).mp (by
      rw [inside, vol.sectorBase_div])
    omega

theorem roundRight_of_index (leaves : vol.stay pos < j)
    (index : pos / vol.cs + (j - vol.stay pos) = (sectorBase pos + vol.buf * j) / vol.cs)
    (valid : vol.Valid (e ((sectorBase pos + vol.buf * j) / vol.cs))) : vol.RoundRight e pos j := by
  have sector := vol.sector_lt (sectorBase pos + vol.buf * j)
  rw [RoundRight, startSec, if_neg (by omega), index, vol.firstSec_add valid sector]

theorem buf_small (small : vol.cs ≤ 4096) : vol.buf = vol.cs := by
  have buffer := vol.buf_eq
  have sectors := vol.cs_eq
  omega

theorem buf_large (large : 4096 < vol.cs) : vol.buf = 4096 := by
  have buffer := vol.buf_eq
  have sectors := vol.cs_eq
  omega

theorem stay_small (pos : Nat) (small : vol.cs ≤ 4096) : vol.stay pos = 0 := by
  have positive := vol.cs_pos
  rw [stay, buf_small small]
  exact Nat.div_eq_of_lt (by omega)

theorem stay_eq_one (pos : Nat) (large : 4096 < vol.cs) : vol.stay pos = 1 ↔
    sectorBase pos % vol.cs + 4096 < vol.cs ∧ vol.cs ≤ sectorBase pos % vol.cs + 8192 := by
  rw [stay, buf_large large]
  omega

theorem FewRounds.cases (few : vol.FewRounds pos n) (more : j < vol.rounds pos n) :
    j ≤ 1 ∧ j ≤ vol.stay pos ∨ vol.stay pos < j ∧
      pos / vol.cs + (j - vol.stay pos) = (sectorBase pos + vol.buf * j) / vol.cs := by
  have started := (vol.lt_rounds.mp more).2
  rcases Nat.lt_or_ge 4096 vol.cs with large | small
  · have one := stay_eq_one pos large
    have after := vol.start_after_stay pos
    have early : j ≤ 1 ∨ j = 2 ∧ vol.stay pos = 1 := by
      unfold FewRounds at few
      rw [buf_large large] at started
      omega
    rcases Nat.lt_or_ge (vol.stay pos) j with leaves | stays
    · have first : j = vol.stay pos + 1 := by omega
      rw [first, after]
      omega
    · omega
  · have none := stay_small pos small
    rcases Nat.eq_zero_or_pos j with zero | later
    · omega
    · right
      rw [none, buf_small small, Nat.add_mul_div_left _ _ vol.cs_pos, vol.sectorBase_div]
      omega

theorem FewRounds.roundRight (few : vol.FewRounds pos n) (more : j < vol.rounds pos n)
    (valid : vol.Valid (e ((sectorBase pos + vol.buf * j) / vol.cs))) : vol.RoundRight e pos j := by
  rcases few.cases more with ⟨early, stays⟩ | ⟨leaves, index⟩
  · rcases Nat.lt_or_ge 0 j with second | first
    · obtain rfl : j = 1 := by omega
      exact roundRight_one stays
    · obtain rfl : j = 0 := by omega
      exact roundRight_zero
  · exact roundRight_of_index leaves index valid

/-- No sector of cluster `c'` is one of a valid cluster. -/
def Apart (vol : Volume) (c' : Nat) : Prop :=
  ∀ c o, vol.Valid c → o < vol.spc → u32 (vol.fat.firstSecOfClus c' + o) ≠ vol.first c + o

/-- `index` is inside the chain or the mark right after it; in both cases its
sectors are not those of another cluster of the file. -/
theorem firstSec_ne {index other o : Nat} (clusters : vol.Clusters e len)
    (ends : vol.Apart (e len))
    (near : index ≤ len) (inside : other < len) (differ : index ≠ other) (small : o < vol.spc) :
    u32 (vol.fat.firstSecOfClus (e index) + o) ≠ vol.first (e other) + o := by
  have valid := clusters.valid other inside
  rcases Nat.lt_or_ge index len with within | last
  · rw [vol.firstSec_add (clusters.valid index within) small]
    intro same
    apply differ
    apply clusters.inj index other within inside
    exact (vol.first_add_lt (clusters.valid index within) valid small small same).1
  · obtain rfl : index = len := by omega
    exact ends _ _ valid small

theorem not_roundRight_two (stays : 2 ≤ vol.stay pos) : ¬ vol.RoundRight e pos 2 := by
  have inside := (vol.start_div_eq_iff pos _).mpr stays
  have whole := vol.start_mod_512 pos 0
  have buffer := vol.buf_width
  have positive := vol.width_pos
  have sectors := vol.sectorBase_mod pos
  rw [Nat.mul_zero, Nat.add_zero] at whole
  rw [RoundRight, startSec, if_pos stays, inside]
  intro right
  rcases vol.sector_add (vol.buf * 2) whole with ⟨_, offset⟩ | beyond
  · omega
  · have outside := (vol.div_cs_eq_iff (sectorBase pos) (vol.buf * 2)).mp (by
      rw [inside, vol.sectorBase_div])
    omega

theorem not_roundRight_after (clusters : vol.Clusters e len)
    (ends : vol.Apart (e len))
    (large : 4096 < vol.cs) (inside : pos / vol.cs + 1 < len) :
    ¬ vol.RoundRight e pos (vol.stay pos + 2) := by
  have sectors := vol.cs_eq
  have buffer := buf_large large
  have double : 8192 ≤ vol.cs := by
    rcases vol.spc_cases with h | h | h | h | h | h | h | h <;> omega
  have before := vol.start_after_stay pos
  have stays := vol.start_div_eq_iff pos (vol.stay pos)
  have here := stays.mpr le_rfl
  have whole := vol.start_mod_512 pos (vol.stay pos)
  have two : sectorBase pos + vol.buf * (vol.stay pos + 2) =
      sectorBase pos + vol.buf * vol.stay pos + 8192 := by
    rw [Nat.mul_add, buffer]
    omega
  have one : sectorBase pos + vol.buf * (vol.stay pos + 1) =
      sectorBase pos + vol.buf * vol.stay pos + 4096 := by
    rw [Nat.mul_add, buffer]
    omega
  have beyond : vol.cs ≤ (sectorBase pos + vol.buf * vol.stay pos) % vol.cs + 4096 := by
    rcases vol.sector_add 4096 whole with ⟨same, _⟩ | beyond
    · rw [one, same, here] at before
      omega
    · exact beyond
  have cluster : (sectorBase pos + vol.buf * (vol.stay pos + 2)) / vol.cs = pos / vol.cs + 1 := by
    rw [two, (vol.sector_add_next whole (by omega) double).1, here]
  have index : vol.stay pos + 2 - vol.stay pos = 2 := by omega
  have sector := vol.sector_lt (sectorBase pos + vol.buf * (vol.stay pos + 2))
  rw [RoundRight, startSec, if_neg (by omega), index, cluster]
  exact firstSec_ne clusters ends (by omega) inside (by omega) sector

/-! ## Bytes -/

theorem address_eq (lower : pos ≤ q) : vol.address e pos n q =
    512 * ((vol.track e pos n ((q - sectorBase pos) / vol.buf)).2 +
      (q - sectorBase pos) % vol.buf / 512) + q % 512 := by
  have offset : (q - sectorBase pos) % vol.buf % 512 = q % 512 := by
    rw [vol.buf_width, Nat.mod_mul_right_mod]
    unfold sectorBase
    omega
  unfold address
  omega

theorem place_eq : vol.place e q =
    512 * (vol.first (e (q / vol.cs)) + q % vol.cs / 512) + q % 512 := by
  have offset := vol.mod_cs_mod q
  unfold place
  omega

theorem address_eq_place (lower : pos ≤ q) (upper : q < pos + n)
    (valid : vol.Valid (e (pos / vol.cs))) : vol.address e pos n q = vol.place e q ↔
    vol.startSec e pos ((q - sectorBase pos) / vol.buf) + (q - sectorBase pos) % vol.buf / 512 =
      vol.first (e (q / vol.cs)) + q % vol.cs / 512 := by
  rw [address_eq lower, place_eq, vol.track_eq valid (vol.round_lt lower upper)]
  omega

theorem first_succ {c : Nat} (valid : vol.Valid c) : vol.first (c + 1) = vol.first c + vol.spc := by
  have lower := valid.1
  have index : c + 1 - 2 = c - 2 + 1 := by omega
  unfold first
  rw [index, Nat.succ_mul]
  omega

theorem eq_succ_of_first {c c' : Nat} (valid : vol.Valid c)
    (adjacent : vol.first c' = vol.first c + vol.spc) : c' = c + 1 := by
  have lower := valid.1
  unfold first at adjacent
  have product : (c' - 2) * vol.spc = (c - 2 + 1) * vol.spc := by
    rw [Nat.succ_mul]
    omega
  have same := Nat.eq_of_mul_eq_mul_right vol.spc_pos product
  omega

theorem index_lt {q : Nat} (fits : pos + n ≤ vol.cs * len) (upper : q < pos + n) :
    q / vol.cs < len :=
  Nat.div_lt_of_lt_mul (by omega)

theorem roundRight_of_reached (valid : vol.Valid (e (pos / vol.cs))) (more : j < vol.rounds pos n)
    (reached : vol.address e pos n (vol.mark pos n j) = vol.place e (vol.mark pos n j)) :
    vol.RoundRight e pos j := by
  have below := vol.mark_lt_stop more
  have above := (vol.mark_le pos n j).1
  obtain ⟨round, offset⟩ := vol.round_of_mark more le_rfl (vol.mark_lt_succ more)
  have right := (address_eq_place above below valid).mp reached
  rw [round, offset, Nat.sub_self, Nat.add_zero] at right
  rcases Nat.eq_zero_or_pos j with rfl | later
  · exact roundRight_zero
  · have start := vol.mark_eq_start later more
    have whole := vol.start_mod_512 pos j
    rw [start, whole, Nat.zero_div, Nat.add_zero] at right
    exact right

theorem reached_of_roundRight (valid : vol.Valid (e (pos / vol.cs))) (lower : pos ≤ q)
    (upper : q < pos + n) (right : vol.RoundRight e pos ((q - sectorBase pos) / vol.buf))
    (validStart : vol.Valid
      (e ((sectorBase pos + vol.buf * ((q - sectorBase pos) / vol.buf)) / vol.cs)))
    (adjacent : ∀ w, pos ≤ w → w ≤ q → w % vol.cs = 0 → (w - sectorBase pos) % vol.buf ≠ 0 →
      e (w / vol.cs) = e (w / vol.cs - 1) + 1) : vol.address e pos n q = vol.place e q := by
  have base : sectorBase pos ≤ pos ∧ pos < sectorBase pos + 512 := by
    unfold sectorBase
    omega
  have split := Nat.div_add_mod (q - sectorBase pos) vol.buf
  have small := Nat.mod_lt (q - sectorBase pos) vol.buf_pos
  have near : vol.buf ≤ vol.cs := vol.buf_le_cs
  rw [address_eq_place lower upper valid]
  unfold RoundRight at right
  rw [right]
  generalize (q - sectorBase pos) / vol.buf = j at *
  generalize (q - sectorBase pos) % vol.buf = t at *
  have whole := vol.start_mod_512 pos j
  have sum : q = sectorBase pos + vol.buf * j + t := by omega
  rcases vol.sector_add t whole with ⟨same, offset⟩ | beyond
  · rw [sum, same, offset]
    omega
  · obtain ⟨next, offset⟩ := vol.sector_add_next whole beyond (by omega)
    rw [← sum] at next offset
    -- the boundary that the round runs across
    have startFloor := Nat.div_add_mod (sectorBase pos + vol.buf * j) vol.cs
    have startSmall := Nat.mod_lt (sectorBase pos + vol.buf * j) vol.cs_pos
    have step : vol.cs * (q / vol.cs) =
        vol.cs * ((sectorBase pos + vol.buf * j) / vol.cs) + vol.cs := by
      rw [next, Nat.mul_succ]
    have boundary : vol.cs * (q / vol.cs) % 512 = 0 := by
      rw [vol.cs_eq, Nat.mul_assoc, Nat.mul_mod_right]
    have inner : (vol.cs * (q / vol.cs) - sectorBase pos) % vol.buf ≠ 0 := by
      have expand : vol.cs * (q / vol.cs) - sectorBase pos = vol.buf * j +
          (vol.cs * (q / vol.cs) - sectorBase pos - vol.buf * j) := by omega
      rw [expand, Nat.mul_add_mod, Nat.mod_eq_of_lt (by omega)]
      omega
    have link := adjacent (vol.cs * (q / vol.cs)) (by
        unfold sectorBase at *
        omega) (by omega)
      (Nat.mul_mod_right _ _) inner
    rw [Nat.mul_div_cancel_left _ vol.cs_pos, next, Nat.add_sub_cancel] at link
    rw [next, link, first_succ validStart]
    omega

theorem adjacent_of_reached (clusters : vol.Clusters e len) (fits : pos + n ≤ vol.cs * len)
    (right : vol.RoundRight e pos ((q - sectorBase pos) / vol.buf))
    (reached : vol.address e pos n q = vol.place e q) (lower : pos ≤ q) (upper : q < pos + n)
    (boundary : q % vol.cs = 0)
    (inner : (q - sectorBase pos) % vol.buf ≠ 0) : e (q / vol.cs) = e (q / vol.cs - 1) + 1 := by
  have valid := clusters.valid _ (index_lt fits (q := pos) (by omega))
  have here := (address_eq_place lower upper valid).mp reached
  have split := Nat.div_add_mod (q - sectorBase pos) vol.buf
  have small := Nat.mod_lt (q - sectorBase pos) vol.buf_pos
  have near : vol.buf ≤ vol.cs := vol.buf_le_cs
  unfold RoundRight at right
  rw [right] at here
  generalize (q - sectorBase pos) / vol.buf = j at *
  generalize (q - sectorBase pos) % vol.buf = t at *
  have whole := vol.start_mod_512 pos j
  have sum : q = sectorBase pos + vol.buf * j + t := by omega
  have beyond : vol.cs ≤ (sectorBase pos + vol.buf * j) % vol.cs + t := by
    -- otherwise the boundary would not be one
    by_contra inside
    have same := (vol.div_cs_eq_iff (sectorBase pos + vol.buf * j) t).mpr (by omega)
    have floor := Nat.div_add_mod q vol.cs
    have startFloor := Nat.div_add_mod (sectorBase pos + vol.buf * j) vol.cs
    rw [← sum] at same
    rw [same] at floor
    omega
  obtain ⟨next, offset⟩ := vol.sector_add_next whole beyond (by omega)
  rw [← sum] at next offset
  have validStart : vol.Valid (e ((sectorBase pos + vol.buf * j) / vol.cs)) := by
    apply clusters.valid
    have inside := index_lt fits upper
    omega
  rw [next, Nat.add_sub_cancel]
  apply eq_succ_of_first validStart
  rw [← next]
  rw [boundary] at here offset
  omega

theorem fewRounds_of_right (clusters : vol.Clusters e len) (fits : pos + n ≤ vol.cs * len)
    (ends : vol.Apart (e len))
    (right : ∀ j, j < vol.rounds pos n → pos / vol.cs + (j - vol.stay pos) ≤ len →
      vol.RoundRight e pos j) : vol.FewRounds pos n := by
  have base : sectorBase pos ≤ pos ∧ pos < sectorBase pos + 512 := by
    unfold sectorBase
    omega
  rcases Nat.lt_or_ge 4096 vol.cs with large | small
  · have started : ∀ j, j < vol.rounds pos n ↔ n ≠ 0 ∧ sectorBase pos + 4096 * j < pos + n := by
      intro j
      rw [vol.lt_rounds, buf_large large]
    have one := stay_eq_one pos large
    have inNext : vol.stay pos + 1 < vol.rounds pos n → pos / vol.cs + 1 < len := by
      intro more
      have inside := index_lt fits (vol.lt_rounds.mp more).2
      rwa [start_after_stay] at inside
    by_contra many
    unfold FewRounds at many
    have third := (started 2).mpr (by omega)
    rcases Nat.lt_trichotomy (vol.stay pos) 1 with none | exact | several
    · have zero : vol.stay pos = 0 := by omega
      have inside := inNext (by omega)
      apply not_roundRight_after clusters ends large inside
      rw [zero]
      exact right 2 third (by omega)
    · have fourth := (started 3).mpr (by omega)
      have inside := inNext (by omega)
      apply not_roundRight_after clusters ends large inside
      rw [exact]
      exact right 3 fourth (by omega)
    · have inside := index_lt fits (q := pos) (by omega)
      exact not_roundRight_two several (right 2 third (by omega))
  · exact .inl small

theorem FewRounds.index_lt (few : vol.FewRounds pos n) (fits : pos + n ≤ vol.cs * len)
    (more : j < vol.rounds pos n) : pos / vol.cs + (j - vol.stay pos) < len := by
  have started := (vol.lt_rounds.mp more).2
  rcases few.cases more with ⟨_, stays⟩ | ⟨_, index⟩
  · have inside := Volume.index_lt (n := n) fits (q := pos) (by
      have nonzero := (vol.lt_rounds.mp more).1
      omega)
    omega
  · rw [index]
    exact Volume.index_lt fits started

theorem startSec_lt (valid : vol.Valid (e (pos / vol.cs))) : vol.startSec e pos j < 2 ^ 32 := by
  unfold startSec
  split
  case isTrue stays =>
    have drift := vol.drift_le stays
    have bounds := vol.first_le valid
    have range := vol.in_range'
    have sector := vol.sector_lt pos
    omega
  case isFalse => exact Nat.mod_lt _ (by omega)

/-- The call reaches exactly the bytes that the chain has, if and only if it is
aligned.  Only the rounds up to the one right after the end of the chain need to
be looked at, and only sectors that do not wrap around. -/
theorem address_eq_place_iff (clusters : vol.Clusters e len) (fits : pos + n ≤ vol.cs * len)
    (ends : vol.Apart (e len)) : (∀ q, pos ≤ q → q < pos + n →
    pos / vol.cs + ((q - sectorBase pos) / vol.buf - vol.stay pos) ≤ len →
    vol.startSec e pos ((q - sectorBase pos) / vol.buf) +
      (q - sectorBase pos) % vol.buf / 512 < 2 ^ 32 →
    vol.address e pos n q = vol.place e q) ↔ vol.Aligned e pos n := by
  have validStart : ∀ j, j < vol.rounds pos n →
      vol.Valid (e ((sectorBase pos + vol.buf * j) / vol.cs)) := by
    intro j more
    exact clusters.valid _ (index_lt fits (vol.lt_rounds.mp more).2)
  constructor
  · intro reached
    have few : vol.FewRounds pos n := by
      apply fewRounds_of_right clusters fits ends
      intro j more near
      have upper := vol.mark_lt_stop more
      have lower := (vol.mark_le pos n j).1
      have valid := clusters.valid _ (index_lt fits (q := pos) (by omega))
      obtain ⟨round, offset⟩ := vol.round_of_mark more le_rfl (vol.mark_lt_succ more)
      apply roundRight_of_reached valid more
      apply reached _ lower upper
      · rwa [round]
      · have below := startSec_lt (j := j) valid
        rw [round, offset]
        omega
    refine ⟨few, ?_⟩
    intro q lower upper boundary inner
    have more := vol.round_lt lower upper
    have near := few.index_lt fits more
    have offset := Nat.mod_lt (q - sectorBase pos) vol.buf_pos
    have buffer := vol.buf_width
    have bounds := (vol.startSec_bounds clusters near).2
    exact adjacent_of_reached clusters fits (few.roundRight more (validStart _ more))
      (reached q lower upper (by omega) (by omega)) lower upper boundary inner
  · rintro ⟨few, adjacent⟩ q lower upper _ _
    have more := vol.round_lt lower upper
    have valid := clusters.valid _ (index_lt fits (q := pos) (by omega))
    apply reached_of_roundRight valid lower upper (few.roundRight more (validStart _ more))
      (validStart _ more)
    intro w lower' upper' boundary inner
    exact adjacent w lower' (by omega) boundary inner

theorem aligned_of_page (whole : pos % 4096 = 0) (small : n ≤ 4096) : vol.Aligned e pos n := by
  have base : sectorBase pos = pos := by
    unfold sectorBase
    omega
  refine ⟨.inr (.inl (by omega)), ?_⟩
  intro q lower upper boundary inner
  have size := vol.cs_eq
  rw [base] at inner
  rcases Nat.lt_or_ge 4096 vol.cs with large | little
  · rw [vol.buf_large large] at inner
    rw [size] at boundary
    rcases vol.spc_cases with h | h | h | h | h | h | h | h <;> rw [h] at boundary <;> omega
  · rw [vol.buf_small little, size] at inner
    rw [size] at boundary
    rcases vol.spc_cases with h | h | h | h | h | h | h | h <;> rw [h] at inner boundary <;> omega

theorem aligned_congr {e' : Nat → Nat} (same : ∀ i, i < len → e i = e' i)
    (fits : pos + n ≤ vol.cs * len) : vol.Aligned e pos n ↔ vol.Aligned e' pos n := by
  have values : ∀ q, q < pos + n → e (q / vol.cs) = e' (q / vol.cs) ∧
      e (q / vol.cs - 1) = e' (q / vol.cs - 1) := by
    intro q upper
    have inside := index_lt fits upper
    exact ⟨same _ inside, same _ (Nat.lt_of_le_of_lt (Nat.sub_le _ _) inside)⟩
  unfold Aligned
  apply and_congr_right
  intro _
  constructor
  · intro adjacent q lower upper boundary inner
    rw [← (values q upper).1, ← (values q upper).2]
    exact adjacent q lower upper boundary inner
  · intro adjacent q lower upper boundary inner
    rw [(values q upper).1, (values q upper).2]
    exact adjacent q lower upper boundary inner

theorem startSec_congr {e' : Nat → Nat} (first : e (pos / vol.cs) = e' (pos / vol.cs))
    (here : e (pos / vol.cs + (j - vol.stay pos)) = e' (pos / vol.cs + (j - vol.stay pos))) :
    vol.startSec e pos j = vol.startSec e' pos j := by
  unfold startSec
  rw [first, here]

end CCore.Fat.Volume
