import CCore.Fat.Table
import Mathlib.Data.List.Range

/-!
# Cluster chains and the free clusters

`ChainOn` says that the table links the clusters of a file in order and ends
with the mark `eoc`.  `Owns` adds the list of free clusters, in the order in
which `search_empty_cluster` hands them out.
-/
namespace CCore.Fat

open List

/-- The chain of a file: valid clusters, none twice, each entry leads to the
next one and the last entry is `eoc`. -/
structure ChainOn (vol : Volume) (d : Disk) (eoc : Nat) (chain : List Nat) : Prop where
  valid : ∀ c ∈ chain, vol.Valid c
  nodup : chain.Nodup
  linked : ∀ i, i < chain.length → vol.entry d (chain.getD i 0) = chain.getD (i + 1) eoc

def Volume.frees (vol : Volume) (d : Disk) : List Nat :=
  (List.range' 2 vol.fat.dataClusCnt).filter fun c => decide (vol.entry d c = 0)

/-- The table of the volume as a file sees it: its own chain and the clusters
it can still get.  The entries of the two reserved numbers are never zero. -/
structure Owns (vol : Volume) (d : Disk) (chain free : List Nat) : Prop where
  chainOn : ChainOn vol d mEoc chain
  frees : vol.frees d = free
  reserved : vol.entry d 0 ≠ 0 ∧ vol.entry d 1 ≠ 0

def SameTables (vol : Volume) (d d' : Disk) : Prop := ∀ a, a < vol.dataStart → d' a = d a

variable {c : Nat} {rest : List Nat}

section Chains
variable {vol : Volume} {d d' : Disk} {chain free : List Nat} {eoc : Nat}

theorem getD_mem {chain : List Nat} {i e : Nat} (inside : i < chain.length) :
    chain.getD i e ∈ chain := by
  rw [getD_eq_getElem _ _ inside]
  exact getElem_mem inside

theorem ChainOn.valid_getD (on : ChainOn vol d eoc chain) {i e : Nat}
    (inside : i < chain.length) : vol.Valid (chain.getD i e) :=
  on.valid _ (getD_mem inside)

theorem ChainOn.congr (on : ChainOn vol d eoc chain) (same : SameTables vol d d') :
    ChainOn vol d' eoc chain := by
  refine ⟨on.valid, on.nodup, ?_⟩
  intro i inside
  rw [vol.entry_congr (on.valid_getD inside).2 same]
  exact on.linked i inside

theorem mem_frees : c ∈ vol.frees d ↔ vol.Valid c ∧ vol.entry d c = 0 := by
  rw [Volume.frees, Volume.Valid, mem_filter, mem_range'_1, decide_eq_true_eq]
  constructor
  all_goals
    rintro ⟨⟨lower, upper⟩, zero⟩
    exact ⟨⟨lower, by omega⟩, zero⟩

theorem frees_pairwise (vol : Volume) (d : Disk) : (vol.frees d).Pairwise (· < ·) :=
  List.Pairwise.filter _ pairwise_lt_range'

theorem frees_nodup : (vol.frees d).Nodup :=
  (frees_pairwise vol d).imp Nat.ne_of_lt

theorem frees_congr (same : SameTables vol d d') : vol.frees d' = vol.frees d := by
  unfold Volume.frees
  apply filter_congr
  intro c mem
  have bounds := mem_range'_1.mp mem
  rw [vol.entry_congr (by omega) same]

theorem frees_setEntry {value : Nat} (inTable : c < vol.fat.dataClusCnt + 2)
    (nonzero : value ≠ 0) (small : value < 2 ^ 32) :
    vol.frees (vol.setEntry d c value) = (vol.frees d).filter fun x => decide (x ≠ c) := by
  unfold Volume.frees
  rw [filter_filter]
  apply filter_congr
  intro x mem
  have bounds := mem_range'_1.mp mem
  rcases eq_or_ne x c with rfl | same
  · simp [vol.entry_setEntry_self inTable small, nonzero]
  · simp [vol.entry_setEntry_other (d := d) (c := c) (x := x) (v := value) (by omega) same, same]

namespace Owns

section
variable (owns : Owns vol d chain free)
include owns

theorem congr (same : SameTables vol d d') : Owns vol d' chain free := by
  refine ⟨owns.chainOn.congr same, ?_, ?_⟩
  · rw [frees_congr same]
    exact owns.frees
  · rw [vol.entry_congr (by omega) same, vol.entry_congr (by omega) same]
    exact owns.reserved

theorem valid_free (mem : c ∈ free) : vol.Valid c := by
  rw [← owns.frees] at mem
  exact (mem_frees.mp mem).1

theorem entry_ne_zero (mem : c ∈ chain) : vol.entry d c ≠ 0 := by
  obtain ⟨i, inside, rfl⟩ := getElem_of_mem mem
  have linked := owns.chainOn.linked i inside
  rw [getD_eq_getElem _ _ inside] at linked
  rw [linked]
  by_cases last : i + 1 < chain.length
  · have lower := (owns.chainOn.valid_getD (e := mEoc) last).1
    omega
  · rw [getD_eq_default _ _ (by omega)]
    decide

theorem disjoint (mem : c ∈ chain) : c ∉ free := by
  intro isFree
  rw [← owns.frees] at isFree
  exact owns.entry_ne_zero mem (mem_frees.mp isFree).2

theorem nodup_append : (chain ++ free).Nodup := by
  apply List.Nodup.append owns.chainOn.nodup
  · rw [← owns.frees]
    exact frees_nodup
  · intro c mem
    exact owns.disjoint mem

theorem valid_append (mem : c ∈ chain ++ free) : vol.Valid c := by
  rcases mem_append.mp mem with mem | mem
  · exact owns.chainOn.valid c mem
  · exact owns.valid_free mem

end

theorem scanTable_finds {fuel index : Nat} (inTable : c < vol.fat.dataClusCnt + 2)
    (zero : vol.entry d c = 0) (before : ∀ i, index ≤ i → i < c → vol.entry d i ≠ 0)
    (reaches : index ≤ c) (enough : c < index + fuel) : scanTable vol.fat d fuel index = some c := by
  induction fuel generalizing index with
  | zero => omega
  | succ fuel ih =>
    unfold scanTable
    rcases eq_or_ne index c with rfl | here
    · rw [if_pos ((vol.entryIsEmpty_eq inTable).mpr zero)]
    · have busy : ¬ entryIsEmpty vol.fat d index = true := by
        rw [vol.entryIsEmpty_eq (by omega)]
        exact before index le_rfl (by omega)
      rw [if_neg busy]
      apply ih
      · intro i lower upper
        exact before i (by omega) upper
      · omega
      · omega

theorem search (owns : Owns vol d chain free) (head : free = c :: rest) :
    searchEmptyCluster vol.fat d = some (c, vol.setEntry d c mEoc) := by
  have clusters := vol.clusters_le
  have isFree : c ∈ vol.frees d := by
    rw [owns.frees, head]
    exact mem_cons_self
  obtain ⟨valid, zero⟩ := mem_frees.mp isFree
  have found : scanTable vol.fat d (2 ^ 30) 0 = some c := by
    apply scanTable_finds valid.2 zero
    · intro i _ upper busy
      have inTable := valid.2
      rcases Nat.lt_or_ge i 2 with low | high
      · rcases Nat.lt_or_ge i 1 with zeroth | first
        · obtain rfl : i = 0 := by omega
          exact owns.reserved.1 busy
        · obtain rfl : i = 1 := by omega
          exact owns.reserved.2 busy
      · have mem : i ∈ vol.frees d := mem_frees.mpr ⟨⟨high, by omega⟩, busy⟩
        have sorted := frees_pairwise vol d
        rw [owns.frees, head] at mem sorted
        rcases mem_cons.mp mem with same | mem
        · omega
        · have later := rel_of_pairwise_cons sorted mem
          omega
    · omega
    · have upper := valid.2
      omega
  rw [searchEmptyCluster, found, Option.map_some, vol.writeFatTable_mark valid.2]

theorem frees_mark (owns : Owns vol d chain free)
    (head : free = c :: rest) : vol.frees (vol.setEntry d c mEoc) = rest := by
  have valid : vol.Valid c := owns.valid_free (by rw [head]; exact mem_cons_self)
  have nodup : (c :: rest).Nodup := by
    rw [← head, ← owns.frees]
    exact frees_nodup
  rw [frees_setEntry valid.2 (by decide) (by decide), owns.frees, head]
  rw [filter_cons_of_neg (by simp)]
  rw [filter_eq_self]
  intro x mem
  have differs : x ≠ c := fun same => (nodup_cons.mp nodup).1 (same ▸ mem)
  simpa using differs

theorem reserved_setEntry {value : Nat} (valid : vol.Valid c)
    (reserved : vol.entry d 0 ≠ 0 ∧ vol.entry d 1 ≠ 0) :
    vol.entry (vol.setEntry d c value) 0 ≠ 0 ∧ vol.entry (vol.setEntry d c value) 1 ≠ 0 := by
  have lower := valid.1
  rw [vol.entry_setEntry_other (x := 0) (by omega) (by omega),
    vol.entry_setEntry_other (x := 1) (by omega) (by omega)]
  exact reserved

theorem begin (owns : Owns vol d [] free) (head : free = c :: rest) :
    Owns vol (vol.setEntry d c mEoc) [c] rest := by
  have valid : vol.Valid c := owns.valid_free (by rw [head]; exact mem_cons_self)
  refine ⟨⟨?_, nodup_singleton c, ?_⟩, owns.frees_mark head, reserved_setEntry valid owns.reserved⟩
  · intro x mem
    rw [mem_singleton.mp mem]
    exact valid
  · intro i inside
    obtain rfl : i = 0 := by simpa using inside
    exact vol.entry_setEntry_self valid.2 (by decide)

theorem extend (owns : Owns vol d chain free) (head : free = c :: rest) (nonempty : chain ≠ []) :
    Owns vol (vol.setEntry (vol.setEntry d c mEoc) (chain.getLast nonempty) c)
      (chain ++ [c]) rest := by
  have valid : vol.Valid c := owns.valid_free (by rw [head]; exact mem_cons_self)
  have isFree : c ∈ free := by
    rw [head]
    exact mem_cons_self
  have lastMem : chain.getLast nonempty ∈ chain := getLast_mem nonempty
  have lastValid := owns.chainOn.valid _ lastMem
  have clusters := vol.clusters_le
  have upper := valid.2
  have lower := valid.1
  have apart : ∀ x ∈ chain, x ≠ c := by
    rintro x mem rfl
    exact owns.disjoint mem isFree
  have positive : 0 < chain.length := length_pos_of_ne_nil nonempty
  have last : chain.getLast nonempty = chain.getD (chain.length - 1) 0 := by
    rw [getLast_eq_getElem, getD_eq_getElem _ _ (by omega)]
  refine ⟨⟨?_, ?_, ?_⟩, ?_, ?_⟩
  · intro x mem
    rcases mem_append.mp mem with mem | mem
    · exact owns.chainOn.valid x mem
    · rw [mem_singleton.mp mem]
      exact valid
  · apply List.Nodup.append owns.chainOn.nodup (nodup_singleton c)
    intro x mem isC
    exact apart x mem (mem_singleton.mp isC)
  · intro i inside
    rw [length_append, length_singleton] at inside
    rcases Nat.lt_trichotomy (i + 1) chain.length with inner | atLast | atNew
    · -- an inner entry is left alone
      have here : chain.getD i 0 ∈ chain := getD_mem (by omega)
      have notLast : chain.getD i 0 ≠ chain.getLast nonempty := by
        rw [last, getD_eq_getElem _ _ (by omega), getD_eq_getElem _ _ (by omega)]
        intro same
        have index := (List.Nodup.getElem_inj_iff owns.chainOn.nodup).mp same
        omega
      rw [getD_append _ _ _ _ (by omega), getD_append _ _ _ _ (by omega),
        vol.entry_setEntry_other (owns.chainOn.valid _ here).2 notLast,
        vol.entry_setEntry_other (owns.chainOn.valid _ here).2 (apart _ here),
        owns.chainOn.linked i (by omega)]
    · -- the old last entry leads to the new cluster
      rw [getD_append _ _ _ _ (by omega), getD_append_right _ _ _ _ (by omega)]
      have index : i = chain.length - 1 := by omega
      rw [index, ← last, vol.entry_setEntry_self lastValid.2 (by omega)]
      have offset : chain.length - 1 + 1 - chain.length = 0 := by omega
      rw [offset]
      rfl
    · rw [getD_append_right _ _ _ _ (by omega), getD_eq_default _ mEoc (by
        rw [length_append, length_singleton]
        omega)]
      have offset : i - chain.length = 0 := by omega
      rw [offset]
      have differs : c ≠ chain.getLast nonempty := fun same => apart _ lastMem same.symm
      show vol.entry _ c = mEoc
      rw [vol.entry_setEntry_other upper differs, vol.entry_setEntry_self upper (by decide)]
  · rw [frees_setEntry lastValid.2 (by omega) (by omega), owns.frees_mark head, filter_eq_self]
    intro x mem
    have differs : x ≠ chain.getLast nonempty := by
      rintro rfl
      apply owns.disjoint lastMem
      rw [head]
      exact mem_cons_of_mem c mem
    simpa using differs
  · exact reserved_setEntry lastValid (reserved_setEntry valid owns.reserved)

end Owns
end Chains
end CCore.Fat
