import Mathlib.Data.Fintype.Card

/-!
# Following a partial successor function

`chase next fuel v` follows `next` from `v` until it stops.  A `Trail` is the
list of points a chase that stops passes after its start; it never revisits a
point, so on a finite type the number of points is enough fuel.  `Ranked` is
the usual certificate that every chase stops.
-/
namespace CCore.Chase

open Function List Option
variable {fuel : Nat}

section Follow
variable {V : Type} (next : V → Option V)

/-- Follow `next` until it stops; `none` when the fuel runs out first. -/
def chase : Nat → V → Option V
  | 0, _ => none
  | fuel + 1, v =>
    match next v with
    | none => some v
    | some w => chase fuel w

/-- The points visited after `v`, up to a point where `next` stops. -/
def Trail : V → List V → Prop
  | v, [] => next v = none
  | v, w :: rest => next v = some w ∧ Trail w rest

/-- Every hop lowers a rank. -/
def Ranked : Prop := ∃ rank : V → Nat, ∀ v w, next v = some w → rank w < rank v

/-- One hop. -/
def Hop (v w : V) : Prop := next v = some w

/-- Zero or more hops. -/
def Reaches : V → V → Prop := Relation.ReflTransGen (Hop next)

variable {next}
variable {v : V}

theorem trail_unique {left right : List V} (leftTrail : Trail next v left)
    (rightTrail : Trail next v right) : left = right := by
  induction left generalizing v right with
  | nil =>
    cases right with
    | nil => rfl
    | cons w rest => exact absurd (leftTrail.symm.trans rightTrail.1) (by simp)
  | cons u rest ih =>
    cases right with
    | nil => exact absurd (rightTrail.symm.trans leftTrail.1) (by simp)
    | cons w others =>
      obtain rfl : u = w := Option.some.inj (leftTrail.1.symm.trans rightTrail.1)
      rw [ih leftTrail.2 rightTrail.2]

variable {w : V}

theorem trail_suffix {front back : List V}
    (trail : Trail next v (front ++ w :: back)) : Trail next w back := by
  induction front generalizing v with
  | nil => exact trail.2
  | cons u rest ih => exact ih trail.2

variable {path : List V}

theorem trail_nodup (trail : Trail next v path) : (v :: path).Nodup := by
  induction path generalizing v with
  | nil => exact nodup_singleton v
  | cons w rest ih =>
    refine nodup_cons.mpr ⟨?_, ih trail.2⟩
    -- a second visit would start the same trail again, one hop or more later
    intro mem
    obtain ⟨front, back, split⟩ := append_of_mem mem
    have again : Trail next v back := by
      rw [split] at trail
      exact trail_suffix trail
    have lengths := congrArg List.length split
    rw [trail_unique trail again, length_append, length_cons] at lengths
    omega

theorem mem_trail_of_reaches (trail : Trail next v path)
    (reaches : Reaches next v w) : w ∈ v :: path := by
  induction path generalizing v with
  | nil =>
    rcases Relation.ReflTransGen.cases_head reaches with same | ⟨u, hop, _⟩
    · simp [same]
    · exact absurd (trail.symm.trans hop) (by simp)
  | cons u rest ih =>
    rcases Relation.ReflTransGen.cases_head reaches with same | ⟨x, hop, others⟩
    · simp [same]
    · obtain rfl : u = x := Option.some.inj (trail.1.symm.trans hop)
      exact mem_cons_of_mem v (ih trail.2 others)

theorem no_trail_of_cycle (hop : next v = some w) (back : Reaches next w v)
    (path : List V) : ¬ Trail next v path := by
  intro trail
  cases path with
  | nil => exact absurd (trail.symm.trans hop) (by simp)
  | cons u rest =>
    obtain rfl : u = w := Option.some.inj (trail.1.symm.trans hop)
    exact (nodup_cons.mp (trail_nodup trail)).1 (mem_trail_of_reaches trail.2 back)

theorem trail_of_ranked (ranked : Ranked next) (v : V) : ∃ path, Trail next v path := by
  obtain ⟨rank, lowers⟩ := ranked
  induction measured : rank v using Nat.strong_induction_on generalizing v with
  | _ bound ih =>
    cases hop : next v with
    | none => exact ⟨[], hop⟩
    | some w =>
      obtain ⟨path, trail⟩ := ih (rank w) (measured ▸ lowers v w hop) w rfl
      exact ⟨w :: path, hop, trail⟩

theorem chase_of_trail (trail : Trail next v path) (enough : path.length < fuel) :
    chase next fuel v = some ((v :: path).getLast (cons_ne_nil v path)) := by
  induction path generalizing v fuel with
  | nil =>
    cases fuel with
    | zero => exact absurd enough (Nat.not_lt_zero _)
    | succ fuel =>
      have stops : next v = none := trail
      simp [chase, stops]
  | cons w rest ih =>
    cases fuel with
    | zero => exact absurd enough (Nat.not_lt_zero _)
    | succ fuel =>
      have tail := ih trail.2 (Nat.lt_of_succ_lt_succ enough)
      simp [chase, trail.1, tail, getLast_cons (cons_ne_nil w rest)]

section
variable (run : chase next fuel v = some w)
include run

theorem trail_of_chase : ∃ path, Trail next v path := by
  induction fuel generalizing v with
  | zero => cases run
  | succ fuel ih =>
    cases hop : next v with
    | none => exact ⟨[], hop⟩
    | some u =>
      simp only [chase, hop] at run
      obtain ⟨path, trail⟩ := ih run
      exact ⟨u :: path, hop, trail⟩

theorem reaches_of_chase : Reaches next v w := by
  induction fuel generalizing v with
  | zero => cases run
  | succ fuel ih =>
    cases hop : next v with
    | none =>
      simp only [chase, hop, some.injEq] at run
      exact run ▸ Relation.ReflTransGen.refl
    | some u =>
      simp only [chase, hop] at run
      exact Relation.ReflTransGen.head hop (ih run)

theorem stops_of_chase : next w = none := by
  induction fuel generalizing v with
  | zero => cases run
  | succ fuel ih =>
    cases hop : next v with
    | none =>
      simp only [chase, hop, some.injEq] at run
      exact run ▸ hop
    | some u =>
      simp only [chase, hop] at run
      exact ih run

end

theorem trail_length_lt_card [Fintype V] (trail : Trail next v path) :
    path.length < Fintype.card V := by
  classical
  have bound := (trail_nodup trail).length_le_card
  rw [length_cons] at bound
  exact bound

theorem chase_card_eq_none_iff [Fintype V] (v : V) :
    chase next (Fintype.card V) v = none ↔ ∀ fuel, chase next fuel v = none := by
  refine ⟨?_, fun never => never _⟩
  intro short fuel
  cases run : chase next fuel v with
  | none => rfl
  | some w =>
    obtain ⟨path, trail⟩ := trail_of_chase run
    rw [chase_of_trail trail (trail_length_lt_card trail)] at short
    cases short

variable {other : V → Option V}

theorem trail_congr (trail : Trail next v path)
    (same : ∀ u ∈ v :: path, other u = next u) : Trail other v path := by
  induction path generalizing v with
  | nil => exact (same v mem_cons_self).trans trail
  | cons w rest ih =>
    refine ⟨(same v mem_cons_self).trans trail.1, ih trail.2 ?_⟩
    exact fun u mem => same u (mem_cons_of_mem v mem)

theorem last_of_stops (trail : Trail next v path) (mem : w ∈ v :: path) (stops : next w = none) :
    (v :: path).getLast (cons_ne_nil v path) = w := by
  induction path generalizing v with
  | nil => simpa using (mem_singleton.mp mem).symm
  | cons u rest ih =>
    rcases mem_cons.mp mem with rfl | mem
    · exact absurd (stops.symm.trans trail.1) (by simp)
    · rw [getLast_cons (cons_ne_nil u rest)]
      exact ih trail.2 mem

theorem trail_snoc {new : V}
    (trail : Trail next v path) (same : ∀ u ∈ v :: path, next u ≠ none → other u = next u)
    (grows : other ((v :: path).getLast (cons_ne_nil v path)) = some new)
    (stops : other new = none) : Trail other v (path ++ [new]) := by
  induction path generalizing v with
  | nil => exact ⟨grows, stops⟩
  | cons w rest ih =>
    refine ⟨(same v mem_cons_self (by simp [trail.1])).trans trail.1, ih trail.2 ?_ ?_⟩
    · exact fun u mem => same u (mem_cons_of_mem v mem)
    · rwa [getLast_cons (cons_ne_nil w rest)] at grows

theorem ranked_of_reaches (ranked : Ranked next)
    (covers : ∀ v w, other v = some w → ∃ u, next v = some u ∧ Reaches next u w) : Ranked other := by
  obtain ⟨rank, lowers⟩ := ranked
  have descends : ∀ u w, Reaches next u w → rank w ≤ rank u := by
    intro u w reaches
    induction reaches with
    | refl => exact le_rfl
    | tail _ hop ih => exact (le_of_lt (lowers _ _ hop)).trans ih
  refine ⟨rank, ?_⟩
  intro v w hop
  obtain ⟨u, first, others⟩ := covers v w hop
  exact lt_of_le_of_lt (descends u w others) (lowers v u first)

variable [DecidableEq V]

theorem ranked_update {k target : V} (ranked : Ranked next) (apart : ¬ Reaches next target k) :
    Ranked (update next k (some target)) := by
  classical
  obtain ⟨rank, lowers⟩ := ranked
  -- lift everything that leads to `k` above the rank of its new successor
  refine ⟨fun v => rank v + if Reaches next v k then rank target + 1 else 0, ?_⟩
  intro v w hop
  rcases eq_or_ne v k with rfl | atK
  · obtain rfl : target = w := by simpa using hop
    have itself : Reaches next v v := Relation.ReflTransGen.refl
    simp only [if_neg apart, if_pos itself]
    omega
  · rw [update_of_ne atK] at hop
    have lower := lowers v w hop
    by_cases leads : Reaches next w k
    · have before : Reaches next v k := Relation.ReflTransGen.head hop leads
      simp only [if_pos leads, if_pos before]
      omega
    · simp only [if_neg leads]
      omega

theorem reaches_update {k : V} {successor : Option V} (reaches : Reaches next v k) :
    Reaches (update next k successor) v k := by
  induction reaches using Relation.ReflTransGen.head_induction_on with
  | refl => exact Relation.ReflTransGen.refl
  | @head u w hop _ ih =>
    by_cases atK : u = k
    · exact atK ▸ Relation.ReflTransGen.refl
    · refine Relation.ReflTransGen.head ?_ ih
      rw [Hop, update_of_ne atK]
      exact hop

end Follow
end CCore.Chase
