import CCore.Lib.Sleep
import CCore.Sched.Consistent
import Mathlib.Algebra.GroupWithZero.Nat

/-!
# The sons of a process that exits

`release_wait_deal_son` goes over the PCBs in order and gives the sons of the exiting
process to its parent, but it returns with the first son that is a zombie.  So the sons
behind that one keep their parent, and a zombie passes its own sons up to the process that
has stopped looking for them.
-/
namespace CCore.Sched

open Shelves Chase Run List Option Nat
variable {s s' s'' : State} {i x y z : Index}

def SonOf (s : State) (x i : Index) : Prop := (s.pcb i).parent = some x ∧ (s.pcb i).used = true

instance (s : State) (x i : Index) : Decidable (SonOf s x i) :=
  inferInstanceAs (Decidable (_ ∧ _))

/-- Sons stand lower than their parents. -/
def Forest (s : State) : Prop :=
  ∃ height : Index → Nat, ∀ x i, SonOf s x i → height i < height x

/-- Below `x` over zombies only. -/
def ZombieLine (s : State) : Index → Index → Prop :=
  Relation.TransGen fun x i => isZombieSon s x i = true

/-- What the exit of `p` is to do for the processes it leaves behind. -/
structure OrphansHandled (s : State) (p : Index) (s' : State) : Prop where
  noSon : ∀ i, i ≠ p → (s'.pcb i).used = true → (s'.pcb i).parent ≠ some p
  freed : ∀ z, ZombieLine s p z → (s'.pcb z).used = false
  given : ∀ i, SonOf s p i → (s.pcb i).status ≠ .zombie → (s'.pcb i).parent = (s.pcb p).parent
  awake : ∀ x, x = p ∨ ZombieLine s p x ∧ (s'.pcb x).used = false →
    ∀ w ∈ s'.lists (.wait (.child x)), (s'.pcb w).status ≠ .blocked

/-- The first zombie among the sons of `p` is its last son; that zombie has no son in front of
the first zombie among its own; and a zombie below `p` has no more than one zombie son. -/
structure Tidy (s : State) (p : Index) : Prop where
  last : ∀ z, firstZombie s p = some z → ∀ i, SonOf s p i → i ≤ z
  barren : ∀ z, firstZombie s p = some z → ∀ i, SonOf s z i →
    ∃ first, firstZombie s z = some first ∧ first ≤ i
  single : ∀ x, ZombieLine s p x → ∀ i j, isZombieSon s x i = true → isZombieSon s x j = true →
    i = j

theorem isZombieSon_iff : isZombieSon s x i = true ↔ SonOf s x i ∧ (s.pcb i).status = .zombie := by
  simp [isZombieSon, SonOf, and_assoc]

theorem firstZombie_son (first : firstZombie s x = some z) : isZombieSon s x z = true := by
  have found : isZombieSon s x z = true := List.find?_some first
  exact found

theorem firstZombie_split (first : firstZombie s x = some z) :
    ∃ front back, List.finRange 100 = front ++ z :: back ∧
      (∀ i, i ∈ front ↔ i < z) ∧ ∀ i ∈ front, isZombieSon s x i = false := by
  obtain ⟨_, front, back, split, passed⟩ := List.find?_eq_some_iff_append.mp first
  refine ⟨front, back, split, ?_, fun i mem => by simpa using passed i mem⟩
  have sorted : (front ++ z :: back).Pairwise (· < ·) := split ▸ pairwise_lt_finRange 100
  obtain ⟨_, behind, before⟩ := pairwise_append.mp sorted
  intro i
  refine ⟨fun mem => before i mem z mem_cons_self, ?_⟩
  intro less
  have everywhere : i ∈ front ++ z :: back := split ▸ mem_finRange i
  rcases mem_append.mp everywhere with mem | mem
  · exact mem
  · rcases mem_cons.mp mem with rfl | later
    · exact absurd less (lt_irrefl _)
    · exact absurd (lt_trans less (rel_of_pairwise_cons behind later)) (lt_irrefl _)

theorem firstZombie_le (zombie : isZombieSon s x i = true) :
    ∃ z, firstZombie s x = some z ∧ z ≤ i := by
  cases first : firstZombie s x with
  | none =>
    have none := List.find?_eq_none.mp first i (mem_finRange i)
    exact absurd zombie none
  | some z =>
    refine ⟨z, rfl, ?_⟩
    obtain ⟨front, _, _, mem_front, passed⟩ := firstZombie_split first
    by_contra less
    rw [passed i ((mem_front i).mpr (not_le.mp less))] at zombie
    cases zombie

theorem Forest.ranked (forest : Forest s) : Ranked (firstZombie s) := by
  obtain ⟨height, lower⟩ := forest
  exact ⟨height, fun x z first => lower x z (isZombieSon_iff.mp (firstZombie_son first)).1⟩

variable {path : List Index} {height : Index → Nat}

theorem mem_trail (trail : Trail (firstZombie s) x path) (mem : i ∈ path) :
    ∃ y ∈ x :: path, firstZombie s y = some i ∧ (s.pcb i).parent = some y := by
  induction path generalizing x with
  | nil => cases mem
  | cons z rest ih =>
    rcases mem_cons.mp mem with rfl | later
    · exact ⟨x, mem_cons_self, trail.1, (isZombieSon_iff.mp (firstZombie_son trail.1)).1.1⟩
    · obtain ⟨y, there, first⟩ := ih trail.2 later
      exact ⟨y, mem_cons_of_mem x there, first⟩

theorem next_mem_trail (trail : Trail (firstZombie s) x path)
    (there : y ∈ x :: path) (first : firstZombie s y = some z) : z ∈ path := by
  induction path generalizing x with
  | nil =>
    rw [mem_singleton.mp there] at first
    exact absurd (first.symm.trans trail) (by simp)
  | cons u rest ih =>
    rcases mem_cons.mp there with rfl | later
    · rw [Option.some.inj (first.symm.trans trail.1)]
      exact mem_cons_self
    · exact mem_cons_of_mem u (ih trail.2 later)

theorem trail_lower (lower : ∀ x i, SonOf s x i → height i < height x)
    (trail : Trail (firstZombie s) x path) (mem : i ∈ path) : height i < height x := by
  induction path generalizing x with
  | nil => cases mem
  | cons z rest ih =>
    have below := lower x z (isZombieSon_iff.mp (firstZombie_son trail.1)).1
    rcases mem_cons.mp mem with rfl | later
    · exact below
    · exact lt_trans (ih trail.2 later) below

/-! ## Waking leaves the family alone -/

structure Rouses (s s' : State) : Prop where
  parent : ∀ i, (s'.pcb i).parent = (s.pcb i).parent
  used : ∀ i, (s'.pcb i).used = (s.pcb i).used
  blocked : ∀ i, (s'.pcb i).status = .blocked → (s.pcb i).status = .blocked
  waits : ∀ w q, w ∈ s'.lists (.wait q) → w ∈ s.lists (.wait q)

theorem Rouses.refl (s : State) : Rouses s s :=
  ⟨fun _ => rfl, fun _ => rfl, fun _ => id, fun _ _ => id⟩

theorem Rouses.trans (first : Rouses s s') (second : Rouses s' s'') : Rouses s s'' :=
  ⟨fun i => (second.parent i).trans (first.parent i), fun i => (second.used i).trans (first.used i),
    fun i blocked => first.blocked i (second.blocked i blocked),
    fun w q waits => first.waits w q (second.waits w q waits)⟩

theorem doUnblock_rouses (s : State) (p : Index) : Rouses s (doUnblock s p) := by
  have fields : ∀ i, ((doUnblock s p).pcb i).parent = (s.pcb i).parent ∧
      ((doUnblock s p).pcb i).used = (s.pcb i).used ∧
      (((doUnblock s p).pcb i).status = .blocked → (s.pcb i).status = .blocked) := by
    intro i
    rcases eq_or_ne i p with rfl | same
    · simp [doUnblock, State.setStatus]
    · simp [doUnblock, State.setStatus, setPcb_of_ne same]
  refine ⟨fun i => (fields i).1, fun i => (fields i).2.1, fun i => (fields i).2.2, ?_⟩
  intro w q waits
  have erased : w ∈ (s.lists (.wait q)).erase p := by
    simpa [doUnblock, push, Shelves.unlink] using waits
  exact mem_of_mem_erase erased

theorem wakeFirst_rouses (s : State) (q : Queue) : Rouses s (wakeFirst s q) := by
  unfold wakeFirst
  split
  · exact .refl s
  · exact doUnblock_rouses s _

theorem wakePages_rouses (n : Nat) (s : State) : Rouses s (wakePages n s) := by
  induction n generalizing s with
  | zero => exact .refl s
  | succ n ih => exact (wakeFirst_rouses s .pages).trans (ih _)

/-- Nobody sleeps on the wait list of `x`. -/
def NoSleepers (s : State) (x : Index) : Prop :=
  ∀ w ∈ s.lists (.wait (.child x)), (s.pcb w).status ≠ .blocked

theorem Rouses.quiet (rouses : Rouses s s') (quiet : NoSleepers s x) : NoSleepers s' x :=
  fun w waits blocked => quiet w (rouses.waits w _ waits) (rouses.blocked w blocked)

theorem wakeWaiter_rouses (s : State) (w : Index) : Rouses s (wakeWaiter s w) ∧
    ((wakeWaiter s w).pcb w).status ≠ .blocked ∧
    ∀ i, ((wakeWaiter s w).pcb i).status = .zombie ↔ (s.pcb i).status = .zombie := by
  unfold wakeWaiter
  split
  · rename_i blocked
    refine ⟨doUnblock_rouses s w, by simp [doUnblock, State.setStatus], ?_⟩
    intro i
    rcases eq_or_ne i w with rfl | same
    · simp [doUnblock, State.setStatus, blocked]
    · simp [doUnblock, State.setStatus, setPcb_of_ne same]
  · rename_i awake
    exact ⟨.refl s, awake, fun _ => Iff.rfl⟩

theorem releaseWait_rouses (s : State) (x : Index) : Rouses s (releaseWait s x) ∧
    NoSleepers (releaseWait s x) x ∧
    ∀ i, ((releaseWait s x).pcb i).status = .zombie ↔ (s.pcb i).status = .zombie := by
  obtain ⟨kept, woken, _⟩ := Sleep.foldl_each wakeWaiter
    (fun t => Rouses s t ∧ ∀ i, (t.pcb i).status = .zombie ↔ (s.pcb i).status = .zombie)
    (fun w t => (t.pcb w).status ≠ .blocked) (s.lists (.wait (.child x)))
    (fun w _ t inv => by
      obtain ⟨rouses, awake, zombies⟩ := wakeWaiter_rouses t w
      exact ⟨⟨inv.1.trans rouses, fun i => (zombies i).trans (inv.2 i)⟩, awake,
        fun i stays blocked => stays (rouses.blocked i blocked)⟩)
    s ⟨.refl s, fun _ => Iff.rfl⟩
  exact ⟨kept.1, fun w waits => woken w (kept.1.waits w _ waits), kept.2⟩

section

local instance lawfulIndex : LawfulBEq Index := inferInstance

def giveSons (s : State) (x : Index) (front : List Index) : State :=
  { s with pcb := fun i =>
      if i ∈ front ∧ SonOf s x i then { s.pcb i with parent := (s.pcb x).parent } else s.pcb i }

end

theorem giveSons_fields (s : State) (x : Index) (front : List Index) (i : Index) :
    ((giveSons s x front).pcb i).used = (s.pcb i).used ∧
      ((giveSons s x front).pcb i).status = (s.pcb i).status := by
  unfold giveSons
  dsimp only
  split <;> exact ⟨rfl, rfl⟩

theorem giveSons_cons (notSelf : ¬ SonOf s x x) {front : List Index} (fresh : i ∉ front)
    (son : SonOf s x i) :
    giveSons (s.setPcb i { s.pcb i with parent := (s.pcb x).parent }) x front =
      giveSons s x (i :: front) := by
  have other : x ≠ i := by
    rintro rfl
    exact notSelf son
  simp only [giveSons, setPcb_of_ne other, setPcb_lists, setPcb_current, setPcb_task]
  congr 1
  funext j
  rcases eq_or_ne j i with rfl | same
  · simp [fresh, son]
  · simp [same, SonOf, setPcb_of_ne same]

theorem giveSons_skip {front : List Index} (other : ¬ SonOf s x i) :
    giveSons s x (i :: front) = giveSons s x front := by
  unfold giveSons
  congr 1
  funext j
  rcases eq_or_ne j i with rfl | same
  · simp [other]
  · simp [same]

theorem dealSons_append (exitSon : Index → State → Option State) (front rest : List Index)
    (notSelf : ¬ SonOf s x x) (nodup : front.Nodup)
    (passed : ∀ i ∈ front, isZombieSon s x i = false) :
    dealSons exitSon x (front ++ rest) s = dealSons exitSon x rest (giveSons s x front) := by
  induction front generalizing s with
  | nil => simp [giveSons]
  | cons i front ih =>
    obtain ⟨fresh, nodup⟩ := nodup_cons.mp nodup
    have later := fun j mem => passed j (mem_cons_of_mem i mem)
    rw [cons_append, dealSons]
    by_cases son : SonOf s x i
    · have living : (s.pcb i).status ≠ .zombie := by
        intro zombie
        have found := isZombieSon_iff.mpr ⟨son, zombie⟩
        rw [passed i mem_cons_self] at found
        cases found
      have other : x ≠ i := by
        rintro rfl
        exact notSelf son
      have now : (s.pcb i).parent = some x ∧ (s.pcb i).used = true := son
      rw [if_pos now, if_neg living, ih, giveSons_cons notSelf fresh son]
      · simpa [SonOf, setPcb_of_ne other] using notSelf
      · exact nodup
      · intro j mem
        have different : j ≠ i := by
          rintro rfl
          exact fresh mem
        simpa [isZombieSon, setPcb_of_ne different] using later j mem
    · have skip : ¬ ((s.pcb i).parent = some x ∧ (s.pcb i).used = true) := son
      rw [if_neg skip, ih notSelf nodup later, giveSons_skip son]

def GivenBy (s : State) (x i : Index) : Prop :=
  SonOf s x i ∧ (s.pcb i).status ≠ .zombie ∧ ∀ z, firstZombie s x = some z → i < z

theorem dealSons_given (exitSon : Index → State → Option State) (notSelf : ¬ SonOf s x x) :
    ∃ front, (∀ i, i ∈ front ∧ SonOf s x i ↔ GivenBy s x i) ∧
      dealSons exitSon x (List.finRange 100) s = match firstZombie s x with
        | none => some (giveSons s x front)
        | some z => exitSon z (giveSons s x front) := by
  cases first : firstZombie s x with
  | none =>
    have passed : ∀ i ∈ List.finRange 100, isZombieSon s x i = false := by
      intro i mem
      simpa using List.find?_eq_none.mp first i mem
    refine ⟨List.finRange 100, ?_, ?_⟩
    · intro i
      refine ⟨fun ⟨mem, son⟩ => ⟨son, ?_, by simp [first]⟩, fun given => ⟨mem_finRange i, given.1⟩⟩
      intro zombie
      have found := isZombieSon_iff.mpr ⟨son, zombie⟩
      rw [passed i mem] at found
      cases found
    · have all := dealSons_append exitSon (List.finRange 100) [] notSelf
        (nodup_finRange 100) passed
      rw [append_nil] at all
      exact all
  | some z =>
    obtain ⟨front, back, split, mem_front, passed⟩ := firstZombie_split first
    have nodup : (front ++ z :: back).Nodup := split ▸ nodup_finRange 100
    have beyond : z ∉ front := fun mem => lt_irrefl z ((mem_front z).mp mem)
    refine ⟨front, ?_, ?_⟩
    · intro i
      refine ⟨fun ⟨mem, son⟩ => ⟨son, ?_, ?_⟩,
        fun given => ⟨(mem_front i).mpr (given.2.2 z first), given.1⟩⟩
      · intro zombie
        have found := isZombieSon_iff.mpr ⟨son, zombie⟩
        rw [passed i mem] at found
        cases found
      · intro z' first'
        rw [← Option.some.inj (first.symm.trans first')]
        exact (mem_front i).mp mem
    · obtain ⟨son, zombie⟩ := isZombieSon_iff.mp (firstZombie_son first)
      have same : (giveSons s x front).pcb z = s.pcb z := by simp [giveSons, beyond]
      rw [split, dealSons_append exitSon front (z :: back) notSelf (List.nodup_append.mp nodup).1
        passed, dealSons, same]
      have now : (s.pcb z).parent = some x ∧ (s.pcb z).used = true := son
      rw [if_pos now, if_pos zombie]

/-! ## One exit -/

/-- What the exits of the processes of `line` have done. -/
structure LineReaped (s : State) (line : List Index) (s' : State) : Prop where
  used : ∀ i, (s'.pcb i).used = if i ∈ line then false else (s.pcb i).used
  given : ∀ y ∈ line, ∀ i, GivenBy s y i → (s'.pcb i).parent = (s.pcb y).parent
  kept : ∀ i, (∀ y ∈ line, ¬ GivenBy s y i) → (s'.pcb i).parent = (s.pcb i).parent
  quiet : ∀ y ∈ line, NoSleepers s' y
  stayAwake : ∀ y, NoSleepers s y → NoSleepers s' y

theorem freePcb_fields (s : State) (x i : Index) :
    ((freePcb s x).pcb i).used = (if i = x then false else (s.pcb i).used) ∧
      ((freePcb s x).pcb i).parent = (s.pcb i).parent ∧
      ∀ y, NoSleepers s y → NoSleepers (freePcb s x) y := by
  have rouses := wakeFirst_rouses
    { s.setPcb x { s.pcb x with status := .exited, used := false } with
      lists := push s.lists .free x } .pcbs
  refine ⟨?_, ?_, ?_⟩
  · rw [freePcb, rouses.used]
    rcases eq_or_ne i x with rfl | same
    · simp
    · simp [same, setPcb_of_ne same]
  · rw [freePcb, rouses.parent]
    rcases eq_or_ne i x with rfl | same
    · simp
    · simp [setPcb_of_ne same]
  · intro y quiet
    apply rouses.quiet
    intro w waits
    have before : w ∈ s.lists (.wait (.child y)) := by simpa [push] using waits
    rcases eq_or_ne w x with rfl | same
    · simp
    · simpa [setPcb_of_ne same] using quiet w before

theorem recycle_fields (freed : Freed) (s : State) (x : Index) :
    let s' := wakePages (freed.after x) (freePcb (wakePages (freed.before x) s) x)
    (∀ i, (s'.pcb i).used = if i = x then false else (s.pcb i).used) ∧
      (∀ i, (s'.pcb i).parent = (s.pcb i).parent) ∧ ∀ y, NoSleepers s y → NoSleepers s' y := by
  have before := wakePages_rouses (freed.before x) s
  have fields := freePcb_fields (wakePages (freed.before x) s) x
  have after := wakePages_rouses (freed.after x) (freePcb (wakePages (freed.before x) s) x)
  refine ⟨?_, ?_, ?_⟩
  · intro i
    rw [after.used, (fields i).1, before.used]
  · intro i
    rw [after.parent, (fields i).2.1, before.parent]
  · intro y quiet
    exact after.quiet ((fields x).2.2 y (before.quiet quiet))

theorem isZombieSon_given (front : List Index)
    (living : ∀ i, i ∈ front ∧ SonOf s x i → (s.pcb i).status ≠ .zombie) :
    isZombieSon (giveSons s x front) = isZombieSon s := by
  funext y i
  by_cases given : i ∈ front ∧ SonOf s x i
  · have no := living i given
    simp [isZombieSon, giveSons_fields s x front i, no]
  · simp [isZombieSon, giveSons, given]

theorem isZombieSon_rouses (rouses : Rouses s s')
    (zombies : ∀ i, (s'.pcb i).status = .zombie ↔ (s.pcb i).status = .zombie) :
    isZombieSon s' = isZombieSon s := by
  funext y i
  simp [isZombieSon, rouses.parent, rouses.used, zombies]

/-- What `release_wait_deal_son` has done to the sons of `x` when it ends or goes on with a
zombie. -/
structure Dealt (s : State) (x : Index) (s' : State) : Prop where
  used : ∀ i, (s'.pcb i).used = (s.pcb i).used
  given : ∀ i, GivenBy s x i → (s'.pcb i).parent = (s.pcb x).parent
  kept : ∀ i, ¬ GivenBy s x i → (s'.pcb i).parent = (s.pcb i).parent
  zombie : ∀ i, (s'.pcb i).status = .zombie ↔ (s.pcb i).status = .zombie
  zombies : isZombieSon s' = isZombieSon s
  quiet : NoSleepers s' x
  stayAwake : ∀ y, NoSleepers s y → NoSleepers s' y

theorem Dealt.firstZombie (dealt : Dealt s x s') : firstZombie s' = firstZombie s := by
  funext y
  rw [Sched.firstZombie, dealt.zombies, ← Sched.firstZombie]

theorem releaseWait_dealSons (exitSon : Index → State → Option State) (notSelf : ¬ SonOf s x x) :
    ∃ s₂, Dealt s x s₂ ∧ dealSons exitSon x (List.finRange 100) (releaseWait s x) =
        match firstZombie s x with
        | none => some s₂
        | some z => exitSon z s₂ := by
  obtain ⟨rouses, quiet, zombies⟩ := releaseWait_rouses s x
  have sons : ∀ y i, SonOf (releaseWait s x) y i ↔ SonOf s y i := by
    intro y i
    rw [SonOf, rouses.parent, rouses.used, ← SonOf]
  have zombieSons := isZombieSon_rouses rouses zombies
  have firsts : firstZombie (releaseWait s x) = firstZombie s := by
    funext y
    rw [firstZombie, zombieSons, ← firstZombie]
  obtain ⟨front, mem_front, eq⟩ := dealSons_given exitSon (mt (sons x x).mp notSelf)
  rw [firsts] at eq
  have givenBy : ∀ i, i ∈ front ∧ SonOf (releaseWait s x) x i ↔ GivenBy s x i := by
    intro i
    rw [mem_front, GivenBy, sons, firsts, ne_eq, zombies, ← ne_eq, ← GivenBy]
  refine ⟨giveSons (releaseWait s x) x front, ⟨?_, ?_, ?_, ?_, ?_, ?_, ?_⟩, eq⟩
  · intro i
    rw [(giveSons_fields _ x front i).1, rouses.used]
  · intro i given
    simp [giveSons, (givenBy i).mpr given, rouses.parent]
  · intro i other
    simp [giveSons, mt (givenBy i).mp other, rouses.parent]
  · intro i
    rw [(giveSons_fields _ x front i).2, zombies]
  · rw [isZombieSon_given front (fun i given => mt (zombies i).mp ((givenBy i).mp given).2.1),
      zombieSons]
  · intro w waits
    rw [(giveSons_fields _ x front w).2]
    exact quiet w waits
  · intro y before w waits
    rw [(giveSons_fields _ x front w).2]
    exact rouses.quiet before w waits

theorem Dealt.forest (lower : ∀ x i, SonOf s x i → height i < height x)
    (used : (s.pcb x).used = true) (dealt : Dealt s x s') :
    ∀ y i, SonOf s' y i → height i < height y := by
  rintro y i ⟨parent, usedI⟩
  rw [dealt.used] at usedI
  by_cases given : GivenBy s x i
  · rw [dealt.given i given] at parent
    exact lt_trans (lower x i given.1) (lower y x ⟨parent, used⟩)
  · rw [dealt.kept i given] at parent
    exact lower y i ⟨parent, usedI⟩

theorem handleExitPcb_reaps (freed : Freed) (depth : Nat)
    (lower : ∀ x i, SonOf s x i → height i < height x) (used : (s.pcb x).used = true)
    (trail : Trail (firstZombie s) x path) (enough : path.length < depth) :
    ∃ s', handleExitPcb freed depth x s = some s' ∧ LineReaped s (x :: path) s' := by
  induction path generalizing s x depth with
  | nil =>
    obtain ⟨depth, rfl⟩ := exists_eq_succ_of_ne_zero (Nat.ne_of_gt enough)
    have notSelf : ¬ SonOf s x x := fun self => lt_irrefl _ (lower x x self)
    obtain ⟨s₂, dealt, eq⟩ := releaseWait_dealSons (handleExitPcb freed depth) notSelf
    have stops : firstZombie s x = none := trail
    rw [stops] at eq
    obtain ⟨used', parent', quiet'⟩ := recycle_fields freed s₂ x
    refine ⟨_, by rw [handleExitPcb, eq]; rfl, ⟨?_, ?_, ?_, ?_, ?_⟩⟩
    · intro i
      rw [used', dealt.used]
      simp
    · intro y mem i given
      rw [mem_singleton.mp mem] at given ⊢
      rw [parent', dealt.given i given]
    · intro i other
      rw [parent', dealt.kept i (other x mem_cons_self)]
    · intro y mem
      rw [mem_singleton.mp mem]
      exact quiet' x dealt.quiet
    · intro y before
      exact quiet' y (dealt.stayAwake y before)
  | cons z path ih =>
    obtain ⟨depth, rfl⟩ := exists_eq_succ_of_ne_zero (Nat.ne_of_gt (zero_lt_of_lt enough))
    have notSelf : ¬ SonOf s x x := fun self => lt_irrefl _ (lower x x self)
    obtain ⟨s₂, dealt, eq⟩ := releaseWait_dealSons (handleExitPcb freed depth) notSelf
    rw [trail.1] at eq
    obtain ⟨son, zombie⟩ := isZombieSon_iff.mp (firstZombie_son trail.1)
    -- what `x` gives away goes to a process above the line
    have outside : ∀ y ∈ z :: path, ∀ i, SonOf s y i → ¬ GivenBy s x i := by
      intro y there i sonY given
      have same : y = x := Option.some.inj (sonY.1.symm.trans given.1.1)
      have below := trail_lower lower trail there
      rw [same] at below
      exact lt_irrefl _ below
    have sons : ∀ y ∈ z :: path, ∀ i, SonOf s₂ y i ↔ SonOf s y i := by
      intro y there i
      rw [SonOf, dealt.used]
      constructor
      · rintro ⟨parent, usedI⟩
        by_cases given : GivenBy s x i
        · rw [dealt.given i given] at parent
          have below := trail_lower lower trail there
          have above := lower y x ⟨parent, used⟩
          exact absurd (lt_trans below above) (lt_irrefl _)
        · rw [dealt.kept i given] at parent
          exact ⟨parent, usedI⟩
      · intro sonY
        rw [dealt.kept i (outside y there i sonY)]
        exact sonY
    have givenBy : ∀ y ∈ z :: path, ∀ i, GivenBy s₂ y i ↔ GivenBy s y i := by
      intro y there i
      rw [GivenBy, sons y there i, dealt.firstZombie, ne_eq, dealt.zombie, ← ne_eq, ← GivenBy]
    have zombies := trail_zombies trail
    have trail₂ : Trail (firstZombie s₂) z path := by
      rw [dealt.firstZombie]
      exact trail.2
    obtain ⟨s₃, run, reaped⟩ := ih depth (dealt.forest lower used)
      (by rw [dealt.used]; exact son.2) trail₂ (lt_of_succ_lt_succ enough)
    obtain ⟨used', parent', quiet'⟩ := recycle_fields freed s₃ x
    refine ⟨_, by simp [handleExitPcb, eq, run]; rfl, ⟨?_, ?_, ?_, ?_, ?_⟩⟩
    · intro i
      rw [used', reaped.used, dealt.used]
      by_cases same : i = x
      · simp [same]
      · simp [same]
    · intro y mem i given
      rw [parent']
      rcases mem_cons.mp mem with rfl | there
      · rw [reaped.kept i ?_, dealt.given i given]
        intro y' there' given'
        exact outside y' there' i ((givenBy y' there' i).mp given').1 given
      · rw [reaped.given y there i ((givenBy y there i).mpr given), dealt.kept y]
        intro givenY
        exact givenY.2.1 (zombies y there)
    · intro i other
      rw [parent', reaped.kept i ?_, dealt.kept i (other x mem_cons_self)]
      intro y there given
      exact other y (mem_cons_of_mem x there) ((givenBy y there i).mp given)
    · intro y mem
      rcases mem_cons.mp mem with rfl | there
      · exact quiet' y (reaped.stayAwake y dealt.quiet)
      · exact quiet' y (reaped.quiet y there)
    · intro y before
      exact quiet' y (reaped.stayAwake y (dealt.stayAwake y before))

variable {p : Index}

theorem LineReaped.freed_mem (reaped : LineReaped s (p :: path) s') (used : (s.pcb i).used = true)
    (freed : (s'.pcb i).used = false) : i ∈ p :: path := by
  by_contra outside
  rw [reaped.used, if_neg outside, used] at freed
  cases freed

theorem zombieLine_used (line : ZombieLine s x z) : (s.pcb z).used = true := by
  cases line with
  | single zombie | tail _ zombie => exact (isZombieSon_iff.mp zombie).1.2

theorem LineReaped.first_of_freed (reaped : LineReaped s (p :: path) s')
    (lower : ∀ q, (s.pcb p).parent = some q → q ∉ p :: path) (trail : Trail (firstZombie s) p path)
    (there : x ∈ p :: path) (zombie : isZombieSon s x i = true) (freed : (s'.pcb i).used = false) :
    firstZombie s x = some i := by
  obtain ⟨son, _⟩ := isZombieSon_iff.mp zombie
  rcases mem_cons.mp (reaped.freed_mem son.2 freed) with rfl | later
  · exact absurd there (lower x son.1)
  · obtain ⟨y, _, first, parent⟩ := mem_trail trail later
    rw [Option.some.inj (son.1.symm.trans parent)]
    exact first

section
variable (lower : ∀ x i, SonOf s x i → height i < height x)
  (used : (s.pcb p).used = true)
  (trail : Trail (firstZombie s) p path)
  (reaped : LineReaped s (p :: path) s')
include lower used trail reaped

theorem Tidy.handled (tidy : Tidy s p) : OrphansHandled s p s' := by
  have line_mem : ∀ z, ZombieLine s p z → z ∈ path := by
    intro z line
    induction line with
    | single zombie =>
      rename_i z
      obtain ⟨first, found, le⟩ := firstZombie_le zombie
      have ge := tidy.last first found z (isZombieSon_iff.mp zombie).1
      rw [le_antisymm ge le]
      exact next_mem_trail trail mem_cons_self found
    | tail line zombie ih =>
      rename_i x z
      obtain ⟨first, found, _⟩ := firstZombie_le zombie
      rw [tidy.single x line z first zombie (firstZombie_son found)]
      exact next_mem_trail trail (mem_cons_of_mem p ih) found
  refine ⟨?_, ?_, ?_, ?_⟩
  · intro i other usedI parent
    have outside : i ∉ p :: path := by
      intro mem
      rw [reaped.used, if_pos mem] at usedI
      cases usedI
    rw [reaped.used, if_neg outside] at usedI
    by_cases given : ∃ y ∈ p :: path, GivenBy s y i
    · obtain ⟨y, there, given⟩ := given
      rw [reaped.given y there i given] at parent
      rcases mem_cons.mp there with rfl | later
      · exact lt_irrefl _ (lower y y ⟨parent, used⟩)
      · -- a son that the first zombie of `p` passes up
        obtain ⟨q, _, found, parentY⟩ := mem_trail trail later
        obtain rfl : q = p := Option.some.inj (parentY.symm.trans parent)
        obtain ⟨first, found', le⟩ := tidy.barren y found i given.1
        exact absurd (given.2.2 first found') (not_lt.mpr le)
    · have kept := reaped.kept i (fun y there givenY => given ⟨y, there, givenY⟩)
      rw [kept] at parent
      have son : SonOf s p i := ⟨parent, usedI⟩
      -- `p` did not give this son away, so there is a zombie in front of it
      have passed : ∃ z, firstZombie s p = some z ∧ z ≤ i := by
        by_contra none
        apply given
        refine ⟨p, mem_cons_self, son, ?_, ?_⟩
        · intro zombie
          exact none (firstZombie_le (isZombieSon_iff.mpr ⟨son, zombie⟩))
        · intro z found
          by_contra behind
          exact none ⟨z, found, not_lt.mp behind⟩
      obtain ⟨z, found, le⟩ := passed
      rw [le_antisymm (tidy.last z found i son) le] at outside
      exact outside (mem_cons_of_mem p (next_mem_trail trail mem_cons_self found))
  · intro z line
    rw [reaped.used, if_pos (mem_cons_of_mem p (line_mem z line))]
  · intro i son living
    apply reaped.given p mem_cons_self i
    refine ⟨son, living, ?_⟩
    intro z found
    refine lt_of_le_of_ne (tidy.last z found i son) ?_
    rintro rfl
    exact living (isZombieSon_iff.mp (firstZombie_son found)).2
  · rintro x (rfl | ⟨line, _⟩)
    · exact reaped.quiet x mem_cons_self
    · exact reaped.quiet x (mem_cons_of_mem p (line_mem x line))

theorem OrphansHandled.tidy (handled : OrphansHandled s p s') : Tidy s p := by
  have above : ∀ q, (s.pcb p).parent = some q → q ∉ p :: path := by
    intro q parent mem
    have less := lower q p ⟨parent, used⟩
    rcases mem_cons.mp mem with rfl | later
    · exact lt_irrefl _ less
    · exact lt_irrefl _ (lt_trans less (trail_lower lower trail later))
  have zombies := trail_zombies trail
  -- a process that is no zombie and lies below the line is still there
  have stays : ∀ i, (s.pcb i).status ≠ .zombie → height i < height p →
      (s.pcb i).used = true → i ≠ p ∧ (s'.pcb i).used = true := by
    intro i living below usedI
    have other : i ≠ p := by
      rintro rfl
      exact lt_irrefl _ below
    refine ⟨other, ?_⟩
    rw [reaped.used, if_neg, usedI]
    intro mem
    rcases mem_cons.mp mem with same | later
    · exact other same
    · exact living (zombies i later)
  refine ⟨?_, ?_, ?_⟩
  · intro z found i son
    by_contra behind
    by_cases zombie : (s.pcb i).status = .zombie
    · have zombieSon := isZombieSon_iff.mpr ⟨son, zombie⟩
      have first := reaped.first_of_freed above trail mem_cons_self zombieSon
        (handled.freed i (.single zombieSon))
      rw [Option.some.inj (first.symm.trans found)] at behind
      exact behind le_rfl
    · obtain ⟨other, usedI⟩ := stays i zombie (lower p i son) son.2
      apply handled.noSon i other usedI
      rw [reaped.kept i ?_]
      · exact son.1
      · intro y _ given
        obtain rfl : y = p := Option.some.inj (given.1.1.symm.trans son.1)
        exact behind (given.2.2 z found).le
  · intro z found i son
    by_contra none
    have living : (s.pcb i).status ≠ .zombie := fun zombie =>
      none (firstZombie_le (isZombieSon_iff.mpr ⟨son, zombie⟩))
    have given : GivenBy s z i := by
      refine ⟨son, living, ?_⟩
      intro first found'
      by_contra behind
      exact none ⟨first, found', not_lt.mp behind⟩
    have there := next_mem_trail trail mem_cons_self found
    have sonZ := (isZombieSon_iff.mp (firstZombie_son found)).1
    obtain ⟨other, usedI⟩ := stays i living (lt_trans (lower z i son) (lower p z sonZ)) son.2
    apply handled.noSon i other usedI
    rw [reaped.given z (mem_cons_of_mem p there) i given]
    exact sonZ.1
  · intro x line i j zombieI zombieJ
    have there := reaped.freed_mem (zombieLine_used line) (handled.freed x line)
    have firstI := reaped.first_of_freed above trail there zombieI
      (handled.freed i (line.tail zombieI))
    have firstJ := reaped.first_of_freed above trail there zombieJ
      (handled.freed j (line.tail zombieJ))
    exact Option.some.inj (firstI.symm.trans firstJ)

end

/-- In every forest the exit of a process returns, and it leaves no orphan behind exactly
when the process is tidy. -/
theorem orphans_handled_iff (freed : Freed) (s : State) (p : Index) (forest : Forest s)
    (used : (s.pcb p).used = true) :
    ∃ s', handleExitPcb freed 101 p s = some s' ∧ (OrphansHandled s p s' ↔ Tidy s p) := by
  obtain ⟨path, trail⟩ := trail_of_ranked forest.ranked p
  obtain ⟨height, lower⟩ := forest
  have short : path.length < 101 := by
    have bound := trail_length_lt_card trail
    rw [Fintype.card_fin] at bound
    omega
  obtain ⟨s', run, reaped⟩ := handleExitPcb_reaps freed 101 lower used trail short
  exact ⟨s', run, fun handled => handled.tidy lower used trail reaped,
    fun tidy => tidy.handled lower used trail reaped⟩

section

local instance somePcb : NeZero 100 := ⟨by decide⟩

/-- Process 1 has one son, a zombie. -/
def lateFather : State :=
  { boot with pcb := fun i =>
      if i = 1 then ⟨.running, true, .autoCleanupOnExit, false, some 0, 2⟩
      else if i = 2 then ⟨.zombie, true, .enterZombieOnExit, false, some 1, 3⟩
      else boot.pcb i }

end

theorem lateFather_son (son : SonOf lateFather x i) : x = 0 ∧ i = 1 ∨ x = 1 ∧ i = 2 := by
  obtain ⟨parent, _⟩ := son
  rcases eq_or_ne i 1 with rfl | one
  · exact .inl ⟨(Option.some.inj parent).symm, rfl⟩
  · rcases eq_or_ne i 2 with rfl | two
    · exact .inr ⟨(Option.some.inj parent).symm, rfl⟩
    · rcases eq_or_ne i 0 with rfl | zero
      · cases parent
      · simp [lateFather, boot, one, two, zero] at parent

theorem lateFather_forest : Forest lateFather := by
  refine ⟨fun i => if i = 0 then 2 else if i = 1 then 1 else 0, ?_⟩
  intro x i son
  rcases lateFather_son son with ⟨rfl, rfl⟩ | ⟨rfl, rfl⟩ <;> decide

theorem lateFather_tidy : Tidy lateFather 1 := by
  have first : ∀ z, firstZombie lateFather 1 = some z → z = 2 := by
    intro z found
    rcases lateFather_son (isZombieSon_iff.mp (firstZombie_son found)).1 with ⟨one, _⟩ | ⟨_, two⟩
    · cases one
    · exact two
  refine ⟨?_, ?_, ?_⟩
  · intro z found i son
    rcases lateFather_son son with ⟨father, _⟩ | ⟨_, rfl⟩
    · cases father
    · exact (first z found).symm.le
  · intro z found i son
    rw [first z found] at son
    rcases lateFather_son son with ⟨father, _⟩ | ⟨father, _⟩ <;> cases father
  · intro x _ i j zombieI zombieJ
    rcases lateFather_son (isZombieSon_iff.mp zombieI).1 with ⟨rfl, rfl⟩ | ⟨rfl, rfl⟩ <;>
      rcases lateFather_son (isZombieSon_iff.mp zombieJ).1 with ⟨same, rfl⟩ | ⟨same, rfl⟩ <;>
      first | rfl | cases same

theorem orphans_handled_lateFather : Forest lateFather ∧ (lateFather.pcb 1).used = true ∧
    ∃ s', handleExitPcb noPages 101 1 lateFather = some s' ∧ OrphansHandled lateFather 1 s' := by
  obtain ⟨s', run, handled⟩ := orphans_handled_iff noPages lateFather 1 lateFather_forest rfl
  exact ⟨lateFather_forest, rfl, s', run, handled.mpr lateFather_tidy⟩

/-- Process 1 makes the processes 2 and 3; 2 exits, then 1. -/
def leftBehind : List Act :=
  let fork (sigchld : Bool) : List Act := [.clone, .init .enterZombieOnExit sigchld, .enqueue]
  [.schedule] ++ fork true ++ [.wait4 none noPages] ++ fork false ++ fork false ++
    [.schedule, .schedule, .exit noPages, .exit noPages]

/-- When process 1 is reaped, the loop ends with the zombie 2, and 3 still has the freed
process 1 as its parent. -/
theorem orphan_left_behind :
    ∃ s s', runActs step boot leftBehind = some s ∧ (s.pcb 1).status = .zombie ∧
      handleExitPcb noPages 101 1 s = some s' ∧ (s'.pcb 1).used = false ∧
      (s'.pcb 3).used = true ∧ (s'.pcb 3).parent = some 1 ∧ ¬ OrphansHandled s 1 s' := by
  have run : ((runActs step boot leftBehind).bind fun s => (handleExitPcb noPages 101 1 s).map
      fun s' => ((s.pcb 1).status, (s'.pcb 1).used, (s'.pcb 3).used, (s'.pcb 3).parent)) =
      some (.zombie, false, true, some 1) := by decide +kernel
  obtain ⟨s, reached, rest⟩ := bind_eq_some_iff.mp run
  obtain ⟨s', reaped, values⟩ := map_eq_some_iff.mp rest
  simp only [Prod.mk.injEq] at values
  obtain ⟨zombie, freed, used, parent⟩ := values
  refine ⟨s, s', reached, zombie, reaped, freed, used, parent, ?_⟩
  intro handled
  exact handled.noSon 3 (by decide) used parent

end CCore.Sched
