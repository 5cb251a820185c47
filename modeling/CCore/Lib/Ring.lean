import Mathlib.Data.List.Nodup

/-!
# Intrusive circular lists

Nodes carry a `next` and a `prev` pointer and a list is the ring through its
head.  `Ring l head xs` says that the nodes between the head and itself are `xs`
in this order.  The lemmas say what the ring is after a node was linked in or
out, and that a ring does not notice changes to nodes outside it.
-/
namespace CCore.Intrusive

open Function List
variable {N : Type}

/-- The two pointers of every node; `none` is `NULL`. -/
structure Links (N : Type) where
  next : N → Option N
  prev : N → Option N

section Operations
variable [DecidableEq N]

def initList (l : Links N) (head : N) : Links N where
  next := update l.next head (some head)
  prev := update l.prev head (some head)

/-- `_list_add`, the four stores in the order of the source. -/
def addBetween (l : Links N) (node before after : N) : Links N where
  next := update (update l.next node (some after)) before (some node)
  prev := update (update l.prev after (some node)) node (some before)

/-- A list head that was never initialised is not linked to. -/
def listAdd (l : Links N) (node head : N) : Links N :=
  match l.next head with
  | some after => addBetween l node head after
  | none => l

def listAddTail (l : Links N) (node head : N) : Links N :=
  match l.prev head with
  | some before => addBetween l node before head
  | none => l

/-- A node that is on no list has null pointers and is left alone. -/
def listDel (l : Links N) (entry : N) : Links N :=
  match l.prev entry, l.next entry with
  | some before, some after =>
    { next := update (update l.next before (some after)) entry none
      prev := update (update l.prev after (some before)) entry none }
  | _, _ => l

def listMove (l : Links N) (node head : N) : Links N := listAdd (listDel l node) node head

def listEmpty (l : Links N) (head : N) : Bool := decide (l.next head = some head)

end Operations

/-! ## Segments and rings -/

def Joined (l : Links N) (a b : N) : Prop := l.next a = some b ∧ l.prev b = some a

def Segment (l : Links N) : N → List N → N → Prop
  | a, [], b => Joined l a b
  | a, x :: xs, b => Joined l a x ∧ Segment l x xs b

structure Ring (l : Links N) (head : N) (xs : List N) : Prop where
  nodup : (head :: xs).Nodup
  segment : Segment l head xs head

variable {l l' : Links N} {a b c p head node : N} {xs ys : List N}

theorem segment_append : Segment l a (xs ++ c :: ys) b ↔ Segment l a xs c ∧ Segment l c ys b := by
  induction xs generalizing a with
  | nil => rfl
  | cons x xs ih => simp [cons_append, Segment, ih, and_assoc]

section
variable (segment : Segment l a xs b)
include segment

theorem Segment.congr (nexts : ∀ x ∈ a :: xs, l'.next x = l.next x)
    (prevs : ∀ x ∈ xs ++ [b], l'.prev x = l.prev x) : Segment l' a xs b := by
  induction xs generalizing a with
  | nil => exact ⟨(nexts a (by simp)).trans segment.1, (prevs b (by simp)).trans segment.2⟩
  | cons x xs ih =>
    refine ⟨⟨(nexts a (by simp)).trans segment.1.1, (prevs x (by simp)).trans segment.1.2⟩, ?_⟩
    exact ih segment.2 (fun y mem => nexts y (mem_cons_of_mem _ mem))
      (fun y mem => prevs y (mem_cons_of_mem _ mem))

theorem Segment.last_mem (last : l.prev b = some p) : p ∈ a :: xs := by
  induction xs generalizing a with
  | nil =>
    have same : p = a := Option.some.inj (last.symm.trans segment.2)
    simp [same]
  | cons x xs ih => exact mem_cons_of_mem _ (ih segment.2)

theorem Segment.prev_end : ∃ p ∈ a :: xs, l.prev b = some p := by
  induction xs generalizing a with
  | nil => exact ⟨a, by simp, segment.2⟩
  | cons x xs ih =>
    obtain ⟨p, mem, last⟩ := ih segment.2
    exact ⟨p, mem_cons_of_mem _ mem, last⟩

theorem Segment.retarget (nodup : (a :: xs).Nodup) (last : l.prev b = some p)
    (nexts : ∀ x ∈ a :: xs, x ≠ p → l'.next x = l.next x)
    (prevs : ∀ x ∈ xs, l'.prev x = l.prev x) (joined : Joined l' p c) : Segment l' a xs c := by
  induction xs generalizing a with
  | nil =>
    have same : p = a := Option.some.inj (last.symm.trans segment.2)
    exact same ▸ joined
  | cons x xs ih =>
    have inside : p ∈ x :: xs := segment.2.last_mem last
    have outside : a ≠ p := by
      rintro rfl
      exact (nodup_cons.mp nodup).1 inside
    refine ⟨⟨(nexts a (by simp) outside).trans segment.1.1,
      (prevs x (by simp)).trans segment.1.2⟩, ?_⟩
    exact ih segment.2 (nodup_cons.mp nodup).2
      (fun y mem => nexts y (mem_cons_of_mem _ mem))
      (fun y mem => prevs y (mem_cons_of_mem _ mem))

end

theorem Ring.congr (ring : Ring l head xs) (nexts : ∀ x ∈ head :: xs, l'.next x = l.next x)
    (prevs : ∀ x ∈ head :: xs, l'.prev x = l.prev x) : Ring l' head xs := by
  refine ⟨ring.nodup, ring.segment.congr nexts ?_⟩
  intro x mem
  apply prevs
  simp only [mem_append, mem_singleton] at mem
  simp only [mem_cons]
  exact mem.symm

theorem Ring.next_head (ring : Ring l head xs) : l.next head = some
    ((xs ++ [head]).head (by simp)) := by
  cases xs with
  | nil => exact ring.segment.1
  | cons x xs => exact ring.segment.1.1

theorem Ring.around (ring : Ring l head (xs ++ node :: ys)) :
    ∃ before after, l.prev node = some before ∧ l.next node = some after ∧
      before ∈ head :: xs ∧ after = (ys ++ [head]).head (by simp) := by
  have parts := segment_append.mp ring.segment
  obtain ⟨before, mem, lastPrev⟩ := parts.1.prev_end
  refine ⟨before, (ys ++ [head]).head (by simp), lastPrev, ?_, mem, rfl⟩
  cases ys with
  | nil => exact parts.2.1
  | cons y ys => exact parts.2.1.1

theorem Ring.gone (ring : Ring l head (xs ++ node :: ys)) : node ∉ head :: (xs ++ ys) := by
  have nodup := ring.nodup
  rw [nodup_cons, List.nodup_append] at nodup
  obtain ⟨headFresh, _, nodeNodup, apart⟩ := nodup
  simp only [mem_cons, mem_append, not_or]
  refine ⟨?_, fun mem => apart node mem node (by simp) rfl, (nodup_cons.mp nodeNodup).1⟩
  rintro rfl
  exact headFresh (by simp)

/-! ## The operations on rings -/

section Change
variable [DecidableEq N]

theorem ring_initList (l : Links N) (head : N) : Ring (initList l head) head [] :=
  ⟨nodup_singleton head, by simp [Segment, Joined, initList]⟩

section
variable (ring : Ring l head xs)
include ring

theorem listEmpty_iff : listEmpty l head = true ↔ xs = [] := by
  rw [listEmpty, decide_eq_true_iff, ring.next_head]
  cases xs with
  | nil => simp
  | cons x xs =>
    have ne : x ≠ head := fun same => (nodup_cons.mp ring.nodup).1 (by simp [same])
    simp [ne]

theorem listAdd_outside {x : N} (other : x ≠ node) (outside : x ∉ head :: xs) :
    (listAdd l node head).next x = l.next x ∧ (listAdd l node head).prev x = l.prev x := by
  have notHead : x ≠ head := fun same => outside (by simp [same])
  have notFirst : x ≠ (xs ++ [head]).head (by simp) := by
    intro same
    apply outside
    have mem := head_mem (l := xs ++ [head]) (by simp)
    rw [← same] at mem
    simpa [or_comm] using mem
  rw [listAdd, ring.next_head]
  simp only [addBetween]
  rw [update_of_ne notHead, update_of_ne other, update_of_ne other, update_of_ne notFirst]
  exact ⟨rfl, rfl⟩

theorem Ring.add (fresh : node ∉ head :: xs) : Ring (listAdd l node head) head (node :: xs) := by
  have notHead : node ≠ head := ne_of_not_mem_cons fresh
  have nodup : (head :: node :: xs).Nodup := by
    have parts := nodup_cons.mp ring.nodup
    simp [parts.1, parts.2, not_mem_of_not_mem_cons fresh, notHead.symm]
  refine ⟨nodup, ?_⟩
  rw [listAdd, ring.next_head]
  cases xs with
  | nil => simp [Segment, Joined, addBetween, notHead, notHead.symm]
  | cons x xs =>
    have headOut := (nodup_cons.mp ring.nodup).1
    have nodeOut := (nodup_cons.mp (nodup_cons.mp nodup).2).1
    have firstOut := (nodup_cons.mp (nodup_cons.mp ring.nodup).2).1
    refine ⟨⟨?_, ?_⟩, ⟨?_, ?_⟩, Segment.congr ring.segment.2 ?_ ?_⟩
    · simp [addBetween]
    · simp [addBetween]
    · simp [addBetween, notHead]
    · simp [addBetween, (ne_of_not_mem_cons nodeOut).symm]
    · intro y mem
      simp [addBetween, ne_of_mem_of_not_mem mem headOut, ne_of_mem_of_not_mem mem nodeOut]
    · intro y mem
      have notNode : node ∉ xs ++ [head] := by simp [not_mem_of_not_mem_cons nodeOut, notHead]
      have notFirst : x ∉ xs ++ [head] := by simp [firstOut, (ne_of_not_mem_cons headOut).symm]
      simp [addBetween, ne_of_mem_of_not_mem mem notNode, ne_of_mem_of_not_mem mem notFirst]

theorem listAddTail_outside {x : N} (other : x ≠ node) (outside : x ∉ head :: xs) :
    (listAddTail l node head).next x = l.next x ∧ (listAddTail l node head).prev x = l.prev x := by
  obtain ⟨last, mem, lastPrev⟩ := ring.segment.prev_end
  have notHead : x ≠ head := fun same => outside (by simp [same])
  have notLast : x ≠ last := fun same => outside (same ▸ mem)
  rw [listAddTail, lastPrev]
  simp only [addBetween]
  rw [update_of_ne notLast, update_of_ne other, update_of_ne other, update_of_ne notHead]
  exact ⟨rfl, rfl⟩

theorem Ring.addTail (fresh : node ∉ head :: xs) :
    Ring (listAddTail l node head) head (xs ++ [node]) := by
  obtain ⟨last, mem, lastPrev⟩ := ring.segment.prev_end
  have notHead : node ≠ head := fun same => fresh (by simp [same])
  have notLast : node ≠ last := fun same => fresh (same ▸ mem)
  have nodup : (head :: (xs ++ [node])).Nodup := by
    have parts := nodup_cons.mp ring.nodup
    simp only [mem_cons, not_or] at fresh
    rw [nodup_cons, List.nodup_append]
    refine ⟨by simp [parts.1, notHead.symm], parts.2, nodup_singleton node, ?_⟩
    rintro x inside y other rfl
    exact fresh.2 ((mem_singleton.mp other) ▸ inside)
  refine ⟨nodup, ?_⟩
  rw [listAddTail, lastPrev]
  refine segment_append.mpr ⟨?_, ?_⟩
  · refine ring.segment.retarget ring.nodup lastPrev ?_ ?_ ?_
    · intro x inside other
      have xNode : x ≠ node := fun same => fresh (same ▸ inside)
      simp [addBetween, other, xNode]
    · intro x inside
      have xNode : x ≠ node := fun same => fresh (same ▸ mem_cons_of_mem _ inside)
      have xHead : x ≠ head := fun same => (nodup_cons.mp ring.nodup).1 (same ▸ inside)
      simp [addBetween, xHead, xNode]
    · simp [Joined, addBetween]
  · simp [Segment, Joined, addBetween, notHead.symm, notLast]

end

section
variable (ring : Ring l head (xs ++ node :: ys))
include ring

theorem Ring.opened : ∃ before ∈ head :: xs, ∃ after ∈ ys ++ [head],
    after = (ys ++ [head]).head (by simp) ∧ l.prev node = some before ∧
    Joined (listDel l node) before after ∧ ∀ x, x ≠ node →
      (x ≠ before → (listDel l node).next x = l.next x) ∧
      (x ≠ after → (listDel l node).prev x = l.prev x) := by
  obtain ⟨before, after, prevNode, nextNode, beforeMem, afterEq⟩ := ring.around
  have afterMem : after ∈ ys ++ [head] := afterEq ▸ head_mem _
  have fresh := ring.gone
  simp only [mem_cons, mem_append, not_or] at fresh
  have beforeNode : before ≠ node := ne_of_mem_of_not_mem beforeMem (by simp [fresh])
  have afterNode : after ≠ node := ne_of_mem_of_not_mem afterMem (by simp [fresh])
  refine ⟨before, beforeMem, after, afterMem, afterEq, prevNode, ?_, ?_⟩
  · simp [Joined, listDel, prevNode, nextNode, beforeNode, afterNode]
  · intro x other
    simp +contextual [listDel, prevNode, nextNode, other]

theorem listDel_outside {x : N} (outside : x ∉ head :: (xs ++ node :: ys)) :
    (listDel l node).next x = l.next x ∧ (listDel l node).prev x = l.prev x := by
  obtain ⟨before, beforeMem, after, afterMem, -, -, -, same⟩ := ring.opened
  simp only [mem_cons, mem_append, not_or] at outside
  have xBefore : before ≠ x := ne_of_mem_of_not_mem beforeMem (by simp [outside])
  have xAfter : after ≠ x := ne_of_mem_of_not_mem afterMem (by simp [outside])
  exact ⟨(same x outside.2.2.1).1 xBefore.symm, (same x outside.2.2.1).2 xAfter.symm⟩

theorem Ring.del : Ring (listDel l node) head (xs ++ ys) := by
  obtain ⟨before, beforeMem, after, afterMem, afterEq, prevNode, link, same⟩ := ring.opened
  have closed : (head :: (xs ++ ys)).Nodup :=
    ring.nodup.sublist (((sublist_cons_self node ys).append_left xs).cons_cons head)
  obtain ⟨front, back, apart⟩ := List.nodup_append.mp ((cons_append ..).symm ▸ closed)
  have kept := fun x mem => same x (ne_of_mem_of_not_mem mem ring.gone)
  have parts := segment_append.mp ring.segment
  have joinFront : Segment (listDel l node) head xs after := by
    refine parts.1.retarget front prevNode ?_ ?_ link
    · intro x mem other
      refine (kept x ?_).1 other
      simp only [mem_cons, mem_append] at mem ⊢
      tauto
    · intro x mem
      refine (kept x (by simp [mem])).2 ?_
      rintro rfl
      rcases mem_append.mp afterMem with inside | same
      · exact apart x (mem_cons_of_mem _ mem) x inside rfl
      · exact (nodup_cons.mp front).1 (mem_singleton.mp same ▸ mem)
  refine ⟨closed, ?_⟩
  cases ys with
  | nil =>
    rw [append_nil]
    simp only [nil_append, head_singleton] at afterEq
    exact afterEq ▸ joinFront
  | cons y ys =>
    subst afterEq
    refine segment_append.mpr ⟨joinFront, parts.2.2.congr ?_ ?_⟩
    · intro x mem
      refine (kept x (by simp [mem_cons.mp mem])).1 ?_
      rintro rfl
      exact apart x beforeMem x mem rfl
    · intro x mem
      refine (kept x ?_).2 ?_
      · simp only [mem_cons, mem_append] at mem ⊢
        tauto
      rintro rfl
      rcases mem_append.mp mem with inside | same
      · exact (nodup_cons.mp back).1 inside
      · exact apart head (by simp) x (by simp) (mem_singleton.mp same).symm

end

variable {head' : N} {zs : List N} (source : Ring l head (xs ++ node :: ys))
  (target : Ring l head' zs) (apart : ∀ x ∈ head' :: zs, x ∉ head :: (xs ++ node :: ys))

include source target apart

theorem Ring.unlinked : Ring (listDel l node) head' zs ∧ node ∉ head' :: zs ∧
    ∀ x ∈ head :: (xs ++ ys), x ≠ node ∧ x ∉ head' :: zs := by
  refine ⟨?_, fun mem => apart node mem (by simp), ?_⟩
  · exact target.congr (fun x mem => (listDel_outside source (apart x mem)).1)
      (fun x mem => (listDel_outside source (apart x mem)).2)
  · intro x mem
    have inside : x ∈ head :: (xs ++ node :: ys) := by
      simp only [mem_cons, mem_append] at mem ⊢
      tauto
    constructor
    · rintro rfl
      exact source.gone mem
    · exact fun theirs => apart x theirs inside

theorem Ring.move : Ring (listMove l node head') head (xs ++ ys) ∧
    Ring (listMove l node head') head' (node :: zs) := by
  obtain ⟨kept, fresh, others⟩ := source.unlinked target apart
  refine ⟨source.del.congr ?_ ?_, kept.add fresh⟩ <;>
  · intro x mem
    have changed := listAdd_outside kept (others x mem).1 (others x mem).2
    first | exact changed.1 | exact changed.2

theorem Ring.moveTail : Ring (listAddTail (listDel l node) node head') head (xs ++ ys) ∧
    Ring (listAddTail (listDel l node) node head') head' (zs ++ [node]) := by
  obtain ⟨kept, fresh, others⟩ := source.unlinked target apart
  refine ⟨source.del.congr ?_ ?_, kept.addTail fresh⟩ <;>
  · intro x mem
    have changed := listAddTail_outside kept (others x mem).1 (others x mem).2
    first | exact changed.1 | exact changed.2

end Change
end CCore.Intrusive
