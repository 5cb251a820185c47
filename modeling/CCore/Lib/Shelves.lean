import Mathlib.Data.List.Nodup

/-!
# Nodes on shelves

A family of lists over the same nodes, where a node is linked in at most one of
them.  `Linked` names the shelf each node stands on; the lemmas follow the ways a
node is taken off and put back.
-/
namespace CCore.Shelves

open Function List
variable {N H : Type} [DecidableEq N] [DecidableEq H]

/-- A node unlinks itself from whatever list it is in. -/
def unlink (lists : H → List N) (p : N) : H → List N := fun h => (lists h).erase p

def push (lists : H → List N) (h : H) (p : N) : H → List N :=
  update lists h (p :: lists h)

def append (lists : H → List N) (h : H) (p : N) : H → List N :=
  update lists h (lists h ++ [p])

structure Linked (lists : H → List N) (loc : N → Option H) : Prop where
  nodup : ∀ h, (lists h).Nodup
  mem : ∀ p h, p ∈ lists h ↔ loc p = some h

variable {lists : H → List N} {loc : N → Option H} {h : H} {p : N}
omit [DecidableEq N] [DecidableEq H] in
theorem Linked.one (linked : Linked lists loc) {h' : H} (here : p ∈ lists h)
    (there : p ∈ lists h') : h = h' :=
  Option.some.inj (((linked.mem p h).mp here).symm.trans ((linked.mem p h').mp there))

omit [DecidableEq H] in
theorem Linked.unlink (linked : Linked lists loc) (p : N) :
    Linked (unlink lists p) (update loc p none) := by
  refine ⟨fun h => (linked.nodup h).erase p, ?_⟩
  intro q h
  rw [Shelves.unlink, (linked.nodup h).mem_erase_iff, linked.mem]
  by_cases same : q = p
  · rw [same, update_self]
    simp
  · rw [update_of_ne same]
    simp [same]

theorem Linked.insert (linked : Linked lists loc) (away : loc p = none) (longer : List N)
    (nodup : (lists h).Nodup → p ∉ lists h → longer.Nodup)
    (mem : ∀ q, q ∈ longer ↔ q = p ∨ q ∈ lists h) :
    Linked (update lists h longer) (update loc p (some h)) := by
  have absent : ∀ h', p ∉ lists h' := by
    intro h' there
    rw [linked.mem, away] at there
    cases there
  constructor
  · intro h'
    by_cases here : h' = h
    · rw [here, update_self]
      exact nodup (linked.nodup h) (absent h)
    · rw [update_of_ne here]
      exact linked.nodup h'
  · intro q h'
    rcases eq_or_ne q p with rfl | same
    · rw [update_self]
      by_cases here : h' = h
      · rw [here, update_self, mem]
        simp
      · rw [update_of_ne here]
        simp [absent h', Ne.symm here]
    · rw [update_of_ne same, ← linked.mem]
      by_cases here : h' = h
      · rw [here, update_self, mem]
        simp [same]
      · rw [update_of_ne here]

theorem Linked.push (linked : Linked lists loc) (away : loc p = none) (h : H) :
    Linked (push lists h p) (update loc p (some h)) :=
  linked.insert away (p :: lists h) (fun nodup absent => nodup_cons.mpr ⟨absent, nodup⟩)
    fun _ => mem_cons

theorem Linked.append (linked : Linked lists loc) (away : loc p = none) (h : H) :
    Linked (append lists h p) (update loc p (some h)) := by
  refine linked.insert away (lists h ++ [p]) ?_ fun q => by simp [or_comm]
  intro nodup absent
  rw [List.nodup_append]
  refine ⟨nodup, nodup_singleton p, ?_⟩
  rintro a member b single rfl
  exact absent (mem_singleton.mp single ▸ member)

theorem Linked.move (linked : Linked lists loc) (p : N) (h : H) :
    Linked (Shelves.push (Shelves.unlink lists p) h p) (update loc p (some h)) := by
  have moved := (linked.unlink p).push (update_self p none loc) h
  rwa [update_idem] at moved

end CCore.Shelves
