import CCore.Lib.Run
import CCore.Mm.PageTable

/-!
# The page table as a partial map

The words of a user table hold a tree of distinct table pages whose leaves are the
recorded map.  Every operation outside the 2 MiB leaves of the boot map keeps the
tree, and the look-ups read the map off it.
-/
namespace CCore.PageTable

open Run Function List Option Nat

/-! ## The table as a tree of pages

A path lists the indices from the last level down to the root, so the table that
slot `index` of the table at `path` points to is at `index :: path`. -/

/-- The slots of the two upper levels that a walk for a plain address can read. -/
def Walked : Nat → List Nat → Prop
  | i, [] => i < 256
  | j, [i] => i < 256 ∧ j < 512 ∧ ¬ (i = 2 ∧ 1 ≤ j ∧ j ≤ 5)
  | _, _ => False

def Entry (entry : Nat) : Option Nat → Prop
  | none => entry = 0
  | some page => entry = pte page pagePresent

def LeafEntry (entry : Nat) : Option Nat → Prop
  | none => entry = 0
  | some page => KernelPage page ∧ ∃ mode, entry = pte page (leafFlags mode)

/-- No two paths lead to the same table page, and the entries of the tables are
those of the tree. -/
structure Tree (pgdir : Nat) (w : Words) (node : List Nat → Option Nat)
    (recorded : Nat → Option Nat) : Prop where
  top : node [] = some pgdir
  aligned : ∀ path page, node path = some page → KernelPage page
  injective : ∀ a b page, node a = some page → node b = some page → a = b
  walked : ∀ index path page, node (index :: path) = some page →
    Walked index path ∧ node path ≠ none
  entry : ∀ index path page, node path = some page → Walked index path →
    Entry (w page index) (node (index :: path))
  leaf : ∀ i j page, node [j, i] = some page → ∀ k < 512,
    LeafEntry (w page k) (recorded ((i * 512 + j) * 512 + k))
  unmapped : ∀ i j, i < 256 → j < 512 → node [j, i] = none → ∀ k < 512,
    recorded ((i * 512 + j) * 512 + k) = none

theorem entry_present (entry : Nat) (child : Option Nat) (stored : Entry entry child) :
    entry &&& pagePresent ≠ 0 ↔ child ≠ none := by
  cases child with
  | none =>
    cases stored
    simp
  | some page =>
    have word : entry = pte page pagePresent := stored
    rw [word, present_pte page pagePresent (by decide) (by decide)]
    simp

theorem entry_null (entry : Nat) (child : Option Nat) (stored : Entry entry child) :
    entry = 0 ↔ child = none := by
  cases child with
  | none => exact ⟨fun _ => rfl, fun _ => stored⟩
  | some page =>
    have word : entry = pte page pagePresent := stored
    simp [word, pte_ne_zero page pagePresent (by decide) (by decide)]

theorem leafEntry_present (entry : Nat) (base : Option Nat) (stored : LeafEntry entry base) :
    entry &&& pagePresent ≠ 0 ↔ base ≠ none := by
  cases base with
  | none =>
    cases stored
    simp
  | some page =>
    obtain ⟨-, mode, word⟩ := stored
    rw [word, present_pte page _ (leafFlags_lt mode) (leafFlags_odd mode)]
    simp

variable {index page pgdir result va : Nat} {path : List Nat} {w : Words} {node : List Nat →
  Option Nat} {recorded : Nat → Option Nat} {next s : Store} {mode : Mode}

section
variable (tree : Tree pgdir w node recorded)
include tree

theorem Tree.target_child {child : Nat} (here : node path = some page)
    (below : node (index :: path) = some child) : target (w page index) = child := by
  have stored := tree.entry index path page here (tree.walked index path child below).1
  rw [below] at stored
  have word : w page index = pte child pagePresent := stored
  rw [word]
  exact target_pte child pagePresent (by decide) (tree.aligned _ _ below)

theorem Tree.pointer_child {child : Nat} (here : node path = some page)
    (below : node (index :: path) = some child) : Pointer (w page index) := by
  have stored := tree.entry index path page here (tree.walked index path child below).1
  rw [below] at stored
  have word : w page index = pte child pagePresent := stored
  rw [word]
  exact pointer_pte child

theorem Tree.tablePage (path : List Nat) (page : Nat)
    (here : node path = some page) : TablePage w pgdir page := by
  match path with
  | [] =>
    rw [tree.top] at here
    exact .inl (Option.some.inj here).symm
  | [i] =>
    have bound : i < 256 := (tree.walked i [] page here).1
    have child := tree.target_child tree.top here
    exact .inr ⟨i, by omega, tree.pointer_child tree.top here, .inl child.symm⟩
  | [j, i] =>
    obtain ⟨⟨above, bound, -⟩, present⟩ := tree.walked j [i] page here
    obtain ⟨second, secondHere⟩ := ne_none_iff_exists'.mp present
    have secondTarget := tree.target_child tree.top secondHere
    have child := tree.target_child secondHere here
    refine .inr ⟨i, by omega, tree.pointer_child tree.top secondHere, .inr ⟨j, bound, ?_⟩⟩
    rw [secondTarget]
    exact ⟨tree.pointer_child secondHere here, child.symm⟩
  | _ :: _ :: _ :: _ => exact absurd (tree.walked _ _ page here).1 id

theorem Tree.congr {w' : Words} (same : ∀ path page, node path = some page → w' page = w page) :
    Tree pgdir w' node recorded where
  top := tree.top
  aligned := tree.aligned
  injective := tree.injective
  walked := tree.walked
  unmapped := tree.unmapped
  entry := by
    intro index path page here inside
    rw [same path page here]
    exact tree.entry index path page here inside
  leaf := by
    intro i j page here
    rw [same [j, i] page here]
    exact tree.leaf i j page here

theorem Tree.clear (page : Nat) (fresh : ∀ path, node path ≠ some page) :
    Tree pgdir (clearPgdir w page) node recorded := by
  refine tree.congr fun path other here => ?_
  have different : other ≠ page := fun same => fresh path (same ▸ here)
  exact update_of_ne different _ _

theorem Tree.add (index : Nat) (path : List Nat) (page new : Nat) (here : node path = some page)
    (inside : Walked index path) (absent : node (index :: path) = none) (aligned : KernelPage new)
    (fresh : ∀ path, node path ≠ some new) (cleared : w new = fun _ => 0) :
    Tree pgdir (setWord w page index (pte new pagePresent))
      (update node (index :: path) (some new)) recorded := by
  have apart : page ≠ new := fun same => fresh path (same ▸ here)
  have elsewhere : ∀ other, other ≠ page →
      setWord w page index (pte new pagePresent) other = w other := by
    intro other different
    exact update_of_ne different _ _
  have childless : ∀ i, node (i :: index :: path) = none := by
    intro i
    by_contra present
    obtain ⟨child, childHere⟩ := ne_none_iff_exists'.mp present
    exact (tree.walked _ _ _ childHere).2 absent
  have nodeOf : ∀ a other, update node (index :: path) (some new) a = some other →
      (a = index :: path ∧ other = new) ∨ (a ≠ index :: path ∧ node a = some other) := by
    intro a other found
    by_cases same : a = index :: path
    · rw [same, update_self] at found
      exact .inl ⟨same, (Option.some.inj found).symm⟩
    · rw [update_of_ne same] at found
      exact .inr ⟨same, found⟩
  refine ⟨?_, ?_, ?_, ?_, ?_, ?_, ?_⟩
  · rw [update_of_ne (by simp)]
    exact tree.top
  · intro a other found
    rcases nodeOf a other found with ⟨-, rfl⟩ | ⟨-, old⟩
    · exact aligned
    · exact tree.aligned a other old
  · intro a b other foundA foundB
    rcases nodeOf a other foundA with ⟨rfl, rfl⟩ | ⟨-, oldA⟩
    · rcases nodeOf b other foundB with ⟨rfl, -⟩ | ⟨-, oldB⟩
      · rfl
      · exact absurd oldB (fresh b)
    · rcases nodeOf b other foundB with ⟨-, rfl⟩ | ⟨-, oldB⟩
      · exact absurd oldA (fresh a)
      · exact tree.injective a b other oldA oldB
  · intro i a other found
    rcases nodeOf (i :: a) other found with ⟨same, -⟩ | ⟨-, old⟩
    · obtain ⟨rfl, rfl⟩ := List.cons.inj same
      refine ⟨inside, ?_⟩
      rw [update_of_ne (by simp), here]
      simp
    · obtain ⟨walked, present⟩ := tree.walked i a other old
      refine ⟨walked, ?_⟩
      by_cases same : a = index :: path
      · simp [same]
      · rwa [update_of_ne same]
  · intro i a other found walked
    rcases nodeOf a other found with ⟨rfl, rfl⟩ | ⟨-, old⟩
    · rw [elsewhere other apart.symm, cleared, update_of_ne (by simp), childless i]
      rfl
    · rcases eq_or_ne a path with rfl | same
      · obtain rfl : page = other := Option.some.inj (here.symm.trans old)
        by_cases slot : i = index
        · simp [slot, setWord, Entry]
        · have different : i :: a ≠ index :: a := fun eq => slot (List.cons.inj eq).1
          rw [update_of_ne different, setWord, update_self, update_of_ne slot]
          exact tree.entry i a page here walked
      · have different : i :: a ≠ index :: path := fun eq => same (List.cons.inj eq).2
        have otherPage : other ≠ page := fun eq => same (tree.injective a path page (eq ▸ old) here)
        rw [update_of_ne different, elsewhere other otherPage]
        exact tree.entry i a other old walked
  · intro i j other found k bound
    rcases nodeOf [j, i] other found with ⟨same, rfl⟩ | ⟨-, old⟩
    · obtain ⟨rfl, rfl⟩ := List.cons.inj same
      rw [elsewhere other apart.symm, cleared, tree.unmapped i j inside.1 inside.2.1 absent k bound]
      rfl
    · have otherPage : other ≠ page := by
        intro eq
        have onePath := tree.injective [j, i] path page (eq ▸ old) here
        rw [← onePath] at inside
        exact inside
      rw [elsewhere other otherPage]
      exact tree.leaf i j other old k bound
  · intro i j below bound missing
    by_cases same : [j, i] = index :: path
    · simp [same] at missing
    · rw [update_of_ne same] at missing
      exact tree.unmapped i j below bound missing

theorem Tree.setLeaf (i j k page value : Nat) (base : Option Nat) (here : node [j, i] = some page)
    (bound : k < 512) (stored : LeafEntry value base) : Tree pgdir (setWord w page k value) node
    (update recorded ((i * 512 + j) * 512 + k) base) := by
  have inside := (tree.walked j [i] page here).1
  refine ⟨tree.top, tree.aligned, tree.injective, tree.walked, ?_, ?_, ?_⟩
  · intro index path other otherHere walked
    have different : other ≠ page := by
      intro eq
      have onePath := tree.injective path [j, i] page (eq ▸ otherHere) here
      rw [onePath] at walked
      exact walked
    rw [setWord, update_of_ne different]
    exact tree.entry index path other otherHere walked
  · intro i' j' other otherHere k' bound'
    have inside' := (tree.walked j' [i'] other otherHere).1
    by_cases same : [j', i'] = [j, i]
    · obtain ⟨rfl, rest⟩ := List.cons.inj same
      obtain ⟨rfl, -⟩ := List.cons.inj rest
      obtain rfl : page = other := Option.some.inj (here.symm.trans otherHere)
      by_cases slot : k' = k
      · simpa [slot, setWord] using stored
      · rw [setWord, update_self, update_of_ne slot, update_of_ne (by omega)]
        exact tree.leaf i' j' page here k' bound'
    · have different : other ≠ page := fun eq =>
        same (tree.injective _ _ page (eq ▸ otherHere) here)
      have otherNumber : (i' * 512 + j') * 512 + k' ≠ (i * 512 + j) * 512 + k := by
        intro eq
        have second : j' = j := by
          have := inside.2.1
          have := inside'.2.1
          omega
        have first : i' = i := by omega
        exact same (by rw [first, second])
      rw [setWord, update_of_ne different, update_of_ne otherNumber]
      exact tree.leaf i' j' other otherHere k' bound'
  · intro i' j' below bound' missing k' boundK
    have otherNumber : (i' * 512 + j') * 512 + k' ≠ (i * 512 + j) * 512 + k := by
      intro eq
      have := inside.2.1
      have second : j' = j := by omega
      have first : i' = i := by omega
      rw [first, second, here] at missing
      cases missing
    rw [update_of_ne otherNumber]
    exact tree.unmapped i' j' below bound' missing k' boundK

end

/-! ## What the operations do to the tree -/

/-- A store in the middle of a call: the pages still to be handed out are not in
the tree. -/
structure Ready (pgdir : Nat) (s : Store) (node : List Nat → Option Nat)
    (recorded : Nat → Option Nat) : Prop where
  tree : Tree pgdir s.words node recorded
  distinct : s.supply.Nodup
  fresh : ∀ page ∈ s.supply, KernelPage page ∧ ∀ path, node path ≠ some page

theorem Tree.ready (tree : Tree pgdir w node recorded) (supply : List Nat)
    (fresh : FreshSupply w pgdir supply) : Ready pgdir ⟨w, supply⟩ node recorded := by
  refine ⟨tree, fresh.1, fun page member => ⟨(fresh.2 page member).1, ?_⟩⟩
  intro path here
  exact (fresh.2 page member).2 (tree.tablePage path page here)

theorem checkPageSetFlag_cases (s next : Store) (page vpn flag result : Nat)
    (small : flag < 2 ^ 10) (run : checkPageSetFlag s page vpn flag = some (result, next)) :
    (s.words page vpn &&& pagePresent ≠ 0 ∧ result = target (s.words page vpn) ∧ next = s) ∨
    (s.words page vpn &&& pagePresent = 0 ∧ s.supply = result :: next.supply ∧
      next.words = setWord (clearPgdir s.words result) page vpn (pte result flag)) := by
  rw [checkPageSetFlag] at run
  split at run
  · rename_i present
    obtain ⟨rfl, rfl⟩ := Prod.mk.inj (Option.some.inj run)
    exact .inl ⟨present, rfl, rfl⟩
  · rename_i missing
    split at run
    · cases run
    · rename_i newpage rest supply
      obtain ⟨rfl, rfl⟩ := Prod.mk.inj (Option.some.inj run)
      refine .inr ⟨not_not.mp missing, supply, ?_⟩
      simp only [set_entry_eq _ _ _ small]

/-- The tree grew from `node` to `node'` by pages that a call took off the front
of the supply. -/
structure Grows (s next : Store) (node node' : List Nat → Option Nat)
    (taken : List Nat) : Prop where
  keeps : ∀ path page, node path = some page → node' path = some page
  supply : s.supply = taken ++ next.supply

theorem Grows.trans {s₁ s₂ s₃ : Store} {node₁ node₂ node₃ : List Nat → Option Nat}
    {taken taken' : List Nat} (first : Grows s₁ s₂ node₁ node₂ taken)
    (second : Grows s₂ s₃ node₂ node₃ taken') : Grows s₁ s₃ node₁ node₃ (taken ++ taken') where
  keeps := fun path page here => second.keeps path page (first.keeps path page here)
  supply := by rw [first.supply, second.supply, append_assoc]

theorem checkPageSetFlag_returns (s : Store) (page vpn flag : Nat) (some_left : s.supply ≠ []) :
    ∃ result next, checkPageSetFlag s page vpn flag = some (result, next) := by
  rw [checkPageSetFlag]
  split
  · exact ⟨_, _, rfl⟩
  · split
    · rename_i empty
      exact absurd empty some_left
    · exact ⟨_, _, rfl⟩

theorem checkPageSetFlag_supply (s next : Store) (page vpn flag result : Nat)
    (small : flag < 2 ^ 10) (run : checkPageSetFlag s page vpn flag = some (result, next)) :
    s.supply.length ≤ next.supply.length + 1 := by
  rcases checkPageSetFlag_cases s next page vpn flag result small run with
    ⟨-, -, rfl⟩ | ⟨-, supply, -⟩
  · omega
  · rw [supply, length_cons]

theorem Ready.level (ready : Ready pgdir s node recorded) (here : node path = some page)
    (inside : Walked index path)
    (run : checkPageSetFlag s page index pagePresent = some (result, next)) :
    ∃ node' taken, Ready pgdir next node' recorded ∧ node' (index :: path) = some result ∧
      Grows s next node node' taken ∧ taken.length ≤ 1 ∧
      ∀ new ∈ taken, ∃ path, node' path = some new := by
  have stored := ready.tree.entry index path page here inside
  rcases checkPageSetFlag_cases s next page index pagePresent result (by decide) run with
    ⟨present, value, rfl⟩ | ⟨missing, supply, words⟩
  · obtain ⟨child, below⟩ :=
      ne_none_iff_exists'.mp ((entry_present _ _ stored).mp present)
    refine ⟨node, [], ready, ?_, ⟨fun _ _ found => found, rfl⟩, by simp, by simp⟩
    rw [value, ready.tree.target_child here below, below]
  · have absent : node (index :: path) = none := by
      by_contra present
      exact (entry_present _ _ stored).mpr present missing
    have member : result ∈ s.supply := by rw [supply]; exact mem_cons_self
    have distinct := ready.distinct
    rw [supply, nodup_cons] at distinct
    obtain ⟨aligned, fresh⟩ := ready.fresh result member
    refine ⟨update node (index :: path) (some result), [result],
      ⟨?_, distinct.2, ?_⟩, update_self _ _ _, ⟨?_, supply⟩, by simp, ?_⟩
    · rw [words]
      exact (ready.tree.clear result fresh).add index path page result here inside absent
        aligned fresh (update_self _ _ _)
    · intro other otherMember
      obtain ⟨otherAligned, otherFresh⟩ := ready.fresh other
        (by rw [supply]; exact mem_cons_of_mem _ otherMember)
      refine ⟨otherAligned, fun a => ?_⟩
      by_cases same : a = index :: path
      · rw [same, update_self]
        intro eq
        exact distinct.1 (Option.some.inj eq ▸ otherMember)
      · rw [update_of_ne same]
        exact otherFresh a
    · intro a other found
      rw [update_of_ne]
      · exact found
      · intro same
        rw [same, absent] at found
        cases found
    · intro new newMember
      rw [mem_singleton.mp newMember]
      exact ⟨index :: path, update_self _ _ _⟩

theorem Ready.last (ready : Ready pgdir s node recorded) {i j k : Nat}
    (here : node [j, i] = some page) (bound : k < 512)
    (run : checkPageSetFlag s page k (leafFlags mode) = some (result, next)) :
    ∃ taken, KernelPage result ∧ Ready pgdir next node
        (update recorded ((i * 512 + j) * 512 + k) (some result)) ∧
      s.supply = taken ++ next.supply ∧
      ((taken = [] ∧ recorded ((i * 512 + j) * 512 + k) = some result) ∨
        (taken = [result] ∧ recorded ((i * 512 + j) * 512 + k) = none)) := by
  have stored := ready.tree.leaf i j page here k bound
  rcases checkPageSetFlag_cases s next page k _ result (leafFlags_lt mode) run with
    ⟨present, value, rfl⟩ | ⟨missing, supply, words⟩
  · obtain ⟨base, mapped⟩ :=
      ne_none_iff_exists'.mp ((leafEntry_present _ _ stored).mp present)
    rw [mapped] at stored
    obtain ⟨aligned, oldMode, word⟩ := stored
    have same : result = base := by
      rw [value, word]
      exact target_pte base _ (leafFlags_lt oldMode) aligned
    refine ⟨[], same ▸ aligned, ?_, rfl, .inl ⟨rfl, same ▸ mapped⟩⟩
    rw [same, ← mapped, update_eq_self]
    exact ready
  · have member : result ∈ s.supply := by rw [supply]; exact mem_cons_self
    have distinct := ready.distinct
    rw [supply, nodup_cons] at distinct
    obtain ⟨aligned, fresh⟩ := ready.fresh result member
    have unmapped : recorded ((i * 512 + j) * 512 + k) = none := by
      by_contra present
      exact (leafEntry_present _ _ stored).mpr present missing
    refine ⟨[result], aligned, ⟨?_, distinct.2, ?_⟩, supply, .inr ⟨rfl, unmapped⟩⟩
    · rw [words]
      exact (ready.tree.clear result fresh).setLeaf i j k page _ (some result) here bound
        ⟨aligned, mode, rfl⟩
    · intro other otherMember
      exact ready.fresh other (by rw [supply]; exact mem_cons_of_mem _ otherMember)

theorem Plain.walked (plain : Plain va) :
    Walked (vpn2 va) [] ∧ Walked (vpn1 va) [vpn2 va] ∧ vpn0 va < 512 ∧
      (vpn2 va * 512 + vpn1 va) * 512 + vpn0 va = va / 4096 := by
  obtain ⟨user, outside⟩ := plain
  rw [vpn0_eq, vpn1_eq, vpn2_eq]
  refine ⟨?_, ⟨?_, ?_, ?_⟩, ?_, ?_⟩
  · rw [Walked]; omega
  · omega
  · omega
  · omega
  · omega
  · omega

section
variable (ready : Ready pgdir s node recorded) (plain : Plain va)
include ready plain

theorem Ready.tables {s₁ s₂ : Store} {secondPage thirdPage : Nat}
    (run₁ : checkPageSetFlag s pgdir (vpn2 va) pagePresent = some (secondPage, s₁))
    (run₂ : checkPageSetFlag s₁ secondPage (vpn1 va) pagePresent = some (thirdPage, s₂)) :
    ∃ node' taken, Ready pgdir s₂ node' recorded ∧
      node' [vpn1 va, vpn2 va] = some thirdPage ∧ Grows s s₂ node node' taken ∧
      taken.length ≤ 2 ∧ ∀ new ∈ taken, ∃ path, node' path = some new := by
  obtain ⟨first, second, -, -⟩ := plain.walked
  obtain ⟨node₁, taken₁, ready₁, here₁, grows₁, few₁, tables₁⟩ :=
    ready.level ready.tree.top first run₁
  obtain ⟨node₂, taken₂, ready₂, here₂, grows₂, few₂, tables₂⟩ :=
    ready₁.level here₁ second run₂
  refine ⟨node₂, taken₁ ++ taken₂, ready₂, here₂, grows₁.trans grows₂, ?_, ?_⟩
  · rw [length_append]
    omega
  · intro new member
    rcases mem_append.mp member with inFirst | inSecond
    · obtain ⟨path, found⟩ := tables₁ new inFirst
      exact ⟨path, grows₂.keeps path new found⟩
    · exact tables₂ new inSecond

theorem Ready.allocPageHelper (run : allocPageHelper s va pgdir mode = some (result, next)) :
    ∃ node' base taken, Ready pgdir next node' (update recorded (va / 4096) (some base)) ∧
      Grows s next node node' taken ∧ KernelPage base ∧ result = base ||| (va &&& 0xfff) ∧
      taken.length ≤ 3 ∧ (∀ new ∈ taken, new = base ∨ ∃ path, node' path = some new) ∧
      (recorded (va / 4096) = some base ∨ (recorded (va / 4096) = none ∧ base ∈ taken)) := by
  obtain ⟨-, -, bound, number⟩ := plain.walked
  obtain ⟨⟨secondPage, s₁⟩, run₁, rest₁⟩ := bind_eq_some_iff.mp run
  obtain ⟨⟨thirdPage, s₂⟩, run₂, rest₂⟩ := bind_eq_some_iff.mp rest₁
  obtain ⟨⟨base, s₃⟩, run₃, rest₃⟩ := bind_eq_some_iff.mp rest₂
  obtain ⟨rfl, rfl⟩ := Prod.mk.inj (Option.some.inj rest₃)
  obtain ⟨node', taken₁, ready₂, here, grows, few, tables⟩ := ready.tables plain run₁ run₂
  obtain ⟨taken₂, aligned, ready₃, supply, cases⟩ := ready₂.last here bound run₃
  rw [number] at ready₃ cases
  have all : Grows s₂ s₃ node' node' taken₂ := ⟨fun _ _ found => found, supply⟩
  refine ⟨node', base, taken₁ ++ taken₂, ready₃, grows.trans all, aligned, rfl, ?_, ?_, ?_⟩
  · rcases cases with ⟨rfl, -⟩ | ⟨rfl, -⟩ <;> simp <;> omega
  · intro new member
    rcases mem_append.mp member with table | last
    · exact .inr (tables new table)
    · rcases cases with ⟨rfl, -⟩ | ⟨rfl, -⟩
      · cases last
      · exact .inl (mem_singleton.mp last)
  · rcases cases with ⟨-, mapped⟩ | ⟨rfl, unmapped⟩
    · exact .inl mapped
    · exact .inr ⟨unmapped, mem_append_right _ (mem_singleton_self base)⟩

theorem Ready.allocPagePointPhyc {kva : Nat} {slot : Nat × Nat} (aligned : KernelPage kva)
    (run : allocPagePointPhyc s va pgdir kva mode = some (slot, next)) :
    ∃ node' taken, Ready pgdir next node' (update recorded (va / 4096) (some kva)) ∧
      Grows s next node node' taken ∧ taken.length ≤ 2 ∧
      ∀ new ∈ taken, ∃ path, node' path = some new := by
  obtain ⟨-, -, bound, number⟩ := plain.walked
  obtain ⟨⟨secondPage, s₁⟩, run₁, rest₁⟩ := bind_eq_some_iff.mp run
  obtain ⟨⟨thirdPage, s₂⟩, run₂, rest₂⟩ := bind_eq_some_iff.mp rest₁
  obtain ⟨-, rfl⟩ := Prod.mk.inj (Option.some.inj rest₂)
  obtain ⟨node', taken, ready₂, here, grows, few, tables⟩ := ready.tables plain run₁ run₂
  refine ⟨node', taken, ⟨?_, ready₂.distinct, ready₂.fresh⟩, ⟨grows.keeps, grows.supply⟩,
    few, tables⟩
  simp only [set_entry_eq _ _ _ (leafFlags_lt mode)]
  rw [← number]
  exact ready₂.tree.setLeaf _ _ _ thirdPage _ (some kva) here bound ⟨aligned, mode, rfl⟩

end

theorem tables_return (s : Store) (va pgdir : Nat) (enough : 3 ≤ s.supply.length) :
    ∃ secondPage s₁ thirdPage s₂,
      checkPageSetFlag s pgdir (vpn2 va) pagePresent = some (secondPage, s₁) ∧
      checkPageSetFlag s₁ secondPage (vpn1 va) pagePresent = some (thirdPage, s₂) ∧
      s₂.supply ≠ [] := by
  have left : ∀ store : Store, 1 ≤ store.supply.length → store.supply ≠ [] := by
    intro store some_left empty
    rw [empty] at some_left
    cases some_left
  obtain ⟨secondPage, s₁, run₁⟩ :=
    checkPageSetFlag_returns s pgdir (vpn2 va) pagePresent (left s (by omega))
  have less₁ := checkPageSetFlag_supply _ _ _ _ _ _ (by decide) run₁
  obtain ⟨thirdPage, s₂, run₂⟩ :=
    checkPageSetFlag_returns s₁ secondPage (vpn1 va) pagePresent (left s₁ (by omega))
  have less₂ := checkPageSetFlag_supply _ _ _ _ _ _ (by decide) run₂
  exact ⟨secondPage, s₁, thirdPage, s₂, run₁, run₂, left s₂ (by omega)⟩

theorem allocPageHelper_returns (s : Store) (va pgdir : Nat) (mode : Mode)
    (enough : 3 ≤ s.supply.length) :
    ∃ result next, allocPageHelper s va pgdir mode = some (result, next) := by
  obtain ⟨secondPage, s₁, thirdPage, s₂, run₁, run₂, some_left⟩ :=
    tables_return s va pgdir enough
  obtain ⟨final, s₃, run₃⟩ :=
    checkPageSetFlag_returns s₂ thirdPage (vpn0 va) (leafFlags mode) some_left
  exact ⟨final ||| (va &&& 0xfff), s₃, by simp [allocPageHelper, run₁, run₂, run₃]⟩

theorem allocPagePointPhyc_returns (s : Store) (va pgdir kva : Nat) (mode : Mode)
    (enough : 3 ≤ s.supply.length) :
    ∃ slot next, allocPagePointPhyc s va pgdir kva mode = some (slot, next) := by
  obtain ⟨secondPage, s₁, thirdPage, s₂, run₁, run₂, -⟩ := tables_return s va pgdir enough
  refine ⟨(thirdPage, vpn0 va), ⟨setWord s₂.words thirdPage (vpn0 va)
    (setAttribute (setPfn (s₂.words thirdPage (vpn0 va)) (kva2pa kva >>> 12))
      (leafFlags mode)), s₂.supply⟩, ?_⟩
  simp [allocPagePointPhyc, run₁, run₂]

def Holds (pgdir : Nat) (s : MapState) : Prop :=
  ∃ node, Tree pgdir s.words node s.recorded

theorem Holds.allocPageHelper {s next : MapState} {supply : List Nat} (holds : Holds pgdir s)
    (plain : Plain va) (fresh : FreshSupply s.words pgdir supply)
    (run : mapStep pgdir s (.allocPageHelper va mode supply) = some next) : Holds pgdir next := by
  obtain ⟨node, tree⟩ := holds
  obtain ⟨⟨result, store⟩, helper, finish⟩ := bind_eq_some_iff.mp run
  obtain ⟨node', base, taken, ready, -, aligned, rfl, -⟩ :=
    (tree.ready supply fresh).allocPageHelper plain helper
  refine ⟨node', ?_⟩
  rw [← Option.some.inj finish]
  simp only [page_of_result base va aligned]
  exact ready.tree

theorem Holds.allocPagePointPhyc {s next : MapState} {kva : Nat} {supply : List Nat}
    (holds : Holds pgdir s) (plain : Plain va)
    (aligned : KernelPage kva) (fresh : FreshSupply s.words pgdir supply)
    (run : mapStep pgdir s (.allocPagePointPhyc va kva mode supply) = some next) :
    Holds pgdir next := by
  obtain ⟨node, tree⟩ := holds
  obtain ⟨⟨slot, store⟩, helper, finish⟩ := bind_eq_some_iff.mp run
  obtain ⟨node', taken, ready, -⟩ :=
    (tree.ready supply fresh).allocPagePointPhyc plain aligned helper
  refine ⟨node', ?_⟩
  rw [← Option.some.inj finish]
  exact ready.tree

theorem Tree.tables_of_recorded (tree : Tree pgdir w node recorded)
    (plain : Plain va) (mapped : recorded (va / 4096) ≠ none) :
    ∃ second third, node [vpn2 va] = some second ∧ node [vpn1 va, vpn2 va] = some third := by
  obtain ⟨first, walked, bound, number⟩ := plain.walked
  cases thirdHere : node [vpn1 va, vpn2 va] with
  | none =>
    rw [← number] at mapped
    exact absurd (tree.unmapped _ _ first walked.2.1 thirdHere _ bound) mapped
  | some third =>
    obtain ⟨second, secondHere⟩ :=
      ne_none_iff_exists'.mp (tree.walked _ _ third thirdHere).2
    exact ⟨second, third, secondHere, rfl⟩

theorem Holds.freePageHelper {s next : MapState}
    (holds : Holds pgdir s) (plain : Plain va) (mapped : s.recorded (va / 4096) ≠ none)
    (run : mapStep pgdir s (.freePageHelper va) = some next) : Holds pgdir next := by
  obtain ⟨node, tree⟩ := holds
  obtain ⟨first, walked, bound, number⟩ := plain.walked
  obtain ⟨second, third, secondHere, thirdHere⟩ := tree.tables_of_recorded plain mapped
  refine ⟨node, ?_⟩
  rw [← Option.some.inj run]
  simp only [PageTable.freePageHelper, tree.target_child tree.top secondHere,
    tree.target_child secondHere thirdHere]
  rw [← number]
  exact tree.setLeaf _ _ _ third 0 none thirdHere bound rfl

theorem Holds.step (s : MapState) (act : MapAct) (next : MapState) (holds : Holds pgdir s)
    (fits : act.Fits pgdir s) (run : mapStep pgdir s act = some next) : Holds pgdir next := by
  cases act with
  | allocPageHelper va mode supply => exact holds.allocPageHelper fits.1 fits.2 run
  | allocPagePointPhyc va kva mode supply =>
    exact holds.allocPagePointPhyc fits.1 fits.2.1 fits.2.2 run
  | freePageHelper va => exact holds.freePageHelper fits.1 fits.2 run

theorem user_bits (va : Nat) (user : va < 2 ^ 38) : va &&& 0xffffffc000000000 = 0 := by
  apply eq_of_testBit_eq
  intro i
  rw [testBit_and, zero_testBit,
    show (0xffffffc000000000 : Nat) = 0x3ffffff <<< 38 from rfl, testBit_shiftLeft]
  rcases Nat.lt_or_ge i 38 with below | above
  · simp [Nat.not_le.mpr below]
  · have zero : va.testBit i = false :=
      testBit_lt_two_pow (Nat.lt_of_lt_of_le user (Nat.pow_le_pow_right (by decide) above))
    simp [zero]

theorem Tree.lastSlot_eq (tree : Tree pgdir w node recorded) (plain : Plain va) :
    lastSlot w va pgdir = (node [vpn1 va, vpn2 va]).map fun page => (page, vpn0 va) := by
  obtain ⟨first, walked, -, -⟩ := plain.walked
  have rootStored := tree.entry (vpn2 va) [] pgdir tree.top first
  rw [lastSlot]
  cases secondHere : node [vpn2 va] with
  | none =>
    have childless : node [vpn1 va, vpn2 va] = none := by
      by_contra present
      obtain ⟨third, thirdHere⟩ := ne_none_iff_exists'.mp present
      exact (tree.walked _ _ third thirdHere).2 secondHere
    rw [if_pos ((entry_null _ _ rootStored).mpr secondHere), childless]
    rfl
  | some second =>
    have present : w pgdir (vpn2 va) ≠ 0 := by
      intro null
      have missing := (entry_null _ _ rootStored).mp null
      rw [secondHere] at missing
      cases missing
    have middleStored := tree.entry (vpn1 va) [vpn2 va] second secondHere walked
    rw [if_neg present, tree.target_child tree.top secondHere]
    cases thirdHere : node [vpn1 va, vpn2 va] with
    | none =>
      rw [if_pos ((entry_null _ _ middleStored).mpr thirdHere)]
      rfl
    | some third =>
      have middlePresent : w second (vpn1 va) ≠ 0 := by
        intro null
        have missing := (entry_null _ _ middleStored).mp null
        rw [thirdHere] at missing
        cases missing
      rw [if_neg middlePresent, tree.target_child secondHere thirdHere]
      rfl

theorem Holds.translates (s : MapState) (holds : Holds pgdir s) : Translates pgdir s := by
  obtain ⟨node, tree⟩ := holds
  intro va plain
  obtain ⟨first, walked, bound, number⟩ := plain.walked
  have slot := tree.lastSlot_eq plain
  have user : ¬ (va &&& 0xffffffc000000000 ≠ 0) := not_not.mpr (user_bits va plain.1)
  rw [TranslatesAt, getKvaOf, if_neg user, getPTEOf]
  cases thirdHere : node [vpn1 va, vpn2 va] with
  | none =>
    have unmapped : s.recorded (va / 4096) = none := by
      rw [← number]
      exact tree.unmapped _ _ first walked.2.1 thirdHere _ bound
    rw [thirdHere] at slot
    rw [unmapped, slot]
    exact ⟨rfl, rfl⟩
  | some third =>
    have stored := tree.leaf _ _ third thirdHere (vpn0 va) bound
    rw [number] at stored
    rw [thirdHere] at slot
    rw [slot]
    cases mapped : s.recorded (va / 4096) with
    | none =>
      rw [mapped] at stored
      have word : s.words third (vpn0 va) = 0 := stored
      simp [word]
    | some base =>
      rw [mapped] at stored
      obtain ⟨aligned, mode, word⟩ := stored
      have nonzero := pte_ne_zero base _ (leafFlags_lt mode) (leafFlags_odd mode)
      have present := present_pte base _ (leafFlags_lt mode) (leafFlags_odd mode)
      have address := pa2kva_offset base va _ (leafFlags_lt mode) aligned
      simp [word, nonzero, present, address]

theorem Translates.kva_eq {s : MapState} (translates : Translates pgdir s) (plain : Plain va) :
    getKvaOf s.words va pgdir = ((s.recorded (va / 4096)).map (· + va % 4096)).getD 0 := by
  have here := translates va plain
  rw [TranslatesAt] at here
  cases mapped : s.recorded (va / 4096) with
  | none => rw [mapped] at here; exact here.1
  | some base => rw [mapped] at here; exact here.1

theorem mapStep_recorded {s next : MapState} {act : MapAct}
    (run : mapStep pgdir s act = some next) (number : Nat) (other : number ≠ act.va / 4096) :
    next.recorded number = s.recorded number := by
  cases act with
  | allocPageHelper | allocPagePointPhyc =>
    obtain ⟨result, -, finish⟩ := bind_eq_some_iff.mp run
    rw [← Option.some.inj finish]
    exact update_of_ne other _ _
  | freePageHelper va =>
    rw [← Option.some.inj run]
    exact update_of_ne other _ _

theorem Holds.others (s : MapState) (act : MapAct) (next : MapState)
    (holds : Holds pgdir s) (fits : act.Fits pgdir s)
    (run : mapStep pgdir s act = some next) : OthersKept pgdir s act next := by
  intro va plain other
  rw [holds.translates.kva_eq plain, (Holds.step s act next holds fits run).translates.kva_eq plain,
    mapStep_recorded run _ other]

def bootNode (pgdir : Nat) (path : List Nat) : Option Nat :=
  if path = [] then some pgdir else if path = [2] then some bootTable else none

theorem sharePgtable_holds (w : Words) (pgdir : Nat) (boot : BootMap w)
    (aligned : KernelPage pgdir) (fresh : ¬ TablePage w kernelPgdir pgdir) :
    Holds pgdir (sharePgtable w pgdir) := by
  have slotTwo : w kernelPgdir 2 = pte bootTable pagePresent := boot.root 2 (by decide)
  have bootAligned : KernelPage bootTable := by decide
  have apart : bootTable ≠ pgdir := by
    intro same
    apply fresh
    refine .inr ⟨2, by decide, slotTwo ▸ pointer_pte bootTable, .inl ?_⟩
    rw [slotTwo, target_pte bootTable pagePresent (by decide) bootAligned, same]
  have rootWords : (sharePgtable w pgdir).words pgdir = w kernelPgdir :=
    update_self _ _ _
  have bootWords : (sharePgtable w pgdir).words bootTable = w bootTable :=
    update_of_ne apart _ _
  have nodeOf : ∀ path page, bootNode pgdir path = some page →
      (path = [] ∧ page = pgdir) ∨ (path = [2] ∧ page = bootTable) := by
    intro path page here
    rw [bootNode] at here
    split at here
    · rename_i atTop
      exact .inl ⟨atTop, (Option.some.inj here).symm⟩
    · split at here
      · rename_i atBoot
        exact .inr ⟨atBoot, (Option.some.inj here).symm⟩
      · cases here
  refine ⟨bootNode pgdir, rfl, ?_, ?_, ?_, ?_, ?_, fun _ _ _ _ _ _ _ => rfl⟩
  · intro path page here
    rcases nodeOf path page here with ⟨-, rfl⟩ | ⟨-, rfl⟩
    · exact aligned
    · exact bootAligned
  · intro a b page hereA hereB
    rcases nodeOf a page hereA with ⟨rfl, rfl⟩ | ⟨rfl, rfl⟩
    · rcases nodeOf b page hereB with ⟨rfl, -⟩ | ⟨-, same⟩
      · rfl
      · exact absurd same.symm apart
    · rcases nodeOf b bootTable hereB with ⟨-, same⟩ | ⟨rfl, -⟩
      · exact absurd same apart
      · rfl
  · intro index path page here
    rcases nodeOf _ page here with ⟨none, -⟩ | ⟨same, -⟩
    · cases none
    · obtain ⟨rfl, rfl⟩ := List.cons.inj same
      exact ⟨by rw [Walked]; decide, by simp [bootNode]⟩
  · intro index path page here inside
    rcases nodeOf path page here with ⟨rfl, rfl⟩ | ⟨rfl, rfl⟩
    · rw [rootWords, boot.root index inside]
      rcases eq_or_ne index 2 with rfl | two
      · rfl
      · simp [bootNode, two, Entry]
    · obtain ⟨-, bound, outside⟩ := inside
      have noLeaf : ¬ (1 ≤ index ∧ index ≤ 5) := fun inLeaf => outside ⟨rfl, inLeaf⟩
      rw [bootWords, boot.leaves index bound, bootEntry, if_neg noLeaf]
      simp [bootNode, Entry]
  · intro i j page here
    rcases nodeOf _ page here with ⟨none, -⟩ | ⟨same, -⟩
    · cases none
    · cases same

/-- On a user table whose operations stay outside the boot map's leaves, the
look-ups outside them give what was recorded, all along every run. -/
theorem translates_along (w : Words) (pgdir : Nat) (acts : List MapAct) (boot : BootMap w)
    (aligned : KernelPage pgdir) (fresh : ¬ TablePage w kernelPgdir pgdir)
    (fits : StepsMeet (mapStep pgdir) (fun s act => act.Fits pgdir s) (sharePgtable w pgdir) acts) :
    HoldsAlong (mapStep pgdir) (Translates pgdir) (sharePgtable w pgdir) acts ∧
    StepsGive (mapStep pgdir) (OthersKept pgdir) (sharePgtable w pgdir) acts := by
  have start := sharePgtable_holds w pgdir boot aligned fresh
  refine ⟨?_, ?_⟩
  · exact holdsAlong_of_stepsMeet _ _ _ _ Holds.translates Holds.step _ acts start fits
  · refine stepsGive_of_stepsMeet _ _ (Holds pgdir) _ ?_ _ acts start fits
    intro s act next holds meets run
    exact ⟨Holds.step s act next holds meets run, Holds.others s act next holds meets run⟩

theorem setupVm_bootMap : BootMap (setupVm fun _ _ => 0).words :=
  ⟨by decide +kernel, by decide +kernel⟩

/-- The page directory and the tables of the boot map and of the kernel's own
leaves, in a memory whose other words are null. -/
def bootMemory : Words := fun page index =>
  if page = kernelPgdir then
    if index = 2 then pte bootTable pagePresent
    else if index = 258 then pte 0xffffffc080209000 pagePresent
    else 0
  else if page = bootTable ∨ page = 0xffffffc080209000 then bootEntry index
  else 0

theorem bootMemory_bootMap : BootMap bootMemory := ⟨by decide +kernel, by decide +kernel⟩

theorem translates_along_three :
    HoldsAlong (mapStep 0xffffffc080310000) (Translates 0xffffffc080310000)
      (sharePgtable bootMemory 0xffffffc080310000) [.allocPageHelper 0x10008 .mapUser
          [0xffffffc080311000, 0xffffffc080312000, 0xffffffc080313000],
        .allocPagePointPhyc 0x80c00000 0xffffffc080313000 .mapUser [0xffffffc080314000],
        .freePageHelper 0x10000] ∧
    StepsGive (mapStep 0xffffffc080310000) (OthersKept 0xffffffc080310000)
      (sharePgtable bootMemory 0xffffffc080310000) [.allocPageHelper 0x10008 .mapUser
          [0xffffffc080311000, 0xffffffc080312000, 0xffffffc080313000],
        .allocPagePointPhyc 0x80c00000 0xffffffc080313000 .mapUser [0xffffffc080314000],
        .freePageHelper 0x10000] :=
  translates_along bootMemory 0xffffffc080310000 _ bootMemory_bootMap (by decide)
    (by decide +kernel) (by decide +kernel)

/-- The boot map's leaf at `0x80400000` is taken for a pointer to a last-level
table, so a page that `allocPage` hands out for a table there makes a page that
was never mapped appear in the map. -/
theorem boot_leaf_translates : (MapAct.allocPageHelper 0 .mapUser
        [0xffffffc080311000, 0xffffffc080400000, 0xffffffc080313000]).Fits
      0xffffffc080310000 (sharePgtable bootMemory 0xffffffc080310000) ∧
    getKvaOf (sharePgtable bootMemory 0xffffffc080310000).words 0x80400000 0xffffffc080310000 = 0 ∧
    ∃ s, mapStep 0xffffffc080310000 (sharePgtable bootMemory 0xffffffc080310000)
        (.allocPageHelper 0 .mapUser
          [0xffffffc080311000, 0xffffffc080400000, 0xffffffc080313000]) = some s ∧
      s.recorded (0x80400000 / 4096) = none ∧
      getKvaOf s.words 0x80400000 0xffffffc080310000 = 0xffffffc080313000 := by
  refine ⟨by decide +kernel, by decide +kernel, exists_evaluated ?_ fun _ => id⟩
  decide +kernel

end CCore.PageTable
