import CCore.Fat.Paths

/-!
# The three walks over a path agree

A path is spelled from names.  On a path that is `Plain` each of `fat32_openat`, `find_dir`
followed by `search`, and `fat32_chdir` looks the names up one after the other; they differ in
which names `.` they leave out, and those make no difference below the root.
-/
namespace CCore.Fat

open List Option Nat

def join (names : List Str) : Str := [slash].intercalate names

/-- Empty names stand for repeated separators, and at the end for a trailing one. -/
def spell (absolute : Bool) (names : List Str) : Str :=
  if absolute then slash :: join names else join names

def Spelled (names : List Str) : Prop := ∀ x ∈ names, slash ∉ x ∧ (0 : UInt8) ∉ x

theorem join_single (x : Str) : join [x] = x := intercalate_singleton

theorem join_cons (x y : Str) (rest : List Str) :
    join (x :: y :: rest) = x ++ slash :: join (y :: rest) := by
  simp [join, intercalate_cons_cons]

theorem zero_not_mem_join {names : List Str} (spelled : Spelled names) :
    (0 : UInt8) ∉ join names := by
  induction names with
  | nil => simp [join]
  | cons x rest ih =>
    have here := (spelled x mem_cons_self).2
    have later := ih fun y member => spelled y (mem_cons_of_mem x member)
    cases rest with
    | nil => rwa [join_single]
    | cons y rest =>
      rw [join_cons]
      simp [here, later, slash]

theorem findIdx_slash {x r : Str} (free : slash ∉ x) :
    (x ++ slash :: r).findIdx? (· == slash) = some x.length := by
  have none : x.findIdx? (· == slash) = none := by
    rw [List.findIdx?_eq_none_iff]
    intro b member
    exact beq_false_of_ne fun same => free (same ▸ member)
  rw [List.findIdx?_append, none]
  simp [List.findIdx?_cons]

theorem findIdx_none {x : Str} (free : slash ∉ x) : x.findIdx? (· == slash) = none := by
  rw [List.findIdx?_eq_none_iff]
  intro b member
  exact beq_false_of_ne fun same => free (same ▸ member)

def follow (l : Lookups) (c : Nat) (names : List Str) : Option Nat := names.foldlM l.search c

theorem follow_cons (l : Lookups) (c : Nat) (x : Str) (rest : List Str) :
    follow l c (x :: rest) = (l.search c x).bind fun c' => follow l c' rest := by
  simp [follow, foldlM_cons]

theorem follow_single (l : Lookups) (c : Nat) (x : Str) : follow l c [x] = l.search c x := by
  rw [follow_cons]
  cases l.search c x <;> rfl

/-- The directories `dir` of a volume: every one but the root has an entry `.` for itself, and
an entry with another name than `.` and `..` leads to a directory below. -/
structure Tree (l : Lookups) (root : Nat) (dir : Nat → Prop) : Prop where
  self : ∀ d, dir d → d ≠ root → l.search d [dot] = some d
  below : ∀ d x c, dir d → l.search d x = some c → x ≠ [dot] → x ≠ [dot, dot] → dir c ∧ c ≠ root
  any : ∀ d x c, l.search3 d x = some (c, true) ↔ l.search d x = some c

variable {l : Lookups} {root c : Nat} {dir : Nat → Prop} {names rest : List Str} {x y : Str}

theorem Tree.openedDirectory_eq (tree : Tree l root dir) (directory : Bool) (d : Nat) (x : Str) :
    openedDirectory (if directory then (l.search d x).map fun c => (c, true) else l.search3 d x) =
      l.search d x := by
  cases directory with
  | true => cases l.search d x <;> simp [openedDirectory]
  | false =>
    have any := tree.any d x
    rcases found : l.search3 d x with _ | ⟨c, isDirectory⟩
    · cases other : l.search d x with
      | none => rfl
      | some c => exact nomatch found.symm.trans ((any c).mpr other)
    · cases isDirectory with
      | true => simp [openedDirectory, (any c).mp found]
      | false =>
        cases other : l.search d x with
        | none => simp [openedDirectory]
        | some c' =>
          have same := found.symm.trans ((any c').mpr other)
          simp at same

theorem getNextName_last (free : slash ∉ x) : getNextName x = (x, none) := by
  simp [getNextName, findIdx_none free]

theorem getNextName_more {r : Str} (free : slash ∉ x) :
    getNextName (x ++ slash :: r) = (x, some r) := by
  simp [getNextName, findIdx_slash free]

theorem openatLoop_follow (tree : Tree l root dir) (directory : Bool) (fuel : Nat)
    (spelled : Spelled names) (named : names ≠ []) (enough : names.length ≤ fuel) (c : Nat) :
    openedDirectory (openatLoop l directory fuel c (join names)) = follow l c names := by
  induction fuel generalizing names c with
  | zero =>
    have none : names = [] := length_eq_zero_iff.mp (Nat.le_zero.mp enough)
    exact absurd none named
  | succ fuel ih =>
    cases names with
    | nil => exact absurd rfl named
    | cons x rest =>
      have free := (spelled x mem_cons_self).1
      cases rest with
      | nil =>
        rw [join_single, openatLoop, getNextName_last free, follow_single]
        exact tree.openedDirectory_eq directory c x
      | cons y rest =>
        rw [join_cons, openatLoop, getNextName_more free, follow_cons]
        dsimp only
        cases l.search c x with
        | none => rfl
        | some c' =>
          exact ih (fun z member => spelled z (mem_cons_of_mem x member))
            (cons_ne_nil y rest) (le_of_succ_le_succ enough) c'

/-! ## `find_dir` -/

/-- A string ends where `t` begins: memory that is not given is zero. -/
def Ended (t : List UInt8) : Prop := t = [] ∨ ∃ r, t = 0 :: r

variable {s t : List UInt8} {fuel : Nat}

theorem Ended.take (ended : Ended t) (n : Nat) : Ended (t.take n) := by
  rcases ended with rfl | ⟨r, rfl⟩
  · exact .inl take_nil
  · cases n with
    | zero => exact .inl rfl
    | succ n => exact .inr ⟨r.take n, rfl⟩

theorem cstr_append (ends : (0 : UInt8) ∉ s) (ended : Ended t) : cstr (s ++ t) = s := by
  have all : ∀ b ∈ s, (b != 0) = true := by
    intro b member
    exact bne_iff_ne.mpr fun same => ends (same ▸ member)
  rw [cstr, takeWhile_append_of_pos all]
  rcases ended with rfl | ⟨r, rfl⟩
  · simp
  · simp

theorem cstr_self (ends : (0 : UInt8) ∉ s) : cstr s = s := by
  have same := cstr_append (t := []) ends (.inl rfl)
  rwa [append_nil] at same

theorem slash_not_mem_take_one (ended : Ended t) : slash ∉ t.take 1 := by
  rcases ended with rfl | ⟨r, rfl⟩
  · exact not_mem_nil
  · simp [slash]

/-- What `find_dir` does after the front of the name has been cut off: `k` is the number of
bytes that have been cut off. -/
def findDirRest (l : Lookups) (fuel c : Nat) (name : List UInt8) (len : Nat) : Option (Nat × Str) :=
  match (name.take len).findIdx? (· == slash) with
  | none => some (c, cstr name)
  | some pos =>
    (l.search c (cstr (name.take pos))).bind fun newCwd =>
      findDir l fuel newCwd ((name.drop (pos + 1)).take (len - pos - 1))

theorem findDir_succ (fuel c : Nat) (name : List UInt8) :
    findDir l (fuel + 1) c name = findDirRest l fuel c (cutFront (name.take 256)) (kstrlen name) :=
  rfl

theorem findDirRest_last (fuel c k : Nat) (free : slash ∉ y)
    (ends : (0 : UInt8) ∉ y) (ended : Ended t) (quiet : slash ∉ t.take k) :
    findDirRest l fuel c (y ++ t) (y.length + k) = some (c, y) := by
  have none : slash ∉ (y ++ t).take (y.length + k) := by
    rw [take_length_add_append]
    intro member
    rcases mem_append.mp member with here | there
    · exact free here
    · exact quiet there
  rw [findDirRest, findIdx_none none]
  simp [cstr_append ends ended]

theorem findDirRest_more (fuel c k : Nat) (free : slash ∉ y) (ends : (0 : UInt8) ∉ y) :
    findDirRest l fuel c (y ++ slash :: s ++ t) (y.length + (s.length + 1) + k) =
      (l.search c y).bind fun c' => findDir l fuel c' (s ++ t.take k) := by
  have found : ((y ++ slash :: s ++ t).take (y.length + (s.length + 1) + k)).findIdx? (· == slash) =
      some y.length := by
    have front : (y ++ slash :: s ++ t).take (y.length + (s.length + 1) + k) =
        y ++ slash :: (s ++ t.take k) := by
      rw [Nat.add_assoc, append_assoc, take_length_add_append]
      simp [Nat.add_right_comm, take_length_add_append]
    rw [front]
    exact findIdx_slash free
  have rest : ((y ++ slash :: s ++ t).drop (y.length + 1)).take
      (y.length + (s.length + 1) + k - y.length - 1) = s ++ t.take k := by
    have count : y.length + (s.length + 1) + k - y.length - 1 = s.length + k := by omega
    rw [count]
    simp [take_length_add_append]
  have name : (y ++ slash :: s ++ t).take y.length = y := by simp
  rw [findDirRest, found]
  simp only [rest, name, cstr_self ends]

/-! ### The front of the name -/

theorem cutFront_of_ne {m : List UInt8} (notDot : ¬ (m[0]? = some dot ∧ m[1]? = some slash))
    (notSlash : m[0]? ≠ some slash) : cutFront m = m := by
  simp [cutFront, if_neg notDot, if_neg notSlash]

theorem cutFront_dot {m : List UInt8} (notSlash : m[0]? ≠ some slash) :
    cutFront (dot :: slash :: m) = m := by
  have front : (dot :: slash :: m)[0]? = some dot ∧ (dot :: slash :: m)[1]? = some slash :=
    ⟨rfl, rfl⟩
  simp [cutFront, drop_succ_cons, drop_zero, if_neg notSlash]

theorem cutFront_slash (m : List UInt8) : cutFront (slash :: m) = m := by
  have notDot : ¬ ((slash :: m)[0]? = some dot ∧ (slash :: m)[1]? = some slash) := by
    rintro ⟨isDot, -⟩
    exact absurd (Option.some.inj isDot) (by decide)
  have front : (slash :: m)[0]? = some slash := rfl
  simp only [cutFront, if_neg notDot, if_pos front, drop_succ_cons, drop_zero]

theorem Ended.head_ne (ended : Ended t) {b : UInt8} (other : b ≠ 0) : t[0]? ≠ some b := by
  rcases ended with rfl | ⟨r, rfl⟩
  · exact (some_ne_none b).symm
  · exact fun same => other (Option.some.inj same).symm

theorem front_ne_slash (free : slash ∉ x) (named : x ≠ [] ∨ s = [])
    (ended : Ended t) : (x ++ s ++ t)[0]? ≠ some slash := by
  cases x with
  | nil =>
    have none := named.resolve_left fun some => some rfl
    rw [none]
    exact ended.head_ne (by decide)
  | cons b x =>
    intro same
    have eq : b = slash := Option.some.inj same
    exact free (eq ▸ mem_cons_self)

theorem cutFront_name (free : slash ∉ x) (named : x ≠ [])
    (notDot : x ≠ [dot]) : cutFront (x ++ slash :: s ++ t) = x ++ slash :: s ++ t := by
  refine cutFront_of_ne ?_ ?_
  · rintro ⟨first, second⟩
    rcases x with _ | ⟨b, _ | ⟨b', x⟩⟩
    · exact named rfl
    · have eq : b = dot := Option.some.inj first
      exact notDot (by rw [eq])
    · have eq : b' = slash := Option.some.inj second
      exact free (by simp [eq])
  · cases x with
    | nil => exact absurd rfl named
    | cons b x =>
      intro same
      have eq : b = slash := Option.some.inj same
      exact free (eq ▸ mem_cons_self)

theorem cutFront_last (free : slash ∉ x) (ended : Ended t) : cutFront (x ++ t) = x ++ t := by
  have zero : slash ≠ 0 := by decide
  refine cutFront_of_ne ?_ ?_
  · rintro ⟨first, second⟩
    rcases x with _ | ⟨b, _ | ⟨b', x⟩⟩
    · exact ended.head_ne (b := dot) (by decide) first
    · exact ended.head_ne zero second
    · have eq : b' = slash := Option.some.inj second
      exact free (by simp [eq])
  · have front := front_ne_slash (s := []) free (.inr rfl) ended
    rwa [append_nil] at front

theorem take_256 (t : List UInt8) (short : s.length ≤ 255) :
    (s ++ t).take 256 = s ++ t.take (256 - s.length) := by
  rw [take_append, take_of_length_le (by omega)]

/-! ### The walk -/

structure Inner (names : List Str) : Prop where
  gap : ∀ x ∈ names.dropLast, x ≠ []
  dots : ∀ x ∈ names.dropLast, x.getLast? = some dot → x = [dot]

theorem Inner.tail (inner : Inner (x :: names)) : Inner names := by
  cases names with
  | nil => exact ⟨fun y member => (nomatch member), fun y member => (nomatch member)⟩
  | cons z rest =>
    exact ⟨fun y member => inner.gap y (mem_cons_of_mem x member),
      fun y member => inner.dots y (mem_cons_of_mem x member)⟩

theorem Inner.head (inner : Inner (x :: y :: rest)) : x ≠ [] ∧ (x ≠ [dot] → x ≠ [dot, dot]) := by
  have member : x ∈ (x :: y :: rest).dropLast := mem_cons_self
  refine ⟨inner.gap x member, ?_⟩
  rintro other rfl
  exact other (inner.dots _ member rfl)

theorem Spelled.tail (spelled : Spelled (x :: names)) : Spelled names := fun y member =>
  spelled y (mem_cons_of_mem x member)

theorem join_ne_slash (spelled : Spelled (y :: rest)) (inner : Inner (y :: rest))
    (ended : Ended t) : (join (y :: rest) ++ t)[0]? ≠ some slash := by
  have free := (spelled y mem_cons_self).1
  cases rest with
  | nil =>
    have front := front_ne_slash (s := []) free (.inr rfl) ended
    rwa [join_single, ← append_nil y]
  | cons z rest =>
    rw [join_cons]
    exact front_ne_slash free (.inl inner.head.1) ended

theorem findDirRest_join (fuel c k : Nat) (spelled : Spelled (y :: rest))
    (ended : Ended t) (quiet : slash ∉ t.take k) :
    findDirRest l fuel c (join (y :: rest) ++ t) ((join (y :: rest)).length + k) =
      if rest = [] then some (c, y)
      else (l.search c y).bind fun c' => findDir l fuel c' (join rest ++ t.take k) := by
  obtain ⟨free, ends⟩ := spelled y mem_cons_self
  cases rest with
  | nil =>
    rw [join_single, if_pos rfl]
    exact findDirRest_last fuel c k free ends ended quiet
  | cons z rest =>
    rw [if_neg (cons_ne_nil z rest), join_cons, length_append, length_cons]
    exact findDirRest_more fuel c k free ends

def cutNames : List Str → List Str
  | x :: y :: rest => if x = [dot] then y :: rest else x :: y :: rest
  | names => names

theorem cutNames_ne_nil (named : names ≠ []) : cutNames names ≠ [] := by
  rcases names with _ | ⟨x, _ | ⟨z, more⟩⟩
  · exact absurd rfl named
  · exact named
  · rw [cutNames]
    split
    · exact cons_ne_nil z more
    · exact named

theorem findDir_level (fuel c : Nat) (spelled : Spelled names)
    (inner : Inner names) (short : (join names).length ≤ 255) (ended : Ended t)
    (cut : cutNames names = y :: rest) (quiet : names = y :: rest ∨ slash ∉ t.take 2) :
    ∃ t', Ended t' ∧ slash ∉ t'.take 2 ∧ findDir l (fuel + 1) c (join names ++ t) =
      if rest = [] then some (c, y)
      else (l.search c y).bind fun c' => findDir l fuel c' (join rest ++ t') := by
  have len : kstrlen (join names ++ t) = (join names).length :=
    congrArg List.length (cstr_append (zero_not_mem_join spelled) ended)
  have ended₁ := ended.take (256 - (join names).length)
  have quiet₁ : names = y :: rest ∨ slash ∉ (t.take (256 - (join names).length)).take 2 := by
    rcases quiet with same | quiet
    · exact .inl same
    · refine .inr fun member => quiet ?_
      rw [take_take] at member
      exact (take_subset_take_left t (Nat.min_le_left ..)) member
  rw [findDir_succ, take_256 t short, len]
  generalize t.take (256 - (join names).length) = t₁ at ended₁ quiet₁ ⊢
  rcases names with _ | ⟨x, _ | ⟨z, more⟩⟩
  · cases cut
  · cases cut
    have free := (spelled y mem_cons_self).1
    have level := findDirRest_join (l := l) (k := 0) fuel c spelled ended₁ not_mem_nil
    rw [join_single, Nat.add_zero] at level
    rw [join_single, cutFront_last free ended₁, level]
    exact ⟨[], .inl rfl, not_mem_nil, rfl⟩
  · have free := (spelled x mem_cons_self).1
    by_cases isDot : x = [dot]
    · -- the first name is passed over, but its two bytes still count in the length
      subst isDot
      have same : z :: more = y :: rest := by rwa [cutNames, if_pos rfl] at cut
      cases same
      have noSlash : slash ∉ t₁.take 2 := by
        rcases quiet₁ with same | quiet₁
        · exact absurd (congrArg List.length same) (by simp)
        · exact quiet₁
      have front : cutFront (join ([dot] :: y :: rest) ++ t₁) = join (y :: rest) ++ t₁ := by
        rw [join_cons]
        exact cutFront_dot (join_ne_slash spelled.tail inner.tail ended₁)
      have length : (join ([dot] :: y :: rest)).length = (join (y :: rest)).length + 2 := by
        rw [join_cons]
        simp
      rw [front, length, findDirRest_join fuel c 2 spelled.tail ended₁ noSlash]
      refine ⟨t₁.take 2, ended₁.take 2, ?_, rfl⟩
      rwa [take_take]
    · have same : x :: z :: more = y :: rest := by rwa [cutNames, if_neg isDot] at cut
      cases same
      have front : cutFront (join (y :: z :: more) ++ t₁) = join (y :: z :: more) ++ t₁ := by
        rw [join_cons]
        exact cutFront_name free inner.head.1 isDot
      have level := findDirRest_join (l := l) (k := 0) fuel c spelled ended₁ not_mem_nil
      rw [Nat.add_zero] at level
      rw [front, level]
      exact ⟨[], .inl rfl, not_mem_nil, rfl⟩

theorem findDir_absolute (fuel c : Nat) (spelled : Spelled (y :: rest))
    (short : (join (y :: rest)).length < 255) (ended : Ended t) :
    ∃ t', Ended t' ∧ slash ∉ t'.take 2 ∧ findDir l (fuel + 1) c (slash :: join (y :: rest) ++ t) =
      if rest = [] then some (c, y)
      else (l.search c y).bind fun c' => findDir l fuel c' (join rest ++ t') := by
  have ends : (0 : UInt8) ∉ slash :: join (y :: rest) := by
    have later := zero_not_mem_join spelled
    simp [later, slash]
  have len : kstrlen (slash :: join (y :: rest) ++ t) = (join (y :: rest)).length + 1 :=
    congrArg List.length (cstr_append ends ended)
  have ended₁ := ended.take (256 - (slash :: join (y :: rest)).length)
  have short' : (slash :: join (y :: rest)).length ≤ 255 := short
  rw [findDir_succ, take_256 t short', len, cons_append, cutFront_slash,
    findDirRest_join fuel c 1 spelled ended₁ (slash_not_mem_take_one ended₁)]
  refine ⟨_, ended₁.take 1, ?_, rfl⟩
  rw [take_take]
  exact slash_not_mem_take_one ended₁

theorem Tree.next (tree : Tree l root dir) {c' : Nat} (inner : Inner (y :: x :: rest)) (isDir : dir c)
    (below : c ≠ root ∨ y ≠ [dot]) (found : l.search c y = some c') : dir c' ∧ c' ≠ root := by
  by_cases isDot : y = [dot]
  · have same := tree.self c isDir (below.resolve_right fun other => other isDot)
    rw [← isDot, found] at same
    cases same
    exact ⟨isDir, below.resolve_right fun other => other isDot⟩
  · exact tree.below c y c' isDir found isDot (inner.head.2 isDot)

theorem join_length (x y : Str) (rest : List Str) :
    (join (x :: y :: rest)).length = x.length + ((join (y :: rest)).length + 1) := by
  rw [join_cons, length_append, length_cons]

theorem join_tail_le (x : Str) {rest : List Str} (more : rest ≠ []) :
    (join rest).length ≤ (join (x :: rest)).length := by
  cases rest with
  | nil => exact absurd rfl more
  | cons y rest =>
    have len := join_length x y rest
    omega

/-- `search` of what `find_dir` has found. -/
def thenSearch (l : Lookups) (found : Option (Nat × Str)) : Option Nat :=
  found.bind fun (d, name) => l.search d name

theorem Tree.level_follow (tree : Tree l root dir)
    {found : Option (Nat × Str)} (inner : Inner (y :: rest)) (isDir : dir c)
    (below : c ≠ root ∨ y ≠ [dot] ∨ rest = []) (level : found = if rest = [] then some (c, y)
      else (l.search c y).bind fun c' => findDir l fuel c' (join rest ++ t))
    (onward : ∀ c', rest ≠ [] → dir c' → c' ≠ root →
      thenSearch l (findDir l fuel c' (join rest ++ t)) = follow l c' rest) :
    thenSearch l found = follow l c (y :: rest) := by
  cases rest with
  | nil =>
    rw [level, if_pos rfl, follow_single]
    rfl
  | cons x rest =>
    have more := cons_ne_nil x rest
    rw [level, if_neg more, follow_cons]
    cases next : l.search c y with
    | none => rfl
    | some c' =>
      have below' : c ≠ root ∨ y ≠ [dot] := by
        rcases below with here | here | none
        · exact .inl here
        · exact .inr here
        · exact absurd none more
      obtain ⟨isDir', under⟩ := tree.next inner isDir below' next
      exact onward c' more isDir' under

theorem follow_dot (tree : Tree l root dir) (isDir : dir c) (below : c ≠ root) (names : List Str) :
    follow l c ([dot] :: names) = follow l c names := by
  rw [follow_cons, tree.self c isDir below]
  rfl

section
variable (cut : cutNames names = y :: rest)
include cut

theorem cutNames_cases : names = y :: rest ∨ names = [dot] :: y :: rest := by
  rcases names with _ | ⟨x, _ | ⟨z, more⟩⟩
  · cases cut
  · exact .inl cut
  · rw [cutNames] at cut
    split at cut
    case isTrue isDot => exact .inr (by rw [isDot, cut])
    case isFalse => exact .inl cut

theorem cut_below (enough : names.length ≤ fuel + 1) (short : (join names).length ≤ 255) :
    rest.length ≤ fuel ∧ (rest ≠ [] → (join rest).length ≤ 255) := by
  have first : rest ≠ [] → (join rest).length ≤ (join (y :: rest)).length := join_tail_le y
  rcases cutNames_cases cut with rfl | rfl
  · rw [length_cons] at enough
    exact ⟨by omega, fun more => Nat.le_trans (first more) short⟩
  · have whole := join_tail_le [dot] (cons_ne_nil y rest)
    rw [length_cons, length_cons] at enough
    exact ⟨by omega, fun more => Nat.le_trans (Nat.le_trans (first more) whole) short⟩

theorem cut_names (spelled : Spelled names)
    (inner : Inner names) : Spelled (y :: rest) ∧ Inner (y :: rest) := by
  rcases cutNames_cases cut with rfl | rfl
  · exact ⟨spelled, inner⟩
  · exact ⟨spelled.tail, inner.tail⟩

end

theorem findDir_follow (tree : Tree l root dir) (fuel : Nat)
    (spelled : Spelled names) (inner : Inner names) (named : names ≠ [])
    (enough : names.length ≤ fuel) (short : (join names).length ≤ 255) (ended : Ended t)
    (quiet : slash ∉ t.take 2) (isDir : dir c) (below : c ≠ root) :
    thenSearch l (findDir l fuel c (join names ++ t)) = follow l c names := by
  induction fuel generalizing names c t with
  | zero =>
    have none : names = [] := length_eq_zero_iff.mp (Nat.le_zero.mp enough)
    exact absurd none named
  | succ fuel ih =>
    obtain ⟨y, rest, cut⟩ := exists_cons_of_ne_nil (cutNames_ne_nil named)
    obtain ⟨spelled', inner'⟩ := cut_names cut spelled inner
    obtain ⟨enough', short'⟩ := cut_below cut enough short
    obtain ⟨t', ended', quiet', level⟩ :=
      findDir_level (l := l) fuel c spelled inner short ended cut (.inr quiet)
    have all : follow l c names = follow l c (y :: rest) := by
      rcases cutNames_cases cut with rfl | rfl
      · rfl
      · exact follow_dot tree isDir below _
    rw [all]
    refine tree.level_follow inner' isDir (.inl below) level ?_
    intro c' more isDir' below'
    exact ih spelled'.tail inner'.tail more enough' (short' more) ended' quiet' isDir' below'

theorem findDir_follow_cut (tree : Tree l root dir) (fuel : Nat)
    (spelled : Spelled names) (inner : Inner names) (enough : names.length ≤ fuel + 1)
    (short : (join names).length ≤ 255) (ended : Ended t) (cut : cutNames names = y :: rest)
    (quiet : names = y :: rest ∨ slash ∉ t.take 2) (isDir : dir c)
    (below : c ≠ root ∨ y ≠ [dot] ∨ rest = []) :
    thenSearch l (findDir l (fuel + 1) c (join names ++ t)) = follow l c (y :: rest) := by
  obtain ⟨spelled', inner'⟩ := cut_names cut spelled inner
  obtain ⟨enough', short'⟩ := cut_below cut enough short
  obtain ⟨t', ended', quiet', level⟩ :=
    findDir_level (l := l) fuel c spelled inner short ended cut quiet
  refine tree.level_follow inner' isDir below level ?_
  intro c' more isDir' below'
  exact findDir_follow tree fuel spelled'.tail inner'.tail more enough' (short' more) ended' quiet'
    isDir' below'

theorem findDir_follow_absolute (tree : Tree l root dir) (fuel : Nat)
    (spelled : Spelled (y :: rest)) (inner : Inner (y :: rest)) (enough : rest.length ≤ fuel)
    (short : (join (y :: rest)).length < 255) (ended : Ended t) (isDir : dir c)
    (below : y ≠ [dot] ∨ rest = []) :
    thenSearch l (findDir l (fuel + 1) c (slash :: join (y :: rest) ++ t)) =
      follow l c (y :: rest) := by
  obtain ⟨t', ended', quiet', level⟩ := findDir_absolute (l := l) fuel c spelled short ended
  refine tree.level_follow inner isDir (.inr below) level ?_
  intro c' more isDir' below'
  have shorter := join_tail_le y more
  exact findDir_follow tree fuel spelled.tail inner.tail more enough (by omega) ended' quiet' isDir'
    below'

/-! ## `fat32_chdir` -/

def undot : List Str → List Str
  | [] => []
  | [x] => [x]
  | x :: y :: rest => if x = [dot] then undot (y :: rest) else x :: undot (y :: rest)

theorem undot_ne_nil (x : Str) (rest : List Str) : undot (x :: rest) ≠ [] := by
  induction rest generalizing x with
  | nil => exact cons_ne_nil x []
  | cons y rest ih =>
    rw [undot]
    split
    · exact ih y
    · exact cons_ne_nil x _

theorem dropDots_cons {b : UInt8} {s : Str} (notDot : ¬ (b = dot ∧ s.head? = some slash)) :
    dropDots (b :: s) = b :: dropDots s := by
  cases s with
  | nil => rfl
  | cons b' s =>
    rw [dropDots, if_neg]
    exact fun both => notDot ⟨both.1, congrArg some both.2⟩

theorem dropDots_dot (s : Str) : dropDots (dot :: slash :: s) = dropDots s := by
  rw [dropDots, if_pos ⟨rfl, rfl⟩]

theorem dropDots_last (free : slash ∉ x) : dropDots x = x := by
  induction x with
  | nil => rfl
  | cons b x ih =>
    rw [dropDots_cons, ih fun member => free (mem_cons_of_mem b member)]
    rintro ⟨-, first⟩
    exact free (mem_cons_of_mem b (List.mem_of_mem_head? first))

theorem dropDots_name {s : Str} (free : slash ∉ x) (ends : x.getLast? ≠ some dot) :
    dropDots (x ++ slash :: s) = x ++ slash :: dropDots s := by
  induction x with
  | nil =>
    refine dropDots_cons ?_
    rintro ⟨isDot, -⟩
    exact absurd isDot (by decide)
  | cons b x ih =>
    have free' : slash ∉ x := fun member => free (mem_cons_of_mem b member)
    rw [cons_append, dropDots_cons]
    · cases x with
      | nil =>
        rw [nil_append, dropDots_cons]
        · rfl
        · rintro ⟨isDot, -⟩
          exact absurd isDot (by decide)
      | cons b' x =>
        rw [ih free' (by rwa [List.getLast?_cons_cons] at ends)]
        rfl
    · rintro ⟨isDot, first⟩
      cases x with
      | nil => exact ends (by rw [isDot]; rfl)
      | cons b' x =>
        have same : b' = slash := Option.some.inj first
        exact free' (same ▸ mem_cons_self)

theorem dropDots_join (spelled : Spelled names)
    (dots : ∀ x ∈ names.dropLast, x.getLast? = some dot → x = [dot]) (named : names ≠ []) :
    dropDots (join names) = join (undot names) := by
  induction names with
  | nil => exact absurd rfl named
  | cons x rest ih =>
    have free := (spelled x mem_cons_self).1
    cases rest with
    | nil =>
      rw [undot, join_single]
      exact dropDots_last free
    | cons y rest =>
      have later := ih spelled.tail (fun z member => dots z (mem_cons_of_mem x member))
        (cons_ne_nil y rest)
      obtain ⟨z, more, eq⟩ := exists_cons_of_ne_nil (undot_ne_nil y rest)
      rw [join_cons, undot]
      split
      case isTrue isDot =>
        rw [isDot]
        exact (dropDots_dot _).trans later
      case isFalse other =>
        have ends : x.getLast? ≠ some dot := fun last => other (dots x mem_cons_self last)
        rw [dropDots_name free ends, later, eq, join_cons]

theorem mem_undot {z : Str} (member : z ∈ undot names) : z ∈ names := by
  induction names with
  | nil => exact member
  | cons x rest ih =>
    cases rest with
    | nil => exact member
    | cons y rest =>
      rw [undot] at member
      split at member
      · exact mem_cons_of_mem x (ih member)
      · rcases mem_cons.mp member with rfl | later
        · exact mem_cons_self
        · exact mem_cons_of_mem x (ih later)

theorem mem_dropLast_undot {z : Str} (member : z ∈ (undot names).dropLast) :
    z ∈ names.dropLast ∧ z ≠ [dot] := by
  induction names with
  | nil => cases member
  | cons x rest ih =>
    cases rest with
    | nil => cases member
    | cons y rest =>
      rw [dropLast_cons_cons]
      rw [undot] at member
      split at member
      · exact ⟨mem_cons_of_mem x (ih member).1, (ih member).2⟩
      case isFalse other =>
        rw [dropLast_cons_of_ne_nil (undot_ne_nil y rest)] at member
        rcases mem_cons.mp member with rfl | later
        · exact ⟨mem_cons_self, other⟩
        · exact ⟨mem_cons_of_mem x (ih later).1, (ih later).2⟩

theorem Inner.undot (inner : Inner names) : Inner (undot names) :=
  ⟨fun z member => inner.gap z (mem_dropLast_undot member).1,
    fun z member => inner.dots z (mem_dropLast_undot member).1⟩

theorem Spelled.undot (spelled : Spelled names) : Spelled (undot names) := fun z member =>
  spelled z (mem_undot member)

theorem dropDots_length_le (s : Str) : (dropDots s).length ≤ s.length := by
  induction s using dropDots.induct with
  | case1 => exact Nat.le_refl _
  | case2 b => exact Nat.le_refl _
  | case3 b b' rest both ih =>
    rw [dropDots, if_pos both]
    exact Nat.le_trans ih (Nat.le_add_right _ 2)
  | case4 b b' rest other ih =>
    rw [dropDots, if_neg other]
    exact succ_le_succ ih

theorem length_le_join (names : List Str) : names.length ≤ (join names).length + 1 := by
  induction names with
  | nil => exact Nat.zero_le _
  | cons x rest ih =>
    cases rest with
    | nil => simp
    | cons y rest =>
      have len := join_length x y rest
      rw [length_cons]
      omega

theorem cutNames_undot (names : List Str) : cutNames (undot names) = undot names := by
  rcases cut : undot names with _ | ⟨x, _ | ⟨y, rest⟩⟩
  · rfl
  · rfl
  · have member : x ∈ (undot names).dropLast := by
      rw [cut]
      exact mem_cons_self
    rw [cutNames, if_neg (mem_dropLast_undot member).2]

theorem follow_undot (tree : Tree l root dir) (inner : Inner (y :: rest)) (isDir : dir c)
    (below : c ≠ root ∨ y ≠ [dot] ∨ rest = []) :
    follow l c (undot (y :: rest)) = follow l c (y :: rest) := by
  induction rest generalizing y c with
  | nil => rfl
  | cons x rest ih =>
    rw [undot]
    split
    case isTrue isDot =>
      have under : c ≠ root := by
        rcases below with under | other | none
        · exact under
        · exact absurd isDot other
        · cases none
      rw [isDot, follow_dot tree isDir under]
      exact ih inner.tail isDir (.inl under)
    case isFalse other =>
      rw [follow_cons, follow_cons]
      cases found : l.search c y with
      | none => rfl
      | some c' =>
        obtain ⟨isDir', under⟩ := tree.next inner isDir (.inr other) found
        exact ih inner.tail isDir' (.inl under)

/-! ## Agreement -/

/-- What a path must be for the three walks to agree. -/
structure Plain (places : Places) (absolute : Bool) (names : List Str) (after : List UInt8) :
    Prop where
  named : names ≠ [] ∧ names ≠ [[]]
  short : (spell absolute names).length ≤ 255
  special : spell absolute names ∉ specialPaths
  inner : Inner names
  top : absolute = true → names.head? = some [dot] → names.length = 1
  home : absolute = false → places.cwd = places.root →
    (∀ x, names.head? = some x → x.head? ≠ some dot) ∨
      ∃ y rest, names = [dot] :: y :: rest ∧ y :: rest ≠ [[]] ∧ (y = [dot] → rest = [])
  behind : absolute = false → names.head? = some [dot] → after.head? ≠ some slash

variable {places : Places} {after stale : List UInt8}

theorem join_ne_nil (inner : Inner (y :: rest)) (named : y :: rest ≠ [[]]) : join
    (y :: rest) ≠ [] := by
  cases rest with
  | nil =>
    rw [join_single]
    rintro rfl
    exact named rfl
  | cons x rest =>
    rw [join_cons]
    exact append_ne_nil_of_right_ne_nil y (cons_ne_nil slash _)

theorem join_head_ne (spelled : Spelled (y :: rest)) (inner : Inner (y :: rest)) :
    (join (y :: rest)).head? ≠ some slash := by
  have front := join_ne_slash spelled inner (t := []) (.inl rfl)
  rwa [append_nil, ← List.head?_eq_getElem?] at front

theorem openat_follow (tree : Tree l places.root dir) (directory : Bool) {path : Str}
    (special : path ∉ specialPaths) (spelled : Spelled (y :: rest)) (inner : Inner (y :: rest))
    (named : y :: rest ≠ [[]])
    (copied : prePath places.root path (places.base path) = join (y :: rest)) :
    openedDirectory (fat32Openat l places directory path) =
      follow l (places.base path) (y :: rest) := by
  simp only [fat32Openat, if_neg special, copied, if_neg (join_ne_nil inner named)]
  exact openatLoop_follow tree directory _ spelled (cons_ne_nil y rest)
    (length_le_join (y :: rest)) _

theorem undot_cut (cut : cutNames names = y :: rest) : undot names = undot (y :: rest) := by
  rcases cutNames_cases cut with rfl | rfl
  · rfl
  · rw [undot, if_pos rfl]

theorem undot_follow (tree : Tree l root dir) (spelled : Spelled (y :: rest))
    (inner : Inner (y :: rest)) (enough : (undot (y :: rest)).length ≤ fuel + 1)
    (short : (join (undot (y :: rest))).length ≤ 255) (isDir : dir c)
    (below : c ≠ root ∨ y ≠ [dot] ∨ rest = []) :
    thenSearch l (findDir l (fuel + 1) c (join (undot (y :: rest)) ++ 0 :: stale)) =
      follow l c (y :: rest) := by
  obtain ⟨z, more, eq⟩ := exists_cons_of_ne_nil (undot_ne_nil y rest)
  have cut : cutNames (undot (y :: rest)) = z :: more := (cutNames_undot _).trans eq
  have first : c ≠ root ∨ z ≠ [dot] ∨ more = [] := by
    cases more with
    | nil => exact .inr (.inr rfl)
    | cons x more =>
      have member : z ∈ (undot (y :: rest)).dropLast := by
        rw [eq]
        exact mem_cons_self
      exact .inr (.inl (mem_dropLast_undot member).2)
  rw [findDir_follow_cut tree fuel spelled.undot inner.undot enough short (.inr ⟨stale, rfl⟩) cut
    (.inl eq) isDir first, ← eq]
  exact follow_undot tree inner isDir below

theorem undot_fits (spelled : Spelled (y :: rest)) (inner : Inner (y :: rest)) :
    (join (undot (y :: rest))).length ≤ (join (y :: rest)).length := by
  rw [← dropDots_join spelled inner.dots (cons_ne_nil y rest)]
  exact dropDots_length_le _

theorem join_undot_ne_nil (inner : Inner (y :: rest)) (named : y :: rest ≠ [[]])
    (below : y ≠ [dot] ∨ rest = []) : join (undot (y :: rest)) ≠ [] := by
  cases rest with
  | nil => exact join_ne_nil inner named
  | cons x rest =>
    have other : y ≠ [dot] := below.resolve_right (cons_ne_nil x rest)
    obtain ⟨z, more, eq⟩ := exists_cons_of_ne_nil (undot_ne_nil x rest)
    rw [undot, if_neg other, eq, join_cons]
    exact append_ne_nil_of_right_ne_nil y (cons_ne_nil slash _)

theorem agree_absolute (tree : Tree l places.root dir) (isDir : dir places.root) (directory : Bool)
    (spelled : Spelled names) (plain : Plain places true names after) (stale : List UInt8) :
    openedDirectory (fat32Openat l places directory (spell true names)) =
        follow l places.root names ∧
      findAndSearch l places (spell true names) after = follow l places.root names ∧
      fat32Chdir l places (spell true names) stale = follow l places.root names := by
  obtain ⟨y, rest, rfl⟩ := exists_cons_of_ne_nil plain.named.1
  have inner := plain.inner
  have below : y ≠ [dot] ∨ rest = [] := by
    by_cases isDot : y = [dot]
    · have one := plain.top rfl (congrArg some isDot)
      exact .inr (length_eq_zero_iff.mp (Nat.succ.inj one))
    · exact .inl isDot
  have short : (join (y :: rest)).length < 255 := plain.short
  have base : places.base (spell true (y :: rest)) = places.root := if_pos rfl
  refine ⟨?_, ?_, ?_⟩
  · have opened := openat_follow tree directory plain.special spelled inner plain.named.2
      (if_pos rfl)
    rwa [base] at opened
  · have few := length_le_join (y :: rest)
    rw [length_cons] at few
    rw [findAndSearch, base]
    exact findDir_follow_absolute tree _ spelled inner
      (le_succ_of_le (le_of_succ_le_succ few)) short (.inr ⟨after, rfl⟩) isDir below
  · have path : dropDots (spell true (y :: rest)) = slash :: join (undot (y :: rest)) := by
      rw [← dropDots_join spelled inner.dots (cons_ne_nil y rest)]
      refine dropDots_cons ?_
      rintro ⟨isDot, -⟩
      exact absurd isDot (by decide)
    have more : slash :: join (undot (y :: rest)) ≠ [slash] := by
      intro nothing
      exact join_undot_ne_nil inner plain.named.2 below (List.cons.inj nothing).2
    simp only [fat32Chdir, path, if_neg more, List.head?_cons, if_true, drop_succ_cons, drop_zero]
    refine undot_follow tree spelled inner ?_ ?_ isDir (.inr below)
    · exact le_succ_of_le (length_le_join _)
    · exact Nat.le_trans (undot_fits spelled inner) (Nat.le_of_lt short)

theorem prePath_relative (spelled : Spelled names) (plain : Plain places false names after) :
    ∃ y rest, prePath places.root (join names) places.cwd = join (y :: rest) ∧
      y :: rest ≠ [[]] ∧ (names = y :: rest ∨ names = [dot] :: y :: rest) ∧
      (places.cwd ≠ places.root ∧ names = y :: rest ∨ y ≠ [dot] ∨ rest = []) := by
  obtain ⟨x, tail, rfl⟩ := exists_cons_of_ne_nil plain.named.1
  have first := join_head_ne spelled plain.inner
  by_cases atRoot : places.cwd = places.root
  · rcases plain.home rfl atRoot with other | ⟨y, rest, same, named, next⟩
    · have notDot := other x rfl
      have head : (join (x :: tail)).head? ≠ some dot := by
        cases tail with
        | nil => rwa [join_single]
        | cons z tail =>
          rw [join_cons, List.head?_append_of_ne_nil _ plain.inner.head.1]
          exact notDot
      refine ⟨x, tail, ?_, plain.named.2, .inl rfl, .inr (.inl ?_)⟩
      · rw [prePath, if_neg first, if_pos atRoot, if_neg head]
      · rintro rfl
        exact notDot rfl
    · cases same
      refine ⟨y, rest, ?_, named, .inr rfl, .inr ?_⟩
      · have path : join ([dot] :: y :: rest) = dot :: slash :: join (y :: rest) := join_cons ..
        have long : (dot :: slash :: join (y :: rest)).length ≠ 1 := by simp
        rw [path] at first ⊢
        rw [prePath, if_neg first, if_pos atRoot, List.head?_cons, if_pos rfl, if_neg long]
        rfl
      · by_cases isDot : y = [dot]
        · exact .inr (next isDot)
        · exact .inl isDot
  · refine ⟨x, tail, ?_, plain.named.2, .inl rfl, .inl ⟨atRoot, rfl⟩⟩
    rw [prePath, if_neg first, if_neg atRoot]

section
variable (tree : Tree l places.root dir) (isDir : dir places.cwd)
include tree isDir

theorem relative_follow
    (spelled : Spelled names) (plain : Plain places false names after) (stale : List UInt8)
    (cut : cutNames names = y :: rest) (below : places.cwd ≠ places.root ∨ y ≠ [dot] ∨ rest = []) :
    findAndSearch l places (join names) after = follow l places.cwd (y :: rest) ∧
      fat32Chdir l places (join names) stale = follow l places.cwd (y :: rest) := by
  have inner := plain.inner
  have short : (join names).length ≤ 255 := plain.short
  have few := length_le_join names
  have base : places.base (join names) = places.cwd := by
    obtain ⟨x, tail, rfl⟩ := exists_cons_of_ne_nil plain.named.1
    exact if_neg (join_head_ne spelled inner)
  obtain ⟨spelled', inner'⟩ := cut_names cut spelled inner
  constructor
  · have quiet : names = y :: rest ∨ slash ∉ (0 :: after).take 2 := by
      rcases cutNames_cases cut with same | rfl
      · exact .inl same
      · have other := plain.behind rfl rfl
        refine .inr ?_
        cases after with
        | nil => decide
        | cons b after =>
          have ne : slash ≠ b := fun same => other (congrArg some same.symm)
          simp [ne]
          decide
    rw [findAndSearch, base]
    exact findDir_follow_cut tree _ spelled inner few short (.inr ⟨after, rfl⟩) cut quiet isDir below
  · have path : dropDots (join names) = join (undot (y :: rest)) := by
      rw [dropDots_join spelled inner.dots plain.named.1, undot_cut cut]
    have fits : (join (undot (y :: rest))).length ≤ 255 := by
      rw [← path]
      exact Nat.le_trans (dropDots_length_le _) short
    have first : (join (undot (y :: rest))).head? ≠ some slash := by
      obtain ⟨z, more, eq⟩ := exists_cons_of_ne_nil (undot_ne_nil y rest)
      have spelled₁ := spelled'.undot
      have inner₁ := inner'.undot
      rw [eq] at spelled₁ inner₁ ⊢
      exact join_head_ne spelled₁ inner₁
    have notRoot : join (undot (y :: rest)) ≠ [slash] := by
      intro same
      exact first (congrArg List.head? same)
    simp only [fat32Chdir, path, if_neg notRoot, if_neg first]
    exact undot_follow tree spelled' inner' (length_le_join _) fits isDir below

theorem agree_relative (directory : Bool)
    (spelled : Spelled names) (plain : Plain places false names after) (stale : List UInt8) :
    ∃ seen, openedDirectory (fat32Openat l places directory (join names)) =
        follow l places.cwd seen ∧
      findAndSearch l places (join names) after = follow l places.cwd seen ∧
      fat32Chdir l places (join names) stale = follow l places.cwd seen := by
  obtain ⟨y, rest, copied, named, names_eq, below⟩ := prePath_relative spelled plain
  have base : places.base (join names) = places.cwd := by
    obtain ⟨x, tail, rfl⟩ := exists_cons_of_ne_nil plain.named.1
    exact if_neg (join_head_ne spelled plain.inner)
  refine ⟨y :: rest, ?_, ?_⟩
  · have parts : Spelled (y :: rest) ∧ Inner (y :: rest) := by
      rcases names_eq with rfl | rfl
      · exact ⟨spelled, plain.inner⟩
      · exact ⟨spelled.tail, plain.inner.tail⟩
    have opened := openat_follow tree directory plain.special parts.1 parts.2 named
      (by rw [spell, if_neg Bool.false_ne_true, base]; exact copied)
    rwa [spell, if_neg Bool.false_ne_true, base] at opened
  · rcases names_eq with same | same
    · cases rest with
      | nil => exact relative_follow tree isDir spelled plain stale (by rw [same]; rfl) (.inr (.inr rfl))
      | cons z more =>
        by_cases isDot : y = [dot]
        · have under : places.cwd ≠ places.root := by
            rcases below with ⟨under, -⟩ | other | none
            · exact under
            · exact absurd isDot other
            · cases none
          rw [isDot, follow_dot tree isDir under]
          exact relative_follow tree isDir spelled plain stale
            (by rw [same, cutNames, if_pos isDot]) (.inl under)
        · exact relative_follow tree isDir spelled plain stale
            (by rw [same, cutNames, if_neg isDot]) (.inr (.inl isDot))
    · refine relative_follow tree isDir spelled plain stale (by rw [same, cutNames, if_pos rfl]) ?_
      rcases below with ⟨-, other⟩ | below
      · exact absurd (congrArg List.length (same.symm.trans other)) (by simp)
      · exact .inr below

end

/-- In every tree of directories, from every current directory and for every `Plain` path the
walks of `fat32_openat`, of `find_dir` and `search`, and of `fat32_chdir` lead to the same
directory, or all fail. -/
theorem resolvers_agree (places : Places) (tree : Tree l places.root dir)
    (rootDir : dir places.root) (cwdDir : dir places.cwd) (absolute : Bool)
    (spelled : Spelled names) (after stale : List UInt8)
    (plain : Plain places absolute names after) (directory : Bool) :
    openedDirectory (fat32Openat l places directory (spell absolute names)) =
        findAndSearch l places (spell absolute names) after ∧
      fat32Chdir l places (spell absolute names) stale =
        findAndSearch l places (spell absolute names) after := by
  cases absolute with
  | true =>
    obtain ⟨opened, found, changed⟩ := agree_absolute tree rootDir directory spelled plain stale
    exact ⟨opened.trans found.symm, changed.trans found.symm⟩
  | false =>
    obtain ⟨seen, opened, found, changed⟩ :=
      agree_relative tree cwdDir directory spelled plain stale
    exact ⟨opened.trans found.symm, changed.trans found.symm⟩

/-- The root has a directory `a`, which has a directory `b`. -/
def smallTree : Lookups :=
  let search : Nat → Str → Option Nat := fun d x =>
    if d = 2 ∧ x = [97] then some 3
    else if d = 3 ∧ x = [98] then some 4
    else if d = 3 ∧ x = [dot] then some 3
    else if d = 3 ∧ x = [dot, dot] then some 2
    else if d = 4 ∧ x = [dot] then some 4
    else if d = 4 ∧ x = [dot, dot] then some 3
    else none
  ⟨search, fun d x => (search d x).map fun c => (c, true)⟩

/-- `fat32_openat` does not find `a//b`, and the other two do. -/
theorem openat_stops_at_empty_name :
    openedDirectory (fat32Openat smallTree ⟨2, 2⟩ true (spell false [[97], [], [98]])) = none ∧
      openedDirectory (fat32Openat smallTree ⟨2, 2⟩ false (spell false [[97], [], [98]])) = none ∧
      findAndSearch smallTree ⟨2, 2⟩ (spell false [[97], [], [98]]) [] = some 4 ∧
      fat32Chdir smallTree ⟨2, 2⟩ (spell false [[97], [], [98]]) [] = some 4 := by
  decide

end CCore.Fat
