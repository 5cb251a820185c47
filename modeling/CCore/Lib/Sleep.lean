import Mathlib.Data.List.Basic

/-!
# Code that may go to sleep

Kernel code runs on a state until it returns or goes to sleep.  A sleeping piece
of code leaves the state as it is at that point and names the place where it is
to be resumed, so it is an `EStateM` computation whose error is that place.
`Ends` states what holds at either end of one execution, with one rule for each
way of composing code.
-/
namespace CCore.Sleep

open List
variable {W S A B : Type}
variable {code : EStateM W S A} {next : A → EStateM W S B} {s s' : S}

theorem bind_of_ok {a : A} (run : code s = .ok a s') : (code >>= next) s = next a s' := by
  show (match code s with | .ok a s' => next a s' | .error w s' => .error w s') = _
  rw [run]

theorem bind_of_error {w : W} (run : code s = .error w s') : (code >>= next) s = .error w s' := by
  show (match code s with | .ok a s' => next a s' | .error w s' => .error w s') = _
  rw [run]

theorem get_bind (next : S → EStateM W S A) (s : S) :
    ((get : EStateM W S S) >>= next) s = next s s := rfl

theorem modify_bind (change : S → S) (next : PUnit → EStateM W S A) (s : S) :
    ((modify change : EStateM W S PUnit) >>= next) s = next ⟨⟩ (change s) := rfl

/-- The execution returns in `post` or falls asleep in `asleep`. -/
def Ends (result : EStateM.Result W S A) (post : A → S → Prop) (asleep : W → S → Prop) : Prop :=
  match result with
  | .ok a s => post a s
  | .error w s => asleep w s

namespace Ends

variable {post : A → S → Prop} {asleep : W → S → Prop}

theorem weaken {result : EStateM.Result W S A} {post' : A → S → Prop} {asleep' : W → S → Prop}
    (ends : Ends result post asleep) (after : ∀ a s, post a s → post' a s)
    (stopped : ∀ w s, asleep w s → asleep' w s) : Ends result post' asleep' := by
  cases result with
  | ok a s => exact after a s ends
  | error w s => exact stopped w s ends

theorem of_modify {change : S → S} {post : PUnit → S → Prop} (holds : post ⟨⟩ (change s)) :
    Ends ((modify change : EStateM W S PUnit) s) post asleep := holds

theorem bind (post : A → S → Prop) {last : B → S → Prop} (first : Ends (code s) post asleep)
    (second : ∀ a s', post a s' → Ends (next a s') last asleep) :
    Ends ((code >>= next) s) last asleep := by
  cases run : code s with
  | ok a s' =>
    rw [run] at first
    rw [bind_of_ok run]
    exact second a s' first
  | error w s' =>
    rw [run] at first
    rw [bind_of_error run]
    exact first

theorem forM_each (body : B → EStateM W S PUnit) (asleep : W → S → Prop) (inv : S → Prop)
    (did : B → S → Prop) (items : List B) (round : ∀ b ∈ items, ∀ s, inv s →
      Ends (body b s) (fun _ s' => inv s' ∧ did b s' ∧ ∀ b', did b' s → did b' s') asleep)
    (s : S) (start : inv s) :
    Ends (items.forM body s) (fun _ s' => inv s' ∧ (∀ b ∈ items, did b s') ∧
      ∀ b', did b' s → did b' s') asleep := by
  induction items generalizing s with
  | nil => exact ⟨start, fun _ mem => absurd mem not_mem_nil, fun _ earlier => earlier⟩
  | cons b rest ih =>
    refine bind _ (round b mem_cons_self s start) ?_
    rintro _ s' ⟨kept, now, stays⟩
    have later := ih (fun b' mem => round b' (mem_cons_of_mem b mem)) s' kept
    refine later.weaken ?_ (fun _ _ stop => stop)
    rintro _ s'' ⟨keptAll, doneAll, staysAll⟩
    refine ⟨keptAll, ?_, fun b' earlier => staysAll b' (stays b' earlier)⟩
    intro b' mem
    rcases mem_cons.mp mem with rfl | tail
    · exact staysAll b' now
    · exact doneAll b' tail

end Ends

theorem foldl_each (body : S → B → S) (inv : S → Prop) (did : B → S → Prop) (items : List B)
    (round : ∀ b ∈ items, ∀ s, inv s →
      inv (body s b) ∧ did b (body s b) ∧ ∀ b', did b' s → did b' (body s b))
    (s : S) (start : inv s) : inv (items.foldl body s) ∧ (∀ b ∈ items, did b (items.foldl body s)) ∧
    ∀ b', did b' s → did b' (items.foldl body s) := by
  induction items generalizing s with
  | nil => exact ⟨start, fun _ mem => absurd mem not_mem_nil, fun _ earlier => earlier⟩
  | cons b rest ih =>
    obtain ⟨kept, now, stays⟩ := round b mem_cons_self s start
    obtain ⟨keptAll, doneAll, staysAll⟩ :=
      ih (fun b' mem => round b' (mem_cons_of_mem b mem)) (body s b) kept
    refine ⟨keptAll, ?_, fun b' earlier => staysAll b' (stays b' earlier)⟩
    intro b' mem
    rcases mem_cons.mp mem with rfl | tail
    · exact staysAll b' now
    · exact doneAll b' tail

end CCore.Sleep
