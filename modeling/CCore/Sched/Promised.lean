import CCore.Sched.Waited

/-!
# Calls of `do_wait4` keep their promise

The loop of `do_wait4` one entry at a time, and what it leaves when it sleeps and when it returns.
-/
namespace CCore.Sched

open Shelves Chase Function List Option
variable {w w' : Watched} {s s' : State} {loc : Index → Option Head} {p i : Index}
  {busy leaving : Option Index} {pid : Option Nat} {c : Wait}

theorem trail_parents {x : Index} {path : List Index} (trail : Trail (firstZombie s) x path) :
    ∀ y ∈ path, ∃ z ∈ x :: path, (s.pcb y).parent = some z := by
  induction path generalizing x with
  | nil => exact nofun
  | cons i rest ih =>
    intro y member
    rcases mem_cons.mp member with rfl | later
    · have found : isZombieSon s x y = true := List.find?_some trail.1
      exact ⟨x, mem_cons_self, (of_decide_eq_true found).1⟩
    · obtain ⟨z, inPath, son⟩ := ih trail.2 y later
      exact ⟨z, mem_cons_of_mem x inPath, son⟩

structure Reaps (w : Watched) (p i : Index) (w' : Watched) : Prop where
  ghost : Ghost w' (some p) none
  waits : Waits w'.sched p
  exited : w'.exited = w.exited
  returned : w'.returned = w.returned
  child : w.pid i ∈ w'.freed
  freed : ∀ m ∈ w.freed, m ∈ w'.freed
  sons : ∀ j m, Son w.sched p j m → m ∈ w'.freed ∨ j ≠ i ∧ Son w'.sched p j m
  call : ∀ c, w.call p = some c →
    ∃ sons, w'.call p = some { c with freed := c.freed ++ sons } ∧ ∀ m ∈ sons, m = w.pid i

theorem reap_reaps (freed : Freed) (ghost : Ghost w (some p) none) (waits : Waits w.sched p)
    (zombie : (w.sched.pcb i).status = .zombie) (run : w.reap freed p i = some w') :
    Reaps w p i w' := by
  obtain ⟨loc, mid⟩ := ghost.mid
  obtain ⟨s, exited, rest⟩ := bind_eq_some_iff.mp run
  cases rest
  obtain ⟨path, loc', trail, exits, moves⟩ :=
    handleExitPcb_exits freed 101 mid (mid.leaves_of_zombie zombie) exited
  obtain ⟨loc₁, _, -, waits', -⟩ := reap_waits freed mid waits zombie exited
  have zombies : ∀ y ∈ i :: path, (w.sched.pcb y).status = .zombie := by
    intro y member
    rcases mem_cons.mp member with rfl | later
    · exact zombie
    · exact trail_zombies trail y later
  have used : ∀ y ∈ i :: path, (w.sched.pcb y).used = true := fun y member =>
    mid.used_of (by simp [zombies y member])
  have stays : p ∉ i :: path := by
    intro member
    exact nomatch waits.running.symm.trans (zombies p member)
  have idle : ∀ y ∈ i :: path, ∀ pid j, w.sched.task y ≠ .wait4 pid j := by
    intro y member pid j task
    have alive := ghost.caller y pid j task
    exact nomatch alive.symm.trans (stage_zombie.mpr (zombies y member))
  have after : Ghost (w.advance s) (some p) none := by
    refine ghost.moves moves ⟨loc', exits.mid⟩ ?_ ?_ (fun j taken => .inl taken) nofun
    · intro y member
      exact ⟨used y member, ghost.zombie y (stage_zombie.mpr (zombies y member))⟩
    · rintro y (member | member)
      · exact idle y member
      · exact idle y member
  refine ⟨?_, waits', rfl, rfl, ?_, ?_, ?_, ?_⟩
  · refine after.congr rfl rfl rfl rfl ?_
    intro q other
    have ne : q ≠ p := fun eq => other (congrArg some eq.symm)
    exact update_of_ne ne ..
  · exact (mem_freed_advance moves used).mpr (.inr ⟨i, mem_cons_self, rfl⟩)
  · exact fun m member => (mem_freed_advance moves used).mpr (.inl member)
  · intro j m son
    by_cases member : j ∈ i :: path
    · exact .inl ((mem_freed_advance moves used).mpr (.inr ⟨j, member, son.pid⟩))
    · refine .inr ⟨?_, son.moves moves member stays⟩
      rintro rfl
      exact member mem_cons_self
  · intro c call
    refine ⟨((w.gone s).filter fun x => decide ((w.sched.pcb x).parent = some p)).map w.pid,
      by simp [Watched.note, Watched.advance, call], ?_⟩
    intro m inSons
    obtain ⟨y, inGone, rfl⟩ := mem_map.mp inSons
    obtain ⟨inGone, son⟩ := mem_filter.mp inGone
    have parent := of_decide_eq_true son
    rcases mem_cons.mp ((mem_gone moves used).mp inGone) with rfl | later
    · rfl
    · obtain ⟨z, inPath, other⟩ := trail_parents trail y later
      cases parent.symm.trans other
      exact absurd inPath stays

/-! ## The loop -/

structure Reaped (w : Watched) (c : Wait) (n : Nat) : Prop where
  ret : c.ret = some n
  freed : n ∈ w.freed
  stored : ∃ e, (n, e) ∈ w.exited ∧ c.stored = some (wexitstatus e)
  only : ∀ m ∈ c.freed, m = n

structure Looping (w : Watched) (p : Index) (pid : Option Nat) (entries : List Index) (c : Wait) :
    Prop where
  arg : c.pid = pid
  all : pid = none → ∀ m ∈ c.children, m ∈ w.freed ∨ ∃ j ∈ entries, Son w.sched p j m
  one : ∀ n, pid = some n → c.ret = none ∧ c.freed = [] ∨ Reaped w c n

theorem Looping.right (looping : Looping w p pid [] c) (ghost : Ghost w busy leaving) :
    Right w c := by
  constructor
  · intro n asked ret
    rcases looping.one n (looping.arg.symm.trans asked) with ⟨none, -⟩ | reaped
    · exact nomatch none.symm.trans ret
    · obtain ⟨e, exited, stored⟩ := reaped.stored
      exact ⟨⟨e, exited, fun e' => ghost.exitedOne n e e' exited, stored⟩,
        count_eq_one_of_mem ghost.freedOnce reaped.freed, reaped.only⟩
  · intro asked m child
    rcases looping.all (looping.arg.symm.trans asked) m child with freed | ⟨j, member, -⟩
    · exact ⟨ghost.gone m freed, count_eq_one_of_mem ghost.freedOnce freed⟩
    · cases member

variable {rest : List Index}

theorem Looping.skip (looping : Looping w p pid (i :: rest) c)
    (other : pid = none → (w.sched.pcb i).used = true → (w.sched.pcb i).parent ≠ some p) :
    Looping w p pid rest c := by
  refine ⟨looping.arg, ?_, looping.one⟩
  intro all m child
  rcases looping.all all m child with freed | ⟨j, member, son⟩
  · exact .inl freed
  · rcases mem_cons.mp member with rfl | later
    · exact absurd son.parent (other all son.used)
    · exact .inr ⟨j, later, son⟩

theorem Looping.fresh {entries : List Index} (looping : Looping w p pid entries c)
    (ghost : Ghost w busy leaving) (used : (w.sched.pcb i).used = true)
    (asked : pid = some (w.pid i)) : c.freed = [] := by
  rcases looping.one _ asked with ⟨-, none⟩ | reaped
  · exact none
  · exact absurd reaped.freed (ghost.live i used)

theorem note_ghost (ghost : Ghost w (some p) leaving) (f : Wait → Wait) :
    Ghost (w.note p f) (some p) leaving := by
  refine ghost.congr rfl rfl rfl rfl ?_
  intro q other
  exact update_of_ne (fun eq => other (congrArg some eq.symm)) ..

theorem block_ghost (ghost : Ghost w (some p) none) (waits : Waits w.sched p)
    (call : w.call p = some c) (sorted : (i :: rest).Pairwise (· < ·))
    (looping : Looping w p pid (i :: rest) c)
    (son : (w.sched.pcb i).parent = some p) (asked : pid = none ∨ pid = some (w.pid i))
    (alive : (w.sched.pcb i).status ≠ .exited ∧ (w.sched.pcb i).status ≠ .zombie) :
    Ghost { w.note p fun c => { c with ret := some (w.pid i) } with
      sched := doBlock (w.sched.setTask p (.wait4 pid i)) p (.child i) } none none := by
  obtain ⟨loc, mid⟩ := ghost.mid
  have plain := plain_wait4 pid i
  have mid₁ := mid.setTask waits.plain plain
  have settled : ¬ SettingUp (w.sched.setTask p (.wait4 pid i)) i := by
    rw [settingUp_setTask waits.plain plain]
    rintro ⟨m, making | made⟩
    · exact alive.1 (mid.making m i making)
    · cases son.symm.trans (mid.made m i made).2
      exact waits.plain i (.inr made)
  have watched : ∀ j, Queue.child i = .child j →
      ((w.sched.setTask p (.wait4 pid i)).pcb j).status ≠ .exited ∧
        ¬ SettingUp (w.sched.setTask p (.wait4 pid i)) j := by
    intro j same
    cases same
    exact ⟨alive.1, settled⟩
  have mid₂ := blocked_mid mid₁ waits.running watched
  have used : (w.sched.pcb i).used = true := mid.used_of alive.1
  -- first the process is put to sleep, then another one is picked
  set s₁ : State := { (w.sched.setTask p (.wait4 pid i)).setStatus p .blocked with
    lists := push (w.sched.setTask p (.wait4 pid i)).lists (.wait (.child i)) p } with s₁_def
  have field : ∀ {F : Type} (f : Pcb → F),
      f { w.sched.pcb p with status := .blocked } = f (w.sched.pcb p) →
      ∀ j, f (s₁.pcb j) = f (w.sched.pcb j) := by
    intro F f same j
    rcases eq_or_ne j p with rfl | own
    · exact (congrArg f (update_self ..)).trans same
    · exact congrArg f (update_of_ne own ..)
  have lists : ∀ q j, q ∈ s₁.lists (.wait (.child j)) ↔ q = p ∧ j = i ∨ w.SleepsOn q j := by
    intro q j
    rcases eq_or_ne j i with rfl | here
    · simp [s₁_def, push]
    · have other : Head.wait (.child j) ≠ .wait (.child i) := fun same => here (by cases same; rfl)
      simp [s₁_def, push, other, here]
  have alters : Alters w.sched s₁ p := by
    refine ⟨field Pcb.pid rfl, field Pcb.used rfl, field Pcb.parent rfl,
      field (fun b => b.status.stage) (by simp [waits.running, Status.stage]), rfl, ?_, ?_, ?_,
      by simp [waits.running, Status.stage]⟩
    · intro q j other
      rw [lists]
      simp [other]
    · exact fun q other => setTask_of_ne other
    · intro j sleeps
      rcases (lists p j).mp sleeps with ⟨-, rfl⟩ | before
      · exact ⟨pid, setTask_self ..⟩
      · exact absurd before (ghost.not_asleep waits.running j)
  have noted := note_ghost ghost fun c => { c with ret := some (w.pid i) }
  have asleep := (noted.alters alters ⟨_, mid₂⟩).settle (by
    intro asked' j task
    have same : Task.wait4 pid i = .wait4 asked' j := (setTask_self w.sched p _).symm.trans task
    cases same
    refine ⟨{ c with ret := some (w.pid i) }, w.pid i, by simp [Watched.note, call], looping.arg,
      rfl, asked, .inl ⟨?_, fun _ => (lists p i).mpr (.inl ⟨rfl, rfl⟩)⟩, ?_, ?_⟩
    · exact ⟨(field Pcb.used rfl i).trans used, field Pcb.pid rfl i,
        (field Pcb.parent rfl i).trans son⟩
    · intro all m child
      rcases looping.all all m child with freed | ⟨k, member, other⟩
      · exact .inr (.inl freed)
      · rcases mem_cons.mp member with rfl | later
        · exact .inl other.pid.symm
        · refine .inr (.inr ⟨k, (pairwise_cons.mp sorted).1 k later, ?_⟩)
          exact ⟨(field Pcb.used rfl k).trans other.used, (field Pcb.pid rfl k).trans other.pid,
            (field Pcb.parent rfl k).trans other.parent⟩
    · intro some
      exact looping.fresh ghost used (asked.resolve_left some))
  have picked := asleep.stays (doScheduler_moves mid₂) ?_ (forall_mem_nil _)
  · exact picked
  · obtain ⟨loc', mid', -⟩ := doScheduler_inv mid₂
    exact ⟨loc', mid'⟩

theorem Looping.reap {f : Wait → Wait} {e : BitVec 32} {sons : List Nat}
    (looping : Looping w p pid (i :: rest) c) (ghost : Ghost w busy leaving)
    (used : (w.sched.pcb i).used = true) (exited : (w.pid i, e) ∈ w.exited)
    (asked : pid = none ∨ pid = some (w.pid i)) (reaps : Reaps (w.note p f) p i w')
    (own : ∀ m ∈ sons, m = w.pid i) : Looping w' p pid rest { c with
    ret := some (w.pid i), stored := some (wexitstatus e), freed := c.freed ++ sons } := by
  refine ⟨looping.arg, ?_, ?_⟩
  · intro all m child
    rcases looping.all all m child with freed | ⟨j, member, son⟩
    · exact .inl (reaps.freed m freed)
    · rcases reaps.sons j m son with freed | ⟨other, still⟩
      · exact .inl freed
      · exact .inr ⟨j, (mem_cons.mp member).resolve_left other, still⟩
  · intro n one
    have same : pid = some (w.pid i) := asked.resolve_left (by rw [one]; exact some_ne_none n)
    cases one.symm.trans same
    refine .inr ⟨rfl, reaps.child, ⟨e, ?_, rfl⟩, ?_⟩
    · rw [reaps.exited]
      exact exited
    · rw [looping.fresh ghost used same, nil_append]
      exact own

theorem loop_ghost (freed : Freed) (pid : Option Nat) (p : Index) (entries : List Index)
    (sorted : entries.Pairwise (· < ·)) (ghost : Ghost w (some p) none) (waits : Waits w.sched p)
    (call : w.call p = some c) (looping : Looping w p pid entries c) (fresh : w.returned = none)
    (run : Watched.loop freed pid p entries w = some w') : Ghost w' none none ∧ Promised w' := by
  induction entries generalizing w c with
  | nil =>
    cases run
    have cleared : Ghost { w with
        call := update w.call p none, returned := w.call p } (some p) none := by
      refine ghost.congr rfl rfl rfl rfl ?_
      intro q other
      exact update_of_ne (fun eq => other (congrArg some eq.symm)) ..
    have right := looping.right ghost
    refine ⟨cleared.drop waits.running waits.plain, ?_⟩
    intro c' returned
    cases call.symm.trans returned
    exact ⟨right.one, right.all⟩
  | cons i rest ih =>
    have sortedRest := (pairwise_cons.mp sorted).2
    obtain ⟨loc, mid⟩ := ghost.mid
    rw [Watched.loop] at run
    dsimp only at run
    split_ifs at run with son alive zombie
    · cases run
      refine ⟨block_ghost ghost waits call sorted looping son.1 son.2 alive, ?_⟩
      intro c' returned
      cases fresh.symm.trans returned
    · obtain ⟨w₁, reaped, others⟩ := bind_eq_some_iff.mp run
      have used : (w.sched.pcb i).used = true := mid.used_of (by simp [zombie])
      have reaps := reap_reaps freed (note_ghost ghost _) waits zombie reaped
      obtain ⟨sons, call₁, own⟩ := reaps.call { c with
        ret := some (w.pid i), stored := some (wexitstatus (w.exitStatus i)) }
        (by simp [Watched.note, call, Watched.pid])
      exact ih sortedRest reaps.ghost reaps.waits call₁
        (looping.reap ghost used (ghost.zombie i (stage_zombie.mpr zombie)) son.2 reaps own)
        (reaps.returned.trans fresh) others
    · refine ih sortedRest ghost waits call (looping.skip ?_) fresh run
      intro _ used
      have exited : (w.sched.pcb i).status = .exited := by
        by_contra notExited
        exact alive ⟨notExited, zombie⟩
      rw [(mid.used i).mpr exited] at used
      cases used
    · refine ih sortedRest ghost waits call (looping.skip ?_) fresh run
      intro all _ parent
      exact son ⟨parent, .inl all⟩

theorem entries_sorted (k : Nat) : ((List.finRange 100).drop k).Pairwise (· < ·) :=
  (pairwise_lt_finRange 100).sublist (drop_sublist k _)

theorem mem_entries {k : Nat} {j : Index} (after : k ≤ j.val) : j ∈ (List.finRange 100).drop k := by
  refine mem_iff_getElem.mpr ⟨j.val - k, by simp; omega, ?_⟩
  ext
  simp
  omega

theorem resume_ghost (freed : Freed) (ghost : Ghost w none none) (waits : Waits w.sched p)
    (task : w.sched.task p = .wait4 pid i) (fresh : w.returned = none)
    (run : Watched.resume freed w p pid i = some w') : Ghost w' none none ∧ Promised w' := by
  obtain ⟨c, n, call, waiting⟩ := ghost.waiting p pid i (some_ne_none p).symm task
  have noted := note_ghost (ghost.engage p) fun c =>
    { c with stored := some (wexitstatus (w.exitStatus i)) }
  have call₁ : (w.note p fun c => { c with stored := some (wexitstatus (w.exitStatus i)) }).call p =
      some { c with stored := some (wexitstatus (w.exitStatus i)) } := by
    simp [Watched.note, call]
  have sorted := entries_sorted (i.val + 1)
  unfold Watched.resume at run
  dsimp only at run
  split_ifs at run with zombie
  · obtain ⟨w₁, reaped, others⟩ := bind_eq_some_iff.mp run
    have zombieBefore : w.stage i = .zombie := stage_zombie.mpr zombie
    rcases waiting.awaited with ⟨son, -⟩ | ⟨-, -, notZombie, -⟩
    · have same : w.pid i = n := son.pid
      -- before the child is reaped the call is where it was when it went to sleep
      have before : Looping w p pid (i :: (List.finRange 100).drop (i.val + 1))
          { c with ret := none } := by
        refine ⟨waiting.arg, ?_, ?_⟩
        · intro all m child
          rcases waiting.others all m child with rfl | old | ⟨j, after, other⟩
          · exact .inr ⟨i, mem_cons_self, son⟩
          · exact .inl old
          · exact .inr ⟨j, mem_cons_of_mem i (mem_entries after), other⟩
        · intro m asked
          exact .inl ⟨rfl, waiting.unfreed (by rw [asked]; exact some_ne_none m)⟩
      have reaps := reap_reaps freed noted waits zombie reaped
      obtain ⟨sons, call₂, own⟩ := reaps.call _ call₁
      have after := before.reap (ghost.engage p) son.used (ghost.zombie i zombieBefore)
        (same ▸ waiting.asked) reaps own
      have ret : c.ret = some (w.pid i) := same ▸ waiting.ret
      rw [← ret] at after
      exact loop_ghost freed pid p _ sorted reaps.ghost reaps.waits call₂ after
        (reaps.returned.trans fresh) others
    · exact absurd zombieBefore notZombie
  · have notZombie : w.stage i ≠ .zombie := fun is => zombie (stage_zombie.mp is)
    rcases waiting.awaited with ⟨son, sleeps⟩ | ⟨gone, exited, -, -⟩
    · have notExited := (ghost.used_iff i).mp son.used
      have alive : w.stage i = .alive := by
        cases stage : w.stage i with
        | alive => rfl
        | zombie => exact absurd stage notZombie
        | exited => exact absurd stage notExited
      exact absurd (sleeps alive) (ghost.not_asleep waits.running i)
    · refine loop_ghost freed pid p _ sorted noted waits call₁ ⟨waiting.arg, ?_, ?_⟩ fresh run
      · intro all m child
        rcases waiting.others all m child with rfl | old | ⟨j, after, other⟩
        · exact .inl gone
        · exact .inl old
        · exact .inr ⟨j, mem_entries after, other⟩
      · intro m asked
        have same : m = n := by
          rcases waiting.asked with none | some
          · exact nomatch none.symm.trans asked
          · exact Option.some.inj (asked.symm.trans some)
        rw [same]
        refine .inr ⟨waiting.ret, gone, ⟨_, exited, rfl⟩, ?_⟩
        have nothing : c.freed = [] := waiting.unfreed (by rw [asked]; exact some_ne_none m)
        intro k member
        rw [nothing] at member
        cases member

theorem wait4_ghost (freed : Freed) (ghost : Ghost w none none) (waits : Waits w.sched p)
    (run : Watched.loop freed pid p (List.finRange 100) { w with
        call := update w.call p (some ⟨pid, w.children p, none, none, []⟩)
        returned := none } = some w') : Ghost w' none none ∧ Promised w' := by
  have started : Ghost { w with
      call := update w.call p (some ⟨pid, w.children p, none, none, []⟩)
      returned := none } (some p) none := by
    refine (ghost.engage p).congr rfl rfl rfl rfl ?_
    intro q other
    exact update_of_ne (fun eq => other (congrArg some eq.symm)) ..
  refine loop_ghost freed pid p _ (entries_sorted 0) started waits (update_self ..)
    ⟨rfl, ?_, fun n _ => .inl ⟨rfl, rfl⟩⟩ rfl run
  intro _ m child
  obtain ⟨j, member, same⟩ := mem_map.mp child
  have both := (mem_filter.mp member).2
  rw [Bool.and_eq_true] at both
  exact .inr ⟨j, mem_finRange j, both.1, same, of_decide_eq_true both.2⟩

end CCore.Sched
