import CCore.Lib.Run
import CCore.Socket.Table
import Mathlib.Data.Fintype.Basic

/-!
# Datagrams between bound sockets

The queues of all sockets lie in the page at address 0 of the calling process, each from its
own `head` to its own `tail`.  A datagram arrives as long as it is received in the address
space it was sent from and neither another socket's datagram nor received bytes were stored
over it there.
-/
namespace CCore.Socket

open Fs Run Function List Option RingBuffer Nat

/-- What was sent to each socket and what each has received is recorded beside the table. -/
structure Traffic (U : Type) where
  net : Net U
  sent : Nat → List UInt8
  got : Nat → List UInt8

inductive Act (U : Type) where
  | sendto (u : U) (dest : List UInt8) (buf len : Nat)
  | recvfrom (u : U) (i buf len : Nat)

variable {r : RingBuffer} {data : List UInt8}
variable {dest queued : List UInt8} {d : RingData} {i : Nat}

section Machine
variable {U : Type} [DecidableEq U] (names : Nat → Option (List UInt8)) (home : Nat → U)

/-- `names i` is the address that socket `i` was bound to. -/
def step (t : Traffic U) : Act U → Option (Traffic U)
  | .sendto u dest buf len => do
    let (_, net) ← doSendto t.net u buf len dest
    let data := (loadBytes (t.net.space u) buf len).getD []
    some { t with
      net
      sent := fun i => if names i = some dest then t.sent i ++ data else t.sent i }
  | .recvfrom u i buf len => do
    let (out, net) ← doRecvfrom t.net u i buf len
    some { t with net, got := update t.got i (t.got i ++ out) }

def Delivered (t : Traffic U) : Prop := ∀ i ∈ slots, names i ≠ none → t.got i <+: t.sent i

/-- A call receives the next bytes that were sent to its socket, as many as it asks for, and
nothing else receives. -/
def Receives (t : Traffic U) : Act U → Traffic U → Prop
  | .sendto .., next => next.got = t.got
  | .recvfrom _ i _ len, next =>
    next.got = update t.got i
      (t.got i ++ ((t.sent i).drop (t.got i).length).take len)

/-- The table with UDP sockets bound to the different addresses of `names`. -/
structure Bound (sock : Nat → Sock) : Prop where
  distinct : ∀ i j a, names i = some a → names j = some a → i = j
  slot : ∀ i a, names i = some a → i ∈ slots ∧ a.length = 16
  addr : ∀ i a, names i = some a → (sock i).addr.isSome
  udp : ∀ i a, names i = some a → (sock i).protocol = ipprotoUdp
  unbound : ∀ i ∈ slots, names i = none → (sock i).addr = none

/-- The sockets are as `do_socket` makes them and the pages at address 0 are mapped. -/
structure Opened (t : Traffic U) : Prop extends Bound names t.net.sock where
  fresh : ∀ i a, names i = some a → (t.net.sock i).data = RingData.init
  mapped : ∀ i a, names i = some a → (t.net.space (home i) 0).isSome
  silent : ∀ i, t.sent i = [] ∧ t.got i = []

/-- The process sees the addresses of the bound sockets where they were given to `do_bind`. -/
def SeesNames (sock : Nat → Sock) (space : Space) : Prop :=
  ∀ i ∈ slots, ∀ ptr ∈ (sock i).addr, ∀ a ∈ names i, kmemcmp space ptr a = some true

/-- Both calls are made from the home of the socket and their buffers are mapped.  What is sent
fits, spares the queues of the other sockets that have the same home, and does not overlap its
buffer; what is received spares all these queues. -/
def Careful (t : Traffic U) : Act U → Prop
  | .sendto u dest buf len =>
    dest.length = 16 ∧ SeesNames names t.net.sock (t.net.space u) ∧
      ∀ i ∈ slots, names i = some dest → u = home i ∧
        len ≤ ((t.net.sock i).data.onBytes fun _ => 0).free ∧
        (loadBytes (t.net.space u) buf len).isSome ∧
        (∀ k < len, ∀ k' < len,
          buf + k' ≠ ((t.net.sock i).data.tail + k) % (t.net.sock i).data.size) ∧
        ∀ j ∈ slots, j ≠ i → names j ≠ none → home j = u → ∀ k < len,
          ¬ ((t.net.sock j).data.onBytes fun _ => 0).Occupied
            (((t.net.sock i).data.tail + k) % (t.net.sock i).data.size)
  | .recvfrom u i buf len => names i ≠ none ∧ u = home i ∧
      ∀ k < min len ((t.net.sock i).data.onBytes fun _ => 0).used,
        (t.net.space u ((buf + k) / pageSize)).isSome ∧
        ∀ j ∈ slots, names j ≠ none → home j = u →
          ¬ ((t.net.sock j).data.onBytes fun _ => 0).Occupied (buf + k)

instance (t : Traffic U) : (act : Act U) → Decidable (Careful names home t act)
  | .sendto .. => by unfold Careful SeesNames; infer_instance
  | .recvfrom .. => by unfold Careful; infer_instance

/-- The queue of a socket over the page at address 0. -/
structure Holds (d : RingData) (page : Nat → UInt8) (queued : List UInt8) : Prop where
  null : d.page = 0
  wf : (d.onBytes page).WellFormed
  contents : (d.onBytes page).contents = queued

/-- What every careful step keeps. -/
structure Sound (t : Traffic U) : Prop extends Bound names t.net.sock where
  queue : ∀ i a, names i = some a → ∃ page queued, t.net.space (home i) 0 = some page ∧
    Holds (t.net.sock i).data page queued ∧ t.sent i = t.got i ++ queued

variable {names home} {t next : Traffic U}
omit [DecidableEq U] in
theorem Opened.sound (opened : Opened names home t) : Sound names home t where
  toBound := opened.toBound
  queue := by
    intro i a named
    obtain ⟨page, mapped⟩ := isSome_iff_exists.mp (opened.mapped i a named)
    refine ⟨page, [], mapped, ?_, ?_⟩
    · rw [opened.fresh i a named]
      exact ⟨by decide, wellFormed_init page, contents_init page⟩
    · rw [(opened.silent i).1, (opened.silent i).2]
      rfl

theorem kmemcmp_eq {space : Space} {a b : List UInt8} {ptr : Nat}
    (shows : kmemcmp space ptr a = some true) (length : b.length = a.length) :
    kmemcmp space ptr b = some (decide (b = a)) := by
  induction a generalizing b ptr with
  | nil =>
    rw [eq_nil_of_length_eq_zero length]
    rfl
  | cons x rest ih =>
    cases b with
    | nil => cases length
    | cons y others =>
      simp only [kmemcmp, bind_eq_bind] at shows ⊢
      obtain ⟨here, found, later⟩ := bind_eq_some_iff.mp shows
      rw [found, bind_some]
      split at later
      · rename_i same
        subst same
        split
        · rename_i same
          rw [ih later (Nat.succ.inj length), ← same]
          simp
        · rename_i different
          simp [Ne.symm different]
      · cases later

theorem findTarget_eq {sock : Nat → Sock} {space : Space}
    (bound : Bound names sock) (sees : SeesNames names sock space) (length : dest.length = 16)
    (rest : List Nat) (inside : rest ⊆ slots) :
    findTarget space dest sock rest = some (rest.find? fun i => names i = some dest) := by
  induction rest with
  | nil => rfl
  | cons i rest ih =>
    have here := inside mem_cons_self
    have later := ih (fun j mem => inside (mem_cons_of_mem i mem))
    cases named : names i with
    | none => simp [findTarget, bound.unbound i here named, later, named]
    | some a =>
      obtain ⟨ptr, addr⟩ := isSome_iff_exists.mp (bound.addr i a named)
      have compared : kmemcmp space ptr dest = some (decide (dest = a)) :=
        kmemcmp_eq (sees i here ptr addr a named) (length.trans (bound.slot i a named).2.symm)
      rcases eq_or_ne dest a with rfl | same
      · simp [findTarget, addr, compared, Sock.takesDatagrams, bound.udp i dest named, named]
      · simp [findTarget, addr, compared, same, later, named, Ne.symm same]

theorem sendLoop_fits (nonempty : data ≠ []) (fits : data.length ≤ r.free) :
    sendLoop (data.length + 1) r data = some (r.write data).2 := by
  obtain ⟨rounds, more⟩ : ∃ rounds, data.length = rounds + 1 :=
    exists_eq_succ_of_ne_zero (fun zero => nonempty (eq_nil_of_length_eq_zero zero))
  have all : (r.write data).1 = data.length := by
    rw [write_fst]
    omega
  rw [more, sendLoop, if_neg nonempty]
  dsimp only
  rw [all, drop_length, sendLoop, if_pos rfl]

theorem write_buf_other (wf : r.WellFormed) {x : Nat}
    (fits : data.length ≤ r.free) (inside : x < r.size) (other : ¬ r.Reserved data.length x) :
    (r.write data).2.buf x = r.buf x := by
  have len : min r.free data.length = data.length := Nat.min_eq_right fits
  unfold RingBuffer.write
  simp only
  rw [len]
  split
  · exact wf.filled_other fits inside other
  · rfl

theorem read_buf (r : RingBuffer) (size : Nat) : (r.read size).2.buf = r.buf := by
  unfold RingBuffer.read
  simp only
  split <;> rfl

theorem Holds.of_ring (null : d.page = 0) (wf : r.WellFormed) (contents : r.contents = queued) :
    Holds { d with size := r.size, head := r.head, tail := r.tail } r.buf queued :=
  ⟨null, wf, contents⟩

theorem Holds.congr {page page' : Nat → UInt8} (holds : Holds d page queued)
    (same : ∀ x < ringBufferSize, (d.onBytes page).Occupied x → page' x = page x) :
    Holds d page' queued := by
  refine ⟨holds.null, ⟨holds.wf.size_eq, holds.wf.head_lt, holds.wf.tail_lt⟩, ?_⟩
  rw [← holds.contents]
  have queue : ∀ x, (d.onBytes page).Occupied x → (d.onBytes page').buf x = (d.onBytes page).buf x := by
    intro x occupied
    apply same x _ occupied
    obtain ⟨k, _, rfl⟩ := occupied
    rw [← holds.wf.size_eq]
    exact mod_lt _ (zero_lt_of_lt holds.wf.head_lt)
  exact contents_congr rfl rfl rfl queue

theorem Bound.putRing {s : Net U} (bound : Bound names s.sock) (u : U) (i : Nat)
    (r : RingBuffer) : Bound names (s.putRing u i r).sock := by
  have kept : ∀ j, ((s.putRing u i r).sock j).addr = (s.sock j).addr ∧
      ((s.putRing u i r).sock j).protocol = (s.sock j).protocol := by
    intro j
    rcases eq_or_ne j i with rfl | same
    · simp [Net.putRing]
    · simp [Net.putRing, same]
  refine ⟨bound.distinct, bound.slot, ?_, ?_, ?_⟩
  · intro j a named
    rw [(kept j).1]
    exact bound.addr j a named
  · intro j a named
    rw [(kept j).2]
    exact bound.udp j a named
  · intro j inside named
    rw [(kept j).1]
    exact bound.unbound j inside named

theorem length_loadBytes {space : Space} {a n : Nat} (load : loadBytes space a n = some data) :
    data.length = n := by
  induction n generalizing a data with
  | zero =>
    cases load
    rfl
  | succ n ih =>
    obtain ⟨b, _, load⟩ := bind_eq_some_iff.mp load
    obtain ⟨rest, later, same⟩ := bind_eq_some_iff.mp load
    cases same
    rw [length_cons, ih later]

/-- Bytes are stored where pages are mapped, and change nothing else of the page at 0. -/
theorem storeBytes_eq {space : Space} {page : Nat → UInt8} (a : Nat) (out : List UInt8)
    (mapped : ∀ k < out.length, (space ((a + k) / pageSize)).isSome) (zeroth : space 0 = some page) :
    ∃ space' page', storeBytes space a out = some space' ∧ space' 0 = some page' ∧
      ∀ x < pageSize, (∀ k < out.length, a + k ≠ x) → page' x = page x := by
  induction out generalizing space page a with
  | nil => exact ⟨space, page, rfl, zeroth, fun _ _ _ => rfl⟩
  | cons b rest ih =>
    obtain ⟨old, here⟩ := isSome_iff_exists.mp (mapped 0 (Nat.zero_lt_succ _))
    rw [Nat.add_zero] at here
    have stored : storeByte space a b =
        some (update space (a / pageSize) (some (update old (a % pageSize) b))) := by
      rw [storeByte, here, map_some]
    obtain ⟨next, first, kept⟩ : ∃ next,
        update space (a / pageSize) (some (update old (a % pageSize) b)) 0 = some next ∧
          ∀ x < pageSize, a ≠ x → next x = page x := by
      by_cases low : a / pageSize = 0
      · rw [low, zeroth] at here
        cases here
        refine ⟨update page (a % pageSize) b, by rw [low, update_self], ?_⟩
        intro x small other
        have below : a < pageSize := (Nat.div_eq_zero_iff_lt (by decide)).mp low
        rw [Nat.mod_eq_of_lt below, update_of_ne (Ne.symm other)]
      · exact ⟨page, by rw [update_of_ne (Ne.symm low), zeroth], fun _ _ _ => rfl⟩
    have further : ∀ k < rest.length, (update space (a / pageSize)
        (some (update old (a % pageSize) b)) ((a + 1 + k) / pageSize)).isSome := by
      intro k small
      by_cases same : (a + 1 + k) / pageSize = a / pageSize
      · rw [same, update_self]
        rfl
      · rw [update_of_ne same, Nat.add_assoc, Nat.add_comm 1 k]
        exact mapped (k + 1) (Nat.succ_lt_succ small)
    obtain ⟨space', page', ran, last, others⟩ := ih (a + 1) further first
    refine ⟨space', page', by rw [storeBytes, stored, bind_some, ran], last, ?_⟩
    intro x small apart
    rw [others x small, kept x small (apart 0 (Nat.zero_lt_succ _))]
    intro k below
    rw [Nat.add_assoc, Nat.add_comm 1 k]
    exact apart (k + 1) (Nat.succ_lt_succ below)

theorem read_onBytes (d : RingData) (page page' : Nat → UInt8) (n : Nat) :
    { ((d.onBytes page).read n).2 with buf := page' } = ((d.onBytes page').read n).2 := by
  have used : (d.onBytes page').used = (d.onBytes page).used := rfl
  simp only [RingBuffer.read, used]
  split <;> rfl

section
variable (sound : Sound names home t)
include sound

theorem Sound.store {page page' : Nat → UInt8} {space : Space} {u : U}
    (mapped : t.net.space u 0 = some page) (after : space 0 = some page')
    (same : ∀ j b, names j = some b → home j = u → ∀ x < ringBufferSize,
      ((t.net.sock j).data.onBytes page).Occupied x → page' x = page x) :
    Sound names home ⟨⟨t.net.sock, update t.net.space u space⟩, t.sent, t.got⟩ where
  toBound := sound.toBound
  queue := by
    intro j b named
    obtain ⟨pageJ, queuedJ, mappedJ, holdsJ, sentJ⟩ := sound.queue j b named
    by_cases together : home j = u
    · have pages : pageJ = page := by
        rw [together, mapped] at mappedJ
        exact (Option.some.inj mappedJ).symm
      subst pages
      refine ⟨page', queuedJ, ?_, holdsJ.congr (same j b named together), sentJ⟩
      simp [together, after]
    · refine ⟨pageJ, queuedJ, ?_, holdsJ, sentJ⟩
      simpa [together] using mappedJ

theorem Sound.access {a page queued} (named : names i = some a)
    (mapped : t.net.space (home i) 0 = some page) (holds : Holds (t.net.sock i).data page queued)
    {queued' : List UInt8} (wf : r.WellFormed) (contents : r.contents = queued')
    {sent got : Nat → List UInt8} (here : sent i = got i ++ queued')
    (there : ∀ j, j ≠ i → sent j = t.sent j ∧ got j = t.got j)
    (spares : ∀ j b, names j = some b → j ≠ i → home j = home i →
      ∀ x < ringBufferSize, ((t.net.sock j).data.onBytes page).Occupied x → r.buf x = page x) :
    Sound names home ⟨t.net.putRing (home i) i r, sent, got⟩ where
  toBound := sound.toBound.putRing (home i) i r
  queue := by
    intro j b namedJ
    rcases eq_or_ne j i with rfl | same
    · refine ⟨r.buf, queued', ?_, ?_, here⟩
      · simp [Net.putRing, holds.null]
      · simpa [Net.putRing] using Holds.of_ring holds.null wf contents
    · obtain ⟨pageJ, queuedJ, mappedJ, holdsJ, sentJ⟩ := sound.queue j b namedJ
      have data : ((t.net.putRing (home i) i r).sock j).data = (t.net.sock j).data := by
        simp [Net.putRing, same]
      have logs : sent j = got j ++ queuedJ := by rw [(there j same).1, (there j same).2, sentJ]
      rw [data]
      by_cases together : home j = home i
      · -- the two queues share a page
        have pages : pageJ = page := by
          rw [together, mapped] at mappedJ
          exact (Option.some.inj mappedJ).symm
        subst pages
        refine ⟨r.buf, queuedJ, ?_, ?_, logs⟩
        · simp [Net.putRing, holds.null, together]
        · exact holdsJ.congr (spares j b namedJ same together)
      · refine ⟨pageJ, queuedJ, ?_, holdsJ, logs⟩
        simpa [Net.putRing, together] using mappedJ

variable {u : U}

theorem Sound.sendto {buf len : Nat} (careful : Careful names home t (.sendto u dest buf len)) :
    ∃ next, step names t (.sendto u dest buf len) = some next ∧ Sound names home next ∧
      next.got = t.got := by
  obtain ⟨length, sees, target⟩ := careful
  have scan := findTarget_eq sound.toBound sees length slots (fun _ mem => mem)
  cases found : slots.find? fun i => names i = some dest with
  | none =>
    -- nobody has this address
    have nobody : ∀ i, names i ≠ some dest := by
      intro i named
      have := List.find?_eq_none.mp found i (sound.slot i dest named).1
      simp [named] at this
    have silent : (fun i => if names i = some dest then
        t.sent i ++ (loadBytes (t.net.space u) buf len).getD [] else t.sent i) = t.sent := by
      funext i
      rw [if_neg (nobody i)]
    refine ⟨t, ?_, sound, rfl⟩
    simp [step, doSendto, scan, found, silent]
  | some i =>
    have hit := List.find?_some found
    have named : names i = some dest := of_decide_eq_true hit
    obtain ⟨athome, fits, loads, -, spares⟩ := target i (List.mem_of_find?_eq_some found) named
    subst athome
    obtain ⟨data, load⟩ := isSome_iff_exists.mp loads
    obtain rfl : data.length = len := length_loadBytes load
    have others : ∀ j, j ≠ i → names j ≠ some dest := by
      intro j different namedJ
      exact different (sound.distinct j i dest namedJ named)
    have sent_eq : ∀ j, (if names j = some dest then t.sent j ++ data else t.sent j) =
        if j = i then t.sent j ++ data else t.sent j := by
      intro j
      by_cases same : j = i
      · rw [same, if_pos named, if_pos rfl]
      · rw [if_neg (others j same), if_neg same]
    obtain ⟨page, queued, mapped, holds, sentI⟩ := sound.queue i dest named
    by_cases nothing : data = []
    · refine ⟨t, ?_, sound, rfl⟩
      subst nothing
      simp [step, doSendto, scan, found, loadBytes]
    · have loop : sendLoop (data.length + 1) ((t.net.sock i).data.onBytes page) data =
          some (((t.net.sock i).data.onBytes page).write data).2 :=
        sendLoop_fits nothing fits
      refine ⟨⟨t.net.putRing (home i) i (((t.net.sock i).data.onBytes page).write data).2,
        fun j => if names j = some dest then t.sent j ++ data else t.sent j, t.got⟩, ?_, ?_, rfl⟩
      · simp [step, doSendto, scan, found, nothing, holds.null, mapped, loop, load]
      refine sound.access named mapped holds (holds.wf.write data)
        ((holds.wf.write_contents fits).trans (by rw [holds.contents])) ?_ ?_ ?_
      · rw [sent_eq, if_pos rfl, sentI, append_assoc]
      · intro j different
        rw [sent_eq, if_neg different]
        exact ⟨rfl, rfl⟩
      · intro j b namedJ different together x inside occupied
        apply write_buf_other holds.wf fits
        · rw [holds.wf.size_eq]
          exact inside
        · rintro ⟨k, small, rfl⟩
          exact spares j (sound.slot j b namedJ).1 different (by simp [namedJ]) together k
            small occupied

theorem Sound.recvfrom {buf len : Nat} (careful : Careful names home t (.recvfrom u i buf len)) :
    ∃ next, step names t (.recvfrom u i buf len) = some next ∧ Sound names home next ∧
      Receives t (.recvfrom u i buf len) next := by
  obtain ⟨bound, rfl, clear⟩ := careful
  obtain ⟨a, named⟩ := ne_none_iff_exists'.mp bound
  obtain ⟨page, queued, mapped, holds, sentI⟩ := sound.queue i a named
  have unread : (t.sent i).drop (t.got i).length = queued := by rw [sentI, drop_left]
  have count : ((t.net.sock i).data.onBytes fun _ => 0).used = queued.length := by
    rw [← holds.contents, length_contents]
    rfl
  by_cases nothing : min len queued.length = 0
  · refine ⟨{ t with got := update t.got i (t.got i ++ []) }, ?_, ?_, ?_⟩
    · simp [step, doRecvfrom, count, nothing]
    · simpa using sound
    · have none : queued.take len = [] := by
        rw [take_eq_take_min, nothing, take_zero]
      simp only [Receives, unread, none]
  · have out : (((t.net.sock i).data.onBytes page).read (min len queued.length)).1 =
        queued.take len := by
      rw [holds.wf.read_fst, holds.contents, ← take_eq_take_min]
    rw [count] at clear
    have many : (queued.take len).length = min len queued.length := length_take
    obtain ⟨space, page', stored, after, kept⟩ := storeBytes_eq buf (queued.take len)
      (by rw [many]; exact fun k small => (clear k small).1) mapped
    -- the store spares the queues, so that the rest of this one is read from the new page
    have spared : Sound names home ⟨⟨t.net.sock, update t.net.space (home i) space⟩, t.sent, t.got⟩ := by
      refine sound.store mapped after ?_
      intro j b namedJ together x inside occupied
      apply kept x (Nat.lt_trans inside (by decide))
      rw [many]
      rintro k small rfl
      exact (clear k small).2 j (sound.slot j b namedJ).1 (by simp [namedJ]) together occupied
    obtain ⟨page₁, queued₁, mapped₁, holds₁, sent₁⟩ := spared.queue i a named
    obtain rfl : queued = queued₁ := append_cancel_left (sentI.symm.trans sent₁)
    obtain rfl : page' = page₁ := by
      dsimp only at mapped₁
      rw [update_self, after] at mapped₁
      exact Option.some.inj mapped₁
    have rest : (((t.net.sock i).data.onBytes page').read (min len queued.length)).2.contents =
        queued.drop len := by
      rw [holds₁.wf.read_contents, holds₁.contents]
      rcases Nat.le_total len queued.length with few | many
      · rw [Nat.min_eq_left few]
      · rw [Nat.min_eq_right many, drop_length, drop_eq_nil_of_le many]
    refine ⟨⟨Net.putRing ⟨t.net.sock, update t.net.space (home i) space⟩ (home i) i
      (((t.net.sock i).data.onBytes page').read (min len queued.length)).2, t.sent,
      update t.got i (t.got i ++ queued.take len)⟩, ?_, ?_, ?_⟩
    · simp [step, doRecvfrom, count, nothing, holds.null, mapped, out, stored, after, read_onBytes]
    · refine spared.access named mapped₁ holds₁ (holds₁.wf.read _) rest ?_ ?_ ?_
      · simp only [update_self]
        rw [append_assoc, take_append_drop, sentI]
      · intro j different
        exact ⟨rfl, update_of_ne different _ _⟩
      · intro j b namedJ different together x inside occupied
        rw [read_buf]
        rfl
    · simp only [Receives, unread]

theorem Sound.step {act : Act U} (careful : Careful names home t act) :
    ∃ next, step names t act = some next ∧ Sound names home next ∧ Receives t act next := by
  cases act with
  | sendto u dest buf len => exact sound.sendto careful
  | recvfrom u i buf len => exact sound.recvfrom careful

end

omit [DecidableEq U] in
theorem Sound.delivered (sound : Sound names home t) : Delivered names t := by
  intro i _ bound
  obtain ⟨a, named⟩ := ne_none_iff_exists'.mp bound
  obtain ⟨_, queued, _, _, sent⟩ := sound.queue i a named
  exact ⟨queued, sent.symm⟩

end Machine

def port (n : UInt8) : List UInt8 := [2, 0, 0, n, 127, 0, 0, 1, 0, 0, 0, 0, 0, 0, 0, 0]

def twoNames (i : Nat) : Option (List UInt8) :=
  if i = 1 then some (port 80) else if i = 2 then some (port 81) else none

/-- A program that is loaded at address 0 keeps the two addresses and two bytes to send in its
second page. -/
def lowSpace : Space := fun page =>
  if page = 0 then some fun _ => 0
  else if page = 1 then some fun k => (port 80 ++ port 81 ++ [97, 98]).getD k 0
  else none

def twoSockets : Traffic Unit :=
  let net := (doSocket (initSocket fun _ => lowSpace) 2 2 ipprotoUdp (some 3)).2
  let net := (doSocket net 2 2 ipprotoUdp (some 4)).2
  ⟨doBind (doBind net 1 4096) 2 4112, fun _ => [], fun _ => []⟩

theorem twoSockets_opened : Opened twoNames (fun _ => ()) twoSockets := by
  have named : ∀ i a, twoNames i = some a → i = 1 ∧ a = port 80 ∨ i = 2 ∧ a = port 81 := by
    intro i a name
    unfold twoNames at name
    split at name
    · exact .inl ⟨‹_›, (Option.some.inj name).symm⟩
    · split at name
      · exact .inr ⟨‹_›, (Option.some.inj name).symm⟩
      · cases name
  refine ⟨⟨?_, ?_, ?_, ?_, by decide⟩, ?_, ?_, fun _ => ⟨rfl, rfl⟩⟩
  · intro i j a nameI nameJ
    rcases named i a nameI with ⟨rfl, rfl⟩ | ⟨rfl, rfl⟩ <;>
      rcases named j _ nameJ with ⟨rfl, same⟩ | ⟨rfl, same⟩ <;>
      first | rfl | exact absurd same (by decide)
  all_goals
    intro i a name
    rcases named i a name with ⟨rfl, rfl⟩ | ⟨rfl, rfl⟩ <;> decide

end CCore.Socket
