import CCore.Fat.ByteArray
import CCore.Lib.Run

/-!
# The cursor of a descriptor over whole runs

A session is one descriptor of a regular file and the disk, under any sequence
of `fat32_read`, `fat32_write` and `fat32_lseek`.  The cursor is lost in two
ways.  A call of several rounds adds up distances from its start, or takes more
clusters than it moved over.  A seek to the very end of the file leaves the old
cursor in place.  `designates_along` says that it is right in every state of a
run none of whose calls does one of these.
-/
namespace CCore.Fat

open Fs Run List Option

structure Session where
  disk : Disk
  nfd : Fd

inductive FileCall where
  | read (count : Nat)
  | write (data : List UInt8)
  | lseek (off : Nat) (whence : Whence)
  deriving DecidableEq, Repr

def fileStep (fat : FatSb) (s : Session) : FileCall → Option Session
  | .read count => (fat32Read fat s.disk s.nfd count).map fun r => { s with nfd := r.2.2 }
  | .write data => (fat32Write fat s.disk s.nfd data).map fun r => ⟨r.2.1, r.2.2⟩
  | .lseek off whence => some { s with nfd := (fat32Lseek fat s.disk s.nfd off whence).2 }

def CursorRight (vol : Volume) (s : Session) : Prop :=
  ∃ chain, ChainOn vol s.disk mEoc chain ∧ s.nfd.firstClusNum = chain.getD 0 0 ∧
    0 < chain.length ∧ Designates vol chain s.nfd

/-- After `n` bytes at `pos` the cursor is where the position is: there was one
round, or the call has come to another cluster and has taken as many clusters as
it has passed. -/
def Volume.CursorKept (vol : Volume) (pos n : Nat) : Prop :=
  vol.rounds pos n ≤ 1 ∨ (pos + n) / vol.cs ≠ pos / vol.cs ∧ vol.endIndex pos n = (pos + n) / vol.cs

/-- The calls after which the cursor is right again.  A read may also end at the
end of the chain, where no cluster is to be designated; a write must start in the
chain and find the clusters that it takes; a seek to the end of the file must
find the cursor there. -/
def Keeps (vol : Volume) (s : Session) : FileCall → Prop
  | .read count => ∀ chain, ChainOn vol s.disk mEoc chain → s.nfd.firstClusNum = chain.getD 0 0 →
      chain.length ≤ (s.nfd.pos + readCount s.nfd count) / vol.cs ∨
        vol.CursorKept s.nfd.pos (readCount s.nfd count)
  | .write data => data.length = 0 ∨
      s.nfd.pos + data.length < 2 ^ 32 ∧ vol.CursorKept s.nfd.pos data.length ∧
        ∀ chain free, Owns vol s.disk chain free → s.nfd.firstClusNum = chain.getD 0 0 →
          s.nfd.pos / vol.cs < chain.length ∧
            vol.endIndex s.nfd.pos data.length < (chain ++ free).length
  | .lseek off whence =>
    seekTarget s.nfd off whence < s.nfd.length ∨ seekTarget s.nfd off whence ≤ s.nfd.length ∧
        ∀ chain, ChainOn vol s.disk mEoc chain → s.nfd.firstClusNum = chain.getD 0 0 →
          Designates vol chain { s.nfd with pos := seekTarget s.nfd off whence }

/-- What a run keeps.  `E` is the chain followed by the free clusters: a call
only moves the border `m` between them. -/
structure SessionInv (vol : Volume) (E : List Nat) (m : Nat) (s : Session) : Prop where
  owns : Owns vol s.disk (E.take m) (E.drop m)
  nonempty : 0 < m
  within : m ≤ E.length
  covers : s.nfd.length ≤ vol.cs * m
  length_lt : s.nfd.length < 2 ^ 32
  first : s.nfd.firstClusNum = E.getD 0 0
  pos_le : s.nfd.pos ≤ s.nfd.length
  cursor : Designates vol (E.take m) s.nfd
  dev : s.nfd.dev = .default
  name : s.nfd.name ∉ kernelFiles
  dirSector : vol.fat.firstDataSec ≤ s.nfd.dirPos.sec ∧ s.nfd.dirPos.sec < 2 ^ 32
  dirApart : ∀ c ∈ E, ∀ i, i < vol.spc → vol.first c + i ≠ s.nfd.dirPos.sec

variable {vol : Volume} {e : Nat → Nat} {pos n : Nat}

theorem endIndex_of_kept (kept : vol.CursorKept pos n) :
    vol.endIndex pos n = (pos + n) / vol.cs := by
  rcases kept with few | ⟨_, exact⟩
  · have near := vol.div_le_endIndex pos n
    unfold Volume.endIndex at near ⊢
    by_cases same : (pos + n) / vol.cs = pos / vol.cs
    · rw [if_pos same, same]
    · have order : pos / vol.cs ≤ (pos + n) / vol.cs := Nat.div_le_div_right (by omega)
      rw [if_neg same] at near ⊢
      omega
  · exact exact

theorem sector_advance (same : (pos + n) / vol.cs = pos / vol.cs) :
    pos % vol.cs / 512 + ((pos + n) / 512 - pos / 512) = (pos + n) % vol.cs / 512 := by
  have floor := Nat.div_add_mod pos vol.cs
  have floor' := Nat.div_add_mod (pos + n) vol.cs
  have whole : vol.cs * (pos / vol.cs) % 512 = 0 := by
    rw [vol.cs_eq, Nat.mul_assoc, Nat.mul_mod_right]
  rw [same] at floor'
  omega

theorem track_of_kept (kept : vol.CursorKept pos n) (valid : vol.Valid (e (pos / vol.cs)))
    (validEnd : vol.Valid (e ((pos + n) / vol.cs))) : vol.track e pos n (vol.rounds pos n) =
    ((pos + n) / vol.cs, vol.first (e ((pos + n) / vol.cs)) + (pos + n) % vol.cs / 512) := by
  have index := vol.track_rounds_index e pos n
  rw [endIndex_of_kept kept] at index
  have stop := vol.mark_rounds pos n
  rcases Nat.eq_zero_or_pos (vol.rounds pos n) with none | some
  · rw [none, vol.mark_zero] at stop
    rw [none, ← stop]
    rfl
  · obtain ⟨j, last⟩ : ∃ j, vol.rounds pos n = j + 1 := ⟨vol.rounds pos n - 1, by omega⟩
    rw [last] at stop index ⊢
    have sector := vol.sector_lt (pos + n)
    refine Prod.ext index ?_
    by_cases same : (pos + n) / vol.cs = pos / vol.cs
    · -- one round inside the first cluster
      have single : j = 0 := by
        rcases kept with few | ⟨differs, _⟩
        · omega
        · exact absurd same differs
      subst single
      have bounds := vol.first_le valid
      have range := vol.in_range'
      have advance := sector_advance same
      rw [Volume.track, stop, if_neg (not_not.mpr same), Volume.track]
      rw [same, Nat.add_assoc, advance]
      exact Nat.mod_eq_of_lt (by omega)
    · have advance := vol.track_succ_index e pos n j
      rw [stop, if_pos same, index] at advance
      rw [Volume.track, stop, if_pos same]
      rw [← advance, vol.firstSec_add validEnd sector]

theorem moved_updateFdFromPos (fat : FatSb) (d : Disk) (nfd : Fd) (pos target : Nat) :
    Moved nfd (updateFdFromPos fat d { nfd with pos := pos } target) := rfl

theorem designates_updateFdFromPos {vol : Volume} {d : Disk} {eoc : Nat} {chain : List Nat}
    {nfd : Fd} (chainOn : ChainOn vol d eoc chain) (first : nfd.firstClusNum = chain.getD 0 0)
    {target : Nat} (small : target < 2 ^ 33) :
    Designates vol chain (updateFdFromPos vol.fat d nfd target) := by
  intro inside
  have inside : target / vol.cs < chain.length := inside
  have exact : u32 (target / 512) = target / 512 := u32_div_sector small
  have sectors : vol.fat.bpb.secPerClus = vol.spc := rfl
  have cluster : target / 512 / vol.spc = target / vol.cs := by
    rw [Nat.div_div_eq_div_mul, vol.cs_eq]
  have walked : (nextCluster vol.fat d)^[target / vol.cs] nfd.firstClusNum =
      chain.getD (target / vol.cs) 0 := by
    rw [first]
    exact (chainOn.walk_eq (Nat.zero_lt_of_lt inside) inside.le).trans (getD_default inside)
  have valid := chainOn.valid_getD (e := 0) inside
  constructor
  · simp [updateFdFromPos, vol.sectorSize_eq, exact, sectors, cluster, walked]
  · simp only [updateFdFromPos, vol.sectorSize_eq, exact, sectors, cluster, walked]
    rw [← vol.mod_cs_div, vol.firstSec_add valid (vol.sector_lt _)]

namespace SessionInv

variable {E : List Nat} {m : Nat} {s : Session}

section
variable (inv : SessionInv vol E m s)
include inv

theorem length_take : (E.take m).length = m := by
  have within := inv.within
  rw [List.length_take]
  omega

theorem first_take : s.nfd.firstClusNum = (E.take m).getD 0 0 := by
  rw [inv.first, getD_take inv.nonempty inv.within]

theorem openFile (regular : s.nfd.flags &&& oDirectory = 0) :
    OpenFile vol s.disk mEoc (E.take m) s.nfd where
  chainOn := inv.owns.chainOn
  covers := by
    rw [inv.length_take]
    exact inv.covers
  length_lt := inv.length_lt
  first := inv.first_take
  pos_le := inv.pos_le
  cursor := inv.cursor
  regular := regular

theorem cursorRight : CursorRight vol s := by
  refine ⟨E.take m, inv.owns.chainOn, inv.first_take, ?_, inv.cursor⟩
  rw [inv.length_take]
  exact inv.nonempty

theorem move {nfd' : Fd} (moved : Moved s.nfd nfd')
    (inside : nfd'.pos ≤ s.nfd.length) (cursor : Designates vol (E.take m) nfd') :
    SessionInv vol E m { s with nfd := nfd' } := by
  have length : nfd'.length = s.nfd.length := by rw [moved]
  have dirPos : nfd'.dirPos = s.nfd.dirPos := by rw [moved]
  constructor
  · exact inv.owns
  · exact inv.nonempty
  · exact inv.within
  · rw [length]
    exact inv.covers
  · rw [length]
    exact inv.length_lt
  · rw [moved]
    exact inv.first
  · rw [length]
    exact inside
  · exact cursor
  · rw [moved]
    exact inv.dev
  · rw [moved]
    exact inv.name
  · rw [dirPos]
    exact inv.dirSector
  · rw [dirPos]
    exact inv.dirApart

theorem read_step {count : Nat} (ok : Keeps vol s (.read count)) :
    ∃ next, fileStep vol.fat s (.read count) = some next ∧ SessionInv vol E m next := by
  rw [fileStep]
  by_cases refused : s.nfd.flags &&& oDirectory ≠ 0 ∨ s.nfd.flags &&& oWronly ≠ 0
  · refine ⟨s, ?_, inv⟩
    rw [fat32Read, if_pos refused]
    rfl
  · obtain ⟨regular, readable⟩ := not_or.mp refused
    rw [ne_eq, not_not] at regular readable
    have file := inv.openFile regular
    by_cases none : readCount s.nfd count = 0
    · refine ⟨s, ?_, inv⟩
      rw [fat32Read_none file readable none]
      rfl
    · obtain ⟨nfd', ran, follows, moved⟩ := fat32Read_spec file readable none
      refine ⟨{ s with nfd := nfd' }, ?_, ?_⟩
      · rw [ran]
        rfl
      · have position : nfd'.pos = s.nfd.pos + readCount s.nfd count := by
          rw [follows.position, vol.mark_rounds]
        apply inv.move moved
        · rw [position]
          exact file.stop_le count
        · intro inside
          rw [position] at inside ⊢
          have kept := (ok _ inv.owns.chainOn inv.first_take).resolve_left (by omega)
          have start : s.nfd.pos / vol.cs < (E.take m).length :=
            Nat.lt_of_le_of_lt (Nat.div_le_div_right (by omega)) inside
          have walked : ∀ i, i < (E.take m).length →
              walk vol.fat s.disk s.nfd.firstClusNum i = (E.take m).getD i 0 := by
            intro i bound
            rw [inv.first_take, inv.owns.chainOn.walk_eq (Nat.zero_lt_of_lt bound) bound.le]
            exact getD_default bound
          have valid : ∀ i, i < (E.take m).length →
              vol.Valid (walk vol.fat s.disk s.nfd.firstClusNum i) := by
            intro i bound
            rw [walked i bound]
            exact inv.owns.chainOn.valid_getD bound
          have final := track_of_kept kept (valid _ start) (valid _ inside)
          rw [follows.cluster, follows.sector, final, walked _ inside]
          exact ⟨rfl, rfl⟩

theorem lseek_step {off : Nat} {whence : Whence} (ok : Keeps vol s (.lseek off whence)) :
    ∃ next, fileStep vol.fat s (.lseek off whence) = some next ∧ SessionInv vol E m next := by
  refine ⟨_, rfl, ?_⟩
  have small := inv.length_lt
  rw [fat32Lseek, if_neg (not_not.mpr inv.dev)]
  rw [if_neg inv.name]
  by_cases before : seekTarget s.nfd off whence < s.nfd.length
  · rw [if_pos before]
    apply inv.move (moved_updateFdFromPos vol.fat s.disk s.nfd _ _)
    · exact before.le
    · exact designates_updateFdFromPos inv.owns.chainOn inv.first_take (by omega)
  · rw [if_neg before]
    obtain ⟨inside, cursor⟩ := ok.resolve_left before
    exact inv.move rfl inside (cursor _ inv.owns.chainOn inv.first_take)

theorem writable (regular : s.nfd.flags &&& oDirectory = 0) {n : Nat}
    (started : s.nfd.pos / vol.cs < (E.take m).length)
    (room : vol.endIndex s.nfd.pos n < (E.take m ++ E.drop m).length) :
    Writable vol s.disk (E.take m) (E.drop m) s.nfd n where
  file := inv.openFile regular
  owns := inv.owns
  started := .inl started
  room := room
  dirSector := inv.dirSector
  dirApart := by
    rw [take_append_drop]
    exact inv.dirApart

theorem write_step {data : List UInt8} (ok : Keeps vol s (.write data)) :
    ∃ next, fileStep vol.fat s (.write data) = some next ∧ ∃ m', SessionInv vol E m' next := by
  rw [fileStep]
  by_cases regular : s.nfd.flags &&& oDirectory = 0
  · by_cases empty : data.length = 0
    · refine ⟨s, ?_, m, inv⟩
      rw [fat32Write_none regular empty]
      rfl
    · obtain ⟨small, kept, suffices'⟩ := ok.resolve_left empty
      obtain ⟨started, room⟩ := suffices' _ _ inv.owns inv.first_take
      have file := inv.writable regular started room
      obtain ⟨d', nfd', ran, result⟩ := fat32Write_spec file empty (by omega)
      have covers := file.covers_after
      have taken := file.length_take
      have owns := result.owns
      have follows := result.follows
      have first := result.first file
      rw [take_append_drop] at covers taken owns follows first
      have length : nfd'.length = max s.nfd.length (s.nfd.pos + data.length) := by
        rw [result.moved]
        exact lengthAfter_eq small
      have dirPos : nfd'.dirPos = s.nfd.dirPos := by rw [result.moved]
      have position : nfd'.pos = s.nfd.pos + data.length := by
        rw [follows.position, vol.mark_rounds]
      refine ⟨⟨d', nfd'⟩, by rw [ran]; rfl, chainAfter vol (E.take m) s.nfd data.length, ?_⟩
      constructor
      · exact owns
      · exact chainAfter_pos _ _ _ _
      · exact covers.1
      · rw [length]
        exact covers.2
      · have lengthSmall := inv.length_lt
        rw [length]
        omega
      · rw [first, getD_take (chainAfter_pos _ _ _ _) covers.1]
      · rw [length, position]
        omega
      · intro inside
        rw [position] at inside ⊢
        have same : ∀ i, i < chainAfter vol (E.take m) s.nfd data.length →
            clusterOf E i = (E.take (chainAfter vol (E.take m) s.nfd data.length)).getD i 0 := by
          intro i bound
          rw [getD_take bound covers.1]
          exact getD_default (by omega)
        have valid : ∀ i, i < chainAfter vol (E.take m) s.nfd data.length →
            vol.Valid (clusterOf E i) := by
          intro i bound
          rw [same i bound]
          exact owns.chainOn.valid_getD (by omega)
        have start : s.nfd.pos / vol.cs ≤ (s.nfd.pos + data.length) / vol.cs :=
          Nat.div_le_div_right (by omega)
        have final := track_of_kept kept (valid _ (by omega)) (valid _ (by omega))
        rw [follows.cluster, follows.sector, final, same _ (by omega)]
        exact ⟨rfl, rfl⟩
      · rw [result.moved]
        exact inv.dev
      · rw [result.moved]
        exact inv.name
      · rw [dirPos]
        exact inv.dirSector
      · rw [dirPos]
        exact inv.dirApart
  · refine ⟨s, ?_, m, inv⟩
    rw [fat32Write, if_pos (.inl regular)]
    rfl

theorem step {call : FileCall} (ok : Keeps vol s call) :
    ∃ next, fileStep vol.fat s call = some next ∧ ∃ m', SessionInv vol E m' next := by
  cases call with
  | read count =>
    obtain ⟨next, ran, kept⟩ := inv.read_step ok
    exact ⟨next, ran, m, kept⟩
  | write data => exact inv.write_step ok
  | lseek off whence =>
    obtain ⟨next, ran, kept⟩ := inv.lseek_step ok
    exact ⟨next, ran, m, kept⟩

end
end SessionInv

/-- A file that `fat32_openat` has just opened: its directory entry names the
first cluster of a chain that covers its size. -/
structure Opened (vol : Volume) (chain free : List Nat) (s : Session) : Prop where
  owns : Owns vol s.disk chain free
  nonempty : chain ≠ []
  opened : ∃ fd name entry dirPos, s.nfd = setFdFromDentry vol.fat fd name entry dirPos ∧
    entry.cluster = chain.getD 0 0 ∧ entry.fileSize ≤ vol.cs * chain.length ∧
    entry.fileSize < 2 ^ 32 ∧ name ∉ kernelFiles
  dirSector : vol.fat.firstDataSec ≤ s.nfd.dirPos.sec ∧ s.nfd.dirPos.sec < 2 ^ 32
  dirApart : ∀ c ∈ chain ++ free, ∀ i, i < vol.spc → vol.first c + i ≠ s.nfd.dirPos.sec

theorem Opened.inv {vol : Volume} {chain free : List Nat} {s : Session}
    (opened : Opened vol chain free s) : SessionInv vol (chain ++ free) chain.length s := by
  obtain ⟨fd, name, entry, dirPos, same, cluster, covers, small, regular⟩ := opened.opened
  have positive := length_pos_of_ne_nil opened.nonempty
  have valid := opened.owns.chainOn.valid_getD (e := 0) positive
  have head : (chain ++ free).getD 0 0 = chain.getD 0 0 := getD_append _ _ _ _ positive
  constructor
  · rw [take_left, drop_left]
    exact opened.owns
  · exact positive
  · simp
  · rw [same]
    exact covers
  · rw [same]
    exact small
  · rw [same, head]
    exact cluster
  · rw [same]
    exact Nat.zero_le _
  · intro _
    rw [take_left, same]
    show entry.cluster = chain.getD (0 / vol.cs) 0 ∧
      vol.fat.firstSecOfClus entry.cluster = vol.first (chain.getD (0 / vol.cs) 0) + 0 % vol.cs / 512
    rw [Nat.zero_div, Nat.zero_mod, cluster, vol.firstSecOfClus_eq valid]
    exact ⟨rfl, rfl⟩
  · rw [same]
    rfl
  · rw [same]
    exact regular
  · exact opened.dirSector
  · exact opened.dirApart

def smallSession : Session where
  disk := smallDisk
  nfd := setFdFromDentry smallVolume.fat (smallFile 0) "data" ⟨5, 2000, false⟩ ⟨0, 32, 3⟩

theorem smallSession_opened : Opened smallVolume [5, 3] [4, 7, 8, 9] smallSession := by
  constructor
  · exact ⟨small_chain, small_frees, by decide +kernel⟩
  · simp
  · refine ⟨_, _, _, _, rfl, ?_⟩
    decide +kernel
  · decide
  · decide

theorem not_cursorRight_small {s : Session} (disk : s.disk = smallDisk)
    (first : s.nfd.firstClusNum = 5) (second : s.nfd.pos / smallVolume.cs = 1)
    (lost : s.nfd.curClusNum ≠ 3) : ¬ CursorRight smallVolume s := by
  rintro ⟨chain, on, head, nonempty, cursor⟩
  rw [disk] at on
  have unique := on.unique small_chain (by unfold IsEoc mEoc; omega) nonempty (by decide)
    (by rw [← head, first]; rfl)
  subst unique
  apply lost
  rw [(cursor (by rw [second]; decide)).1, second]
  rfl

end CCore.Fat
