import CCore.Fs.RingBuffer

/-!
# The socket table (`kernel/socket/socket.c`)

`do_bind` keeps the pointer it is given, so the address of a socket is read from the memory
of whichever process makes the next call.  `init_ring_buffer` leaves `buf` at `NULL` and
only pipes get a page of their own afterwards, so the bytes queued for a socket lie in the
page at address 0 of the calling process.  An access to a page that is not mapped faults in
the kernel and does not come back.  `sock_lock` is not modelled: its holder keeps the processor.
-/
namespace CCore.Socket

open Fs Function

def maxSockNum : Nat := 16

def pageSize : Nat := 4096

def ipprotoTcp : Nat := 6

def ipprotoUdp : Nat := 17

def enotconn : Int := 107

def enfile : Int := 23

inductive SockStatus where
  | closed
  | listen
  | accepted
  | established
  deriving DecidableEq

/-- `struct ring_buffer`; `buf` is the address of its bytes. -/
structure RingData where
  size : Nat
  head : Nat
  tail : Nat
  buf : Nat
  deriving DecidableEq

/-- `addr` is the pointer given to `do_bind`. -/
structure Sock where
  domain : Nat
  type : Nat
  protocol : Nat
  used : Bool
  status : SockStatus
  addr : Option Nat
  data : RingData
  deriving DecidableEq

/-- The mapped pages of an address space. -/
abbrev Space := Nat → Option (Nat → UInt8)

structure Net (U : Type) where
  sock : Nat → Sock
  space : U → Space

def byteAt (space : Space) (a : Nat) : Option UInt8 :=
  (space (a / pageSize)).map fun page => page (a % pageSize)

/-- `!kmemcmp(bytes, ptr, …)`, which stops at the first difference. -/
def kmemcmp (space : Space) : Nat → List UInt8 → Option Bool
  | _, [] => some true
  | ptr, b :: rest => do
    let here ← byteAt space ptr
    if here = b then kmemcmp space (ptr + 1) rest else some false

def loadBytes (space : Space) : Nat → Nat → Option (List UInt8)
  | _, 0 => some []
  | a, n + 1 => do
    let here ← byteAt space a
    let rest ← loadBytes space (a + 1) n
    some (here :: rest)

def storeByte (space : Space) (a : Nat) (b : UInt8) : Option Space :=
  (space (a / pageSize)).map fun page =>
    update space (a / pageSize) (some (update page (a % pageSize) b))

def storeBytes : Space → Nat → List UInt8 → Option Space
  | space, _, [] => some space
  | space, a, b :: rest => (storeByte space a b).bind fun space => storeBytes space (a + 1) rest

namespace RingData

/-- `init_ring_buffer` on a cleared structure. -/
def init : RingData := ⟨ringBufferSize, 0, 0, 0⟩

def page (d : RingData) : Nat := d.buf / pageSize

/-- The buffer, with its bytes where `buf` points to. -/
def onBytes (d : RingData) (bytes : Nat → UInt8) : RingBuffer := ⟨d.size, d.head, d.tail, bytes⟩

end RingData

namespace Net

variable {U : Type}

def setSock (s : Net U) (i : Nat) (sock : Sock) : Net U :=
  { s with sock := update s.sock i sock }

/-- The ring buffer of socket `i` after an access by a process in `u`. -/
def putRing [DecidableEq U] (s : Net U) (u : U) (i : Nat) (r : RingBuffer) : Net U :=
  let d := (s.sock i).data
  { sock := update s.sock i
      { s.sock i with data := { d with size := r.size, head := r.head, tail := r.tail } }
    space := update s.space u (update (s.space u) d.page (some r.buf)) }

end Net

def clearedSock : Sock := ⟨0, 0, 0, false, .closed, none, RingData.init⟩

def slots : List Nat := List.range' 1 maxSockNum

section Calls
variable {U : Type} [DecidableEq U]
omit [DecidableEq U] in
def initSocket (space : U → Space) : Net U := ⟨fun _ => clearedSock, space⟩

/-- `fd` is what `get_one_fd` finds. -/
def doSocket (s : Net U) (domain type protocol : Nat) (fd : Option Nat) : Int × Net U :=
  match slots.find? fun i => !(s.sock i).used with
  | none => (-enfile, s)
  | some i =>
    let s := s.setSock i
      { s.sock i with used := true, domain, status := .closed, type, protocol }
    match fd with
    | none => (-enfile, s)
    | some fd => (fd, s)

def doBind (s : Net U) (i addr : Nat) : Net U :=
  s.setSock i { s.sock i with addr := some addr }

def Sock.takesDatagrams (k : Sock) : Bool :=
  k.protocol == ipprotoUdp || (k.protocol == ipprotoTcp && k.status == .established)

/-- The scan of `do_sendto` over the slots that are left.  A slot without an address is
taken not to match. -/
def findTarget (space : Space) (dest : List UInt8) (sock : Nat → Sock) :
    List Nat → Option (Option Nat)
  | [] => some none
  | i :: rest => do
    let same ← match (sock i).addr with
      | none => some false
      | some ptr => kmemcmp space ptr dest
    if same && (sock i).takesDatagrams then some (some i)
    else findTarget space dest sock rest

/-- The loop of `do_sendto`.  A round that takes no byte changes nothing and is repeated
for ever, so more rounds than bytes are never needed. -/
def sendLoop : Nat → RingBuffer → List UInt8 → Option RingBuffer
  | 0, _, _ => none
  | fuel + 1, r, data =>
    if data = [] then some r
    else
      let (written, r) := r.write data
      sendLoop fuel r (data.drop written)

/-- All bytes are taken from the buffer before the first is stored; this is the copy of the
source where the buffer does not overlap the cells that it is copied to. -/
def doSendto (s : Net U) (u : U) (buf len : Nat) (dest : List UInt8) : Option (Int × Net U) := do
  match ← findTarget (s.space u) dest s.sock slots with
  | none => some (-enotconn, s)
  | some i =>
    if len = 0 then some (0, s)
    else do
      let d := (s.sock i).data
      let bytes ← s.space u d.page
      let data ← loadBytes (s.space u) buf len
      let r ← sendLoop (data.length + 1) (d.onBytes bytes) data
      some (len, s.putRing u i r)

/-- The bytes that the call copies to its buffer, as many as it returns.  They are all taken
from the queue before the first is stored. -/
def doRecvfrom (s : Net U) (u : U) (i buf len : Nat) : Option (List UInt8 × Net U) :=
  let d := (s.sock i).data
  let readLen := min len (d.onBytes fun _ => 0).used
  if readLen = 0 then some ([], s)
  else do
    let bytes ← s.space u d.page
    let (out, r) := (d.onBytes bytes).read readLen
    let space ← storeBytes (s.space u) buf out
    let bytes ← space d.page
    some (out, Net.putRing ⟨s.sock, update s.space u space⟩ u i { r with buf := bytes })

end Calls
end CCore.Socket
