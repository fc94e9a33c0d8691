/-
# The client process

`Client.cpp` and the part of `rcopy.cpp` that builds the object.  As for the child, a function
with a loop is given one turn at a time.  A turn of `Client::init` has two halves, the
`sendtoErr` at its top and the `recvPacket` behind it, since anything may happen in between;
`sent` says in which half the client is.

`Client::init` reads two variables, `sk` and `addr`, that hold garbage until an announcement
of the server has set them.  They start with arbitrary values, and `skSet` records whether they
have been set; the program has no such flag and no function reads it.
-/
import Fileserver.Packet

namespace Fileserver

/-- `Client::State`. -/
inductive Client.State
  | init
  | error
  | done
  | recvPackets
deriving DecidableEq

/-- The members of `Client` and the locals of `Client::init`.  `mvTo` is what has been written
to the output file. -/
structure Client where
  mvFromName : List UInt8
  mvBufferSize : UInt32
  mvWindowSize : UInt32
  /-- The address `mvRemoteMachine` resolves to. -/
  mvRemote : UInt32
  mvRemotePort : UInt16
  mvSocket : Addr
  mvOldSocket : Addr
  mvTo : List UInt8
  mvAddr : Addr
  mvAddrLen : UInt32
  mvRetries : Int
  mvSequence : UInt32
  mvState : Client.State
  i : Int
  sent : Bool
  sk : Addr
  addr : Addr
  skSet : Bool

namespace Client

/-- `Client::GetSocket`: the address it stores in its argument. -/
def remote (c : Client) : Addr := ⟨c.mvRemote, htons c.mvRemotePort⟩

/-- The client `rcopy` builds from its arguments, `bufsz` and `winsz` as `atoi` returned them,
about to enter `Client::init`.  `sock` is the socket the constructor opened, `sk` and `addr`
are the locals nobody has set. -/
def rcopy (from_ : List UInt8) (bufsz winsz : Int32) (machine : UInt32) (port : UInt16)
    (sock sk addr : Addr) : Client where
  mvFromName := from_
  mvBufferSize := bufsz.toUInt32
  mvWindowSize := winsz.toUInt32
  mvRemote := machine
  mvRemotePort := port
  mvSocket := sock
  mvOldSocket := sock
  mvTo := []
  mvAddr := ⟨machine, htons port⟩
  mvAddrLen := sizeofStorage
  mvRetries := pktTrnsMax
  mvSequence := 0
  mvState := .init
  i := 0
  sent := false
  sk := sk
  addr := addr
  skSet := false

variable [Host]

/-! ## 1. Receiving and writing -/

/-- `Client::recvPacket`. -/
def recvPacket (c : Client) : Recv → Client × Ret
  | .timeout => ({ c with mvRetries := c.mvRetries - 1 }, .again)
  | .failed => ({ c with mvRetries := pktTrnsMax }, .error)
  | .datagram src buf =>
    if buf.ok then
      ({ c with mvRetries := pktTrnsMax, mvAddr := src, mvAddrLen := sizeofIn }, .packet buf)
    else ({ c with mvRetries := pktTrnsMax - 1, mvAddr := src, mvAddrLen := sizeofIn }, .again)

/-- `Client::writeTo`, when the `write` succeeds. -/
def writeTo (c : Client) (p : Packet) : Client :=
  { c with mvTo := c.mvTo ++ p.bytes p.size.toNat }

/-! ## 2. `Client::init` -/

/-- `pkt[i]` of `Client::init`. -/
def pkt (c : Client) (i : Int) : Packet :=
  if i = 0 then Packet.sealed { memset pktTypeCXN with sequence := 0 }
  else if i = 1 then Packet.sealed { memset pktTypeCXN2 with sequence := 1 }
  else if i = 2 then
    Packet.sealed { memset pktTypeBUF with size := c.mvBufferSize.toUInt16, sequence := 2 }
  else if i = 3 then
    Packet.sealed { memset pktTypeWIN with size := c.mvWindowSize.toUInt16, sequence := 3 }
  else if i = 4 then
    Packet.sealed
      { memset pktTypeFLN with data := strcpy pktTypeFLN c.mvFromName, sequence := 4 }
  else Host.stale

/-- The `for` loop of `Client::init` goes on. -/
def initLoop (c : Client) : Bool := decide (c.i < 5) && decide (0 < c.mvRetries)

/-- The top of a turn of the loop, where `pkt[i]` is sent. -/
def initTop (c : Client) (io : Bool) : Client × Option Packet :=
  if io then ({ c with sent := true }, some (c.pkt c.i)) else ({ c with mvState := .error }, none)

/-- `Client::init`, behind its loop. -/
def initEnd (c : Client) : Client :=
  if c.mvRetries ≤ 0 then { c with mvState := .error }
  else { c with mvSequence := 0, mvRetries := pktTrnsMax, mvState := .recvPackets }

/-- Back to the test of the loop with another index. -/
def again (c : Client) (i : Int) : Client :=
  let c := { c with i := i, sent := false }
  if c.initLoop then c else c.initEnd

/-- The packet opens a new socket: it is the `RR` for the connection request. -/
def opens (c : Client) (inpkt : Packet) : Bool :=
  decide (inpkt.type = pktTypeRR) && decide (inpkt.sequence = UInt32.ofInt c.i) &&
    decide ((c.pkt c.i).type = pktTypeCXN)

/-- The `switch` of `Client::init`.  `sock` is the socket `GetSocket` opens if it is called. -/
def initPacket (c : Client) (inpkt : Packet) (sock : Addr) (io : Bool) : Client :=
  if inpkt.type = pktTypeRR then
    if inpkt.sequence = UInt32.ofInt c.i ∧ (c.pkt c.i).type = pktTypeCXN then
      let c := { c with mvRemotePort := inpkt.size }
      if io then
        { c with
          sk := sock, addr := c.remote, skSet := true
          mvAddrLen := sizeofStorage }.again (c.i + 1)
      else { c with mvState := .error }
    else if inpkt.sequence = UInt32.ofInt c.i ∧ (c.pkt c.i).type = pktTypeCXN2 then
      { c with mvSocket := c.sk, mvAddr := c.addr }.again (c.i + 1)
    else if inpkt.sequence ≠ UInt32.ofInt c.i then c.again (c.i - 1 + 1)
    else c.again (c.i + 1)
  else if inpkt.type = pktTypeREJ then
    if inpkt.sequence ≤ UInt32.ofInt c.i then
      c.again ((inpkt.sequence - 1).toInt32.toInt + 1)
    else c.again (c.i + 1)
  else c.again (c.i + 1)

/-- The rest of a turn of the loop, from `recvPacket` on. -/
def init (c : Client) (r : Recv) (sock : Addr) (io : Bool) : Client :=
  match c.recvPacket r with
  | (c, .error) => { c with mvState := .error }
  | (c, .again) => c.again (c.i - 1 + 1)
  | (c, .packet inpkt) => { c with mvRetries := pktTrnsMax }.initPacket inpkt sock io

/-! ## 3. `Client::recvPackets` -/

/-- The `sendtoErr` at its end. -/
def respond (c : Client) (outpkt : Packet) (io : Bool) : Client × Option Packet :=
  if io then (c, some outpkt) else ({ c with mvState := .error }, none)

/-- Its `default` case.  `wr` is the outcome of the `write`. -/
def dataPacket (c : Client) (inpkt : Packet) (wr io : Bool) : Client × Option Packet :=
  if inpkt.sequence ≤ c.mvSequence then
    let outpkt := rrpkt inpkt.sequence
    let c := { c with mvRetries := pktTrnsMax }
    if inpkt.sequence = c.mvSequence then
      let c := { c with mvSequence := c.mvSequence + 1 }
      if wr then
        let c := c.writeTo inpkt
        if inpkt.type = pktTypeDAT ∧ inpkt.size.toUInt32 < c.mvBufferSize then
          ({ c with mvState := .done }, none)
        else c.respond outpkt io
      else ({ c with mvState := .error }, none)
    else c.respond outpkt io
  else c.respond (rejpkt c.mvSequence) io

/-- `Client::recvPackets`. -/
def recvPackets (c : Client) (r : Recv) (wr io : Bool) : Client × Option Packet :=
  match c.recvPacket r with
  | (c, .error) => ({ c with mvState := .error }, none)
  | (c, .again) => c.respond (rejpkt c.mvSequence) io
  | (c, .packet inpkt) => c.dataPacket inpkt wr io

/-! ## 4. `Client::Run` -/

/-- The loop of `Run` goes on.  Inside `init` its own loop tests the retries. -/
def running (c : Client) : Bool :=
  match c.mvState with
  | .init => true
  | .error => false
  | .done => false
  | .recvPackets => decide (0 < c.mvRetries)

/-- The client is about to receive. -/
def receives (c : Client) : Bool :=
  match c.mvState with
  | .init => c.sent
  | .recvPackets => true
  | _ => false

/-- One turn of the client, by what happens in it. -/
inductive Event
  | act (io : Bool)
  | hear (r : Recv) (sock : Addr) (wr io : Bool)

/-- The turn, if the client is at the place where it can happen. -/
def step (c : Client) : Event → Option (Client × Option Packet)
  | .act io => if c.running && !c.receives then some (c.initTop io) else none
  | .hear r sock wr io =>
    if c.running && c.receives then
      match c.mvState with
      | .init => some (c.init r sock io, none)
      | _ => some (c.recvPackets r wr io)
    else none

end Client

end Fileserver
