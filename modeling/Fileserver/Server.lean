/-
# The child process of the server

`Server.cpp` from `Child` on, one definition a state function.  A state function with a loop is
given one turn of that loop at a time: `mvState` says which function is running, so `Child`
calling it again is its next turn, and what the child does between two turns is the same
nothing as in the source.  The locals of `init` that live across turns are fields.

A `Bool` argument is the outcome of the one system call a turn makes besides receiving: `true`
if it succeeds.  A function that sends returns the packet; it goes from `mvSocket` to `mvAddr`.
-/
import Fileserver.Packet

namespace Fileserver

/-- `Server::State`. -/
inductive Server.State
  | init
  | error
  | done
  | fillWindow
  | sendWindow
  | waitRR
deriving DecidableEq

/-- The members of `Server` a child uses, and the locals of `Server::init`. -/
structure Server where
  mvSocket : Addr
  mvAddr : Addr
  mvAddrLen : UInt32
  mvFromName : List UInt8
  mvBufferSize : UInt32
  mvWindowSize : UInt32
  mvFrom : File
  mvWindow : List Packet
  mvOutBuf : List Packet
  mvSequence : UInt32
  mvRetries : Int
  mvState : Server.State
  winszSet : Bool
  bufszSet : Bool
  fnSet : Bool
deriving DecidableEq

namespace Server

variable [Host]

/-! ## 1. Receiving -/

/-- `Server::recvPacket`. -/
def recvPacket (s : Server) : Recv → Server × Ret
  | .timeout => ({ s with mvRetries := s.mvRetries - 1 }, .again)
  | .failed => ({ s with mvRetries := pktTrnsMax }, .error)
  | .datagram src buf =>
    if buf.ok then
      ({ s with mvRetries := pktTrnsMax, mvAddr := src, mvAddrLen := sizeofIn }, .packet buf)
    else ({ s with mvRetries := pktTrnsMax - 1, mvAddr := src, mvAddrLen := sizeofIn }, .again)

/-! ## 2. `Server::init` -/

/-- The test of the loop in `Server::init`. -/
def initLoop (s : Server) : Bool :=
  (!s.winszSet || !s.bufszSet || !s.fnSet) && decide (0 < s.mvRetries)

/-- Its inner `switch`, which takes the parameters out of a packet. -/
def initTake (s : Server) (inpkt : Packet) : Server :=
  if inpkt.type = pktTypeBUF then
    { s with mvBufferSize := inpkt.size.toUInt32, bufszSet := true }
  else if inpkt.type = pktTypeWIN then
    { s with mvWindowSize := inpkt.size.toUInt32, winszSet := true }
  else if inpkt.type = pktTypeFLN then { s with mvFromName := cstr inpkt.data, fnSet := true }
  else s

/-- The `default` case of its `switch`: the packet passed the checksum test. -/
def initPacket (s : Server) (inpkt : Packet) : Server × Packet :=
  if inpkt.sequence ≤ s.mvSequence then
    let outpkt := rrpkt s.mvSequence
    let s := { s with mvRetries := pktTrnsMax }
    if inpkt.sequence = s.mvSequence then
      ({ s with mvSequence := s.mvSequence + 1 }.initTake inpkt, outpkt)
    else (s, outpkt)
  else ({ s with mvRetries := s.mvRetries - 1 }, rejpkt s.mvSequence)

/-- `Server::init`, behind its loop. -/
def initEnd (s : Server) : Server :=
  if s.mvRetries ≤ 0 then { s with mvState := .error }
  else
    match Host.file s.mvFromName with
    | none => { s with mvState := .error }
    | some contents =>
      { s with
        mvFrom := ⟨contents, 0⟩, mvSequence := 0, mvRetries := pktTrnsMax
        mvState := .fillWindow }

/-- The `sendtoErr` at the end of a turn, and the test of the loop. -/
def initSend (s : Server) (outpkt : Packet) (io : Bool) : Server × Option Packet :=
  if io then (if s.initLoop then s else s.initEnd, some outpkt)
  else ({ s with mvState := .error }, none)

/-- `Server::init`, one turn of its loop.  A turn that is the last one goes on to the end of the
function, since nothing is received or sent in between. -/
def init (s : Server) (r : Recv) (io : Bool) : Server × Option Packet :=
  match s.recvPacket r with
  | (s, .error) => ({ s with mvState := .error }, none)
  | (s, .again) => s.initSend (rejpkt s.mvSequence) io
  | (s, .packet inpkt) => (s.initPacket inpkt).1.initSend (s.initPacket inpkt).2 io

/-! ## 3. The sliding window -/

/-- The packet the next turn of `fillWindow` builds. -/
def nextPacket (s : Server) : Packet :=
  datpkt s.mvSequence (s.mvFrom.ahead s.mvBufferSize.toNat)

/-- `Server::fillWindow`, one turn of its loop. -/
def fillWindow (s : Server) (io : Bool) : Server :=
  if s.mvWindow.length < s.mvWindowSize.toNat then
    if io then
      { s with
        mvFrom := s.mvFrom.advance s.mvBufferSize.toNat
        mvSequence := s.mvSequence + 1
        mvWindow := s.mvWindow ++ [s.nextPacket]
        mvOutBuf := s.mvOutBuf ++ [s.nextPacket] }
    else { s with mvState := .error }
  else { s with mvState := .sendWindow }

/-- `Server::sendWindow`, one turn of its loop. -/
def sendWindow (s : Server) (io : Bool) : Server × Option Packet :=
  match s.mvOutBuf with
  | [] => ({ s with mvState := .waitRR }, none)
  | p :: rest =>
    if io then ({ s with mvOutBuf := rest }, some p) else ({ s with mvState := .error }, none)

/-- The loop of `waitRR` that shifts the window: `i` counts up to the number received while
packets leave the front. -/
def shift (seq : UInt32) : UInt32 → List Packet → List Packet
  | _, [] => []
  | i, p :: w => if i ≤ seq then shift seq (i + 1) w else p :: w

/-- `mvWindow.front()`. -/
def front (s : Server) : Packet := s.mvWindow.headD Host.stale

/-- The two cases of `Server::waitRR` for a packet that passed the checksum test. -/
def waitPacket (s : Server) (buf : Packet) (io : Bool) : Server :=
  if buf.type = pktTypeRR then
    if s.front.sequence ≤ buf.sequence then
      { s with
        mvWindow := shift buf.sequence s.front.sequence s.mvWindow
        mvRetries := pktTrnsMax
        mvState := .fillWindow }
    else s
  else if buf.type = pktTypeREJ then
    if s.front.sequence ≤ buf.sequence then
      { s with mvOutBuf := s.mvWindow, mvState := .fillWindow }
    else if io then
      { s with
        mvSequence := buf.sequence
        mvFrom := s.mvFrom.lseek (s.mvBufferSize * buf.sequence)
        mvOutBuf := [], mvWindow := []
        mvState := .fillWindow }
    else { s with mvSequence := buf.sequence, mvState := .error }
  else s

/-- `Server::waitRR`. -/
def waitRR (s : Server) (r : Recv) (io : Bool) : Server :=
  match s.recvPacket r with
  | (s, .error) => { s with mvState := .error }
  | (s, .again) => { s with mvState := .fillWindow }
  | (s, .packet buf) => s.waitPacket buf io

/-! ## 4. `Server::Child` -/

/-- The loop of `Child` goes on.  Inside `init` its own loop tests the retries. -/
def running (s : Server) : Bool :=
  match s.mvState with
  | .init => true
  | .error => false
  | .done => false
  | _ => decide (0 < s.mvRetries)

/-- What the process exits with once its loop has ended. -/
def exitStatus (s : Server) : ℕ :=
  if s.mvState = .error then 1 else if s.mvRetries ≤ 0 then 1 else 0

/-- The child is about to receive. -/
def receives (s : Server) : Bool :=
  match s.mvState with
  | .init => true
  | .waitRR => true
  | _ => false

/-- A turn of the child that receives. -/
def hear (s : Server) (r : Recv) (io : Bool) : Server × Option Packet :=
  match s.mvState with
  | .init => s.init r io
  | _ => (s.waitRR r io, none)

/-- A turn of the child that does not. -/
def act (s : Server) (io : Bool) : Server × Option Packet :=
  match s.mvState with
  | .fillWindow => (s.fillWindow io, none)
  | .sendWindow => s.sendWindow io
  | _ => (s, none)

/-- One turn of the child, by what happens in it. -/
inductive Event
  | act (io : Bool)
  | hear (r : Recv) (io : Bool)
deriving DecidableEq

/-- The turn, if the child is at the place where it can happen. -/
def step (s : Server) : Event → Option (Server × Option Packet)
  | .act io => if s.running && !s.receives then some (s.act io) else none
  | .hear r io => if s.running && s.receives then some (s.hear r io) else none

end Server

end Fileserver
