/-
# One client and its child in the data phase

A `Session` is the two state machines and the datagrams in flight between them.  Its steps
interleave their turns with what the two links do, in any order.

`abs` forgets everything but the numbers: what is left is a state of go-back-N
(`Lib/GoBackN.lean`).  `Refinement.lean` matches the steps.
-/
import Fileserver.Lib.GoBackN
import Fileserver.Network
import Fileserver.Receiver
import Fileserver.Window

namespace Fileserver

open Proto

/-- A client, its child, and the datagrams on their way to either, oldest first. -/
structure Session where
  server : Server
  client : Client
  toClient : List Datagram
  toServer : List Datagram

namespace Session

/-- The steps of a session: a turn of either side, or something that happens in flight. -/
inductive Event
  | serverAct (io : Bool)
  | serverHear (a : Arrival) (io : Bool)
  | clientHear (a : Arrival) (wr io : Bool)
  | loseDown (i : ℕ)
  | dupDown (i : ℕ)
  | loseUp (i : ℕ)
  | dupUp (i : ℕ)

/-- Nothing goes wrong in the step: no timeout, no damage, no loss, no failed call. -/
def Event.quiet : Event → Bool
  | .serverAct io => io
  | .serverHear a io => a.good && io
  | .clientHear a wr io => a.good && wr && io
  | _ => false

/-- The session after a turn of the child, with `l` left on its way up. -/
def afterServer (s : Session) (l : List Datagram) (v : Server) (out : Option Packet) : Session :=
  { s with
    server := v, toServer := l
    toClient := s.toClient ++ out.toList.map (Datagram.mk v.mvSocket) }

/-- The session after a turn of the client, with `l` left on its way down. -/
def afterClient (s : Session) (l : List Datagram) (c : Client) (out : Option Packet) : Session :=
  { s with
    client := c, toClient := l
    toServer := s.toServer ++ out.toList.map (Datagram.mk c.mvSocket) }

variable [Host]

/-- The session after the event, if the event can happen. -/
def next (s : Session) : Event → Option Session
  | .serverAct io => (s.server.step (.act io)).map fun (v, out) => s.afterServer s.toServer v out
  | .serverHear a io =>
    (a.recv s.toServer).bind fun (r, l) =>
      (s.server.step (.hear r io)).map fun (v, out) => s.afterServer l v out
  | .clientHear a wr io =>
    (a.recv s.toClient).bind fun (r, l) =>
      (s.client.step (.hear r s.client.sk wr io)).map fun (c, out) => s.afterClient l c out
  | .loseDown i => some { s with toClient := s.toClient.eraseIdx i }
  | .dupDown i => some { s with toClient := Link.dup i s.toClient }
  | .loseUp i => some { s with toServer := s.toServer.eraseIdx i }
  | .dupUp i => some { s with toServer := Link.dup i s.toServer }

/-- What the links let happen: `dn` towards the client, `up` towards the child. -/
def may (dn up : Link) : Event → Prop
  | .serverAct _ => True
  | .serverHear a _ => a.allowed up
  | .clientHear a _ _ => a.allowed dn
  | .loseDown _ => dn.loses = true
  | .dupDown _ => dn.duplicates = true
  | .loseUp _ => up.loses = true
  | .dupUp _ => up.duplicates = true

instance (dn up : Link) : DecidablePred (may dn up)
  | .serverAct _ => inferInstanceAs (Decidable True)
  | .serverHear a _ => inferInstanceAs (Decidable (a.allowed up))
  | .clientHear a _ _ => inferInstanceAs (Decidable (a.allowed dn))
  | .loseDown _ => inferInstanceAs (Decidable (dn.loses = true))
  | .dupDown _ => inferInstanceAs (Decidable (dn.duplicates = true))
  | .loseUp _ => inferInstanceAs (Decidable (up.loses = true))
  | .dupUp _ => inferInstanceAs (Decidable (up.duplicates = true))

/-- Both sides as they enter the data phase, with nothing in flight. -/
structure Start (file : List UInt8) (B W : UInt32) (s : Session) : Prop where
  server : Server.DataStart file B W s.server
  state : s.client.mvState = .recvPackets
  sequence : s.client.mvSequence = 0
  bufferSize : s.client.mvBufferSize = B
  output : s.client.mvTo = []
  toClient : s.toClient = []
  toServer : s.toServer = []

/-- The two sides at the start, at addresses 1 and 2. -/
def atStart (file : List UInt8) (B W : UInt32) : Session where
  server := Server.atStart file B W
  client :=
    { Client.rcopy [0x66] B.toInt32 W.toInt32 1 0 ⟨2, 9⟩ ⟨0, 0⟩ ⟨0, 0⟩ with
      mvState := .recvPackets }
  toClient := []
  toServer := []

omit [Host] in
theorem atStart_start (file : List UInt8) (B W : UInt32) :
    Start file B W (atStart file B W) := by
  constructor <;> first | exact Server.atStart_dataStart file B W | simp [atStart, Client.rcopy]

/-- The event has the child build a packet. -/
def pushes (s : Session) : Event → Prop
  | .serverAct io => s.server.pushes (.act io)
  | _ => False

instance (s : Session) : DecidablePred s.pushes
  | .serverAct io => inferInstanceAs (Decidable (s.server.pushes (.act io)))
  | .serverHear .. | .clientHear .. | .loseDown _ | .dupDown _ | .loseUp _ | .dupUp _ =>
    inferInstanceAs (Decidable False)

/-- The data phase over links `dn` and `up`, for as long as the counter of the child does not
wrap: fewer than 2^32 packets. -/
def system (file : List UInt8) (B W : UInt32) (dn up : Link) : System Session Event where
  start := Start file B W
  may s e := may dn up e ∧ (s.pushes e → s.server.mvSequence.toNat + 1 < 2 ^ 32)
  next := next

instance (file : List UInt8) (B W : UInt32) (dn up : Link) (s : Session) (e : Event) :
    Decidable ((system file B W dn up).may s e) :=
  inferInstanceAs (Decidable (may dn up e ∧ (s.pushes e → _ < 2 ^ 32)))

/-! ## 1. The numbers of a session -/

/-- The number a datagram carries. -/
def num (d : Datagram) : ℕ := d.pkt.sequence.toNat

/-- A reply of the client, read by the child. -/
def reply (d : Datagram) : GoBackN.Reply :=
  if d.pkt.type = pktTypeRR then .rr (num d) else .rej (num d)

/-- What the child is about to do. -/
def mode (s : Server) : GoBackN.Mode :=
  match s.mvState with
  | .fillWindow => .fill
  | .sendWindow => .send
  | .waitRR => .wait
  | _ => .halt

/-- **The abstraction.**  The numbers of the session and nothing else. -/
def abs (s : Session) : GoBackN.State where
  base := s.server.lowest
  out := s.server.mvSequence.toNat - s.server.mvOutBuf.length
  next := s.server.mvSequence.toNat
  mode := mode s.server
  cursor := s.client.mvSequence.toNat
  closed := decide (s.client.mvState ≠ .recvPackets)
  down := s.toClient.map num
  up := s.toServer.map reply

/-- A reply that passes the checksum test. -/
def IsReply (p : Packet) : Prop :=
  p.ok = true ∧ (p.type = pktTypeRR ∨ p.type = pktTypeREJ)

/-- **Well-formed sessions.**  The child's numbers are in order, data travels down and replies
travel up. -/
structure Wf (W : ℕ) (s : Session) : Prop where
  phase : s.server.mvState = .error ∨ s.server.inData ∧ s.server.Numbered
  windowSize : s.server.mvWindowSize.toNat = W
  client : s.client.mvState ≠ .init
  window : ∀ p ∈ s.server.mvWindow, IsData p
  outBuf : ∀ p ∈ s.server.mvOutBuf, IsData p
  toClient : ∀ d ∈ s.toClient, IsData d.pkt ∧ num d + 1 < 2 ^ 32
  toServer : ∀ d ∈ s.toServer, IsReply d.pkt

end Session

end Fileserver
