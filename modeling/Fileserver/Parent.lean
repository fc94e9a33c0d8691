/-
# The parent process of the server

`Server::Run`.  Between two datagrams it keeps four variables of its own, whoever they come
from: `cxn2`, `sk` with the `local` that goes with it, and `outpkt`.  `sk` and `outpkt` start out
as whatever the stack holds.

`outFor` records for which client the packet in `outpkt` was built; the program has no such
variable and no function reads it.
-/
import Fileserver.Server

namespace Fileserver

/-- The members of `Server` in the parent, which `fork` copies, and the locals of `Run`. -/
structure Parent where
  server : Server
  cxn2 : Bool
  sk : Addr
  outpkt : Packet
  outFor : Option Addr
  /-- `Run` has returned. -/
  returned : Bool

/-- The members of the child `Run` forks, as it enters `Child`.  The three flags are locals of
`init`. -/
def Server.forked (s : Server) (sk theirAddr : Addr) : Server :=
  { s with
    mvSocket := sk, mvAddr := theirAddr, mvAddrLen := sizeofStorage, mvSequence := 1
    mvState := .init
    winszSet := false, bufszSet := false, fnSet := false }

/-- The members the constructor of `Server` sets. -/
structure Server.Constructed (s : Server) : Prop where
  name : s.mvFromName = []
  file : s.mvFrom = ⟨[], 0⟩
  window : s.mvWindow = []
  outBuf : s.mvOutBuf = []
  sequence : s.mvSequence = 0
  retries : s.mvRetries = pktTrnsMax

theorem Server.forked_loop {s : Server} (h : s.Constructed) (sk a : Addr) :
    (s.forked sk a).initLoop = true := by
  simp [Server.forked, initLoop, h.retries, pktTrnsMax]

namespace Parent

/-- The parent as it enters the loop of `Run`. -/
structure Start (p : Parent) : Prop where
  server : p.server.Constructed
  cxn2 : p.cxn2 = false
  outFor : p.outFor = none
  returned : p.returned = false

/-- The parent on socket `sock`, with zeros where nothing is initialised. -/
def atStart (sock : Addr) : Parent where
  server :=
    { mvSocket := sock, mvAddr := ⟨0, 0⟩, mvAddrLen := 0, mvFromName := [], mvBufferSize := 0
      mvWindowSize := 0
      mvFrom := ⟨[], 0⟩, mvWindow := [], mvOutBuf := [], mvSequence := 0
      mvRetries := pktTrnsMax, mvState := .init, winszSet := false, bufszSet := false
      fnSet := false }
  cxn2 := false
  sk := ⟨0, 0⟩
  outpkt := memset 0
  outFor := none
  returned := false

theorem atStart_start (sock : Addr) : (atStart sock).Start :=
  ⟨⟨rfl, rfl, rfl, rfl, rfl, rfl⟩, rfl, rfl, rfl⟩

variable [Host]

/-- The reply to a connection request: it announces the port of the new socket, in host byte
order. -/
def announce (sequence : UInt32) (sock : Addr) : Packet :=
  Packet.sealed { memset pktTypeRR with sequence := sequence, size := htons sock.sinPort }

@[simp] theorem announce_type (n : UInt32) (sock : Addr) : (announce n sock).type = pktTypeRR := rfl
@[simp] theorem announce_sequence (n : UInt32) (sock : Addr) : (announce n sock).sequence = n := rfl
@[simp] theorem announce_size (n : UInt32) (sock : Addr) :
    (announce n sock).size = htons sock.sinPort := rfl
@[simp] theorem announce_ok (n : UInt32) (sock : Addr) : (announce n sock).ok = true :=
  Packet.sealed_ok _

/-- The `sendtoErr` at the end of the loop. -/
def send (p : Parent) (io : Bool) : Parent × Option Packet :=
  if io then (p, some p.outpkt) else ({ p with returned := true }, none)

/-- `Server::Run`, one turn of its loop, for the datagram `inpkt` from `theirAddr`: the parent
behind it, what it sends back, and the child it forks.  `sock` is the socket `GetSocket` opens,
`forks` the outcome of `fork`. -/
def run (p : Parent) (theirAddr : Addr) (inpkt : Packet) (sock : Addr) (forks io : Bool) :
    Parent × Option Packet × Option Server :=
  if inpkt.ok then
    if inpkt.type = pktTypeCXN then
      let p :=
        { p with
          sk := sock, outpkt := announce inpkt.sequence sock, outFor := some theirAddr
          cxn2 := true }
      ((p.send io).1, (p.send io).2, none)
    else if inpkt.type = pktTypeCXN2 then
      if p.cxn2 then
        let p :=
          { p with cxn2 := false, outpkt := rrpkt inpkt.sequence, outFor := some theirAddr }
        ((p.send io).1, (p.send io).2,
          if forks then some (p.server.forked p.sk theirAddr) else none)
      else (p, none, none)
    else if inpkt.type = pktTypeREJ then ((p.send io).1, (p.send io).2, none)
    else (p, none, none)
  else (p, none, none)

theorem run_server (p : Parent) (a : Addr) (q : Packet) (sock : Addr) (forks io : Bool) :
    (p.run a q sock forks io).1.server = p.server := by
  unfold run send
  split_ifs <;> rfl

/-- What `Run` forks, if it forks. -/
theorem run_child {p : Parent} {a : Addr} {q : Packet} {sock : Addr} {forks io : Bool}
    {v : Server} (h : v ∈ (p.run a q sock forks io).2.2) :
    q.type = pktTypeCXN2 ∧ p.cxn2 = true ∧ v = p.server.forked p.sk a := by
  unfold run at h
  split_ifs at h <;> simp_all

/-- A connection is pending behind a turn if the turn has opened its socket, or if it was
pending before. -/
theorem run_pending {p : Parent} {a : Addr} {q : Packet} {sock : Addr} {forks io : Bool}
    (h : (p.run a q sock forks io).1.cxn2 = true) :
    q.type = pktTypeCXN ∧ (p.run a q sock forks io).1.sk = sock ∨
      p.cxn2 = true ∧ (p.run a q sock forks io).1.sk = p.sk := by
  unfold run send at h ⊢
  split_ifs at h ⊢ <;> simp_all

end Parent

end Fileserver
