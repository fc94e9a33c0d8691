/-
# A client, the server and the network

The whole program: the parent, the children it has forked, one client, and what is in flight
between them.  Datagrams wait in a queue per socket, oldest first, `up` at the sockets of the
server and `down` at those of the client; on a link that keeps the order, whoever reads a socket
takes the oldest one.

`bound` lists the addresses in use, so that a new socket gets one of its own.  `built` records
the packets `fillWindow` has built; no function reads it.
-/
import Fileserver.Client
import Fileserver.Lib.System
import Fileserver.Network
import Fileserver.Parent
import Fileserver.Window
import Mathlib.Logic.Function.Basic

namespace Fileserver

open Proto

/-- The processes and what is in flight. -/
structure World where
  parent : Parent
  children : List Server
  client : Client
  up : Addr → List Datagram
  down : Addr → List Datagram
  bound : List Addr
  built : List Packet

/-- Hearing `r`, the parent calls `GetSocket`. -/
def Parent.opensOn [Host] : Recv → Bool
  | .datagram _ buf => buf.ok && decide (buf.type = pktTypeCXN)
  | _ => false

/-- Hearing `r`, the client calls `GetSocket`. -/
def Client.opensOn [Host] (c : Client) : Recv → Bool
  | .datagram _ buf => decide (c.mvState = .init) && buf.ok && c.opens buf
  | _ => false

namespace World

/-- What happens next: a turn of a process, or something in flight.  `sock` is the socket the
turn opens if it opens one, `k` the child. -/
inductive Event
  | parentHear (a : Arrival) (sock : Addr) (forks io : Bool)
  | childAct (k : ℕ) (io : Bool)
  | childHear (k : ℕ) (a : Arrival) (io : Bool)
  | clientAct (io : Bool)
  | clientHear (a : Arrival) (sock : Addr) (wr io : Bool)
  | loseUp (x : Addr) (i : ℕ)
  | dupUp (x : Addr) (i : ℕ)
  | loseDown (x : Addr) (i : ℕ)
  | dupDown (x : Addr) (i : ℕ)

/-- The parent's socket. -/
def port (w : World) : Addr := w.parent.server.mvSocket

/-- The queues with a packet more, if there is one, on its way from `src` to `dst`. -/
def post (q : Addr → List Datagram) (dst src : Addr) (out : Option Packet) :
    Addr → List Datagram :=
  Function.update q dst (q dst ++ out.toList.map (Datagram.mk src))

/-- The world behind a turn of the parent, with `l` left in its queue. -/
def afterParent (w : World) (src : Addr) (l : List Datagram) (bound : List Addr)
    (t : Parent × Option Packet × Option Server) : World :=
  { w with
    parent := t.1
    children := w.children ++ t.2.2.toList
    up := Function.update w.up w.port l
    down := post w.down src w.port t.2.1
    bound := bound }

/-- The world behind a turn of child `k`, with `up` as it is then. -/
def afterChild (w : World) (k : ℕ) (up : Addr → List Datagram) (built : List Packet)
    (t : Server × Option Packet) : World :=
  { w with
    children := w.children.set k t.1
    up := up
    down := post w.down t.1.mvAddr t.1.mvSocket t.2
    built := built }

/-- The world behind a turn of the client, with `down` as it is then. -/
def afterClient (w : World) (down : Addr → List Datagram) (bound : List Addr)
    (t : Client × Option Packet) : World :=
  { w with
    client := t.1
    up := post w.up t.1.mvAddr t.1.mvSocket t.2
    down := down
    bound := bound }

/-- The addresses in use behind a call that opens `sock` if `opened` says so. -/
def bind (w : World) (opened : Bool) (sock : Addr) : List Addr :=
  if opened then sock :: w.bound else w.bound

variable [Host]

/-- The world after the event, if the event can happen. -/
def next (w : World) : Event → Option World
  | .parentHear a sock forks io =>
    if w.parent.returned then none
    else
      match a.recv (w.up w.port) with
      | some (.datagram src buf, l) =>
        some (w.afterParent src l (w.bind (Parent.opensOn (.datagram src buf)) sock)
          (w.parent.run src buf sock forks io))
      | some (.failed, _) => some { w with parent := { w.parent with returned := true } }
      -- `recvfrom` on the parent's socket waits for as long as it takes
      | some (.timeout, _) => none
      | none => none
  | .childAct k io =>
    w.children[k]?.bind fun v =>
      (v.step (.act io)).map fun t =>
        w.afterChild k w.up (if v.pushes (.act io) then w.built ++ [v.nextPacket] else w.built) t
  | .childHear k a io =>
    w.children[k]?.bind fun v =>
      (a.recv (w.up v.mvSocket)).bind fun (r, l) =>
        (v.step (.hear r io)).map fun t =>
          w.afterChild k (Function.update w.up v.mvSocket l) w.built t
  | .clientAct io => (w.client.step (.act io)).map fun t => w.afterClient w.down w.bound t
  | .clientHear a sock wr io =>
    (a.recv (w.down w.client.mvSocket)).bind fun (r, l) =>
      (w.client.step (.hear r sock wr io)).map fun t =>
        w.afterClient (Function.update w.down w.client.mvSocket l)
          (w.bind (w.client.opensOn r) sock) t
  | .loseUp x i => some { w with up := Function.update w.up x ((w.up x).eraseIdx i) }
  | .dupUp x i => some { w with up := Function.update w.up x (Link.dup i (w.up x)) }
  | .loseDown x i => some { w with down := Function.update w.down x ((w.down x).eraseIdx i) }
  | .dupDown x i => some { w with down := Function.update w.down x (Link.dup i (w.down x)) }

/-- What links of kind `n` and the operating system let happen: a new socket has an address
nobody uses, on the machine that opens it. -/
def may (n : Link) (w : World) : Event → Prop
  | .parentHear a sock _ _ =>
    a.allowed n ∧ ∀ x ∈ a.recv (w.up w.port), Parent.opensOn x.1 = true →
      sock ∉ w.bound ∧ sock.host = w.port.host
  | .childAct .. => True
  | .childHear _ a _ => a.allowed n
  | .clientAct _ => True
  | .clientHear a sock _ _ =>
    a.allowed n ∧ ∀ x ∈ a.recv (w.down w.client.mvSocket), w.client.opensOn x.1 = true →
      sock ∉ w.bound
  | .loseUp .. => n.loses = true
  | .dupUp .. => n.duplicates = true
  | .loseDown .. => n.loses = true
  | .dupDown .. => n.duplicates = true

instance (n : Link) (w : World) : DecidablePred (may n w)
  | .parentHear a sock _ _ =>
    inferInstanceAs (Decidable (a.allowed n ∧ ∀ x ∈ a.recv (w.up w.port),
      Parent.opensOn x.1 = true → sock ∉ w.bound ∧ sock.host = w.port.host))
  | .childAct .. => inferInstanceAs (Decidable True)
  | .childHear _ a _ => inferInstanceAs (Decidable (a.allowed n))
  | .clientAct _ => inferInstanceAs (Decidable True)
  | .clientHear a sock _ _ =>
    inferInstanceAs (Decidable (a.allowed n ∧ ∀ x ∈ a.recv (w.down w.client.mvSocket),
      w.client.opensOn x.1 = true → sock ∉ w.bound))
  | .loseUp .. | .loseDown .. => inferInstanceAs (Decidable (n.loses = true))
  | .dupUp .. | .dupDown .. => inferInstanceAs (Decidable (n.duplicates = true))

/-- The server waits for its first request, and the client `rcopy` has built for it is about to
send one. -/
structure Start (from_ : List UInt8) (bufsz winsz : Int32) (w : World) : Prop where
  parent : w.parent.Start
  client : ∃ sock sk addr, sock ≠ w.port ∧
    w.client = .rcopy from_ bufsz winsz w.port.host (htons w.port.sinPort) sock sk addr
  children : w.children = []
  up : w.up = fun _ => []
  down : w.down = fun _ => []
  bound : w.bound = [w.client.mvSocket, w.port]
  built : w.built = []

/-- The program over links of kind `n`. -/
def system (from_ : List UInt8) (bufsz winsz : Int32) (n : Link) : System World Event where
  start := Start from_ bufsz winsz
  may := may n
  next := next

instance (from_ : List UInt8) (bufsz winsz : Int32) (n : Link) (w : World) (e : Event) :
    Decidable ((system from_ bufsz winsz n).may w e) :=
  inferInstanceAs (Decidable (may n w e))

/-- A start with the server at address 1 and the client at address 2. -/
def atStart (from_ : List UInt8) (bufsz winsz : Int32) : World where
  parent := .atStart ⟨1, 7⟩
  children := []
  client := .rcopy from_ bufsz winsz 1 (htons 7) ⟨2, 9⟩ ⟨0, 0⟩ ⟨0, 0⟩
  up := fun _ => []
  down := fun _ => []
  bound := [⟨2, 9⟩, ⟨1, 7⟩]
  built := []

omit [Host] in
theorem atStart_start (from_ : List UInt8) (bufsz winsz : Int32) :
    Start from_ bufsz winsz (atStart from_ bufsz winsz) where
  parent := Parent.atStart_start _
  client := ⟨⟨2, 9⟩, ⟨0, 0⟩, ⟨0, 0⟩, by simp [port, atStart, Parent.atStart], rfl⟩
  children := rfl
  up := rfl
  down := rfl
  bound := rfl
  built := rfl

end World

end Fileserver
