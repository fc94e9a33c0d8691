/-
# A damaged datagram redirects the session

`recvfrom` writes the source of the datagram straight into `mvAddr`, and its length into
`mvAddrLen`, before anyone has looked at the checksum, and nothing takes it back.  The callers
treat a damaged datagram and a timeout alike, as the same value 2, and so does everything else they
keep: the counter, the window, what waits to be sent, the output and the parameters are the same in
both cases.
-/
import Fileserver.Retries

namespace Fileserver

/-! ## 1. What should be left alone -/

/-- What a child keeps between two receptions, but for its retries and its place in the code. -/
structure Server.Kept where
  mvAddr : Addr
  mvAddrLen : UInt32
  mvSequence : UInt32
  mvWindow : List Packet
  mvOutBuf : List Packet
  mvFrom : File
  mvFromName : List UInt8
  mvBufferSize : UInt32
  mvWindowSize : UInt32
  winszSet : Bool
  bufszSet : Bool
  fnSet : Bool

def Server.kept (s : Server) : Server.Kept where
  mvAddr := s.mvAddr
  mvAddrLen := s.mvAddrLen
  mvSequence := s.mvSequence
  mvWindow := s.mvWindow
  mvOutBuf := s.mvOutBuf
  mvFrom := s.mvFrom
  mvFromName := s.mvFromName
  mvBufferSize := s.mvBufferSize
  mvWindowSize := s.mvWindowSize
  winszSet := s.winszSet
  bufszSet := s.bufszSet
  fnSet := s.fnSet

/-- The same for a client. -/
structure Client.Kept where
  mvAddr : Addr
  mvAddrLen : UInt32
  mvSequence : UInt32
  mvTo : List UInt8
  mvFromName : List UInt8
  mvBufferSize : UInt32
  mvWindowSize : UInt32
  mvRemotePort : UInt16
  mvSocket : Addr
  i : Int
  sk : Addr
  addr : Addr

def Client.kept (c : Client) : Client.Kept where
  mvAddr := c.mvAddr
  mvAddrLen := c.mvAddrLen
  mvSequence := c.mvSequence
  mvTo := c.mvTo
  mvFromName := c.mvFromName
  mvBufferSize := c.mvBufferSize
  mvWindowSize := c.mvWindowSize
  mvRemotePort := c.mvRemotePort
  mvSocket := c.mvSocket
  i := c.i
  sk := c.sk
  addr := c.addr

/-! ## 2. The child -/

namespace Server

variable [Host]

/-- A timeout leaves everything as it was. -/
theorem kept_timeout {s t : Server} {io : Bool} {out : Option Packet}
    (hl : s.mvState = .init → s.initLoop = true) (h : s.step (.hear .timeout io) = some (t, out)) :
    t.kept = s.kept := by
  rcases step_hear h with ⟨hs, rfl⟩ | ⟨-, rfl⟩
  · cases io with
    | true => rw [init_timeout (hl hs), kept, kept]
    | false => rfl
  · rfl

/-- A damaged datagram leaves everything as it was but the address and its length. -/
theorem kept_damaged {s t : Server} {src : Addr} {buf : Packet} {io : Bool}
    {out : Option Packet} (hl : s.mvState = .init → s.initLoop = true) (hbad : buf.ok = false)
    (h : s.step (.hear (.datagram src buf) io) = some (t, out)) :
    t.kept = { s.kept with mvAddr := src, mvAddrLen := sizeofIn } := by
  rcases step_hear h with ⟨hs, rfl⟩ | ⟨-, rfl⟩
  · cases io with
    | true => rw [init_damaged (hl hs) src hbad, kept, kept]
    | false =>
      simp only [init, recvPacket, hbad, initSend]
      rfl
  · simp only [waitRR, recvPacket, hbad]
    rfl

end Server

/-! ## 3. The client -/

namespace Client

variable [Host]

omit [Host] in
/-- Sending the same packet again changes nothing that is kept. -/
theorem kept_again {c : Client} (hi : c.i < 5) : (c.again (c.i - 1 + 1)).kept = c.kept := by
  have hsame : c.i - 1 + 1 = c.i := by omega
  rw [hsame]
  simp only [again, initEnd]
  split_ifs with hl hk
  · rfl
  · rfl
  · simp [initLoop, hi, Int.not_le.mp hk] at hl

theorem kept_timeout {c d : Client} {sock : Addr} {wr io : Bool} {out : Option Packet}
    (hc : c.Loops) (h : c.step (.hear .timeout sock wr io) = some (d, out)) :
    d.kept = c.kept := by
  rcases step_hear h with ⟨hs, rfl⟩ | ⟨-, rfl⟩
  · exact kept_again (c := { c with mvRetries := c.mvRetries - 1 }) (hc hs).2.1
  · cases io <;> rfl

theorem kept_damaged {c d : Client} {src sock : Addr} {buf : Packet} {wr io : Bool}
    {out : Option Packet} (hc : c.Loops) (hbad : buf.ok = false)
    (h : c.step (.hear (.datagram src buf) sock wr io) = some (d, out)) :
    d.kept = { c.kept with mvAddr := src, mvAddrLen := sizeofIn } := by
  rcases step_hear h with ⟨hs, rfl⟩ | ⟨-, rfl⟩
  · simp only [init, recvPacket, hbad, Bool.false_eq_true, if_false]
    exact kept_again (hc hs).2.1
      (c := { c with mvRetries := pktTrnsMax - 1, mvAddr := src, mvAddrLen := sizeofIn })
  · simp only [recvPackets, recvPacket, hbad]
    cases io <;> rfl

end Client

/-! ## 4. Both against a timeout -/

section Redirect

variable [Host]

/-- **A damaged datagram leaves the session as a timeout would** exactly if it comes from the
address the process is talking to already and the length next to that address is the one
`recvfrom` stores, on both sides and in both loops. -/
theorem damaged_as_timeout_iff (src : Addr) (buf : Packet) (hbad : buf.ok = false) (io : Bool) :
    (∀ (s t t' : Server) (out out' : Option Packet),
      (s.mvState = .init → s.initLoop = true) →
      s.step (.hear (.datagram src buf) io) = some (t, out) →
      s.step (.hear .timeout io) = some (t', out') →
        (t.kept = t'.kept ↔ src = s.mvAddr ∧ s.mvAddrLen = sizeofIn)) ∧
    (∀ (c d d' : Client) (sock : Addr) (wr : Bool) (out out' : Option Packet), c.Loops →
      c.step (.hear (.datagram src buf) sock wr io) = some (d, out) →
      c.step (.hear .timeout sock wr io) = some (d', out') →
        (d.kept = d'.kept ↔ src = c.mvAddr ∧ c.mvAddrLen = sizeofIn)) := by
  refine ⟨?_, ?_⟩
  · intro s t t' out out' hl h h'
    rw [Server.kept_damaged hl hbad h, Server.kept_timeout hl h']
    constructor
    · exact fun he =>
        ⟨congrArg Server.Kept.mvAddr he, (congrArg Server.Kept.mvAddrLen he).symm⟩
    · rintro ⟨rfl, hlen⟩
      rw [← hlen]
      rfl
  · intro c d d' sock wr out out' hc h h'
    rw [Client.kept_damaged hc hbad h, Client.kept_timeout hc h']
    constructor
    · exact fun he =>
        ⟨congrArg Client.Kept.mvAddr he, (congrArg Client.Kept.mvAddrLen he).symm⟩
    · rintro ⟨rfl, hlen⟩
      rw [← hlen]
      rfl

end Redirect

end Fileserver

namespace Fileserver

local instance redirectHost : Host := refHost []

/-- A child waiting for a reply. -/
def Server.expectant : Server := { atStart [] 2 4 with mvState := .waitRR }

/-- **A stranger's damaged datagram** takes the child's session over. -/
theorem not_damaged_as_timeout :
    ¬ ∀ (src : Addr) (buf : Packet) (io : Bool) (s t t' : Server) (out out' : Option Packet),
      buf.ok = false → (s.mvState = .init → s.initLoop = true) →
      s.step (.hear (.datagram src buf) io) = some (t, out) →
      s.step (.hear .timeout io) = some (t', out') → t.kept = t'.kept := by
  intro hall
  have h := hall ⟨66, 66⟩ (memset 0) true .expectant _ _ _ _ (by decide +kernel)
    (by simp [Server.expectant]) rfl rfl
  have haddr := congrArg Server.Kept.mvAddr h
  revert haddr
  decide +kernel

/-- One of its own client's, damaged on the way, does not. -/
theorem damaged_as_timeout_own :
    ∃ t t' out out', Server.expectant.step (.hear (.datagram ⟨2, 9⟩ (memset 0)) true)
        = some (t, out) ∧
      Server.expectant.step (.hear .timeout true) = some (t', out') ∧ t.kept = t'.kept := by
  refine ⟨_, _, _, _, rfl, rfl, ?_⟩
  exact ((damaged_as_timeout_iff ⟨2, 9⟩ (memset 0) (by decide +kernel) true).1 .expectant _ _ _ _
    (by simp [Server.expectant]) rfl rfl).mpr ⟨rfl, rfl⟩

end Fileserver
