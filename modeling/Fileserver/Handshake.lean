/-
# The turns of the handshake

`Server::init` and `Client::init` turn by turn, as `Window.lean` and `Receiver.lean` do it for the
data phase.  The two do not agree on what a reply means.  The child answers a packet it has
processed before with an `RR` for the number it is still WAITING for (`Server.InitTurn.old`),
and the client takes an `RR` for the number it has just sent, or a `REJ` for a later one, as its
acknowledgement (`Client.Onward`).
-/
import Fileserver.Client
import Fileserver.Server

namespace Fileserver

namespace Server

/-! ## 1. The child -/

/-- The child after a packet it expected. -/
def taken (s : Server) (src : Addr) (buf : Packet) : Server :=
  { s with
    mvRetries := pktTrnsMax, mvAddr := src, mvAddrLen := sizeofIn
    mvSequence := s.mvSequence + 1 }.initTake buf

theorem initTake_retries (s : Server) (p : Packet) : (s.initTake p).mvRetries = s.mvRetries := by
  unfold initTake
  split_ifs <;> rfl

@[simp] theorem taken_retries (s : Server) (src : Addr) (p : Packet) :
    (s.taken src p).mvRetries = pktTrnsMax := initTake_retries _ p

@[simp] theorem taken_sequence (s : Server) (src : Addr) (p : Packet) :
    (s.taken src p).mvSequence = s.mvSequence + 1 := by
  unfold taken initTake
  split_ifs <;> rfl

@[simp] theorem taken_addr (s : Server) (src : Addr) (p : Packet) :
    (s.taken src p).mvAddr = src := by
  unfold taken initTake
  split_ifs <;> rfl

@[simp] theorem taken_socket (s : Server) (src : Addr) (p : Packet) :
    (s.taken src p).mvSocket = s.mvSocket := by
  unfold taken initTake
  split_ifs <;> rfl

@[simp] theorem taken_state (s : Server) (src : Addr) (p : Packet) :
    (s.taken src p).mvState = s.mvState := by
  unfold taken initTake
  split_ifs <;> rfl

@[simp] theorem taken_window (s : Server) (src : Addr) (p : Packet) :
    (s.taken src p).mvWindow = s.mvWindow := by
  unfold taken initTake
  split_ifs <;> rfl

@[simp] theorem taken_outBuf (s : Server) (src : Addr) (p : Packet) :
    (s.taken src p).mvOutBuf = s.mvOutBuf := by
  unfold taken initTake
  split_ifs <;> rfl

/-- The flags behind a packet: those set before, and its own. -/
theorem taken_flags (s : Server) (src : Addr) (p : Packet) :
    (s.taken src p).bufszSet = (s.bufszSet || decide (p.type = pktTypeBUF)) ∧
    (s.taken src p).winszSet = (s.winszSet || decide (p.type = pktTypeWIN)) ∧
    (s.taken src p).fnSet = (s.fnSet || decide (p.type = pktTypeFLN)) := by
  have h1 : pktTypeBUF ≠ pktTypeWIN := by decide
  have h2 : pktTypeBUF ≠ pktTypeFLN := by decide
  have h3 : pktTypeWIN ≠ pktTypeFLN := by decide
  unfold taken initTake
  split_ifs <;> simp_all

variable [Host]

/-- The turns of `init`, each with its guard, the state it leads to and its answer.  The `Bool` is
the outcome of `sendtoErr`. -/
inductive InitTurn (s : Server) : Recv → Bool → Server → Option Packet → Prop
  | nag {r : Recv} {k : Int} {a : Addr} {m : UInt32} (hb : r.bad = true) (hk : 0 < k)
      (ha : a = s.mvAddr ∨ ∃ buf, r = .datagram a buf) :
      InitTurn s r true { s with mvRetries := k, mvAddr := a, mvAddrLen := m }
        (some (rejpkt s.mvSequence))
  | gaveUp {r : Recv} {k : Int} {a : Addr} {m : UInt32} (hb : r.bad = true)
      (ha : a = s.mvAddr ∨ ∃ buf, r = .datagram a buf) :
      InitTurn s r true { s with mvRetries := k, mvAddr := a, mvAddrLen := m, mvState := .error }
        (some (rejpkt s.mvSequence))
  | old {src : Addr} {buf : Packet} (hok : buf.ok = true)
      (hq : buf.sequence < s.mvSequence) :
      InitTurn s (.datagram src buf) true
        { s with mvRetries := pktTrnsMax, mvAddr := src, mvAddrLen := sizeofIn }
        (some (rrpkt s.mvSequence))
  | high {src : Addr} {buf : Packet} (hok : buf.ok = true)
      (hq : s.mvSequence < buf.sequence) :
      InitTurn s (.datagram src buf) true
        { s with mvRetries := pktTrnsMax - 1, mvAddr := src, mvAddrLen := sizeofIn }
        (some (rejpkt s.mvSequence))
  | take {src : Addr} {buf : Packet} (hok : buf.ok = true) (hq : buf.sequence = s.mvSequence)
      (hl : (s.taken src buf).initLoop = true) :
      InitTurn s (.datagram src buf) true (s.taken src buf) (some (rrpkt s.mvSequence))
  | opened {src : Addr} {buf : Packet} {contents : List UInt8} (hok : buf.ok = true)
      (hq : buf.sequence = s.mvSequence) (hl : (s.taken src buf).initLoop = false)
      (hf : Host.file (s.taken src buf).mvFromName = some contents) :
      InitTurn s (.datagram src buf) true
        { s.taken src buf with
          mvFrom := ⟨contents, 0⟩, mvSequence := 0, mvState := .fillWindow }
        (some (rrpkt s.mvSequence))
  | unopened {src : Addr} {buf : Packet} (hok : buf.ok = true)
      (hq : buf.sequence = s.mvSequence) (hl : (s.taken src buf).initLoop = false)
      (hf : Host.file (s.taken src buf).mvFromName = none) :
      InitTurn s (.datagram src buf) true { s.taken src buf with mvState := .error }
        (some (rrpkt s.mvSequence))
  | fail {r : Recv} {io : Bool} {t : Server} (hf : r = .failed ∨ io = false)
      (he : t.mvState = .error) (hk : t.mvSocket = s.mvSocket)
      (hw : t.mvWindow = s.mvWindow) (ho : t.mvOutBuf = s.mvOutBuf) : InitTurn s r io t none

/-- **The list of turns is complete** for a child inside its loop. -/
theorem init_cases {s : Server} (hl : s.initLoop = true) (r : Recv) (io : Bool) :
    InitTurn s r io (s.init r io).1 (s.init r io).2 := by
  obtain ⟨hflags, -⟩ : (!s.winszSet || !s.bufszSet || !s.fnSet) = true ∧ 0 < s.mvRetries := by
    simpa [initLoop] using hl
  -- a turn that only touches the peer address and the retries, and sends a `REJ`
  have hnag {k : Int} {a : Addr} {m : UInt32} (hb : r.bad = true)
      (ha : a = s.mvAddr ∨ ∃ buf, r = .datagram a buf) :
      InitTurn s r io
        ({ s with mvRetries := k, mvAddr := a, mvAddrLen := m }.initSend (rejpkt s.mvSequence) io).1
        ({ s with
            mvRetries := k, mvAddr := a, mvAddrLen := m }.initSend (rejpkt s.mvSequence) io).2 := by
    cases io with
    | false => exact .fail (.inr rfl) rfl rfl rfl rfl
    | true =>
      by_cases hk : 0 < k
      · have hloop :
            ({ s with mvRetries := k, mvAddr := a, mvAddrLen := m } : Server).initLoop = true := by
          simp only [initLoop, hflags, hk, decide_true, Bool.and_self]
        simp only [initSend, hloop, if_true]
        exact .nag hb hk ha
      · have hloop :
            ({ s with mvRetries := k, mvAddr := a, mvAddrLen := m } : Server).initLoop = false := by
          simp [initLoop, hk]
        have hend : ({ s with mvRetries := k, mvAddr := a, mvAddrLen := m } : Server).initEnd
            = { s with mvRetries := k, mvAddr := a, mvAddrLen := m, mvState := .error } := by
          simp [initEnd, Int.not_lt.mp hk]
        simp only [initSend, hloop, Bool.false_eq_true, if_true, if_false, hend]
        exact .gaveUp hb ha
  cases r with
  | timeout => exact hnag (a := s.mvAddr) rfl (.inl rfl)
  | failed => exact .fail (.inl rfl) rfl rfl rfl rfl
  | datagram src buf =>
    by_cases hok : buf.ok = true
    · simp only [init, recvPacket, hok, if_true, initPacket]
      by_cases hle : buf.sequence ≤ s.mvSequence
      · by_cases hq : buf.sequence = s.mvSequence
        · simp only [if_pos hle, if_pos hq]
          change InitTurn s _ _ ((s.taken src buf).initSend _ io).1
            ((s.taken src buf).initSend _ io).2
          cases io with
          | false =>
            exact .fail (.inr rfl) rfl (taken_socket _ _ _) (taken_window _ _ _)
              (taken_outBuf _ _ _)
          | true =>
            cases hloop : (s.taken src buf).initLoop with
            | true =>
              simp only [initSend, hloop, if_true]
              exact .take hok hq hloop
            | false =>
              have hr : ¬ (s.taken src buf).mvRetries ≤ 0 := by
                rw [taken_retries]
                decide
              simp only [initSend, hloop, Bool.false_eq_true, if_true, if_false, initEnd, hr]
              cases hf : Host.file (s.taken src buf).mvFromName with
              | none => exact .unopened hok hq hloop hf
              | some contents =>
                convert InitTurn.opened hok hq hloop hf using 2
                simp
        · have hlt : buf.sequence < s.mvSequence := UInt32.lt_of_le_of_ne hle hq
          simp only [if_pos hle, if_neg hq]
          cases io with
          | false => exact .fail (.inr rfl) rfl rfl rfl rfl
          | true =>
            have hloop : ({ s with
                mvRetries := pktTrnsMax, mvAddr := src, mvAddrLen := sizeofIn } : Server).initLoop
                = true := by
              simp only [initLoop, hflags, Bool.true_and]
              rfl
            simp only [initSend, hloop, if_true]
            exact .old hok hlt
      · have hlt : s.mvSequence < buf.sequence := UInt32.not_le.mp hle
        simp only [if_neg hle]
        cases io with
        | false => exact .fail (.inr rfl) rfl rfl rfl rfl
        | true =>
          have hloop : ({ s with
              mvRetries := pktTrnsMax - 1, mvAddr := src, mvAddrLen := sizeofIn } : Server).initLoop
              = true := by
            simp only [initLoop, hflags, Bool.true_and]
            rfl
          simp only [initSend, hloop, if_true]
          exact .high hok hlt
    · simp only [init, recvPacket, hok, Bool.false_eq_true, if_false]
      exact hnag (by simpa [Recv.bad] using hok) (.inr ⟨buf, rfl⟩)

/-- A timeout takes a retry, and the last one ends the child. -/
theorem init_timeout {s : Server} (hl : s.initLoop = true) :
    (s.init .timeout true).1 = { s with
      mvRetries := s.mvRetries - 1
      mvState := if s.mvRetries ≤ 1 then .error else s.mvState } := by
  obtain ⟨hflags, -⟩ : (!s.winszSet || !s.bufszSet || !s.fnSet) = true ∧ 0 < s.mvRetries := by
    simpa [initLoop] using hl
  simp only [init, recvPacket, initSend, initLoop, hflags, Bool.true_and, initEnd, if_true]
  by_cases hk : s.mvRetries ≤ 1
  · have h0 : s.mvRetries - 1 ≤ 0 := by omega
    simp only [hk, h0, if_true, Int.not_lt.mpr h0, decide_false, Bool.false_eq_true, if_false]
  · have h0 : 0 < s.mvRetries - 1 := by omega
    simp only [hk, h0, decide_true, if_true, if_false]

/-- A damaged packet takes one retry from a full counter, however many were left. -/
theorem init_damaged {s : Server} (hl : s.initLoop = true) (src : Addr) {buf : Packet}
    (hok : buf.ok = false) :
    (s.init (.datagram src buf) true).1 =
      { s with mvRetries := pktTrnsMax - 1, mvAddr := src, mvAddrLen := sizeofIn } := by
  obtain ⟨hflags, -⟩ : (!s.winszSet || !s.bufszSet || !s.fnSet) = true ∧ 0 < s.mvRetries := by
    simpa [initLoop] using hl
  have hmax : 0 < pktTrnsMax - 1 := by decide
  simp only [init, recvPacket, hok, Bool.false_eq_true, if_false, initSend, initLoop, hflags,
    Bool.true_and, hmax, decide_true, if_true]

/-- A turn of `init` leaves the child in its loop or behind `init`, and the window alone. -/
theorem InitTurn.stays {s t : Server} {r : Recv} {io : Bool} {out : Option Packet}
    (h : InitTurn s r io t out) (hl : s.initLoop = true) :
    (t.mvState = .init → t.initLoop = true) ∧ t.mvWindow = s.mvWindow ∧
      t.mvOutBuf = s.mvOutBuf ∧ t.mvSocket = s.mvSocket := by
  have hflags : (!s.winszSet || !s.bufszSet || !s.fnSet) = true := by
    simp only [initLoop, Bool.and_eq_true] at hl
    exact hl.1
  cases h with
  | nag hb hk ha =>
    refine ⟨?_, rfl, rfl, rfl⟩
    intro _
    simp only [initLoop, hflags, hk, decide_true, Bool.and_self]
  | old | high =>
    refine ⟨?_, rfl, rfl, rfl⟩
    intro _
    simp only [initLoop, hflags, Bool.true_and]
    rfl
  | take hok hq hl' => exact ⟨fun _ => hl', by simp, by simp, by simp⟩
  | gaveUp => exact ⟨by simp, rfl, rfl, rfl⟩
  | opened | unopened => exact ⟨by simp, by simp, by simp, by simp⟩
  | fail hf he hk hw ho => exact ⟨by simp [he], hw, ho, hk⟩

end Server

namespace Client

/-! ## 2. The client -/

/-- Back to an index inside the loop, with retries left. -/
theorem again_of_lt {c : Client} {i : Int} (hi : i < 5) (hk : 0 < c.mvRetries) :
    c.again i = { c with i := i, sent := false } := by
  simp [Client.again, initLoop, hi, hk]

theorem again_five {c : Client} (hk : 0 < c.mvRetries) :
    c.again 5 = { c with
      i := 5, sent := false, mvSequence := 0, mvRetries := pktTrnsMax
      mvState := .recvPackets } := by
  simp [Client.again, initLoop, initEnd, Int.not_le.mpr hk]

/-- The index as the C comparison with an `unsigned` sees it. -/
theorem toNat_ofInt {i : Int} (h0 : 0 ≤ i) (h5 : i < 5) : ((UInt32.ofInt i).toNat : Int) = i := by
  obtain rfl | rfl | rfl | rfl | rfl : i = 0 ∨ i = 1 ∨ i = 2 ∨ i = 3 ∨ i = 4 := by omega
  all_goals rfl

/-- The index a `REJ` leads to is its number, across the C conversions. -/
theorem index_of_rej {q : UInt32} (hq : q.toNat < 5) :
    (q - 1).toInt32.toInt + 1 = (q.toNat : Int) := by
  have hcases : q = 0 ∨ q = 1 ∨ q = 2 ∨ q = 3 ∨ q = 4 := by
    simp only [← UInt32.toNat_inj]
    change q.toNat = 0 ∨ q.toNat = 1 ∨ q.toNat = 2 ∨ q.toNat = 3 ∨ q.toNat = 4
    omega
  obtain rfl | rfl | rfl | rfl | rfl := hcases <;> decide

variable [Host]

theorem pkt_ok {c : Client} {i : Int} (h0 : 0 ≤ i) (h5 : i < 5) : (c.pkt i).ok = true := by
  obtain rfl | rfl | rfl | rfl | rfl : i = 0 ∨ i = 1 ∨ i = 2 ∨ i = 3 ∨ i = 4 := by omega
  all_goals exact Packet.sealed_ok _

/-- The packets are numbered. -/
theorem pkt_sequence {c : Client} {i : Int} (h0 : 0 ≤ i) (h5 : i < 5) :
    ((c.pkt i).sequence.toNat : Int) = i := by
  obtain rfl | rfl | rfl | rfl | rfl : i = 0 ∨ i = 1 ∨ i = 2 ∨ i = 3 ∨ i = 4 := by omega
  all_goals rfl

/-- Only the first packet asks for a connection. -/
theorem pkt_type_cxn {c : Client} {i : Int} (h0 : 0 ≤ i) (h5 : i < 5) :
    (c.pkt i).type = pktTypeCXN ↔ i = 0 := by
  obtain rfl | rfl | rfl | rfl | rfl : i = 0 ∨ i = 1 ∨ i = 2 ∨ i = 3 ∨ i = 4 := by omega
  all_goals simp [pkt, memset, pktTypeCXN, pktTypeCXN2, pktTypeBUF, pktTypeWIN, pktTypeFLN]

theorem pkt_type_cxn2 {c : Client} {i : Int} (h0 : 0 ≤ i) (h5 : i < 5) :
    (c.pkt i).type = pktTypeCXN2 ↔ i = 1 := by
  obtain rfl | rfl | rfl | rfl | rfl : i = 0 ∨ i = 1 ∨ i = 2 ∨ i = 3 ∨ i = 4 := by omega
  all_goals simp [pkt, memset, pktTypeCXN, pktTypeCXN2, pktTypeBUF, pktTypeWIN, pktTypeFLN]

theorem pkt_type_fln {c : Client} {i : Int} (h0 : 0 ≤ i) (h5 : i < 5) :
    (c.pkt i).type = pktTypeFLN ↔ i = 4 := by
  obtain rfl | rfl | rfl | rfl | rfl : i = 0 ∨ i = 1 ∨ i = 2 ∨ i = 3 ∨ i = 4 := by omega
  all_goals simp [pkt, memset, pktTypeCXN, pktTypeCXN2, pktTypeBUF, pktTypeWIN, pktTypeFLN]

theorem pkt_type_rej {c : Client} {i : Int} (h0 : 0 ≤ i) (h5 : i < 5) :
    (c.pkt i).type ≠ pktTypeREJ := by
  obtain rfl | rfl | rfl | rfl | rfl : i = 0 ∨ i = 1 ∨ i = 2 ∨ i = 3 ∨ i = 4 := by omega
  all_goals
    simp [pkt, memset, pktTypeCXN, pktTypeCXN2, pktTypeBUF, pktTypeWIN, pktTypeFLN, pktTypeREJ]

/-- The packet takes the client one step further without changing its socket. -/
def Onward (c : Client) (buf : Packet) : Prop :=
  (buf.type = pktTypeRR ∧ (buf.sequence.toNat : Int) = c.i ∧ 2 ≤ c.i) ∨
  (buf.type = pktTypeREJ ∧ c.i < buf.sequence.toNat) ∨
  (buf.type ≠ pktTypeRR ∧ buf.type ≠ pktTypeREJ)

/-- The turns of `init` that receive, each with its guard and the state it leads to.  The `Bool` is
the outcome of `GetSocket`. -/
inductive InitTurn (c : Client) (sock : Addr) : Recv → Bool → Client → Prop
  | again {r : Recv} {io : Bool} {k : Int} {a : Addr} {m : UInt32} (hk : 0 < k)
      (ha : r = .timeout ∧ a = c.mvAddr ∨ ∃ buf, r = .datagram a buf)
      (hr : r.bad = true ∨ ∃ src buf, r = .datagram src buf ∧ buf.ok = true ∧
        buf.type = pktTypeRR ∧ (buf.sequence.toNat : Int) ≠ c.i) :
      InitTurn c sock r io { c with mvRetries := k, mvAddr := a, mvAddrLen := m, sent := false }
  | opens {src : Addr} {buf : Packet} (hok : buf.ok = true) (ht : buf.type = pktTypeRR)
      (hq : buf.sequence.toNat = 0) (hi : c.i = 0) :
      InitTurn c sock (.datagram src buf) true
        { c with
          mvRetries := pktTrnsMax, mvAddr := src, mvAddrLen := sizeofStorage
          mvRemotePort := buf.size, sk := sock, addr := ⟨c.mvRemote, htons buf.size⟩
          skSet := true, i := 1, sent := false }
  | switches {src : Addr} {buf : Packet} {io : Bool} (hok : buf.ok = true)
      (ht : buf.type = pktTypeRR) (hq : buf.sequence.toNat = 1) (hi : c.i = 1) :
      InitTurn c sock (.datagram src buf) io
        { c with
          mvRetries := pktTrnsMax, mvSocket := c.sk, mvAddr := c.addr, mvAddrLen := sizeofIn
          i := 2, sent := false }
  | back {src : Addr} {buf : Packet} {io : Bool} (hok : buf.ok = true) (ht : buf.type = pktTypeREJ)
      (hq : (buf.sequence.toNat : Int) ≤ c.i) :
      InitTurn c sock (.datagram src buf) io
        { c with
          mvRetries := pktTrnsMax, mvAddr := src, mvAddrLen := sizeofIn, i := buf.sequence.toNat
          sent := false }
  | onward {src : Addr} {buf : Packet} {io : Bool} (hok : buf.ok = true) (ho : c.Onward buf)
      (hi : c.i < 4) :
      InitTurn c sock (.datagram src buf) io
        { c with
          mvRetries := pktTrnsMax, mvAddr := src, mvAddrLen := sizeofIn, i := c.i + 1
          sent := false }
  | leaves {src : Addr} {buf : Packet} {io : Bool} (hok : buf.ok = true) (ho : c.Onward buf)
      (hi : c.i = 4) :
      InitTurn c sock (.datagram src buf) io
        { c with
          mvRetries := pktTrnsMax, mvAddr := src, mvAddrLen := sizeofIn, i := 5, sent := false
          mvSequence := 0, mvState := .recvPackets }
  | fail {r : Recv} {io : Bool} {k : Int} {a : Addr} {m : UInt32} {p : UInt16} {b : Bool}
      (hf : r = .failed ∨ r.bad = true ∨ io = false) :
      InitTurn c sock r io
        { c with
          mvRetries := k, mvAddr := a, mvAddrLen := m, mvRemotePort := p, sent := b
          mvState := .error }

/-- The turns of its `switch`. -/
theorem initPacket_cases {c : Client} {src sock : Addr} {buf : Packet} {io : Bool}
    (hok : buf.ok = true) (h0 : 0 ≤ c.i) (h5 : c.i < 5) :
    InitTurn c sock (.datagram src buf) io
      (({ c with
          mvRetries := pktTrnsMax, mvAddr := src
          mvAddrLen := sizeofIn } : Client).initPacket buf sock io) := by
  have h10 : 0 < pktTrnsMax := by decide
  have hof := toNat_ofInt h0 h5
  have heq : buf.sequence = UInt32.ofInt c.i ↔ (buf.sequence.toNat : Int) = c.i := by
    rw [← UInt32.toNat_inj]
    omega
  have hle : buf.sequence ≤ UInt32.ofInt c.i ↔ (buf.sequence.toNat : Int) ≤ c.i := by
    rw [UInt32.le_iff_toNat_le]
    omega
  -- a step further without a change of socket
  have honward (ho : c.Onward buf) :
      InitTurn c sock (.datagram src buf) io
        (({ c with
            mvRetries := pktTrnsMax, mvAddr := src
            mvAddrLen := sizeofIn } : Client).again (c.i + 1)) := by
    by_cases hi : c.i = 4
    · have h : c.i + 1 = 5 := by omega
      rw [h, again_five h10]
      exact .leaves hok ho hi
    · rw [again_of_lt (by omega) h10]
      exact .onward hok ho (by omega)
  simp only [initPacket]
  by_cases hrr : buf.type = pktTypeRR
  · simp only [if_pos hrr]
    by_cases hq : (buf.sequence.toNat : Int) = c.i
    · by_cases hi0 : c.i = 0
      · have hc : (({ c with
            mvRetries := pktTrnsMax, mvAddr := src, mvAddrLen := sizeofIn } : Client).pkt c.i).type
            = pktTypeCXN := (pkt_type_cxn h0 h5).mpr hi0
        simp only [heq, hq, hc, and_self, if_true]
        cases io with
        | false => exact .fail (.inr (.inr rfl))
        | true =>
          simp only [if_true]
          rw [again_of_lt (by omega) h10, hi0]
          exact .opens hok hrr (by omega) hi0
      · have hc : (({ c with
            mvRetries := pktTrnsMax, mvAddr := src, mvAddrLen := sizeofIn } : Client).pkt c.i).type
            ≠ pktTypeCXN := fun h => hi0 ((pkt_type_cxn h0 h5).mp h)
        by_cases hi1 : c.i = 1
        · have hc2 : (({ c with
              mvRetries := pktTrnsMax, mvAddr := src
              mvAddrLen := sizeofIn } : Client).pkt c.i).type
              = pktTypeCXN2 := (pkt_type_cxn2 h0 h5).mpr hi1
          have hne : pktTypeCXN2 ≠ pktTypeCXN := by decide
          simp only [heq, hq, hc2, hne, and_false, and_self, if_true, if_false]
          rw [again_of_lt (by omega) h10, hi1]
          exact .switches hok hrr (by omega) hi1
        · have hc2 : (({ c with
              mvRetries := pktTrnsMax, mvAddr := src
              mvAddrLen := sizeofIn } : Client).pkt c.i).type
              ≠ pktTypeCXN2 := fun h => hi1 ((pkt_type_cxn2 h0 h5).mp h)
          simp only [heq, hq, hc, hc2, and_false, ne_eq, not_true_eq_false, if_false]
          exact honward (.inl ⟨hrr, hq, by omega⟩)
    · simp only [heq, hq, false_and, if_false, ne_eq, not_false_eq_true, if_true]
      rw [Int.sub_add_cancel, again_of_lt (by exact h5) h10]
      exact .again h10 (.inr ⟨buf, rfl⟩) (.inr ⟨src, buf, rfl, hok, hrr, hq⟩)
  · simp only [if_neg hrr]
    by_cases hrej : buf.type = pktTypeREJ
    · simp only [if_pos hrej, hle]
      by_cases hq : (buf.sequence.toNat : Int) ≤ c.i
      · have hi := index_of_rej (q := buf.sequence) (by omega)
        rw [if_pos hq, hi, again_of_lt (by omega) h10]
        exact .back hok hrej hq
      · rw [if_neg hq]
        exact honward (.inr (.inl ⟨hrej, by omega⟩))
    · simp only [if_neg hrej]
      exact honward (.inr (.inr ⟨hrr, hrej⟩))

/-- **The list of turns is complete** for a client inside its loop. -/
theorem init_cases {c : Client} (h0 : 0 ≤ c.i) (h5 : c.i < 5) (r : Recv) (sock : Addr)
    (io : Bool) : InitTurn c sock r io (c.init r sock io) := by
  have hsame {k : Int} {a : Addr} {m : UInt32} (hb : r.bad = true)
      (ha : r = .timeout ∧ a = c.mvAddr ∨ ∃ buf, r = .datagram a buf) :
      InitTurn c sock r io
        (({ c with
            mvRetries := k, mvAddr := a, mvAddrLen := m } : Client).again (c.i - 1 + 1)) := by
    rw [Int.sub_add_cancel]
    by_cases hk : 0 < k
    · rw [again_of_lt (by exact h5) hk]
      exact .again hk ha (.inl hb)
    · have hend : ({ c with mvRetries := k, mvAddr := a, mvAddrLen := m } : Client).again c.i
          = { c with
              mvRetries := k, mvAddr := a, mvAddrLen := m, sent := false, mvState := .error } := by
        simp [Client.again, initLoop, initEnd, hk, Int.not_lt.mp hk]
      rw [hend]
      exact .fail (.inr (.inl hb))
  cases r with
  | timeout => exact hsame rfl (.inl ⟨rfl, rfl⟩)
  | failed => exact .fail (a := c.mvAddr) (.inl rfl)
  | datagram src buf =>
    by_cases hok : buf.ok = true
    · simp only [init, recvPacket, hok, if_true]
      exact initPacket_cases hok h0 h5
    · simp only [init, recvPacket, hok, Bool.false_eq_true, if_false]
      exact hsame (by simpa [Recv.bad] using hok) (.inr ⟨buf, rfl⟩)

/-- A turn of the client's `init` keeps the index inside the loop. -/
theorem InitTurn.stays {c d : Client} {sock : Addr} {r : Recv} {io : Bool}
    (h : InitTurn c sock r io d) (h0 : 0 ≤ c.i) (h5 : c.i < 5) :
    (d.mvState = .init → 0 ≤ d.i ∧ d.i < 5 ∧ 0 < d.mvRetries) ∧ d.mvRemote = c.mvRemote := by
  have h10 : 0 < pktTrnsMax := by decide
  cases h with
  | again hk ha hr => exact ⟨fun _ => ⟨h0, h5, hk⟩, rfl⟩
  | opens hok ht hq hi | switches hok ht hq hi => exact ⟨fun _ => ⟨by simp, by simp, h10⟩, rfl⟩
  | back hok ht hq => exact ⟨fun _ => ⟨by simp, by dsimp only; omega, h10⟩, rfl⟩
  | onward hok ho hi => exact ⟨fun _ => ⟨by dsimp only; omega, by dsimp only; omega, h10⟩, rfl⟩
  | leaves | fail => exact ⟨by simp, rfl⟩

end Client

end Fileserver
