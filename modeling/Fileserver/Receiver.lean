/-
# The receiving side of the client

`Client::recvPackets` turn by turn, as `Window.lean` does it for the child: `Turn` lists what a
turn can do, and `recvPackets_cases` proves the list complete.
-/
import Fileserver.Client

namespace Fileserver.Client

variable [Host]

/-- A short data packet: the end of the file. -/
def short (c : Client) (p : Packet) : Prop :=
  p.type = pktTypeDAT ∧ p.size.toUInt32 < c.mvBufferSize

/-- The client after a packet it expected, which it has written. -/
def accepted (c : Client) (src : Addr) (buf : Packet) : Client :=
  { c with
    mvRetries := pktTrnsMax, mvAddr := src, mvAddrLen := sizeofIn
    mvSequence := c.mvSequence + 1
    mvTo := c.mvTo ++ buf.bytes buf.size.toNat }

/-- The turns of `recvPackets`, each with its guard, the state it leads to and its answer.  The
two `Bool`s are the outcomes of `write` and `sendtoErr`. -/
inductive Turn (c : Client) : Recv → Bool → Bool → Client → Option Packet → Prop
  | nag {r : Recv} {wr : Bool} {k : Int} {a : Addr} {m : UInt32} (hr : r.bad = true) :
      Turn c r wr true { c with mvRetries := k, mvAddr := a, mvAddrLen := m }
        (some (rejpkt c.mvSequence))
  | accept {src : Addr} {buf : Packet} (hok : buf.ok = true)
      (hq : buf.sequence = c.mvSequence) (hs : ¬ c.short buf) :
      Turn c (.datagram src buf) true true (c.accepted src buf) (some (rrpkt buf.sequence))
  | finish {src : Addr} {buf : Packet} {io : Bool} (hok : buf.ok = true)
      (hq : buf.sequence = c.mvSequence) (hs : c.short buf) :
      Turn c (.datagram src buf) true io { c.accepted src buf with mvState := .done } none
  | old {src : Addr} {buf : Packet} {wr : Bool} (hok : buf.ok = true)
      (hq : buf.sequence < c.mvSequence) :
      Turn c (.datagram src buf) wr true
        { c with mvRetries := pktTrnsMax, mvAddr := src, mvAddrLen := sizeofIn }
        (some (rrpkt buf.sequence))
  | gap {src : Addr} {buf : Packet} {wr : Bool} (hok : buf.ok = true)
      (hq : c.mvSequence < buf.sequence) :
      Turn c (.datagram src buf) wr true
        { c with mvRetries := pktTrnsMax, mvAddr := src, mvAddrLen := sizeofIn }
        (some (rejpkt c.mvSequence))
  | unsent {src : Addr} {buf : Packet} (hok : buf.ok = true)
      (hq : buf.sequence = c.mvSequence) (hs : ¬ c.short buf) :
      Turn c (.datagram src buf) true false { c.accepted src buf with mvState := .error } none
  | unwritten {src : Addr} {buf : Packet} {io : Bool} (hok : buf.ok = true)
      (hq : buf.sequence = c.mvSequence) :
      Turn c (.datagram src buf) false io
        { c.accepted src buf with mvTo := c.mvTo, mvState := .error } none
  | fail {r : Recv} {wr io : Bool} {k : Int} {a : Addr} {m : UInt32}
      (hr : r = .failed ∨ io = false) :
      Turn c r wr io { c with mvRetries := k, mvAddr := a, mvAddrLen := m, mvState := .error } none

/-- The turns of its `default` case. -/
theorem dataPacket_cases {c : Client} {src : Addr} {buf : Packet} (hok : buf.ok = true)
    (wr io : Bool) :
    Turn c (.datagram src buf) wr io
      ({ c with
          mvRetries := pktTrnsMax, mvAddr := src, mvAddrLen := sizeofIn }.dataPacket buf wr io).1
      ({ c with
          mvRetries := pktTrnsMax, mvAddr := src
          mvAddrLen := sizeofIn }.dataPacket buf wr io).2 := by
  simp only [dataPacket]
  by_cases hle : buf.sequence ≤ c.mvSequence
  · by_cases hq : buf.sequence = c.mvSequence
    · cases wr with
      | false =>
        simp only [if_pos hle, if_pos hq, Bool.false_eq_true, if_false]
        exact .unwritten hok hq
      | true =>
        by_cases hs : c.short buf
        · have hs' := hs
          simp only [short] at hs'
          simp only [if_pos hle, if_pos hq, writeTo, hs', and_self, if_true]
          exact .finish hok hq hs
        · have hs' := hs
          simp only [short] at hs'
          simp only [if_pos hle, if_pos hq, writeTo, hs', if_true, if_false]
          cases io with
          | true => exact .accept hok hq hs
          | false => exact .unsent hok hq hs
    · simp only [hle, hq, if_true, if_false]
      cases io with
      | true =>
        refine .old hok ?_
        rw [UInt32.le_iff_toNat_le] at hle
        rw [← UInt32.toNat_inj] at hq
        rw [UInt32.lt_iff_toNat_lt]
        omega
      | false => exact .fail (.inr rfl)
  · simp only [hle, if_false]
    cases io with
    | true => exact .gap hok (UInt32.not_le.mp hle)
    | false => exact .fail (.inr rfl)

/-- **The list of turns is complete.** -/
theorem recvPackets_cases (c : Client) (r : Recv) (wr io : Bool) :
    Turn c r wr io (c.recvPackets r wr io).1 (c.recvPackets r wr io).2 := by
  cases r with
  | timeout =>
    cases io with
    | true => exact .nag (a := c.mvAddr) rfl
    | false => exact .fail (a := c.mvAddr) (.inr rfl)
  | failed => exact .fail (a := c.mvAddr) (.inl rfl)
  | datagram src buf =>
    simp only [recvPackets, recvPacket]
    by_cases hok : buf.ok = true
    · simp only [hok, if_true]
      exact dataPacket_cases hok wr io
    · simp only [hok, Bool.false_eq_true, if_false]
      cases io with
      | true => exact .nag (by simpa [Recv.bad] using hok)
      | false => exact .fail (.inr rfl)

/-- Behind `init`, a turn of the client is one of `recvPackets`. -/
theorem step_cases {c c' : Client} (hc : c.mvState ≠ .init) {r : Recv} {sock : Addr}
    {wr io : Bool} {out : Option Packet} (h : c.step (.hear r sock wr io) = some (c', out)) :
    c.mvState = .recvPackets ∧ Turn c r wr io c' out := by
  simp only [step, Option.ite_none_right_eq_some] at h
  obtain ⟨hg, h⟩ := h
  have hs : c.mvState = .recvPackets := by
    cases hs : c.mvState <;> simp [running, hs] at hg hc
    rfl
  obtain ⟨rfl, rfl⟩ := Prod.mk.inj (Option.some.inj h)
  exact ⟨hs, recvPackets_cases c r wr io⟩

end Fileserver.Client
