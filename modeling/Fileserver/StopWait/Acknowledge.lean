/-
# An acknowledgement nobody accepts

`client_comm` says what it expects: "acknowledgment packets are identical to the data packet,
except the type".  `ackpkt` copies the packet, gives it the new type and takes the checksum, and
only then fills the data with the type byte.  So the data the acknowledgement carries are not
those of its packet, and its checksum is that of other data.

The number and the size are kept.  The two sides agree on a packet exactly if its data are what
`ackpkt` fills in.
-/
import Fileserver.StopWait.Phases
import Fileserver.Cksum

namespace Fileserver.StopWait

variable [Host]

/-! ## 1. What the builder makes -/

theorem ackpkt_type (p : Packet) : (ackpkt p).type = pktTypeACK := rfl
theorem ackpkt_sequence (p : Packet) : (ackpkt p).sequence = p.sequence := rfl
theorem ackpkt_size (p : Packet) : (ackpkt p).size = p.size := rfl
theorem ackpkt_data (p : Packet) :
    (ackpkt p).data = Vector.replicate pktDMax pktTypeACK := rfl

/-- The checksum is right if the data filled in sum up to the same. -/
theorem ackpkt_ok_iff (p : Packet) : (ackpkt p).ok = true ↔
    Host.inCksum
        { p with
          type := pktTypeACK, checksum := 0
          data := Vector.replicate pktDMax pktTypeACK } =
      Host.inCksum { p with type := pktTypeACK, checksum := 0 } :=
  beq_iff_eq

namespace Comm

/-! ## 2. What the acceptor takes -/

/-- **The acknowledgement is accepted.**  Behind it the server does not wait for one any more. -/
def Accepts (c : Comm) (a : Packet) (io : Calls) : Prop :=
  (c.hear (some a) io).status.expectAck = false

variable {c : Comm} {p : Packet} {io : Calls}

omit [Host] in
theorem acknowledged_expectAck (c : Comm) (io : Calls) :
    (c.acknowledged io).1.status.expectAck = false := by
  unfold acknowledged
  dsimp only
  split
  · split <;> rfl
  · rfl

omit [Host] in
theorem requested_expectAck (c : Comm) (number : UInt32) (io : Calls) :
    (c.requested number io).1.status.expectAck = c.status.expectAck := by
  unfold requested
  dsimp only
  split
  · rfl
  · split
    · rfl
    · split <;> rfl

theorem received_expectAck (c : Comm) (p : Packet) (io : Calls) :
    (c.received p io).status.expectAck = (c.evaluate p io).1.status.expectAck := by
  unfold received
  split
  · exact (files_kept _ io).expectAck
  · rfl

/-- Only an acknowledgement with the data of `outpkt` ends the wait. -/
theorem evaluate_expectAck (he : c.status.expectAck = true) :
    (c.evaluate p io).1.status.expectAck = false ↔
      p.type = pktTypeACK ∧ c.outpkt.data = p.data := by
  unfold evaluate
  by_cases hack : p.type = pktTypeACK
  · rw [if_pos hack, if_pos he]
    by_cases hd : c.outpkt.data.toList = p.data.toList
    · rw [if_pos hd]
      exact iff_of_true (acknowledged_expectAck c io) ⟨hack, Vector.toList_inj.mp hd⟩
    · rw [if_neg hd]
      exact iff_of_false (by simp [he]) fun h => hd (Vector.toList_inj.mpr h.2)
  · refine iff_of_false ?_ fun h => hack h.1
    rw [if_neg hack]
    split
    · simp [requested_expectAck, he]
    · split
      · split
        · simp [informed, he]
        · simp [he]
      · simp [he]

/-- **What `client_comm` accepts**: an intact packet of the right type, with the data of the packet
that is out. -/
theorem accepts_iff (he : c.status.expectAck = true) :
    c.Accepts p io ↔
      p.ok = true ∧ p.type = pktTypeACK ∧ c.outstanding.data = p.data := by
  unfold Accepts
  by_cases hok : p.ok = true
  · rw [hear_ok hok, received_expectAck,
      evaluate_expectAck (c := { c with outpkt := c.outstanding }) he]
    simp [hok]
  · rw [hear_damaged (by simpa using hok)]
    simp [hok, he]

/-! ## 3. The two together -/

/-- **Builder and acceptor agree on a packet** exactly if its data are the byte `ackpkt` fills in,
1400 times. -/
theorem acknowledgement_iff (p : Packet) (c : Comm) (io : Calls) (hp : c.outstanding = p)
    (he : c.status.expectAck = true) :
    ((ackpkt p).ok = true ∧ (ackpkt p).sequence = p.sequence ∧ (ackpkt p).size = p.size ∧
      c.Accepts (ackpkt p) io) ↔ p.data = Vector.replicate pktDMax pktTypeACK := by
  rw [accepts_iff he, hp]
  constructor
  · rintro ⟨-, -, -, -, -, hd⟩
    exact hd
  · intro hd
    have hok : (ackpkt p).ok = true := by
      rw [ackpkt_ok_iff, ← hd]
    exact ⟨hok, ackpkt_sequence p, ackpkt_size p, hok, ackpkt_type p, hd.trans (ackpkt_data p).symm⟩

end Comm

end Fileserver.StopWait

namespace Fileserver.StopWait.Comm

local instance acknowledgeHost : Host := refHost []

/-- A server that waits for the acknowledgement of `p`. -/
def awaiting (p : Packet) : Comm :=
  { start with outpkt := p, status := { start.status with expectAck := true } }

/-- **The acknowledgement of a file of one byte** fails the checksum test. -/
theorem not_acknowledgement :
    ¬ ∀ (p : Packet) (c : Comm) (io : Calls), c.outstanding = p → c.status.expectAck = true →
      (ackpkt p).ok = true ∧ (ackpkt p).sequence = p.sequence ∧ (ackpkt p).size = p.size ∧
        c.Accepts (ackpkt p) io := by
  intro hall
  let p := fileToPacket ⟨[1], 0⟩ 0 1 (memset 0)
  have hok := (hall p (awaiting p) ⟨true, true, true⟩ (outstanding_of_data rfl) rfl).1
  have hbad : (ackpkt p).ok = false := by decide +kernel
  simp [hbad] at hok

/-- A packet full of the byte that is filled in. -/
theorem acknowledgement_filled :
    (awaiting { memset pktTypeACK with type := pktTypeDAT }).Accepts
      (ackpkt { memset pktTypeACK with type := pktTypeDAT }) ⟨true, true, true⟩ :=
  ((acknowledgement_iff _ _ _ (outstanding_of_data rfl) rfl).mpr rfl).2.2.2

end Fileserver.StopWait.Comm
