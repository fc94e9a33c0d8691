/-
# Damaged packets leave no trace

For a packet that fails the checksum test `client_comm` parks the packet that is out in `tpkt`
and sends a request in its place; for the next valid one it takes it back.  A second damaged
packet finds a request in `outpkt` and leaves `tpkt` alone, so the state behind one damaged
packet is the state behind any number of them (`requesting`).

What is left of them is `tpkt` itself, and nobody reads it again before it is written.  So a
server that has heard damaged packets and one that has not send the same from then on.
-/
import Fileserver.StopWait.Numbering

namespace Fileserver.StopWait.Comm

open Proto

/-! ## 1. A packet nobody looks at -/

/-- The same state with another packet parked. -/
def park (c : Comm) (t : Packet) : Comm := { c with tpkt := t }

variable [Host] {c d : Comm} {io : Calls}

omit [Host] in
theorem transmit_park (c : Comm) (t : Packet) :
    (c.park t).transmit = (c.transmit.1.park t, c.transmit.2) := by
  unfold transmit park
  dsimp only
  split_ifs <;> rfl

theorem nextData_park (c : Comm) (t : Packet) (io : Calls) :
    (c.park t).nextData io = (c.nextData io).park t := by
  obtain ⟨fd, name, B, outpkt, tpkt, status, sequence, retries, offset, returned⟩ := c
  unfold nextData park
  cases fd with
  | none =>
    dsimp only
    split_ifs <;> rfl
  | some f =>
    dsimp only
    split_ifs <;> rfl

theorem files_park (c : Comm) (t : Packet) (io : Calls) :
    (c.park t).files io = (c.files io).park t := by
  unfold files
  by_cases hinfo : c.status.expectInfo = true
  · rw [if_pos hinfo, if_pos (show (c.park t).status.expectInfo = true from hinfo)]
  · rw [if_neg hinfo, if_neg (show ¬ (c.park t).status.expectInfo = true from hinfo)]
    by_cases hinit : c.status.infoInit = true
    · rw [if_pos hinit, if_pos (show (c.park t).status.infoInit = true from hinit)]
      have hname : (c.park t).fromname = c.fromname := rfl
      rw [hname]
      cases Host.file c.fromname with
      | none => rfl
      | some contents =>
        dsimp only
        split_ifs
        · rw [← nextData_park]
          rfl
        · rfl
    · rw [if_neg hinit, if_neg (show ¬ (c.park t).status.infoInit = true from hinit)]
      exact nextData_park c t io

theorem evaluate_park (c : Comm) (t p : Packet) (io : Calls) :
    (c.park t).evaluate p io = ((c.evaluate p io).1.park t, (c.evaluate p io).2) := by
  unfold evaluate acknowledged requested informed park
  dsimp only
  split_ifs <;> rfl

theorem received_park (c : Comm) (t p : Packet) (io : Calls) :
    (c.park t).received p io = (c.received p io).park t := by
  unfold received
  rw [evaluate_park]
  dsimp only
  split_ifs
  · exact files_park _ t io
  · rfl

theorem received_tpkt (c : Comm) (p : Packet) (io : Calls) : (c.received p io).tpkt = c.tpkt := by
  have h : c.received p io = (c.received p io).park c.tpkt := received_park c c.tpkt p io
  rw [h]
  rfl

omit [Host] in
@[simp] theorem transmit_tpkt (c : Comm) : c.transmit.1.tpkt = c.tpkt := by
  obtain ⟨r, a, h⟩ := c.transmit_eq
  rw [h]

omit [Host] in
@[simp] theorem transmit_outpkt (c : Comm) : c.transmit.1.outpkt = c.outpkt := by
  obtain ⟨r, a, h⟩ := c.transmit_eq
  rw [h]

/-! ## 2. Where `outpkt` is not a request -/

theorem files_outpkt (h : c.outpkt.type ≠ pktTypeRET) :
    (c.files io).outpkt.type ≠ pktTypeRET := by
  rcases (files_kept c io).outpkt with he | hd
  · rwa [he]
  · rw [hd]
    exact dat_ne_rej

theorem evaluate_outpkt {p : Packet} (h : c.outpkt.type ≠ pktTypeRET) :
    (c.evaluate p io).1.outpkt.type ≠ pktTypeRET := by
  unfold evaluate acknowledged requested
  dsimp only
  split_ifs
  all_goals first | exact h | exact rr_ne_rej

theorem received_outpkt {p : Packet} (h : c.outpkt.type ≠ pktTypeRET) :
    (c.received p io).outpkt.type ≠ pktTypeRET := by
  unfold received
  split_ifs
  · exact files_outpkt (evaluate_outpkt h)
  · exact evaluate_outpkt h

/-! ## 3. Runs -/

/-- No request is ever parked. -/
theorem tpkt_of_reach (h : conn.Reach c) : c.tpkt.type ≠ pktTypeRET := by
  refine h.invariant (I := fun c => c.tpkt.type ≠ pktTypeRET) ?_ ?_
  · rintro c rfl
    decide
  · intro c e c' _ hi _ hn
    obtain ⟨⟨c', out⟩, hst, rfl⟩ := Option.map_eq_some_iff.mp hn
    cases e with
    | act io =>
      obtain ⟨-, ⟨-, rfl, -⟩ | ⟨-, -, rfl, -⟩⟩ := step_act hst
      · exact hi
      · rw [(files_kept _ io).tpkt, transmit_tpkt]
        exact hi
    | hear r io =>
      obtain ⟨-, -, -, rfl, -⟩ := step_hear hst
      cases r with
      | none => simpa [hear, fails] using hi
      | some p =>
        by_cases hok : p.ok = true
        · rw [hear_ok hok, received_tpkt]
          simpa using hi
        · rw [hear_damaged (by simpa using hok)]
          change c.transmit.1.outstanding.type ≠ _
          unfold outstanding
          split_ifs with ht
          · simpa using hi
          · exact ht

theorem outstanding_ne_of_reach (h : conn.Reach c) :
    c.transmit.1.outstanding.type ≠ pktTypeRET := by
  unfold outstanding
  split_ifs with ht
  · rw [transmit_tpkt]
    exact tpkt_of_reach h
  · exact ht

/-! ## 4. Servers that differ in `tpkt` -/

/-- Servers that differ at most in a parked packet nobody will read. -/
inductive Alike : Comm → Comm → Prop
  | same (c : Comm) : Alike c c
  | parked {c : Comm} (t : Packet) (h : c.outpkt.type ≠ pktTypeRET) : Alike c (c.park t)

/-- **Alike servers take the same iterations** and send the same in them. -/
theorem step_alike (h : Alike c d) (e : Event) :
    Option.Rel (fun x y => Alike x.1 y.1 ∧ x.2 = y.2) (c.step e) (d.step e) := by
  cases h with
  | same =>
    cases c.step e with
    | none => exact .none
    | some x => exact .some ⟨.same _, rfl⟩
  | parked t h =>
    have hout : c.transmit.1.outpkt.type ≠ pktTypeRET := by rwa [transmit_outpkt]
    have hleaves : (c.park t).leaves = c.leaves := rfl
    have hreturned : (c.park t).returned = c.returned := rfl
    have hreceive : (c.transmit.1.park t).status = c.transmit.1.status := rfl
    cases e with
    | act io =>
      simp only [step, hleaves, hreturned, transmit_park, hreceive]
      split_ifs
      · exact .none
      · exact .some ⟨.parked (c := { c with returned := some 0 }) t h, rfl⟩
      · exact .none
      · rw [files_park]
        exact .some ⟨.parked t (files_outpkt hout), rfl⟩
    | hear r io =>
      simp only [step, hleaves, hreturned, transmit_park, hreceive]
      split_ifs
      · exact .none
      · refine .some ⟨?_, rfl⟩
        cases r with
        | none => exact .parked (c := c.transmit.1.fails) t hout
        | some p =>
          have hpark : (c.transmit.1.park t).outpkt.type ≠ pktTypeRET := hout
          by_cases hok : p.ok = true
          · dsimp only
            rw [hear_ok hok, hear_ok hok, outstanding_of_ne hout, outstanding_of_ne hpark]
            change Alike (c.transmit.1.received p io) ((c.transmit.1.park t).received p io)
            rw [received_park]
            exact .parked t (received_outpkt hout)
          · -- the parked packet is written before anybody reads it
            dsimp only
            rw [hear_damaged (by simpa using hok), hear_damaged (by simpa using hok),
              outstanding_of_ne hout, outstanding_of_ne hpark]
            exact .same _
      · exact .none

/-! ## 5. Behind damaged packets -/

/-- The next iteration receives. -/
structure Receives (c : Comm) : Prop where
  runs : c.returned = none
  stays : c.leaves = false
  receive : c.transmit.1.status.receive = true

/-- The state an iteration evaluates a valid packet in: the packet that is out stands in `outpkt`
again. -/
def evaluating (c : Comm) : Comm := { c.transmit.1 with outpkt := c.transmit.1.outstanding }

/-- The state behind a damaged packet. -/
def requesting (c : Comm) : Comm :=
  { c with
    tpkt := c.outstanding
    outpkt := retransmitpkt c.sequence
    status := { c.status with transmit := true } }

theorem Receives.step (h : c.Receives) (r : Option Packet) (io : Calls) :
    c.step (.hear r io) = some (c.transmit.1.hear r io, c.transmit.2) := by
  simp [Comm.step, h.runs, h.stays, h.receive]

theorem Receives.step_ok (h : c.Receives) {p : Packet} (hok : p.ok = true) (io : Calls) :
    c.step (.hear (some p) io) = some (c.evaluating.received p io, c.transmit.2) := by
  rw [h.step, hear_ok hok]
  rfl

theorem Receives.step_damaged (h : c.Receives) {p : Packet} (hok : p.ok = false) (io : Calls) :
    c.step (.hear (some p) io) = some (c.transmit.1.requesting, c.transmit.2) := by
  rw [h.step, hear_damaged hok]
  rfl

omit [Host] in
theorem transmit_cleared (c : Comm) : c.transmit.1.status.transmit = false := by
  obtain ⟨r, a, h⟩ := c.transmit_eq
  rw [h]

/-- Sending the request leaves the other bits alone. -/
theorem requesting_transmit (h : c.Receives) :
    c.transmit.1.requesting.transmit =
      ({ c.transmit.1 with
          tpkt := c.transmit.1.outstanding, outpkt := retransmitpkt c.transmit.1.sequence },
        some (retransmitpkt c.transmit.1.sequence)) := by
  have hstatus : { c.transmit.1.status with transmit := false, receive := true }
      = c.transmit.1.status := by
    rw [← transmit_cleared c, ← h.receive]
  have hsend : c.transmit.1.requesting.status.transmit = true := rfl
  have hack : c.transmit.1.requesting.outpkt.type ≠ pktTypeACK := rej_ne_rr
  have hret : ¬ c.transmit.1.requesting.outpkt.type ≠ pktTypeRET := fun hne => hne rfl
  rw [transmit, if_pos hsend, if_pos hack, if_neg hret]
  refine Prod.ext ?_ rfl
  change ({ c.transmit.1.requesting with
    status := { c.transmit.1.status with transmit := false, receive := true } } : Comm) = _
  rw [hstatus]
  rfl

theorem requesting_receives (h : c.Receives) : c.transmit.1.requesting.Receives where
  runs := by
    obtain ⟨r, a, ht⟩ := c.transmit_eq
    rw [ht]
    exact h.runs
  stays := by
    obtain ⟨r, a, ht⟩ := c.transmit_eq
    rw [ht]
    exact h.stays
  receive := by
    rw [requesting_transmit h]
    exact h.receive

/-- **A second damaged packet changes nothing more.** -/
theorem requesting_again (h : c.Receives) :
    c.transmit.1.requesting.transmit.1.requesting = c.transmit.1.requesting := by
  rw [requesting_transmit h]
  simp [requesting, outstanding, retransmitpkt]

/-- What a valid packet finds. -/
theorem requesting_evaluating (h : c.Receives) :
    c.transmit.1.requesting.evaluating = c.evaluating.park c.transmit.1.outstanding := by
  rw [evaluating, requesting_transmit h]
  simp [evaluating, park, outstanding, retransmitpkt]

/-- A run of damaged packets, each with the system calls of its iteration. -/
def damagedRun (bad : List (Packet × Calls)) : List Event := bad.map fun x => .hear (some x.1) x.2

theorem run_requesting (h : c.Receives) {bad : List (Packet × Calls)}
    (hbad : ∀ x ∈ bad, x.1.ok = false) :
    conn.run c.transmit.1.requesting (damagedRun bad) = some c.transmit.1.requesting := by
  induction bad with
  | nil => rfl
  | cons x bad ih =>
    have hx : x.1.ok = false := hbad x List.mem_cons_self
    have hst := (requesting_receives h).step_damaged hx x.2
    rw [requesting_again h] at hst
    exact (System.run_cons trivial (congrArg (Option.map Prod.fst) hst) _).trans
      (ih fun y hy => hbad y (List.mem_cons_of_mem x hy))

/-- One of them or many leave the same state. -/
theorem run_damaged (h : c.Receives) {bad : List (Packet × Calls)} (hne : bad ≠ [])
    (hbad : ∀ x ∈ bad, x.1.ok = false) :
    conn.run c (damagedRun bad) = some c.transmit.1.requesting := by
  obtain ⟨x, bad, rfl⟩ := List.exists_cons_of_ne_nil hne
  have hst := h.step_damaged (hbad x List.mem_cons_self) x.2
  exact (System.run_cons trivial (congrArg (Option.map Prod.fst) hst) _).trans
    (run_requesting h fun y hy => hbad y (List.mem_cons_of_mem x hy))

/-! ## 6. The next valid packet -/

/-- **`d` evaluates a packet in the state `c` has received it in**, with the packet that was out
then. -/
structure Restored (c d : Comm) : Prop where
  outpkt : d.evaluating.outpkt = c.transmit.1.outstanding
  sequence : d.evaluating.sequence = c.transmit.1.sequence
  offset : d.evaluating.offset = c.transmit.1.offset
  retries : d.evaluating.retries = c.transmit.1.retries
  file : d.evaluating.fromfd = c.transmit.1.fromfd
  status : d.evaluating.status = c.transmit.1.status

/-- **Recovery from corruption.**  Behind any number of damaged packets a valid packet is evaluated
with the packet that was out before them, and with the number, the offset, the retries, the file
position and the bits of then.  The server does with it what it would have done without them, and
whatever comes next it sends the same. -/
theorem corruption_recovers {c : Comm} (h : conn.Reach c) (hrec : c.Receives)
    (bad : List (Packet × Calls)) (hne : bad ≠ []) (hbad : ∀ x ∈ bad, x.1.ok = false) (p : Packet)
    (hok : p.ok = true) (io : Calls) :
    ∃ d, conn.run c (damagedRun bad) = some d ∧ Restored c d ∧
      c.step (.hear (some p) io) = some (c.evaluating.received p io, c.transmit.2) ∧
      d.step (.hear (some p) io)
        = some (d.evaluating.received p io, some (retransmitpkt c.sequence)) ∧
      d.evaluating.received p io
        = (c.evaluating.received p io).park (d.evaluating.received p io).tpkt ∧
      ∀ es, System.outputs Comm.step (d.evaluating.received p io) es
        = System.outputs Comm.step (c.evaluating.received p io) es := by
  have heval := requesting_evaluating hrec
  have hsent : c.transmit.1.requesting.transmit.2 = some (retransmitpkt c.sequence) := by
    rw [requesting_transmit hrec, transmit_sequence]
  have hout : c.evaluating.outpkt.type ≠ pktTypeRET := outstanding_ne_of_reach h
  refine ⟨c.transmit.1.requesting, run_damaged hrec hne hbad, ?_, hrec.step_ok hok io, ?_, ?_, ?_⟩
  · constructor <;> rw [heval] <;> rfl
  · rw [(requesting_receives hrec).step_ok hok, hsent]
  · rw [heval, received_park]
    rfl
  · rw [heval, received_park]
    exact System.outputs_eq (R := Alike) (fun _ _ e h => step_alike h e)
      (.parked _ (received_outpkt hout))

end Fileserver.StopWait.Comm

namespace Fileserver.StopWait.Comm

open Proto

local instance corruptionHost : Host := refHost [1, 2]

/-- A data packet is out, and the server waits for what comes back. -/
def waits (c : Comm) : Bool :=
  decide (c.outpkt.type = pktTypeDAT ∧ c.returned = none ∧ c.leaves = false ∧
    c.transmit.1.status.receive = true)

/-- Two damaged packets behind a data packet, and then a valid one: the data packet is out again. -/
theorem corruption_recovers_twice :
    ∃ c d, conn.Reach c ∧ c.outpkt.type = pktTypeDAT ∧
      conn.run c (damagedRun [(memset 0, calm), (memset 0, calm)]) = some d ∧
      d.evaluating.outpkt = c.outpkt := by
  obtain ⟨c, h, hw⟩ := (System.Reach.start (M := conn) (s := start) rfl).run_any
    [.hear (some fln) calm, .act calm] waits (by decide +kernel)
  obtain ⟨ht, hruns, hstays, hreceive⟩ := of_decide_eq_true hw
  have hbad : ∀ x ∈ [(memset 0, calm), (memset 0, calm)], x.1.ok = false := by
    have h0 : (memset 0).ok = false := by decide +kernel
    simp [h0]
  have hrec : c.Receives := ⟨hruns, hstays, hreceive⟩
  obtain ⟨d, hd, hres, -⟩ := corruption_recovers h hrec
    [(memset 0, calm), (memset 0, calm)] (by simp) hbad (retransmitpkt 0) (Packet.sealed_ok _) calm
  have hout : c.transmit.1.outstanding = c.outpkt := by
    have htype : c.transmit.1.outpkt.type = pktTypeDAT := by rwa [transmit_outpkt]
    rw [outstanding_of_data htype, transmit_outpkt]
  exact ⟨c, d, h, ht, hd, hres.outpkt.trans hout⟩

end Fileserver.StopWait.Comm
