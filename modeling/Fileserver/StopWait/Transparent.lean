/-
# Damage is invisible

What one burst of damaged packets leaves behind, the next valid packet undoes.  So it is with all
the bursts of a connection: take the damaged packets out of any run, and what is left is a run of
`client_comm` too.  It sends the same packets in the same order, short of the requests, of which
there is one for each damaged packet; and the two servers read the same bytes next, under the same
number, with the same retries left.

The two runs are not in step.  Behind a damaged packet the server has sent what the other one only
sends with the next iteration, so it may be one packet ahead.
-/
import Fileserver.StopWait.Corruption

namespace Fileserver.StopWait.Comm

open Proto

/-! ## 1. Runs and what is sent in them -/

/-- The iteration receives a damaged packet. -/
def Event.damaged [Host] : Event → Bool
  | .act _ => false
  | .hear none _ => false
  | .hear (some p) _ => !p.ok

variable [Host]

/-- One connection, next to what has been sent. -/
@[reducible] def logged : System (Comm × List Packet) Event :=
  conn.recorded [] fun c e l => l ++ (c.output e).toList

theorem logged_next {c : Comm} {l : List Packet} {e : Event} {y : Comm × List Packet} :
    logged.next (c, l) e = some y ↔
      ∃ c' out, c.step e = some (c', out) ∧ y = (c', l ++ out.toList) := by
  cases h : c.step e with
  | none => simp [logged, System.recorded, conn, h]
  | some x =>
    obtain ⟨c', out⟩ := x
    simp [logged, System.recorded, conn, output, h, eq_comm]

/-- The requests among the packets sent. -/
def isRequest (p : Packet) : Bool := p.type == pktTypeRET

/-! ## 2. The two servers -/

/-- Where they do not differ. -/
structure Same (c d : Comm) : Prop where
  sequence : d.sequence = c.sequence
  offset : d.offset = c.offset
  retries : d.retries = c.retries
  file : d.fromfd = c.fromfd
  returned : d.returned = c.returned

/-- `n` damaged packets have come, to the first server and not to the second. -/
inductive Shadow : ℕ → Comm × List Packet → Comm × List Packet → Prop
  | level {n : ℕ} {c : Comm} {l m : List Packet} (t : Packet) (h : c.outpkt.type ≠ pktTypeRET)
      (hl : l.filter (fun p => !isRequest p) = m) (hn : l.countP isRequest = n) :
      Shadow n (c.park t, l) (c, m)
  | ahead {n : ℕ} {c : Comm} {l m : List Packet} (h : c.outpkt.type ≠ pktTypeRET)
      (hr : c.Receives) (hl : l.filter (fun p => !isRequest p) = m ++ c.transmit.2.toList)
      (hn : l.countP isRequest + 1 = n) : Shadow n (c.transmit.1.requesting, l) (c, m)
  | ended {n : ℕ} {c d : Comm} {l m : List Packet} (h : c.returned ≠ none) (hs : Same c d)
      (hl : l.filter (fun p => !isRequest p) = m) (hn : l.countP isRequest = n) :
      Shadow n (d, l) (c, m)

/-! ## 3. One iteration -/

variable {c c' d d' : Comm} {e : Event} {out : Option Packet} {n : ℕ} {l m : List Packet}

theorem damaged_step (he : e.damaged = true) (hst : d.step e = some (d', out)) :
    d.Receives ∧ d' = d.transmit.1.requesting ∧ out = d.transmit.2 := by
  match e with
  | .act io => simp [Event.damaged] at he
  | .hear none io => simp [Event.damaged] at he
  | .hear (some p) io =>
    obtain ⟨hret, hl, hrec, rfl, rfl⟩ := step_hear hst
    refine ⟨⟨hret, hl, hrec⟩, ?_, rfl⟩
    rw [hear_damaged (by simpa [Event.damaged] using he)]
    rfl

/-- Only a damaged packet makes the server prepare a request. -/
theorem step_outpkt (h : c.outpkt.type ≠ pktTypeRET) (he : e.damaged = false)
    (hst : c.step e = some (c', out)) : c'.outpkt.type ≠ pktTypeRET := by
  have ht : c.transmit.1.outpkt.type ≠ pktTypeRET := by rwa [transmit_outpkt]
  match e with
  | .act io =>
    obtain ⟨-, ⟨-, rfl, -⟩ | ⟨-, -, rfl, -⟩⟩ := step_act hst
    · exact h
    · exact files_outpkt ht
  | .hear none io =>
    obtain ⟨-, -, -, rfl, -⟩ := step_hear hst
    exact ht
  | .hear (some p) io =>
    obtain ⟨-, -, -, rfl, -⟩ := step_hear hst
    rw [hear_ok (by simpa [Event.damaged] using he), outstanding_of_ne ht]
    exact received_outpkt ht

theorem park_requesting (t : Packet) (h : c.outpkt.type ≠ pktTypeRET) :
    (c.park t).requesting = c.requesting := by
  have hp : (c.park t).outpkt.type ≠ pktTypeRET := h
  rw [requesting, requesting, outstanding_of_ne h, outstanding_of_ne hp]
  rfl

omit [Host] in
theorem evaluating_outpkt (h : c.outpkt.type ≠ pktTypeRET) :
    c.evaluating.outpkt.type ≠ pktTypeRET := by
  have ht : c.transmit.1.outpkt.type ≠ pktTypeRET := by rwa [transmit_outpkt]
  rw [evaluating, outstanding_of_ne ht]
  exact ht

omit [Host] in
theorem same_transmit (c : Comm) : Same c c.transmit.1 := by
  obtain ⟨r, a, h⟩ := c.transmit_eq
  rw [h]
  exact ⟨rfl, rfl, rfl, rfl, rfl⟩

/-- A server whose `outpkt` is no request sends none. -/
theorem log_out (h : c.outpkt.type ≠ pktTypeRET) (hst : c.step e = some (c', out)) :
    (l ++ out.toList).filter (fun p => !isRequest p) =
        l.filter (fun p => !isRequest p) ++ out.toList ∧
      (l ++ out.toList).countP isRequest = l.countP isRequest := by
  cases out with
  | none => simp
  | some p =>
    obtain ⟨-, -, rfl⟩ := step_out hst
    have hp : isRequest c.outpkt = false := by simpa [isRequest] using h
    simp [List.filter_append, List.countP_append, hp]

theorem log_request (s : UInt32) :
    (l ++ [retransmitpkt s]).filter (fun p => !isRequest p) =
        l.filter (fun p => !isRequest p) ∧
      (l ++ [retransmitpkt s]).countP isRequest = l.countP isRequest + 1 := by
  have hp : isRequest (retransmitpkt s) = true := beq_self_eq_true pktTypeRET
  simp [List.filter_append, List.countP_append, hp]

/-- The second server does not see a damaged packet. -/
theorem Shadow.skip (h : Shadow n (d, l) (c, m)) (he : e.damaged = true)
    (hst : d.step e = some (d', out)) : Shadow (n + 1) (d', l ++ out.toList) (c, m) := by
  obtain ⟨hrec, rfl, hout⟩ := damaged_step he hst
  cases h with
  | level t h hl hn =>
    have ht : c.transmit.1.outpkt.type ≠ pktTypeRET := by rwa [transmit_outpkt]
    have hc : c.Receives := by
      refine ⟨hrec.runs, hrec.stays, ?_⟩
      have hr := hrec.receive
      rw [transmit_park] at hr
      exact hr
    have hlog := log_out (l := l) (c := c.park t) h hst
    rw [transmit_park] at hout ⊢
    rw [park_requesting t ht]
    refine .ahead h hc ?_ ?_
    · rw [hlog.1, hl, hout]
    · rw [hlog.2, hn]
  | ahead h hr hl hn =>
    rw [requesting_again hr]
    rw [requesting_transmit hr] at hout
    subst hout
    refine .ahead h hr ?_ ?_
    · exact (log_request _).1.trans hl
    · rw [← hn]
      exact congrArg (· + 1) (log_request _).2
  | ended h hs => exact absurd (hs.returned.symm.trans hrec.runs) h

/-- With every other event it goes along. -/
theorem Shadow.keep (h : Shadow n (d, l) (c, m)) (he : e.damaged = false)
    (hst : d.step e = some (d', out)) :
    ∃ c' out', c.step e = some (c', out') ∧
      Shadow n (d', l ++ out.toList) (c', m ++ out'.toList) := by
  cases h with
  | level t h hl hn =>
    have hrel := step_alike (.parked t h) e
    have hlog := log_out (l := l) (c := c.park t) h hst
    rw [hst] at hrel
    cases hc : c.step e with
    | none =>
      rw [hc] at hrel
      cases hrel
    | some x =>
      rw [hc] at hrel
      obtain ⟨c', out'⟩ := x
      cases hrel with
      | some hx =>
        obtain ⟨halike, rfl⟩ := hx
        have hout := step_outpkt h he hc
        refine ⟨c', out', rfl, ?_⟩
        cases halike with
        | same => exact .level (c := d') d'.tpkt hout (by rw [hlog.1, hl]) (by rw [hlog.2, hn])
        | parked t' _ => exact .level t' hout (by rw [hlog.1, hl]) (by rw [hlog.2, hn])
  | ahead h hr hl hn =>
    match e with
    | .act io =>
      obtain ⟨-, ⟨hlv, -⟩ | ⟨-, hrec, -⟩⟩ := step_act hst
      · simp [(requesting_receives hr).stays] at hlv
      · simp [(requesting_receives hr).receive] at hrec
    | .hear r io =>
      obtain ⟨-, -, -, rfl, rfl⟩ := step_hear hst
      refine ⟨_, _, hr.step r io, ?_⟩
      have hsent : c.transmit.1.requesting.transmit.2
          = some (retransmitpkt c.transmit.1.sequence) := by rw [requesting_transmit hr]
      have hlog := log_request (l := l) c.transmit.1.sequence
      rw [hsent, Option.toList_some]
      match r with
      | none =>
        refine .ended (by simp [hear, fails]) ?_ (hlog.1.trans hl) (hlog.2.trans hn)
        rw [requesting_transmit hr]
        exact ⟨rfl, rfl, rfl, rfl, rfl⟩
      | some p =>
        have hok : p.ok = true := by simpa [Event.damaged] using he
        have hd : c.transmit.1.requesting.transmit.1.hear (some p) io
            = (c.evaluating.received p io).park c.transmit.1.outstanding := by
          rw [hear_ok hok, ← received_park, ← requesting_evaluating hr]
          rfl
        have hc : c.transmit.1.hear (some p) io = c.evaluating.received p io := hear_ok hok
        rw [hd, hc]
        exact .level _ (received_outpkt (evaluating_outpkt h)) (hlog.1.trans hl)
          (hlog.2.trans hn)
  | ended h hs =>
    rw [← hs.returned] at h
    cases e with
    | act io => exact absurd (step_act hst).1 h
    | hear r io => exact absurd (step_hear hst).1 h

theorem Shadow.same (h : Shadow n (d, l) (c, m)) : Same c d := by
  cases h with
  | level t h hl hn => exact ⟨rfl, rfl, rfl, rfl, rfl⟩
  | ahead h hr hl hn => exact { same_transmit c with }
  | ended h hs => exact hs

/-! ## 4. Whole runs -/

/-- **Damage is invisible.**  Taking the damaged packets out of a run of `client_comm` leaves a run,
to a server with the same number, offset, retries, file and exit status.  It has sent the same
packets but for the requests, one for each damaged packet; or, right behind damaged packets, it is
about to send the last of them, and the last request is still to come. -/
theorem damage_invisible (es : List Event) (d : Comm) (l : List Packet)
    (h : logged.run (start, []) es = some (d, l)) :
    ∃ c m, logged.run (start, []) (es.filter fun e => !e.damaged) = some (c, m) ∧ Same c d ∧
      (l.filter (fun p => !isRequest p) = m ∧ l.countP isRequest = es.countP Event.damaged ∨
        l.filter (fun p => !isRequest p) = m ++ c.transmit.2.toList ∧
          l.countP isRequest + 1 = es.countP Event.damaged) := by
  have h0 : Shadow 0 (start, []) (start, []) :=
    .level (c := start) start.tpkt (by decide) rfl rfl
  have hskip : ∀ n (x : Comm × List Packet) e y z, Shadow n x z → e.damaged = true →
      logged.may x e → logged.next x e = some y → Shadow (n + 1) y z := by
    rintro n ⟨d, l⟩ e x ⟨c, m⟩ hs he - hn
    obtain ⟨d', out, hst, rfl⟩ := logged_next.mp hn
    exact hs.skip he hst
  have hkeep : ∀ n (x : Comm × List Packet) e y z, Shadow n x z → e.damaged = false →
      logged.may x e → logged.next x e = some y →
      logged.may z e ∧ ∃ z', logged.next z e = some z' ∧ Shadow n y z' := by
    rintro n ⟨d, l⟩ e x ⟨c, m⟩ hs he - hn
    obtain ⟨d', out, hst, rfl⟩ := logged_next.mp hn
    obtain ⟨c', out', hst', hs'⟩ := hs.keep he hst
    exact ⟨trivial, (c', m ++ out'.toList), logged_next.mpr ⟨c', out', hst', rfl⟩, hs'⟩
  obtain ⟨⟨c, m⟩, hc, hs⟩ := logged.run_skip Event.damaged hskip hkeep h0 h
  refine ⟨c, m, hc, hs.same, ?_⟩
  rw [Nat.zero_add] at hs
  cases hs with
  | level t h hl hn => exact .inl ⟨hl, hn⟩
  | ahead h hr hl hn => exact .inr ⟨hl, hn⟩
  | ended h hs hl hn => exact .inl ⟨hl, hn⟩

end Fileserver.StopWait.Comm

namespace Fileserver.StopWait.Comm

open Proto

local instance transparentHost : Host := refHost [1, 2]

/-- The file is asked for, its first packet is answered behind two damaged packets, and the
connection is lost. -/
def answeredLate : List Event :=
  [.hear (some fln) calm, .act calm, .hear (some (memset 0)) calm, .hear (some (memset 0)) calm,
    .hear (some (Packet.sealed { memset pktTypeACK with data := copied pktTypeACK [1] })) calm,
    .hear none calm]

/-- It has sent the two packets it would have sent without them. -/
theorem damage_invisible_late :
    ∃ d l c m, logged.run (start, []) answeredLate = some (d, l) ∧ d.returned = some 1 ∧
      logged.run (start, []) (answeredLate.filter fun e => !e.damaged) = some (c, m) ∧
      Same c d := by
  obtain ⟨⟨d, l⟩, hrun, hret⟩ := (Option.any_eq_true _ _).mp (by decide +kernel :
    (logged.run (start, []) answeredLate).any
      (fun x => decide (x.1.returned = some 1)) = true)
  obtain ⟨c, m, hc, hs, -⟩ := damage_invisible answeredLate d l hrun
  exact ⟨d, l, c, m, hrun, of_decide_eq_true hret, hc, hs⟩

end Fileserver.StopWait.Comm
