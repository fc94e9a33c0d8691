/-
# A server that spins

An iteration of `client_comm` that does not receive prepares something to send, opens the file or
leaves the loop, so there should be two of them in a connection.  There is one way to more.  A
request of the peer for packet 0 makes the server send the empty packet it starts with, and wait for
the acknowledgement.  If that comes before the file name, the bits to transmit and to receive are
both off, and the files are not handled while `EXPECT_INFO` is on: nothing in the loop will ever
change anything again.  `main` serves one connection at a time, so this ends its service.
-/
import Fileserver.StopWait.Corruption

namespace Fileserver.StopWait.Comm

open Proto

/-! ## 1. The two kinds of iteration -/

/-- The iteration does not receive. -/
def Event.silent : Event → Bool
  | .act _ => true
  | .hear _ _ => false

/-- Both bits are off, and the file name has not come. -/
structure Spins (c : Comm) : Prop where
  runs : c.returned = none
  stays : c.leaves = false
  transmit : c.status.transmit = false
  receive : c.status.receive = false
  info : c.status.expectInfo = true

section

variable [Host]

/-- An acknowledgement is accepted before the file name has come. -/
def Idles (c : Comm) : Event → Prop
  | .act _ => False
  | .hear none _ => False
  | .hear (some p) io => p.ok = true ∧ p.type = pktTypeACK ∧ c.status.expectInfo = true ∧
      c.evaluating.status.expectAck = true ∧
      c.evaluating.outpkt.data.toList = p.data.toList ∧
      (c.status.retransmit = true → io.seeks = true)

end

/-- The silent iterations that are left. -/
def left (c : Comm) : ℕ :=
  if c.returned.isSome then 0 else if c.status.expectInfo || c.status.infoInit then 2 else 1

/-- No acknowledgement is out, and the next iteration sends something or waits for something. -/
structure Waits (c : Comm) : Prop where
  outpkt : c.outpkt.type ≠ pktTypeACK
  tpkt : c.tpkt.type ≠ pktTypeACK
  bits : c.status.transmit = true ∨ c.status.receive = true

/-- What keeps the server from spinning. -/
inductive Works (c : Comm) : Prop
  | asking (h : c.Waits) (hi : c.status.expectInfo = true) (hn : c.status.infoInit = false)
  | opening (ho : c.outpkt.type = pktTypeACK) (ht : c.status.transmit = true)
      (hk : c.tpkt.type ≠ pktTypeACK) (hi : c.status.expectInfo = false)
      (hn : c.status.infoInit = true)
  | serving (h : c.Waits) (hi : c.status.expectInfo = false) (hn : c.status.infoInit = false)
  | ended (h : c.returned ≠ none)

/-! ## 2. One iteration -/

variable {c c' : Comm} {io : Calls} {p : Packet}

theorem start_works : Works start :=
  .asking ⟨by decide, by decide, .inr rfl⟩ rfl rfl

theorem Waits.transmit (h : c.Waits) : c.transmit.1.status.receive = true := by
  unfold Comm.transmit
  by_cases ht : c.status.transmit = true
  · rw [if_pos ht, if_pos h.outpkt]
    split <;> rfl
  · rw [if_neg ht]
    exact h.bits.resolve_left ht

theorem Waits.outstanding (h : c.Waits) : c.transmit.1.outstanding.type ≠ pktTypeACK := by
  obtain ⟨r, a, ht⟩ := c.transmit_eq
  rw [ht]
  unfold Comm.outstanding
  split_ifs
  · exact h.tpkt
  · exact h.outpkt

/-- The server has returned, or waits on, with the bits of the files as they were. -/
def Goes (c d : Comm) : Prop :=
  d.returned ≠ none ∨ d.Waits ∧ d.status.expectInfo = c.status.expectInfo ∧
    d.status.infoInit = c.status.infoInit

theorem goes_fails (d : Comm) : Goes c d.fails := .inl (by simp [fails])

theorem left_ended (h : c.returned ≠ none) : c.left = 0 := by
  rw [left, if_pos (Option.isSome_iff_ne_none.mpr h)]

theorem left_le (hi : c.status.expectInfo = false) (hn : c.status.infoInit = false) :
    c.left ≤ 1 := by
  unfold left
  rw [hi, hn]
  split <;> decide

/-- What goes on works, and has no more silent iterations left than before. -/
theorem Goes.works {d : Comm} (h : Goes c d) (hret : c.returned = none)
    (hn : c.status.infoInit = false) : d.Works ∧ d.left ≤ c.left := by
  rcases h with hd | ⟨hw, hi, hn'⟩
  · exact ⟨.ended hd, by rw [left_ended hd]; exact Nat.zero_le _⟩
  · rw [hn] at hn'
    refine ⟨?_, ?_⟩
    · cases hc : c.status.expectInfo with
      | true => exact .asking hw (hi.trans hc) hn'
      | false => exact .serving hw (hi.trans hc) hn'
    · simp only [left, hret, hi, hn, hn', Option.isSome_none, Bool.false_eq_true, if_false]
      split_ifs <;> omega

variable [Host]

/-- A read prepares a packet, or ends the connection. -/
theorem nextData_goes (ho : c.outpkt.type ≠ pktTypeACK) (hk : c.tpkt.type ≠ pktTypeACK)
    (hb : c.status.nextdata = true ∨ c.status.transmit = true ∨ c.status.receive = true) :
    Goes c (c.nextData io) := by
  unfold nextData
  by_cases hd : c.status.nextdata = true
  · rw [if_pos hd]
    cases c.fromfd with
    | none => exact goes_fails c
    | some f =>
      dsimp only
      by_cases hr : io.reads = true
      · rw [if_pos hr]
        exact .inr ⟨⟨dat_ne_rr, hk, .inl rfl⟩, rfl, rfl⟩
      · rw [if_neg hr]
        exact goes_fails c
  · rw [if_neg hd]
    exact .inr ⟨⟨ho, hk, hb.resolve_left hd⟩, rfl, rfl⟩

/-- The files are handled, where the server is not about to open one. -/
theorem files_goes (hw : c.Waits) (hn : c.status.infoInit = false) : Goes c (c.files io) := by
  unfold files
  by_cases hi : c.status.expectInfo = true
  · rw [if_pos hi]
    exact .inr ⟨hw, rfl, rfl⟩
  · rw [if_neg hi, if_neg (by simp [hn])]
    exact nextData_goes hw.outpkt hw.tpkt (.inr hw.bits)

/-- The file is opened. -/
theorem files_opening (hk : c.tpkt.type ≠ pktTypeACK) (hi : c.status.expectInfo = false)
    (hn : c.status.infoInit = true) : (c.files io).Works ∧ (c.files io).left ≤ 1 := by
  have hfails (d : Comm) : d.fails.Works ∧ d.fails.left ≤ 1 := by
    have hd : d.fails.returned ≠ none := by simp [fails]
    exact ⟨.ended hd, by rw [left_ended hd]; exact Nat.zero_le _⟩
  unfold files
  rw [if_neg (by simp [hi]), if_pos hn]
  cases Host.file c.fromname with
  | none => exact hfails c
  | some contents =>
    dsimp only
    split_ifs
    · unfold nextData
      dsimp only
      by_cases hr : io.reads = true
      · rw [if_pos rfl, if_pos hr]
        exact ⟨.serving ⟨dat_ne_rr, hk, .inl rfl⟩ hi rfl, left_le hi rfl⟩
      · rw [if_pos rfl, if_neg hr]
        exact hfails _
    · exact hfails _

/-- An acknowledgement is accepted behind the file name. -/
theorem acknowledged_goes (ho : c.outpkt.type ≠ pktTypeACK) (hk : c.tpkt.type ≠ pktTypeACK)
    (hi : c.status.expectInfo = false) (hn : c.status.infoInit = false) :
    Goes c (if (c.acknowledged io).2 then (c.acknowledged io).1.files io
      else (c.acknowledged io).1) := by
  have hread (d : Comm) (hdo : d.outpkt = c.outpkt) (hdk : d.tpkt = c.tpkt)
      (hdi : d.status.expectInfo = c.status.expectInfo)
      (hdn : d.status.infoInit = c.status.infoInit) (hdd : d.status.nextdata = true) :
      Goes c (d.files io) := by
    rw [files, if_neg (by simp [hdi, hi]), if_neg (by simp [hdn, hn])]
    have hg : Goes d (d.nextData io) := nextData_goes (hdo ▸ ho) (hdk ▸ hk) (.inl hdd)
    rwa [Goes, hdi, hdn] at hg
  unfold acknowledged
  dsimp only
  by_cases hre : c.status.retransmit = true
  · rw [if_pos hre]
    by_cases hs : io.seeks = true
    · rw [if_pos hs]
      exact hread _ rfl rfl rfl rfl rfl
    · rw [if_neg hs]
      exact goes_fails _
  · rw [if_neg hre]
    exact hread _ rfl rfl rfl rfl rfl

/-- So it is with a request. -/
theorem requested_goes {number : UInt32} (hw : c.Waits) (hn : c.status.infoInit = false) :
    Goes c (if (c.requested number io).2 then (c.requested number io).1.files io
      else (c.requested number io).1) := by
  unfold requested
  dsimp only
  by_cases hq : number = c.sequence
  · rw [if_pos hq]
    exact .inr ⟨⟨hw.outpkt, hw.tpkt, .inl rfl⟩, rfl, rfl⟩
  · have hinit : ¬ c.status.infoInit = true := by simp [hn]
    rw [if_neg hq, if_neg hinit]
    by_cases hs : io.seeks = true
    · rw [if_pos hs]
      exact files_goes ⟨hw.outpkt, hw.tpkt, .inl rfl⟩ hn
    · rw [if_neg hs]
      exact goes_fails _

/-- What a valid packet leads to, if it does not make the server spin. -/
theorem received_goes {d : Comm} (hr : Received c p io d) (hw : c.Waits)
    (hn : c.status.infoInit = false)
    (hid : p.type = pktTypeACK → c.status.expectInfo = true → c.status.expectAck = true →
      c.outpkt.data.toList = p.data.toList →
      ¬ (c.status.retransmit = true → io.seeks = true)) :
    Goes c d ∨ c.status.expectInfo = true ∧ d = c.informed p := by
  cases hr with
  | ignored => exact .inl (files_goes hw hn)
  | unexpected => exact .inl (goes_fails c)
  | accepted ht he hd =>
    cases hi : c.status.expectInfo with
    | false => exact .inl (acknowledged_goes hw.outpkt hw.tpkt hi hn)
    | true =>
      obtain ⟨hre, hs⟩ := Classical.not_imp.mp (hid ht hi he hd)
      refine .inl (.inl ?_)
      simp [acknowledged, hre, hs, fails]
  | requested ht => exact .inl (requested_goes hw hn)
  | informed ht he => exact .inr ⟨he, rfl⟩

omit [Host] in
theorem Waits.evaluating (h : c.Waits) : c.evaluating.Waits where
  outpkt := h.outstanding
  tpkt := by
    rw [Comm.evaluating, transmit_tpkt]
    exact h.tpkt
  bits := .inr h.transmit

omit [Host] in
/-- Sending touches neither the bits of the files nor the exit status. -/
theorem evaluating_bits (c : Comm) : c.evaluating.status.expectInfo = c.status.expectInfo ∧
    c.evaluating.status.infoInit = c.status.infoInit ∧
    c.evaluating.status.retransmit = c.status.retransmit ∧
    c.evaluating.returned = c.returned := by
  obtain ⟨r, a, h⟩ := c.transmit_eq
  rw [Comm.evaluating, h]
  exact ⟨rfl, rfl, rfl, rfl⟩

/-- A waiting server hears something. -/
theorem Waits.hear {r : Option Packet} (hw : c.Waits) (hn : c.status.infoInit = false)
    (hid : ¬ c.Idles (.hear r io)) :
    Goes c (c.transmit.1.hear r io) ∨ c.status.expectInfo = true ∧
      ∃ p, c.transmit.1.hear r io = c.evaluating.informed p := by
  obtain ⟨hi', hn', hre', -⟩ := evaluating_bits c
  cases r with
  | none => exact .inl (goes_fails _)
  | some p =>
    by_cases hok : p.ok = true
    · rw [hear_ok hok]
      change Goes c (c.evaluating.received p io) ∨ _ ∧ ∃ q, c.evaluating.received p io = _
      have hg := received_goes (received_cases c.evaluating p io) hw.evaluating (hn'.trans hn) ?_
      · rw [Goes, hi', hn'] at hg
        exact hg.imp id fun ⟨hi, hd⟩ => ⟨hi, p, hd⟩
      · rw [hi', hre']
        exact fun ht hi he hd hs => hid ⟨hok, ht, hi, he, hd, hs⟩
    · rw [hear_damaged (by simpa using hok)]
      refine .inl (.inr ⟨⟨rej_ne_rr, hw.outstanding, .inl rfl⟩, hi', hn'⟩)

/-- A waiting server takes no silent iteration but the last. -/
theorem Waits.act {out : Option Packet} (hw : c.Waits) (h : c.step (.act io) = some (c', out)) :
    c.returned = none ∧ c' = { c with returned := some 0 } := by
  obtain ⟨hret, ⟨-, rfl, -⟩ | ⟨-, hrec, -⟩⟩ := step_act h
  · exact ⟨hret, rfl⟩
  · simp [hw.transmit] at hrec

omit [Host] in
theorem left_le_two (c : Comm) : c.left ≤ 2 := by
  unfold left
  split_ifs <;> decide

omit [Host] in
theorem left_pos (hret : c.returned = none) : 1 ≤ c.left := by
  unfold left
  rw [hret]
  split_ifs <;> simp_all

omit [Host] in
/-- The last iteration. -/
theorem works_returned (hret : c.returned = none) :
    ({ c with returned := some 0 } : Comm).Works ∧
      ({ c with returned := some 0 } : Comm).left + 1 ≤ c.left := by
  have hd : ({ c with returned := some 0 } : Comm).returned ≠ none := by simp
  refine ⟨.ended hd, ?_⟩
  rw [left_ended hd]
  exact left_pos hret

/-- **An iteration** leaves a server that works, and a silent one is counted. -/
theorem Works.step {e : Event} {out : Option Packet} (h : c.Works) (hid : ¬ c.Idles e)
    (hst : c.step e = some (c', out)) :
    c'.Works ∧ c'.left + (if e.silent then 1 else 0) ≤ c.left := by
  have hwaits (hw : c.Waits) (hn : c.status.infoInit = false) :
      c'.Works ∧ c'.left + (if e.silent then 1 else 0) ≤ c.left := by
    cases e with
    | act io =>
      obtain ⟨hret, rfl⟩ := hw.act hst
      exact works_returned hret
    | hear r io =>
      obtain ⟨hret, -, -, rfl, -⟩ := step_hear hst
      rcases hw.hear hn hid with hg | ⟨hi, p, hd⟩
      · exact hg.works hret hn
      · rw [hd]
        refine ⟨.opening rfl rfl hw.evaluating.tpkt rfl rfl, ?_⟩
        have hl : c.left = 2 := by simp [left, hret, hi]
        rw [hl]
        exact left_le_two _
  cases h with
  | asking hw hi hn => exact hwaits hw hn
  | serving hw hi hn => exact hwaits hw hn
  | ended h =>
    cases e with
    | act io => exact absurd (step_act hst).1 h
    | hear r io => exact absurd (step_hear hst).1 h
  | opening ho ht hk hi hn =>
    have htr : c.transmit.1 = { c with status := { c.status with
        transmit := false, receive := false } } := by
      simp [Comm.transmit, ht, ho]
    cases e with
    | act io =>
      obtain ⟨hret, ⟨-, rfl, -⟩ | ⟨-, -, rfl, -⟩⟩ := step_act hst
      · exact works_returned hret
      · have hw : (c.transmit.1.files io).Works ∧ (c.transmit.1.files io).left ≤ 1 :=
          files_opening (by rwa [transmit_tpkt]) (by rw [htr]; exact hi) (by rw [htr]; exact hn)
        refine ⟨hw.1, ?_⟩
        have hl : c.left = 2 := by simp [left, hret, hn]
        rw [hl]
        exact Nat.succ_le_succ hw.2
    | hear r io =>
      obtain ⟨-, -, hrec, -⟩ := step_hear hst
      simp [htr] at hrec

/-! ## 3. For ever -/

/-- **A spinning server** can take the same silent iteration again, and no other. -/
theorem Spins.step (h : c.Spins) (e : Event) :
    c.step e = if e.silent then some (c, none) else none := by
  have ht : c.transmit = (c, none) := by simp [Comm.transmit, h.transmit]
  cases e with
  | act io =>
    have hf : c.files io = c := by rw [files, if_pos h.info]
    simp [Comm.step, Event.silent, h.runs, h.stays, ht, h.receive, hf]
  | hear r io => simp [Comm.step, Event.silent, h.runs, h.stays, ht, h.receive]

omit [Host] in
/-- What is left of an acknowledgement accepted before the file name. -/
theorem acknowledged_spins (hret : c.returned = none) (hq : c.status.quit = false)
    (ht : c.status.transmit = false) (hi : c.status.expectInfo = true)
    (hs : c.status.retransmit = true → io.seeks = true) :
    (c.acknowledged io).2 = true ∧ (c.acknowledged io).1.Spins := by
  unfold acknowledged
  dsimp only
  by_cases hre : c.status.retransmit = true
  · rw [if_pos hre, if_pos (hs hre)]
    exact ⟨rfl, hret, by simp [leaves, lseek, hq], ht, rfl, hi⟩
  · rw [if_neg hre]
    exact ⟨rfl, hret, by simp [leaves, hq], ht, rfl, hi⟩

/-- An acknowledgement accepted before the file name makes the server spin. -/
theorem Idles.spins {e : Event} {out : Option Packet} (h : c.Idles e)
    (hst : c.step e = some (c', out)) : c'.Spins := by
  match e with
  | .act io => exact h.elim
  | .hear none io => exact h.elim
  | .hear (some p) io =>
    obtain ⟨hok, ht, hi, he, hd, hs⟩ := h
    obtain ⟨hret, hl, -, rfl, -⟩ := step_hear hst
    obtain ⟨hi', -, hre', hret'⟩ := evaluating_bits c
    have hq : c.evaluating.status.quit = false := by
      obtain ⟨r, a, htr⟩ := c.transmit_eq
      have hq' : c.status.quit = false := by
        by_contra hne
        simp [leaves, hne] at hl
      rw [evaluating, htr]
      exact hq'
    obtain ⟨hgo, hsp⟩ :
        (c.evaluating.acknowledged io).2 = true ∧ (c.evaluating.acknowledged io).1.Spins :=
      acknowledged_spins (hret'.trans hret) hq (transmit_cleared c) (hi'.trans hi) (by rwa [hre'])
    have heval : c.evaluating.evaluate p io = c.evaluating.acknowledged io := by
      rw [evaluate, if_pos ht, if_pos he, if_pos hd]
    rw [hear_ok hok]
    change (c.evaluating.received p io).Spins
    rw [received, heval, if_pos hgo, files, if_pos hsp.info]
    exact hsp

/-! ## 4. A connection -/

instance (c : Comm) : (e : Event) → Decidable (c.Idles e)
  | .act _ => inferInstanceAs (Decidable False)
  | .hear none _ => inferInstanceAs (Decidable False)
  | .hear (some p) io => inferInstanceAs (Decidable
    (p.ok = true ∧ p.type = pktTypeACK ∧ c.status.expectInfo = true ∧
      c.evaluating.status.expectAck = true ∧
      c.evaluating.outpkt.data.toList = p.data.toList ∧
      (c.status.retransmit = true → io.seeks = true)))

/-- **Silent iterations.**  In every run in which no acknowledgement is accepted before the file
name, at most two iterations do not receive.  Behind one that is, the server repeats the same
iteration for ever: it hears nothing, sends nothing and changes nothing. -/
theorem silent_iterations :
    (∀ es c, (conn.under fun c e => ¬ c.Idles e).run start es = some c →
      es.countP Event.silent ≤ 2) ∧
    ∀ (c : Comm) e c' out, c.Idles e → c.step e = some (c', out) →
      ∀ e', c'.step e' = if e'.silent then some (c', none) else none := by
  refine ⟨?_, ?_⟩
  · intro es c hr
    have hcount := System.run_countP (M := conn.under fun c e => ¬ c.Idles e)
      (I := Works) left Event.silent (fun _ => false) 0 ?_ start_works hr
    · have hstart : start.left = 2 := rfl
      omega
    · intro c e t hw hm hn
      obtain ⟨⟨c', out⟩, hst, rfl⟩ := Option.map_eq_some_iff.mp hn
      exact hw.step hm.2 hst
  · intro c e c' out hid hst
    exact (hid.spins hst).step

end Fileserver.StopWait.Comm

namespace Fileserver.StopWait.Comm

open Proto

local instance spinningHost : Host := refHost []

/-- An acknowledgement with the data of the packet the server starts with. -/
def hollow : Event := .hear (some (Packet.sealed { memset 0 with type := pktTypeACK })) calm

/-- Behind a request for packet 0 it makes the server spin. -/
theorem silent_iterations_spins :
    ∃ c, conn.Reach c ∧ ∀ e, c.step e = if e.silent then some (c, none) else none := by
  have h0 : conn.Reach start := .start rfl
  obtain ⟨c, h, hs⟩ := h0.run_any [.hear (some (retransmitpkt 0)) calm]
    (fun c => decide (c.Idles hollow ∧ (c.step hollow).isSome)) (by decide +kernel)
  obtain ⟨hid, hsome⟩ := of_decide_eq_true hs
  obtain ⟨⟨c', out⟩, hst⟩ := Option.isSome_iff_exists.mp hsome
  exact ⟨c', h.step trivial (congrArg (Option.map Prod.fst) hst),
    silent_iterations.2 c hollow c' out hid hst⟩

end Fileserver.StopWait.Comm
