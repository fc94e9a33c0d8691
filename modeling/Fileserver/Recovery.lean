/-
# One client timeout is enough

The child never resends on its own, so the data phase comes to a halt when everything in flight
is lost: the child waits, the client waits.  The `REJ` the client sends on its timeout carries a
number that is never below the window, so the child answers it by resending the window.  From
there on, with nothing lost any more, everything in flight is in line (`GoBackN.Smooth`), and
every step brings the transfer closer to its end.

`calm` is the data phase in which nothing goes wrong any more; `Calm` is what holds in it.
-/
import Fileserver.Transfer

namespace Fileserver

open Proto

/-! ## 1. Retries -/

variable [Host]

/-- A child with retries left keeps some, unless a timeout, a damaged packet or a failed call
takes them. -/
theorem Server.Turn.retries {v v' : Server} {e : Server.Event} {out : Option Packet}
    (h : v.Turn e v' out) (he : e.fails = false) (hb : ∀ r io, e = .hear r io → r.bad = false)
    (hk : 0 < v.mvRetries) : 0 < v'.mvRetries := by
  cases h with
  | push | full | sendOne | sent => exact hk
  | again hs hr => simp [hb _ _ rfl] at hr
  | shiftTo | oldRR | resend | rewind | ignore => exact (by decide : 0 < pktTrnsMax)
  | fail hq hf => simp [he] at hf

/-- A client to which an unharmed packet comes, and whose calls succeed, has fresh retries and
goes on or is done. -/
theorem Client.Turn.retries {c c' : Client} {r : Recv} {out : Option Packet}
    (h : c.Turn r true true c' out) (hs : c.mvState = .recvPackets) (hb : r.bad = false)
    (hf : r ≠ .failed) :
    0 < c'.mvRetries ∧ (c'.mvState = .recvPackets ∨ c'.mvState = .done) := by
  have hpos : 0 < pktTrnsMax := by decide
  cases h with
  | nag hr => simp [hb] at hr
  | accept | old | gap => exact ⟨hpos, .inl hs⟩
  | finish => exact ⟨hpos, .inr rfl⟩
  | fail hr => exact absurd (hr.resolve_right (by decide)) hf

namespace Session

/-! ## 2. Nothing goes wrong any more -/

/-- The data phase in which everything is delivered in order and every call succeeds. -/
def calm (file : List UInt8) (B W : UInt32) : System Session Event :=
  (transfer file B W .perfect .perfect).under fun _ e => e.quiet = true

/-- **What holds from the timeout on.**  The invariant of the transfer, everything in line, and
retries left on both sides. -/
structure Calm (file : List UInt8) (B W : UInt32) (s : Session) : Prop extends
    Content file B W s where
  smooth : GoBackN.Smooth W.toNat (abs s)
  server : 0 < s.server.mvRetries
  client : 0 < s.client.mvRetries

variable {file : List UInt8} {B W : UInt32} {s t : Session}

/-- In a quiet step both sides keep their retries, and the client goes on or is done. -/
theorem quiet_retries {U : ℕ} (hw : Wf U s) (hc : s.client.mvState = .recvPackets) {e : Event}
    (hk : may .perfect .perfect e) (hq : e.quiet = true) (h : s.next e = some t)
    (hs : 0 < s.server.mvRetries) (hr : 0 < s.client.mvRetries) :
    0 < t.server.mvRetries ∧ 0 < t.client.mvRetries ∧
      (t.client.mvState = .recvPackets ∨ t.client.mvState = .done) := by
  cases e with
  | serverAct io =>
    obtain ⟨⟨v, out⟩, hst, rfl⟩ := Option.map_eq_some_iff.mp h
    obtain rfl : io = true := hq
    rcases hw.phase with he | ⟨hd, -⟩
    · simp [Server.step_error he] at hst
    exact ⟨(Server.step_cases hd hst).retries rfl (by simp) hs, hr, .inl hc⟩
  | serverHear a io =>
    obtain ⟨⟨r, l⟩, ha, h⟩ := Option.bind_eq_some_iff.mp h
    obtain ⟨⟨v, out⟩, hst, rfl⟩ := Option.map_eq_some_iff.mp h
    obtain ⟨hg, rfl⟩ : a.good = true ∧ io = true := by simpa [Event.quiet] using hq
    rcases hw.phase with he | ⟨hd, -⟩
    · simp [Server.step_error he] at hst
    obtain ⟨d, rfl, hm⟩ := Arrival.recv_good ha hg
    have hok : d.pkt.ok = true := (hw.toServer d hm).1
    refine ⟨(Server.step_cases hd hst).retries rfl ?_ hs, hr, .inl hc⟩
    rintro r io he
    obtain ⟨rfl, -⟩ := Server.Event.hear.inj he
    simp [Recv.bad, hok]
  | clientHear a wr io =>
    obtain ⟨⟨r, l⟩, ha, h⟩ := Option.bind_eq_some_iff.mp h
    obtain ⟨⟨c, out⟩, hst, rfl⟩ := Option.map_eq_some_iff.mp h
    obtain ⟨⟨hg, rfl⟩, rfl⟩ : (a.good = true ∧ wr = true) ∧ io = true := by
      simpa [Event.quiet] using hq
    obtain ⟨d, rfl, hm⟩ := Arrival.recv_good ha hg
    have hok : d.pkt.ok = true := (hw.toClient d hm).1.1
    have ht := (Client.step_cases hw.client hst).2
    exact ⟨hs, ht.retries hc (by simp [Recv.bad, hok]) (by simp)⟩
  | _ => simp [Event.quiet] at hq

/-- A number the client wants lies at or below the number of full packets. -/
theorem Content.cursor_le (hc : Content file B W s) (hB : 0 < B.toNat)
    (hs : s.client.mvState = .recvPackets) :
    s.client.mvSequence.toNat ≤ file.length / B.toNat :=
  (Nat.le_div_iff_mul_le hB).mpr (hc.copied.within hs)

/-- **A quiet step** ends the transfer, or keeps it calm and brings it closer to the end. -/
theorem Calm.step (hc : Calm file B W s) (hB : 0 < B.toNat) (hD : B.toNat ≤ pktDMax)
    (hW : 0 < W.toNat) (hlen : file.length + (W.toNat + 1) * B.toNat < 2 ^ 32)
    (hm : (calm file B W).Move s t) :
    (t.client.mvState = .done ∧ t.client.mvTo = file) ∨
      (Calm file B W t ∧ GoBackN.left W.toNat (file.length / B.toNat) (abs t)
        < GoBackN.left W.toNat (file.length / B.toNat) (abs s)) := by
  obtain ⟨e, ⟨⟨hk, hwr⟩, hq⟩, h⟩ := hm
  have hcs : s.client.mvState = .recvPackets := by simpa [abs] using hc.smooth.opened
  have hct := hc.toContent.step hB hD hW hlen hk hwr h
  obtain ⟨hs, hr, hst⟩ := quiet_retries hc.wf hcs hk hq h hc.server hc.client
  rcases hst with hst | hst
  · right
    have hg : GoBackN.Good W.toNat .perfect .perfect (abs s) (abs t) := by
      refine ((refines hW hc.wf hk ?_ h).2).resolve_right (by simp [hq])
      intro hp
      exact lt_of_le_of_lt (Nat.le_mul_of_pos_right _ hB) (hc.fits hlen hp)
    have hopen : (abs t).closed = false := by simp [abs, hst]
    exact ⟨⟨hct, hc.smooth.step hg hopen, hs, hr⟩,
      hc.smooth.step_lt hg hopen (hct.cursor_le hB hst)⟩
  · exact .inl ⟨hst, hct.copied.done hst⟩

/-- **A calm transfer is never stuck.** -/
theorem Calm.progress (hc : Calm file B W s) (hW : 0 < W.toNat) :
    ∃ t, (calm file B W).Move s t := by
  have hcs : s.client.mvState = .recvPackets := by simpa [abs] using hc.smooth.opened
  rcases hc.wf.phase with he | ⟨hst | hst | hst, hn⟩
  · exact absurd (by simp [abs, mode, he]) hc.smooth.live
  · refine System.exists_move (.serverAct true) ⟨⟨trivial, trivial⟩, rfl⟩ ?_
    simp [calm, System.under, transfer, next, Server.step, Server.running, Server.receives, hst,
      hc.server]
  · refine System.exists_move (.serverAct true) ⟨⟨trivial, trivial⟩, rfl⟩ ?_
    simp [calm, System.under, transfer, next, Server.step, Server.running, Server.receives, hst,
      hc.server]
  · rcases hc.smooth.waiting hW (by simp [abs, mode, hst]) with hu | hd
    · have hu' : s.toServer ≠ [] := by simpa [abs] using hu
      obtain ⟨d, l, hl⟩ := List.exists_cons_of_ne_nil hu'
      refine System.exists_move (.serverHear (.take 0) true) ⟨⟨.inr rfl, trivial⟩, rfl⟩ ?_
      simp [calm, System.under, transfer, next, Arrival.recv, hl, Server.step, Server.running,
        Server.receives, hst, hc.server]
    · have hd' : s.toClient ≠ [] := by simpa [abs] using hd
      obtain ⟨d, l, hl⟩ := List.exists_cons_of_ne_nil hd'
      refine System.exists_move (.clientHear (.take 0) true true) ⟨⟨.inr rfl, rfl⟩, rfl⟩ ?_
      simp [calm, System.under, transfer, next, Arrival.recv, hl, Client.step, Client.running,
        Client.receives, hcs, hc.client]

/-- **A calm transfer comes to its end** in every run. -/
theorem Calm.inevitable (hc : Calm file B W s) (hB : 0 < B.toNat) (hD : B.toNat ≤ pktDMax)
    (hW : 0 < W.toNat) (hlen : file.length + (W.toNat + 1) * B.toNat < 2 ^ 32) :
    (calm file B W).Inevitable
      (fun t => t.client.mvState = .done ∧ t.client.mvTo = file) s :=
  System.Inevitable.of_measure (I := Calm file B W)
    (fun s => GoBackN.left W.toNat (file.length / B.toNat) (abs s))
    (fun _ hs _ => hs.progress hW) (fun _ _ hs _ hm => hs.step hB hD hW hlen hm) hc

/-! ## 3. From the timeout to the resend -/

/-- The waiting child takes the `REJ` of the client, the only datagram in flight, and is about
to resend its whole window. -/
theorem calm_of_rej (hc : Content file B W s) (hB : 0 < B.toNat) (hD : B.toNat ≤ pktDMax)
    (hW : 0 < W.toNat) (hlen : file.length + (W.toNat + 1) * B.toNat < 2 ^ 32)
    (hcs : s.client.mvState = .recvPackets) (hst : s.server.mvState = .waitRR)
    (hsr : 0 < s.server.mvRetries) (hcr : 0 < s.client.mvRetries) (hd : s.toClient = [])
    (hu : s.toServer = [⟨s.client.mvSocket, rejpkt s.client.mvSequence⟩])
    (hm : (calm file B W).Move s t) : Calm file B W t := by
  obtain ⟨e, ⟨⟨hk, hwr⟩, hq⟩, h⟩ := hm
  have hct := hc.step hB hD hW hlen hk hwr h
  obtain ⟨hs, hr, -⟩ := quiet_retries hc.wf hcs hk hq h hsr hcr
  have hg : GoBackN.Good W.toNat .perfect .perfect (abs s) (abs t) := by
    refine ((refines hW hc.wf hk ?_ h).2).resolve_right (by simp [hq])
    intro hp
    exact lt_of_le_of_lt (Nat.le_mul_of_pos_right _ hB) (hc.fits hlen hp)
  refine ⟨hct, GoBackN.Smooth.of_rej hc.numbers ?_ ?_ ?_ ?_ hg, hs, hr⟩
  · simp [abs, hcs]
  · simp [abs, mode, hst]
  · simp [abs, hd]
  · simp [abs, hu, reply, num]

/-- **Recovery.**  Both sides are waiting and nothing is in flight, whatever went wrong before.
The client's next timeout sends a `REJ`, and if nothing goes wrong from there on, every run
comes to the end of the transfer, with the whole file written. -/
theorem timeout_recovers (file : List UInt8) (B W : UInt32) (hB : 0 < B.toNat)
    (hD : B.toNat ≤ pktDMax) (hW : 0 < W.toNat)
    (hlen : file.length + (W.toNat + 1) * B.toNat < 2 ^ 32) (s : Session)
    (h : (transfer file B W .free .free).Reach s) (hc : s.client.mvState = .recvPackets)
    (hcr : 2 ≤ s.client.mvRetries) (hs : s.server.mvState = .waitRR)
    (hsr : 1 ≤ s.server.mvRetries) (hd : s.toClient = []) (hu : s.toServer = []) :
    ∃ t, s.next (.clientHear .timeout true true) = some t ∧
      t.toServer.map Datagram.pkt = [rejpkt s.client.mvSequence] ∧
      (calm file B W).Inevitable
        (fun u => u.client.mvState = .done ∧ u.client.mvTo = file) t := by
  have hcon := content_of_reach hB hD hW hlen h
  let c := { s.client with mvRetries := s.client.mvRetries - 1 }
  let t := s.afterClient s.toClient c (some (rejpkt s.client.mvSequence))
  have hcr0 : 0 < s.client.mvRetries := by omega
  have hn : s.next (.clientHear .timeout true true) = some t := by
    simp [next, Arrival.recv, Client.step, Client.running, Client.receives, hc, hcr0, t, c,
      Client.recvPackets, Client.recvPacket, Client.respond]
  have hk : may .free .free (.clientHear .timeout true true) := trivial
  have ht : Content file B W t := hcon.step hB hD hW hlen hk rfl hn
  have hup : t.toServer = [⟨t.client.mvSocket, rejpkt t.client.mvSequence⟩] := by
    simp [t, c, afterClient, hu]
  refine ⟨t, hn, by rw [hup]; rfl, .later ?_ ?_⟩
  · have hst : t.server.mvState = .waitRR := hs
    have hrt : 0 < t.server.mvRetries := hsr
    refine System.exists_move (.serverHear (.take 0) true) ⟨⟨.inr rfl, trivial⟩, rfl⟩ ?_
    simp [calm, System.under, transfer, next, Arrival.recv, hup, Server.step, Server.running,
      Server.receives, hst, hrt]
  · intro u hm
    have hcal := calm_of_rej ht hB hD hW hlen hc hs hsr (by simp [t, c, afterClient]; omega)
      hd hup hm
    exact hcal.inevitable hB hD hW hlen

end Session

end Fileserver

namespace Fileserver.Session

open Proto

local instance : Host := refHost [1, 2, 3]

/-- The first window is lost as a whole; the client's timeout still brings the file over. -/
theorem timeout_recovers_window :
    ∃ s t, (transfer [1, 2, 3] 2 2 .free .free).Reach s ∧ s.toClient = [] ∧
      s.next (.clientHear .timeout true true) = some t ∧
      (calm [1, 2, 3] 2 2).Inevitable
        (fun u => u.client.mvState = .done ∧ u.client.mvTo = [1, 2, 3]) t := by
  have h0 : (transfer [1, 2, 3] 2 2 .free .free).Reach (atStart [1, 2, 3] 2 2) :=
    .start (atStart_start [1, 2, 3] 2 2)
  obtain ⟨s, h, ht⟩ := h0.run_any (List.replicate 6 (.serverAct true) ++
      List.replicate 2 (.loseDown 0))
    (fun s => decide (s.client.mvState = .recvPackets ∧ 2 ≤ s.client.mvRetries ∧
      s.server.mvState = .waitRR ∧ 1 ≤ s.server.mvRetries ∧ s.toClient = [] ∧
      s.toServer = [])) (by decide +kernel)
  obtain ⟨hc, hcr, hs, hsr, hd, hu⟩ := of_decide_eq_true ht
  obtain ⟨t, hn, -, hi⟩ := timeout_recovers [1, 2, 3] 2 2 (by decide) (by decide) (by decide)
    (by decide) s h hc hcr hs hsr hd hu
  exact ⟨s, t, h, hd, hn, hi⟩

end Fileserver.Session
