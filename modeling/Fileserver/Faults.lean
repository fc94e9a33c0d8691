/-
# Any number of faults

The data phase puts itself right.  Let anything have happened to it, short of a side that gave up.
If from then on datagrams are delivered in order and no timeout fires, the numbers in flight run out
(`GoBackN.Inv.work_lt`), and the client is done or everything stands still.  The client's timeout
then puts everything in line.

So it can be disturbed again and again.  As long as the faults leave the client two retries and the
child one, the transfer survives any number of them; and it comes to an end whatever they leave.
-/
import Fileserver.Rescue
import Fileserver.Retries

namespace Fileserver

open Proto

/-! ## 1. What a reception costs -/

/-- At most one retry is lost, or the counter was filled before. -/
def Costs (k k' : Int) : Prop := k' = k ∨ k' = k - 1 ∨ pktTrnsMax - 1 ≤ k'

theorem Costs.le {k k' m : Int} (h : Costs k k') (hm : m < pktTrnsMax) (hk : m + 1 ≤ k) :
    m ≤ k' := by
  rcases h with h | h | h <;> omega

section Costs

variable [Host]

theorem Server.waitRR_costs (v : Server) {r : Recv} (hr : r ≠ .failed) (io : Bool) :
    Costs v.mvRetries (v.waitRR r io).mvRetries := by
  cases r with
  | timeout => exact .inr (.inl rfl)
  | failed => exact absurd rfl hr
  | datagram src p =>
    refine .inr (.inr ?_)
    by_cases hok : p.ok = true
    · simp only [waitRR, recvPacket, hok, if_true]
      rw [waitPacket_retries _ _ _ rfl]
      decide
    · simp [waitRR, recvPacket, hok]

theorem Client.recvPackets_costs (c : Client) {r : Recv} (hr : r ≠ .failed) (wr io : Bool) :
    Costs c.mvRetries (c.recvPackets r wr io).1.mvRetries := by
  cases r with
  | timeout => cases io <;> exact .inr (.inl rfl)
  | failed => exact absurd rfl hr
  | datagram src p =>
    refine .inr (.inr ?_)
    by_cases hok : p.ok = true
    · simp only [recvPackets, recvPacket, hok, if_true]
      rw [dataPacket_retries rfl]
      decide
    · cases io <;> simp [recvPackets, recvPacket, hok, respond]

end Costs

/-- The call itself fails. -/
def Arrival.fails : Arrival → Bool
  | .failed => true
  | _ => false

theorem Arrival.recv_fails [Host] {a : Arrival} {l l' : List Datagram} {r : Recv}
    (h : a.recv l = some (r, l')) (hf : a.fails = false) : r ≠ .failed := by
  cases a with
  | timeout =>
    obtain ⟨rfl, -⟩ := Prod.mk.inj (Option.some.inj h)
    simp
  | failed => simp [fails] at hf
  | take i =>
    obtain ⟨d, -, he⟩ := Option.map_eq_some_iff.mp h
    obtain ⟨rfl, -⟩ := Prod.mk.inj he
    simp
  | garble i q =>
    simp only [recv, Option.ite_none_left_eq_some] at h
    obtain ⟨d, -, he⟩ := Option.map_eq_some_iff.mp h.2
    obtain ⟨rfl, -⟩ := Prod.mk.inj he
    simp

namespace Session

/-! ## 2. Sound steps -/

/-- Both sides wait, and nothing is in flight. -/
def Still (s : Session) : Prop :=
  s.server.mvState = .waitRR ∧ s.toClient = [] ∧ s.toServer = []

instance : DecidablePred Still := fun s =>
  inferInstanceAs (Decidable (s.server.mvState = .waitRR ∧ s.toClient = [] ∧ s.toServer = []))

/-- The timeout of the client. -/
def Event.nags : Event → Bool
  | .clientHear .timeout true true => true
  | _ => false

/-- **Nothing goes wrong in the step.**  A datagram arrives that is the oldest in flight, or a turn
goes as it should, or the client's timeout fires where nothing else is left to happen. -/
def Sound (s : Session) (e : Event) : Prop :=
  may .perfect .perfect e ∧ e.quiet = true ∨ e.nags = true ∧ s.Still

instance (s : Session) (e : Event) : Decidable (s.Sound e) :=
  inferInstanceAs (Decidable (_ ∧ _ ∨ _ ∧ _))

/-- No call of the system fails in the step. -/
def Event.calls : Event → Bool
  | .serverAct io => io
  | .serverHear a io => !a.fails && io
  | .clientHear a wr io => !a.fails && (wr && io)
  | _ => true

theorem Sound.calls {s : Session} {e : Event} (h : s.Sound e) : e.calls = true := by
  have hgood {a : Arrival} (ha : a.good = true) : a.fails = false := by
    cases a with
    | take i => rfl
    | timeout | failed | garble => simp [Arrival.good] at ha
  rcases h with ⟨-, h⟩ | ⟨h, -⟩
  · cases e with
    | serverAct io => exact h
    | serverHear a io =>
      obtain ⟨ha, rfl⟩ := Bool.and_eq_true_iff.mp h
      simp [Event.calls, hgood ha]
    | clientHear a wr io =>
      obtain ⟨⟨ha, rfl⟩, rfl⟩ : (a.good = true ∧ wr = true) ∧ io = true := by
        simpa [Event.quiet] using h
      simp [Event.calls, hgood ha]
    | loseDown i | dupDown i | loseUp i | dupUp i => rfl
  · unfold Event.nags at h
    split at h
    · rfl
    · simp at h

/-- A fault that leaves the client two retries and the child one. -/
def Spares (s : Session) (e : Event) : Prop :=
  e.calls = true ∧ 3 ≤ s.client.mvRetries ∧ 2 ≤ s.server.mvRetries

/-- One of the two has given up. -/
def GaveUp (s : Session) : Prop :=
  s.client.mvState ≠ .done ∧ s.client.running = false ∨ s.server.running = false

variable [Host] {file : List UInt8} {B W : UInt32} {s t : Session}

/-- The data phase in which nothing goes wrong any more. -/
def sound (file : List UInt8) (B W : UInt32) : System Session Event :=
  (transfer file B W .free .free).under Sound

/-- Both sides go on. -/
structure Running (file : List UInt8) (B W : UInt32) (s : Session) : Prop where
  content : Content file B W s
  client : s.client.running = true
  server : s.server.running = true

/-- **Both sides at work are never stuck.** -/
theorem Running.progress (h : Running file B W s) : ∃ t, (sound file B W).Move s t := by
  obtain ⟨hcs, hcr⟩ := h.content.receiver h.client
  obtain ⟨hd, -, hr⟩ := h.content.child h.server
  have hact (hs : s.server.receives = false) : ∃ t, (sound file B W).Move s t := by
    refine System.exists_move (.serverAct true) ⟨⟨trivial, trivial⟩, .inl ⟨trivial, rfl⟩⟩ ?_
    simp [sound, System.under, transfer, next, Server.step, h.server, hs]
  rcases hd with hst | hst | hst
  · exact hact (by simp [Server.receives, hst])
  · exact hact (by simp [Server.receives, hst])
  by_cases hu : s.toServer = []
  · by_cases hdn : s.toClient = []
    · refine System.exists_move (.clientHear .timeout true true)
        ⟨⟨trivial, rfl⟩, .inr ⟨rfl, hst, hdn, hu⟩⟩ ?_
      simp [sound, System.under, transfer, next, Arrival.recv, Client.step, h.client,
        Client.receives, hcs]
    · obtain ⟨d, l, hl⟩ := List.exists_cons_of_ne_nil hdn
      refine System.exists_move (.clientHear (.take 0) true true)
        ⟨⟨.inl rfl, rfl⟩, .inl ⟨.inr rfl, rfl⟩⟩ ?_
      simp [sound, System.under, transfer, next, Arrival.recv, hl, Client.step, h.client,
        Client.receives, hcs]
  · obtain ⟨d, l, hl⟩ := List.exists_cons_of_ne_nil hu
    refine System.exists_move (.serverHear (.take 0) true)
      ⟨⟨.inl rfl, trivial⟩, .inl ⟨.inr rfl, rfl⟩⟩ ?_
    simp [sound, System.under, transfer, next, Arrival.recv, hl, Server.step, h.server,
      Server.receives, hst]

/-! ## 3. What a step leaves -/

/-- **Where no call fails, nobody ends early**, and a step costs a retry at most. -/
theorem Content.calls_step (hc : Content file B W s) (hd : s.server.inData)
    (hcs : s.client.mvState ≠ .error) {e : Event} (he : e.calls = true)
    (h : s.next e = some t) :
    t.server.inData ∧ t.client.mvState ≠ .error ∧
      Costs s.server.mvRetries t.server.mvRetries ∧
      Costs s.client.mvRetries t.client.mvRetries := by
  have hsame {k : Int} : Costs k k := .inl rfl
  cases e with
  | serverAct io =>
    obtain ⟨⟨v, out⟩, hst, rfl⟩ := Option.map_eq_some_iff.mp h
    obtain rfl : io = true := he
    have ht := Server.step_cases hd hst
    refine ⟨ht.goesOn rfl, hcs, .inl ?_, hsame⟩
    simp only [Server.step, Option.ite_none_right_eq_some, Option.some.injEq] at hst
    have ha := Server.act_retries s.server true
    rwa [hst.2] at ha
  | serverHear a io =>
    obtain ⟨⟨r, l⟩, ha, h⟩ := Option.bind_eq_some_iff.mp h
    obtain ⟨⟨v, out⟩, hst, rfl⟩ := Option.map_eq_some_iff.mp h
    obtain ⟨hf, rfl⟩ := Bool.and_eq_true_iff.mp he
    have hr : r ≠ .failed := Arrival.recv_fails ha (by simpa using hf)
    refine ⟨(Server.step_cases hd hst).goesOn ?_, hcs, ?_, hsame⟩
    · cases r with
      | timeout | datagram => rfl
      | failed => exact absurd rfl hr
    · obtain ⟨hi, -⟩ | ⟨-, rfl⟩ := Server.step_hear hst
      · rcases hd with hd | hd | hd <;> simp [hd] at hi
      · exact s.server.waitRR_costs hr true
  | clientHear a wr io =>
    obtain ⟨⟨r, l⟩, ha, h⟩ := Option.bind_eq_some_iff.mp h
    obtain ⟨⟨c, out⟩, hst, rfl⟩ := Option.map_eq_some_iff.mp h
    obtain ⟨hf, hio⟩ := Bool.and_eq_true_iff.mp he
    obtain ⟨rfl, rfl⟩ := Bool.and_eq_true_iff.mp hio
    have hr : r ≠ .failed := Arrival.recv_fails ha (by simpa using hf)
    obtain ⟨hrecv, ht⟩ := Client.step_cases hc.wf.client hst
    refine ⟨hd, ?_, hsame, ?_⟩
    · change c.mvState ≠ .error
      cases ht with
      | nag | old | gap => simp [hrecv]
      | accept => simp [Client.accepted, hrecv]
      | finish => simp
      | fail hfail => simp [hr] at hfail
    · obtain ⟨hi, -⟩ | ⟨-, rfl⟩ := Client.step_hear hst
      · simp [hrecv] at hi
      · exact s.client.recvPackets_costs hr true true
  | loseDown i | dupDown i | loseUp i | dupUp i =>
    obtain rfl := Option.some.inj h
    exact ⟨hd, hcs, hsame, hsame⟩

/-- What the client hears in a quiet step fills its counter. -/
theorem quiet_fresh {U : ℕ} (hw : Wf U s) {e : Event} (hq : e.quiet = true)
    (h : s.next e = some t) :
    t.client.mvRetries = s.client.mvRetries ∨ t.client.mvRetries = pktTrnsMax := by
  cases e with
  | serverAct io =>
    obtain ⟨⟨v, out⟩, -, rfl⟩ := Option.map_eq_some_iff.mp h
    exact .inl rfl
  | serverHear a io =>
    obtain ⟨⟨r, l⟩, -, h⟩ := Option.bind_eq_some_iff.mp h
    obtain ⟨⟨v, out⟩, -, rfl⟩ := Option.map_eq_some_iff.mp h
    exact .inl rfl
  | clientHear a wr io =>
    obtain ⟨⟨r, l⟩, ha, h⟩ := Option.bind_eq_some_iff.mp h
    obtain ⟨⟨c, out⟩, hst, rfl⟩ := Option.map_eq_some_iff.mp h
    obtain ⟨⟨hg, rfl⟩, rfl⟩ : (a.good = true ∧ wr = true) ∧ io = true := by
      simpa [Event.quiet] using hq
    obtain ⟨d, rfl, hm⟩ := Arrival.recv_good ha hg
    have hok : d.pkt.ok = true := (hw.toClient d hm).1.1
    right
    cases (Client.step_cases hw.client hst).2 with
    | nag hb => simp [Recv.bad, hok] at hb
    | accept | old | gap | finish => rfl
    | fail hf => simp at hf
  | _ => simp [Event.quiet] at hq

/-- The child waits, and all that is in flight is the question of the client. -/
structure Asked (file : List UInt8) (B W : UInt32) (s : Session) : Prop extends
    Running file B W s where
  state : s.server.mvState = .waitRR
  toClient : s.toClient = []
  toServer : s.toServer = [⟨s.client.mvSocket, rejpkt s.client.mvSequence⟩]

/-- Where everything stands still, the client asks, or has no retry left to ask with. -/
theorem Running.asks (hz : Sized file B W) (h : Running file B W s) (hs : s.Still) {e : Event}
    (he : e.nags = true) (hn : s.next e = some t) :
    Asked file B W t ∨ s.client.mvRetries ≤ 1 ∧ t.GaveUp := by
  obtain ⟨hst, hd, hu⟩ := hs
  obtain ⟨hcs, -⟩ := h.content.receiver h.client
  unfold Event.nags at he
  split at he
  · have hstep : s.client.step (.hear .timeout s.client.sk true true) =
        some ({ s.client with mvRetries := s.client.mvRetries - 1 },
          some (rejpkt s.client.mvSequence)) := by
      simp [Client.step, h.client, Client.receives, hcs, Client.recvPackets, Client.recvPacket,
        Client.respond]
    have hnext : s.next (.clientHear .timeout true true) = some (s.afterClient s.toClient
        { s.client with mvRetries := s.client.mvRetries - 1 }
        (some (rejpkt s.client.mvSequence))) := by
      simp [next, Arrival.recv, hstep]
    obtain rfl := Option.some.inj (hnext.symm.trans hn)
    by_cases h1 : s.client.mvRetries ≤ 1
    · refine .inr ⟨h1, .inl ⟨by simp [afterClient, hcs], ?_⟩⟩
      simp only [afterClient, Client.running, hcs]
      exact decide_eq_false (by omega)
    · refine .inl ⟨⟨?_, ?_, h.server⟩, hst, hd, by simp [afterClient, hu]⟩
      · exact (h.content.step_free hz (e := .clientHear .timeout true true) ⟨trivial, rfl⟩ hnext).1
      · simp only [afterClient, Client.running, hcs]
        exact decide_eq_true (by omega)
  · simp at he

/-- **A sound step** ends the transfer, or brings the moment closer in which everything stands
still, or is the client's question in that moment. -/
theorem Running.step (hz : Sized file B W) (h : Running file B W s)
    (hm : (sound file B W).Move s t) :
    Finished file t ∨
    (Running file B W t ∧ (2 ≤ s.client.mvRetries → 2 ≤ t.client.mvRetries) ∧
      (abs t).work W.toNat (file.length / B.toNat) <
        (abs s).work W.toNat (file.length / B.toNat)) ∨
    Asked file B W t ∨ s.client.mvRetries ≤ 1 ∧ t.GaveUp := by
  obtain ⟨e, ⟨⟨hkf, hw⟩, hs⟩, hn⟩ := hm
  obtain ⟨hcs, hcr⟩ := h.content.receiver h.client
  obtain ⟨hd, hnum, hsr⟩ := h.content.child h.server
  rcases id hs with ⟨hk, hq⟩ | ⟨he, hstill⟩
  · have hct := (h.content.step_free hz ⟨hkf, hw⟩ hn).1
    obtain ⟨hsr', hcr', hst⟩ := quiet_retries h.content.wf hcs hk hq hn hsr hcr
    rcases hst with hst | hst
    · right; left
      have hg : GoBackN.Good W.toNat .perfect .perfect (abs s) (abs t) := by
        refine ((refines hz.window h.content.wf hk ?_ hn).2).resolve_right (by simp [hq])
        intro hp
        exact lt_of_le_of_lt (Nat.le_mul_of_pos_right _ hz.pos) (h.content.fits hz.offsets hp)
      refine ⟨⟨hct, ?_, ?_⟩, ?_, h.content.numbers.work_lt hg (h.content.wants hz hcs)⟩
      · simpa [Client.running, hst] using hcr'
      · obtain ⟨hd', -⟩ := h.content.calls_step hd (by simp [hcs]) hs.calls hn
        rcases hd' with hd' | hd' | hd' <;> simpa [Server.running, hd'] using hsr'
      · intro h2
        rcases quiet_fresh h.content.wf hq hn with hr | hr
        · rwa [hr]
        · rw [hr]
          decide
    · exact .inl ⟨hst, hct.copied.done hst⟩
  · exact .inr (.inr (h.asks hz hstill he hn))

/-! ## 4. The data phase puts itself right -/

theorem sound_of_calm (hm : (calm file B W).Move s t) : (sound file B W).Move s t := by
  obtain ⟨e, ⟨⟨hk, hw⟩, hq⟩, h⟩ := hm
  exact ⟨e, ⟨⟨may_free e, hw⟩, .inl ⟨hk, hq⟩⟩, h⟩

/-- Short of stillness, a sound step is one in which nothing happens to the links. -/
theorem calm_of_sound (hs : ¬ s.Still) (hm : (sound file B W).Move s t) :
    (calm file B W).Move s t := by
  obtain ⟨e, ⟨⟨-, hw⟩, ⟨hk, hq⟩ | ⟨-, hst⟩⟩, h⟩ := hm
  · exact ⟨e, ⟨⟨hk, hw⟩, hq⟩, h⟩
  · exact absurd hst hs

/-- Where everything is in line, it never stands still. -/
theorem Calm.not_still (hc : Calm file B W s) (hW : 0 < W.toNat) : ¬ s.Still := by
  rintro ⟨hst, hd, hu⟩
  have h := hc.smooth.waiting hW (by simp [abs, mode, hst])
  simp [abs, hd, hu] at h

theorem Calm.finishes (hc : Calm file B W s) (hz : Sized file B W) :
    (sound file B W).Inevitable (Finished file) s :=
  System.Inevitable.of_measure (I := Calm file B W)
    (fun s => GoBackN.left W.toNat (file.length / B.toNat) (abs s))
    (fun _ hs _ => (hs.progress hz.window).imp fun _ => sound_of_calm)
    (fun _ _ hs _ hm => hs.step hz.pos hz.fits hz.window hz.offsets
      (calm_of_sound (hs.not_still hz.window) hm)) hc

/-- **The question of the client brings the file over.** -/
theorem Asked.finishes (ha : Asked file B W s) (hz : Sized file B W) :
    (sound file B W).Inevitable (Finished file) s := by
  obtain ⟨hcs, hcr⟩ := ha.content.receiver ha.client
  obtain ⟨-, -, hsr⟩ := ha.content.child ha.server
  have hstill : ¬ s.Still := by
    rintro ⟨-, -, hu⟩
    simp [ha.toServer] at hu
  refine .later ha.progress ?_
  intro t hm
  exact (calm_of_rej ha.content hz.pos hz.fits hz.window hz.offsets hcs ha.state hsr hcr ha.toClient
    ha.toServer (calm_of_sound hstill hm)).finishes hz

/-- **Left alone, the data phase puts itself right**, as long as the client has a retry to spare. -/
theorem Running.finishes (h : Running file B W s) (hz : Sized file B W)
    (h2 : 2 ≤ s.client.mvRetries) : (sound file B W).Inevitable (Finished file) s := by
  have hasked : (sound file B W).Inevitable (fun t => Finished file t ∨ Asked file B W t) s := by
    refine .of_measure (I := fun s => Running file B W s ∧ 2 ≤ s.client.mvRetries)
      (fun s => (abs s).work W.toNat (file.length / B.toNat)) (fun _ hs _ => hs.1.progress) ?_
      ⟨h, h2⟩
    rintro s t ⟨hs, h2⟩ - hm
    obtain hf | ⟨ht, hk, hlt⟩ | ha | ⟨h1, -⟩ := hs.step hz hm
    · exact .inl (.inl hf)
    · exact .inr ⟨⟨ht, hk h2⟩, hlt⟩
    · exact .inl (.inr ha)
    · omega
  refine hasked.trans ?_
  rintro t (hf | ha)
  · exact .now hf
  · exact ha.finishes hz

/-- **Left alone, the data phase comes to an end**, whatever it has been through. -/
theorem Content.ends (hc : Content file B W s) (hz : Sized file B W) :
    (sound file B W).Inevitable (fun t => Finished file t ∨ t.GaveUp) s := by
  by_cases hcl : s.client.running = true
  · by_cases hr : s.server.running = true
    · have hasked : (sound file B W).Inevitable
          (fun t => (Finished file t ∨ t.GaveUp) ∨ Asked file B W t) s := by
        refine .of_measure (I := Running file B W)
          (fun s => (abs s).work W.toNat (file.length / B.toNat)) (fun _ hs _ => hs.progress) ?_
          ⟨hc, hcl, hr⟩
        intro s t hs _ hm
        obtain hf | ⟨ht, -, hlt⟩ | ha | ⟨-, hg⟩ := hs.step hz hm
        · exact .inl (.inl (.inl hf))
        · exact .inr ⟨ht, hlt⟩
        · exact .inl (.inr ha)
        · exact .inl (.inl (.inr hg))
      refine hasked.trans ?_
      rintro t (hg | ha)
      · exact .now hg
      · exact (ha.finishes hz).trans fun _ hf => .now (.inl hf)
    · exact .now (.inr (.inr (by simpa using hr)))
  · by_cases hd : s.client.mvState = .done
    · exact .now (.inl ⟨hd, hc.copied.done hd⟩)
    · exact .now (.inr (.inl ⟨hd, by simpa using hcl⟩))

/-! ## 5. Faults -/

/-- No call of the system has failed. -/
structure Sane (file : List UInt8) (B W : UInt32) (s : Session) : Prop where
  content : Content file B W s
  server : s.server.inData
  client : s.client.mvState ≠ .error

theorem Sane.step (hz : Sized file B W) (hs : Sane file B W s) {e : Event}
    (hm : may .free .free e ∧ e.writes) (he : e.calls = true) (h : s.next e = some t) :
    Sane file B W t := by
  obtain ⟨hd, hc, -⟩ := hs.content.calls_step hs.server hs.client he h
  exact ⟨(hs.content.step_free hz hm h).1, hd, hc⟩

/-- A fault that spares them leaves both sides at work, or the client done. -/
theorem Sane.spared (hz : Sized file B W) (hs : Sane file B W s) {e : Event}
    (hm : may .free .free e ∧ e.writes) (hsp : Spares s e) (h : s.next e = some t) :
    (sound file B W).Inevitable (Finished file) t := by
  obtain ⟨he, h3, h2⟩ := hsp
  obtain ⟨hct, hd, hc⟩ := hs.step hz hm he h
  obtain ⟨-, -, hcostS, hcostC⟩ := hs.content.calls_step hs.server hs.client he h
  have hsr : 0 < t.server.mvRetries := hcostS.le (m := 1) (by decide) h2
  have hcr : 2 ≤ t.client.mvRetries := hcostC.le (by decide) h3
  cases hst : t.client.mvState with
  | init => exact absurd hst hct.wf.client
  | error => exact absurd hst hc
  | done => exact .now ⟨hst, hct.copied.done hst⟩
  | recvPackets =>
    refine Running.finishes ⟨hct, ?_, ?_⟩ hz hcr
    · simp only [Client.running, hst]
      exact decide_eq_true (by omega)
    · rcases hd with hd | hd | hd <;> simpa [Server.running, hd] using hsr

/-- **A transfer survives any number of faults** that leave the client two retries and the child
one.  From every state of the data phase in which they have them, over links that lose, duplicate,
reorder and damage, with timeouts at any moment, every run has the client done after finitely many
steps, with the whole file written, as long as only so many of its steps are faults. -/
theorem faults_survived (file : List UInt8) (B W : UInt32) (hz : Sized file B W) (s : Session)
    (h : (transfer file B W .free .free).Reach s) (hc : s.client.running = true)
    (hr : s.server.running = true) (h2 : 2 ≤ s.client.mvRetries) (n : ℕ) :
    ((transfer file B W .free .free).rationed Sound Spares).Inevitable
      (fun x => x.1.client.mvState = .done ∧ x.1.client.mvTo = file) (s, n) := by
  have hcon := content_of_reach hz.pos hz.fits hz.window hz.offsets h
  have hsane : Sane file B W s :=
    ⟨hcon, (hcon.child hr).1, by simp [(hcon.receiver hc).1]⟩
  refine System.Inevitable.rationed (I := Sane file B W) ?_ ?_ hsane
    (Running.finishes ⟨hcon, hc, hr⟩ hz h2)
  · intro s e t hs hm he hn
    exact hs.step hz hm (he.elim Sound.calls And.left) hn
  · intro s e t hs hm hsp hn
    exact hs.spared hz hm hsp hn

/-- **Every transfer comes to an end**, with the whole file written or with a side that has given
up, if only so many of its steps are faults, whatever faults these are. -/
theorem transfer_ends (file : List UInt8) (B W : UInt32) (hz : Sized file B W) (s : Session)
    (h : (transfer file B W .free .free).Reach s) (n : ℕ) :
    ((transfer file B W .free .free).rationed Sound fun _ _ => True).Inevitable
      (fun x => x.1.client.mvState = .done ∧ x.1.client.mvTo = file ∨ x.1.GaveUp) (s, n) := by
  have hcon := content_of_reach hz.pos hz.fits hz.window hz.offsets h
  refine System.Inevitable.rationed (I := Content file B W) ?_ ?_ hcon (hcon.ends hz)
  · intro s e t hs hm _ hn
    exact (hs.step_free hz hm hn).1
  · intro s e t hs hm _ hn
    exact (hs.step_free hz hm hn).1.ends hz

end Session

end Fileserver

namespace Fileserver.Session

open Proto

local instance faultsHost : Host := refHost [1, 2, 3]

/-- The first window is lost as a whole and the child times out; a hundred more such faults do not
matter. -/
theorem faults_survived_window :
    ∃ s, (transfer [1, 2, 3] 2 2 .free .free).Reach s ∧ s.server.mvRetries = 9 ∧
      ((transfer [1, 2, 3] 2 2 .free .free).rationed Sound Spares).Inevitable
        (fun x => x.1.client.mvState = .done ∧ x.1.client.mvTo = [1, 2, 3]) (s, 100) := by
  have h0 : (transfer [1, 2, 3] 2 2 .free .free).Reach (atStart [1, 2, 3] 2 2) :=
    .start (atStart_start [1, 2, 3] 2 2)
  obtain ⟨s, h, ht⟩ := h0.run_any (List.replicate 6 (.serverAct true) ++
      [.loseDown 0, .loseDown 0, .serverHear .timeout true])
    (fun s => decide (s.server.mvRetries = 9 ∧ s.client.running = true ∧ s.server.running = true ∧
      2 ≤ s.client.mvRetries)) (by decide +kernel)
  obtain ⟨hk, hc, hr, h2⟩ := of_decide_eq_true ht
  exact ⟨s, h, hk, faults_survived [1, 2, 3] 2 2 (by constructor <;> decide) s h hc hr h2 100⟩

/-- A client on its last retry: the end comes, one way or the other. -/
theorem transfer_ends_last :
    ∃ s, (transfer [1, 2, 3] 2 2 .free .free).Reach s ∧ s.client.mvRetries = 1 ∧
      ((transfer [1, 2, 3] 2 2 .free .free).rationed Sound fun _ _ => True).Inevitable
        (fun x => x.1.client.mvState = .done ∧ x.1.client.mvTo = [1, 2, 3] ∨ x.1.GaveUp)
        (s, 3) := by
  have h0 : (transfer [1, 2, 3] 2 2 .free .free).Reach (atStart [1, 2, 3] 2 2) :=
    .start (atStart_start [1, 2, 3] 2 2)
  obtain ⟨s, h, ht⟩ := h0.run_any (List.replicate 9 (.clientHear .timeout true true))
    (fun s => decide (s.client.mvRetries = 1)) (by decide +kernel)
  exact ⟨s, h, of_decide_eq_true ht,
    transfer_ends [1, 2, 3] 2 2 (by constructor <;> decide) s h 3⟩

end Fileserver.Session
