/-
# When the transfer can still end

The links may do anything except forge datagrams, and either side may have used up its retries or
have met a failed call.  `finishes_iff` says from which of the states a transfer can get into the
client can still be brought to the end of the file: it has ended already, or it is running and

* everything it still needs is on its way (`Enough`), in which case the child may be gone, or
* the child is running, and the client survives until it hears from it: it has a retry to spare,
  or something is on its way to it, or the child has something to say (`Speaks`).

In all other states (`¬ Alive`) every run there is falls short of it.
-/
import Fileserver.Completion
import Fileserver.Recovery

namespace Fileserver

open Proto

/-! ## 1. The child by itself -/

namespace Server

/-- The child has packets to send, or room for packets to read. -/
def Vocal (v : Server) : Prop :=
  v.mvOutBuf ≠ [] ∨ v.mvWindow.length < v.mvWindowSize.toNat

variable [Host]

/-- **By itself the child keeps its place**, and sends what it has to send before it waits. -/
theorem Turn.vocal {v v' : Server} {out : Option Packet} (h : v.Turn (.act true) v' out)
    (hn : v.Numbered) (hp : v.pushes (.act true) → v.mvSequence.toNat + 1 < 2 ^ 32) :
    v'.lowest = v.lowest ∧ v'.mvRetries = v.mvRetries ∧ (v.Vocal → out ≠ none ∨ v'.Vocal) ∧
      (¬ v.Vocal → out = none ∧ ¬ v'.Vocal) := by
  cases h with
  | push hs hl =>
    have hseq : (v.mvSequence + 1).toNat = v.mvSequence.toNat + 1 := by
      rw [UInt32.toNat_add, UInt32.toNat_one]
      exact Nat.mod_eq_of_lt (hp ⟨rfl, hs, hl⟩)
    refine ⟨?_, rfl, fun _ => .inr (.inl (by simp)), fun hno => absurd (.inr hl) hno⟩
    simp only [lowest, hseq]
    rw [(hn.consec.snoc (p := v.nextPacket) rfl).lowestOf, hn.consec.lowestOf, List.length_append,
      List.length_singleton]
    omega
  | full hs hl => exact ⟨rfl, rfl, .inr, fun hno => ⟨rfl, hno⟩⟩
  | sendOne hs ho =>
    exact ⟨rfl, rfl, fun _ => .inl (by simp), fun hno => absurd (.inl (by simp [ho])) hno⟩
  | sent hs ho => exact ⟨rfl, rfl, .inr, fun hno => ⟨rfl, hno⟩⟩
  | fail hq he => simp [Event.fails] at he

/-- Only a failed call ends the data phase. -/
theorem Turn.goesOn {v v' : Server} {e : Event} {out : Option Packet} (h : v.Turn e v' out)
    (he : e.fails = false) : v'.inData := by
  cases h with
  | push hs | again hs | shiftTo hs | resend hs | rewind hs => exact .inl (by simp [hs])
  | full hs | sendOne hs => exact .inr (.inl (by simp [hs]))
  | sent hs | oldRR hs | ignore hs => exact .inr (.inr (by simp [hs]))
  | fail hq hf => simp [he] at hf

/-- A reply that makes the child send. -/
def Moves (v : Server) (p : Packet) : Prop :=
  p.type = pktTypeREJ ∨ p.type = pktTypeRR ∧ v.lowest ≤ p.sequence.toNat

/-- **What makes a waiting child speak**: every `REJ`, and an `RR` for a packet of the window or
behind it. -/
theorem Turn.answers {v v' : Server} {src : Addr} {p : Packet} {out : Option Packet}
    (h : v.Turn (.hear (.datagram src p) true) v' out) (hn : v.Numbered)
    (hW : 0 < v.mvWindowSize.toNat) (hs : v.mvState = .waitRR) (hok : p.ok = true)
    (hp : v.Moves p) : v'.Vocal := by
  obtain ⟨hf, hlw⟩ := hn.front_eq hW hs
  have hfull := hn.full (by simp [hs])
  cases h with
  | again _ hb => simp [Recv.bad, hok] at hb
  | shiftTo _ _ ht hle =>
    right
    have hmax := v.mvSequence.toNat_lt
    rw [UInt32.le_iff_toNat_le] at hle
    have hlen := length_shift p.sequence v.front.sequence v.mvWindow (by omega)
    dsimp only
    omega
  | oldRR _ _ ht hlt =>
    rw [UInt32.lt_iff_toNat_lt] at hlt
    rcases hp with hp | ⟨-, hp⟩
    · rw [ht] at hp
      exact absurd hp (by decide)
    · omega
  | resend =>
    left
    intro hnil
    dsimp only at hnil
    rw [hnil, List.length_nil] at hfull
    omega
  | rewind => exact .inr hW
  | ignore _ _ hr hj => exact absurd hp (by simp [Moves, hr, hj])
  | fail _ he => simp [Event.fails] at he

end Server

namespace Session

/-! ## 2. Which states are meant -/

/-- The sizes are in range, and the offsets of the packets fit 32 bits. -/
structure Sized (file : List UInt8) (B W : UInt32) : Prop where
  pos : 0 < B.toNat
  fits : B.toNat ≤ pktDMax
  window : 0 < W.toNat
  offsets : file.length + (W.toNat + 1) * B.toNat < 2 ^ 32

/-- The child has something to say, now or when it hears a reply that is on its way. -/
def Speaks (s : Session) : Prop :=
  s.server.Vocal ∨ ∃ d ∈ s.toServer, s.server.Moves d.pkt

/-- Every packet the client still needs is on its way to it. -/
def Enough (file : List UInt8) (B : UInt32) (s : Session) : Prop :=
  ∀ k, s.client.mvSequence.toNat ≤ k → k ≤ file.length / B.toNat → ∃ d ∈ s.toClient, num d = k

/-- **The transfer can still end.** -/
def Alive (file : List UInt8) (B : UInt32) (s : Session) : Prop :=
  s.client.mvState = .done ∨ s.client.running = true ∧
    (Enough file B s ∨ s.server.running = true ∧
      (2 ≤ s.client.mvRetries ∨ s.toClient ≠ [] ∨ s.Speaks))

variable [Host] {file : List UInt8} {B W : UInt32} {s t : Session}

theorem Content.step_free (hz : Sized file B W) (hc : Content file B W s) {e : Event}
    (hm : may .free .free e ∧ e.writes) (h : s.next e = some t) :
    Content file B W t ∧ (transfer file B W .free .free).Move s t :=
  ⟨hc.step hz.pos hz.fits hz.window hz.offsets hm.1 hm.2 h, e, hm, h⟩

theorem Content.moves (hz : Sized file B W) (hc : Content file B W s)
    (hr : Relation.ReflTransGen (transfer file B W .free .free).Move s t) :
    Content file B W t := by
  induction hr with
  | refl => exact hc
  | tail _ hm ih =>
    obtain ⟨e, hm, h⟩ := hm
    exact (ih.step_free hz hm h).1

/-- The counter of the child does not wrap. -/
theorem Content.unwrapped (hz : Sized file B W) (hc : Content file B W s)
    (hp : s.server.pushes (.act true)) : s.server.mvSequence.toNat + 1 < 2 ^ 32 :=
  lt_of_le_of_lt (Nat.le_mul_of_pos_right _ hz.pos)
    (hc.fits hz.offsets (e := .serverAct true) hp)

/-- A running child is in the data phase, its numbers in order and a retry left. -/
theorem Content.child (hc : Content file B W s) (hr : s.server.running = true) :
    s.server.inData ∧ s.server.Numbered ∧ 0 < s.server.mvRetries := by
  rcases hc.wf.phase with he | ⟨hd, hn⟩
  · simp [Server.running, he] at hr
  · refine ⟨hd, hn, ?_⟩
    rcases hd with hd | hd | hd <;> simpa [Server.running, hd] using hr

/-- So does a running client. -/
theorem Content.receiver (hc : Content file B W s) (hr : s.client.running = true) :
    s.client.mvState = .recvPackets ∧ 0 < s.client.mvRetries := by
  cases hs : s.client.mvState with
  | init => exact absurd hs hc.wf.client
  | error | done => simp [Client.running, hs] at hr
  | recvPackets => exact ⟨rfl, by simpa [Client.running, hs] using hr⟩

/-- The number the client wants is not behind the last one. -/
theorem Content.wants (hz : Sized file B W) (hc : Content file B W s)
    (hs : s.client.mvState = .recvPackets) :
    s.client.mvSequence.toNat ≤ file.length / B.toNat := hc.cursor_le hz.pos hs

/-! ## 3. The child is heard -/

/-- A stretch of a run that ends in a state with `P`. -/
def Leads (file : List UInt8) (B W : UInt32) (s : Session) (P : Session → Prop) : Prop :=
  ∃ t, Relation.ReflTransGen (transfer file B W .free .free).Move s t ∧ P t

theorem Leads.step {P : Session → Prop} (hm : (transfer file B W .free .free).Move s t)
    (h : Leads file B W t P) : Leads file B W s P := by
  obtain ⟨u, hr, hu⟩ := h
  exact ⟨u, hr.head hm, hu⟩

theorem Leads.trans {P Q : Session → Prop} (h : Leads file B W s P)
    (hq : ∀ t, P t → Leads file B W t Q) : Leads file B W s Q := by
  obtain ⟨t, hr, ht⟩ := h
  obtain ⟨u, hr', hu⟩ := hq t ht
  exact ⟨u, hr.trans hr', hu⟩

/-- Both sides are running and the child waits. -/
structure Waiting (file : List UInt8) (B W : UInt32) (s : Session) : Prop where
  content : Content file B W s
  client : s.client.running = true
  server : s.server.running = true
  state : s.server.mvState = .waitRR

/-- **Left to itself, the child comes to wait**, with its place kept and everything sent. -/
theorem settle (hz : Sized file B W) (hc : Content file B W s) (hcl : s.client.running = true)
    (hr : s.server.running = true) :
    Leads file B W s fun t => Waiting file B W t ∧ t.client = s.client ∧
      t.toServer = s.toServer ∧ t.server.lowest = s.server.lowest ∧
      (s.toClient ≠ [] ∨ s.server.Vocal → t.toClient ≠ []) := by
  induction hk : s.server.work using Nat.strong_induction_on generalizing s with
  | _ n ih =>
    subst hk
    obtain ⟨hd, hn, hpos⟩ := hc.child hr
    by_cases hw : s.server.mvState = .waitRR
    · refine ⟨s, .refl, ⟨hc, hcl, hr, hw⟩, rfl, rfl, rfl, fun h => h.resolve_right ?_⟩
      rintro (ho | hl)
      · exact ho (hn.sent hw)
      · exact absurd (hn.full (by simp [hw])) hl.ne
    · have hrec : s.server.receives = false := by
        rcases hd with hd | hd | hd <;> simp [Server.receives, hd]
        exact absurd hd hw
      obtain ⟨v, out, hst⟩ : ∃ v out, s.server.step (.act true) = some (v, out) :=
        ⟨_, _, by simp only [Server.step, hr, hrec]; rfl⟩
      have ht := Server.step_cases hd hst
      obtain ⟨hlow, hret, hvoc, hmute⟩ := ht.vocal hn (hc.unwrapped hz)
      obtain ⟨hlt, hd'⟩ := ht.work_lt
      have hrun : v.running = true := by
        rcases hd' with h | h | h <;> simpa [Server.running, h, hret] using hpos
      have hnext : s.next (.serverAct true) = some (s.afterServer s.toServer v out) := by
        simp [next, hst]
      obtain ⟨hct, hm⟩ := hc.step_free hz (e := .serverAct true) ⟨trivial, trivial⟩ hnext
      refine .step hm ((ih _ hlt hct hcl hrun rfl).trans ?_)
      rintro u ⟨hwait, hcu, hsu, hlu, hne⟩
      refine ⟨u, .refl, hwait, hcu, hsu, hlu.trans hlow, fun h => hne ?_⟩
      rcases h with h | h
      · exact .inl (by simp [afterServer, h])
      · rcases hvoc h with h | h
        · obtain ⟨p, rfl⟩ := Option.ne_none_iff_exists'.mp h
          exact .inl (by simp [afterServer])
        · exact .inr h

/-- The client takes datagram `i` of those on their way to it. -/
theorem Content.takes (hz : Sized file B W) (hc : Content file B W s)
    (hcl : s.client.running = true) {i : ℕ} {d : Datagram} (hi : s.toClient[i]? = some d) :
    ∃ c out, s.client.Turn (.datagram d.src d.pkt) true true c out ∧
      Content file B W (s.afterClient (s.toClient.eraseIdx i) c out) ∧
      (transfer file B W .free .free).Move s (s.afterClient (s.toClient.eraseIdx i) c out) := by
  obtain ⟨hs, -⟩ := hc.receiver hcl
  have hst : s.client.step (.hear (.datagram d.src d.pkt) s.client.sk true true)
      = some (s.client.recvPackets (.datagram d.src d.pkt) true true) := by
    simp [Client.step, hcl, Client.receives, hs]
  have hnext : s.next (.clientHear (.take i) true true) = some (s.afterClient
      (s.toClient.eraseIdx i) (s.client.recvPackets (.datagram d.src d.pkt) true true).1
      (s.client.recvPackets (.datagram d.src d.pkt) true true).2) := by
    simp [next, Arrival.recv, hi, hst]
  exact ⟨_, _, Client.recvPackets_cases s.client (.datagram d.src d.pkt) true true,
    hc.step_free hz (e := .clientHear (.take i) true true) ⟨.inl rfl, rfl⟩ hnext⟩

/-- A client with something on its way to it gets fresh retries, or is done. -/
theorem hears (hz : Sized file B W) (hc : Content file B W s) (hcl : s.client.running = true)
    (hd : s.toClient ≠ []) :
    ∃ t, (transfer file B W .free .free).Move s t ∧ Content file B W t ∧ t.server = s.server ∧
      (t.client.mvState = .done ∨ t.client.running = true ∧ 2 ≤ t.client.mvRetries) := by
  obtain ⟨d, l, hl⟩ := List.exists_cons_of_ne_nil hd
  obtain ⟨hs, -⟩ := hc.receiver hcl
  have hok : d.pkt.ok = true := (hc.wf.toClient d (by simp [hl])).1.1
  obtain ⟨c, out, ht, hct, hm⟩ := hc.takes hz hcl (i := 0) (d := d) (by simp [hl])
  refine ⟨_, hm, hct, rfl, ?_⟩
  have hten : (2 : Int) ≤ pktTrnsMax := by decide
  change c.mvState = .done ∨ c.running = true ∧ 2 ≤ c.mvRetries
  cases ht with
  | nag hb => simp [Recv.bad, hok] at hb
  | accept | old | gap =>
    refine .inr ⟨?_, hten⟩
    simp [Client.running, Client.accepted, hs, pktTrnsMax]
  | finish => exact .inl rfl
  | fail hf => simp at hf

/-- The client is done, or both sides are running, the child waits, and the client has a retry to
spare. -/
def Spared (file : List UInt8) (B W : UInt32) (s : Session) : Prop :=
  Content file B W s ∧ s.client.mvState = .done ∨ Waiting file B W s ∧ 2 ≤ s.client.mvRetries

theorem spared_of_retries (hz : Sized file B W) (hc : Content file B W s)
    (hcl : s.client.running = true) (hr : s.server.running = true)
    (h2 : 2 ≤ s.client.mvRetries) : Leads file B W s (Spared file B W) := by
  obtain ⟨t, hst, hw, hct, -⟩ := settle hz hc hcl hr
  exact ⟨t, hst, .inr ⟨hw, hct ▸ h2⟩⟩

theorem spared_of_toClient (hz : Sized file B W) (hc : Content file B W s)
    (hcl : s.client.running = true) (hr : s.server.running = true) (hd : s.toClient ≠ []) :
    Leads file B W s (Spared file B W) := by
  obtain ⟨t, hm, hct, hv, hdone | ⟨hrun, h2⟩⟩ := hears hz hc hcl hd
  · exact .step hm ⟨t, .refl, .inl ⟨hct, hdone⟩⟩
  · exact .step hm (spared_of_retries hz hct hrun (hv ▸ hr) h2)

/-- A waiting child that hears a reply which makes it speak. -/
theorem Waiting.answered (hz : Sized file B W) (hw : Waiting file B W s) {d : Datagram}
    (hd : d ∈ s.toServer) (hm : s.server.Moves d.pkt) :
    ∃ t, (transfer file B W .free .free).Move s t ∧ Content file B W t ∧ t.client = s.client ∧
      t.server.running = true ∧ t.server.Vocal := by
  obtain ⟨i, hi⟩ := List.mem_iff_getElem?.mp hd
  have hc := hw.content
  have hok : d.pkt.ok = true := (hc.wf.toServer d hd).1
  obtain ⟨-, hn, hpos⟩ := hc.child hw.server
  have hst : s.server.step (.hear (.datagram d.src d.pkt) true)
      = some (s.server.waitRR (.datagram d.src d.pkt) true, none) := by
    simp [Server.step, hw.server, Server.receives, Server.hear, hw.state]
  have ht := Server.waitRR_cases hw.state (.datagram d.src d.pkt) true
  have hbad : ∀ r io, Server.Event.hear (.datagram d.src d.pkt) true = .hear r io →
      r.bad = false := by
    rintro r io he
    obtain ⟨rfl, -⟩ := Server.Event.hear.inj he
    simp [Recv.bad, hok]
  have hret := ht.retries rfl hbad hpos
  have hdata := ht.goesOn rfl
  have hnext : s.next (.serverHear (.take i) true) = some
      (s.afterServer (s.toServer.eraseIdx i)
        (s.server.waitRR (.datagram d.src d.pkt) true) none) := by
    simp [next, Arrival.recv, hi, hst]
  obtain ⟨hct, hmove⟩ := hc.step_free hz (e := .serverHear (.take i) true)
    ⟨.inl rfl, trivial⟩ hnext
  refine ⟨_, hmove, hct, rfl, ?_, ?_⟩
  · change (s.server.waitRR (.datagram d.src d.pkt) true).running = true
    rcases hdata with h | h | h <;> simpa [Server.running, h] using hret
  · exact ht.answers hn (by rw [hc.wf.windowSize]; exact hz.window) hw.state hok hm

/-- **A client on its last retry is saved by whatever comes.** -/
theorem spared (hz : Sized file B W) (hc : Content file B W s) (hcl : s.client.running = true)
    (hr : s.server.running = true)
    (h : 2 ≤ s.client.mvRetries ∨ s.toClient ≠ [] ∨ s.Speaks) :
    Leads file B W s (Spared file B W) := by
  rcases h with h | h | h
  · exact spared_of_retries hz hc hcl hr h
  · exact spared_of_toClient hz hc hcl hr h
  obtain ⟨t, hst, hw, -, hup, hlow, hne⟩ := settle hz hc hcl hr
  refine Leads.trans ⟨t, hst, rfl⟩ ?_
  rintro _ rfl
  by_cases hd : t.toClient = []
  · obtain hv | ⟨d, hd', hm⟩ := h
    · exact absurd hd (hne (.inr hv))
    · obtain ⟨u, hmove, hcu, hclu, hru, hvoc⟩ := hw.answered hz (hup ▸ hd')
        (by simpa only [Server.Moves, hlow] using hm)
      have hclu' : u.client.running = true := by rw [hclu]; exact hw.client
      obtain ⟨x, hux, hwx, -, -, -, hnx⟩ := settle hz hcu hclu' hru
      exact .step hmove (Leads.trans ⟨x, hux, rfl⟩ fun _ hx => hx ▸
        spared_of_toClient hz hwx.content hwx.client hwx.server (hnx (.inr hvoc)))
  · exact spared_of_toClient hz hw.content hw.client hw.server hd

/-! ## 4. Everything in flight is lost, and the client asks again -/

theorem drain (file : List UInt8) (B W : UInt32) (s : Session) :
    Leads file B W s (· = { s with toClient := [], toServer := [] }) := by
  obtain ⟨v, c, dn, up⟩ := s
  induction dn with
  | nil =>
    induction up with
    | nil => exact ⟨_, .refl, rfl⟩
    | cons d up ih => exact .step ⟨.loseUp 0, ⟨rfl, trivial⟩, rfl⟩ ih
  | cons d dn ih => exact .step ⟨.loseDown 0, ⟨rfl, trivial⟩, rfl⟩ ih

omit [Host] in
/-- Links that do anything let every event happen. -/
theorem may_free (e : Event) : may .free .free e := by
  cases e with
  | serverAct => trivial
  | serverHear a | clientHear a => exact a.allowed_free
  | loseDown | dupDown | loseUp | dupUp => rfl

theorem calm_free (hm : (calm file B W).Move s t) :
    (transfer file B W .free .free).Move s t := by
  obtain ⟨e, ⟨⟨-, hw⟩, -⟩, h⟩ := hm
  exact ⟨e, ⟨may_free e, hw⟩, h⟩

/-- The client is done and has the whole file. -/
def Finished (file : List UInt8) (s : Session) : Prop :=
  s.client.mvState = .done ∧ s.client.mvTo = file

/-- With nothing in flight, a timeout of the client brings the file over. -/
theorem Waiting.finishes (hz : Sized file B W) (hw : Waiting file B W s)
    (h2 : 2 ≤ s.client.mvRetries) (hd : s.toClient = []) (hu : s.toServer = []) :
    Leads file B W s (Finished file) := by
  obtain ⟨hs, hpos⟩ := hw.content.receiver hw.client
  obtain ⟨-, -, hret⟩ := hw.content.child hw.server
  have hst : s.client.step (.hear .timeout s.client.sk true true) =
      some ({ s.client with mvRetries := s.client.mvRetries - 1 },
        some (rejpkt s.client.mvSequence)) := by
    simp [Client.step, hw.client, Client.receives, hs, Client.recvPackets, Client.recvPacket,
      Client.respond]
  have hnext : s.next (.clientHear .timeout true true) = some (s.afterClient s.toClient
      { s.client with mvRetries := s.client.mvRetries - 1 }
      (some (rejpkt s.client.mvSequence))) := by
    simp [next, Arrival.recv, hst]
  obtain ⟨hct, hm⟩ := hw.content.step_free hz (e := .clientHear .timeout true true)
    ⟨trivial, rfl⟩ hnext
  refine .step hm ?_
  have hinev : (calm file B W).Inevitable (Finished file) (s.afterClient s.toClient
      { s.client with mvRetries := s.client.mvRetries - 1 }
      (some (rejpkt s.client.mvSequence))) := by
    refine .later ?_ fun u hmu => ?_
    · refine System.exists_move (.serverHear (.take 0) true) ⟨⟨.inr rfl, trivial⟩, rfl⟩ ?_
      simp [calm, System.under, transfer, next, afterClient, hu, Arrival.recv, Server.step,
        hw.server, Server.receives, hw.state]
    · refine Calm.inevitable ?_ hz.pos hz.fits hz.window hz.offsets
      refine calm_of_rej hct hz.pos hz.fits hz.window hz.offsets hs hw.state hret ?_ hd ?_ hmu
      · change 0 < s.client.mvRetries - 1
        omega
      · simp [afterClient, hu]
  obtain ⟨t, hr, ht⟩ := hinev.leads
  exact ⟨t, hr.lift id fun _ _ => calm_free, ht⟩

/-- **A running child brings the file over.** -/
theorem finishes_of_child (hz : Sized file B W) (hc : Content file B W s)
    (hcl : s.client.running = true) (hr : s.server.running = true)
    (h : 2 ≤ s.client.mvRetries ∨ s.toClient ≠ [] ∨ s.Speaks) :
    Leads file B W s (Finished file) := by
  refine (spared hz hc hcl hr h).trans ?_
  rintro t (⟨hct, hdone⟩ | ⟨hw, h2⟩)
  · exact ⟨t, .refl, hdone, hct.copied.done hdone⟩
  obtain ⟨u, hru, rfl⟩ := drain file B W t
  refine Leads.trans ⟨_, hru, rfl⟩ ?_
  rintro _ rfl
  have hwd : Waiting file B W { t with toClient := [], toServer := [] } :=
    ⟨hw.content.moves hz hru, hw.client, hw.server, hw.state⟩
  exact hwd.finishes hz h2 rfl rfl

/-! ## 5. Without the child -/

/-- **A client that has everything on its way** takes it in order. -/
theorem finishes_of_enough (hz : Sized file B W) (hc : Content file B W s)
    (hcl : s.client.running = true) (he : Enough file B s) :
    Leads file B W s (Finished file) := by
  induction hk : file.length / B.toNat - s.client.mvSequence.toNat using
    Nat.strong_induction_on generalizing s with
  | _ n ih =>
    subst hk
    obtain ⟨hs, -⟩ := hc.receiver hcl
    have hle := hc.wants hz hs
    obtain ⟨d, hd, hnum⟩ := he _ le_rfl hle
    obtain ⟨i, hi⟩ := List.mem_iff_getElem?.mp hd
    obtain ⟨⟨hok, -⟩, hmax⟩ := hc.wf.toClient d hd
    have hq : d.pkt.sequence = s.client.mvSequence := UInt32.toNat_inj.mp hnum
    obtain ⟨c, out, ht, hct, hm⟩ := hc.takes hz hcl hi
    refine .step hm ?_
    cases ht with
    | nag hb => simp [Recv.bad, hok] at hb
    | fail hf => simp at hf
    | old _ hlt | gap _ hlt => simp [hq] at hlt
    | finish => exact ⟨_, .refl, rfl, hct.copied.done rfl⟩
    | accept =>
      have hseq : (s.client.accepted d.src d.pkt).mvSequence.toNat =
          s.client.mvSequence.toNat + 1 := by
        rw [hnum] at hmax
        rw [Client.accepted, UInt32.toNat_add, UInt32.toNat_one]
        exact Nat.mod_eq_of_lt (by omega)
      have hrun : (s.client.accepted d.src d.pkt).running = true := by
        simp [Client.running, Client.accepted, hs, pktTrnsMax]
      have hle' : (s.client.accepted d.src d.pkt).mvSequence.toNat ≤ file.length / B.toNat :=
        hct.wants hz hs
      refine ih _ ?_ hct hrun ?_ rfl
      · change file.length / B.toNat - (s.client.accepted d.src d.pkt).mvSequence.toNat < _
        omega
      · -- what has a higher number is still there
        intro k hk hkL
        change (s.client.accepted d.src d.pkt).mvSequence.toNat ≤ k at hk
        obtain ⟨d', hd', hnum'⟩ := he k (by omega) hkL
        refine ⟨d', ?_, hnum'⟩
        obtain ⟨j, hj⟩ := List.mem_iff_getElem?.mp hd'
        refine List.mem_eraseIdx_iff_getElem?.mpr ⟨j, ?_, hj⟩
        rintro rfl
        obtain rfl := Option.some.inj (hi.symm.trans hj)
        omega

/-! ## 6. The states that are left -/

/-- The states from which the end is out of reach: the client has stopped; or the child has, and a
packet is missing; or the client is on its last retry and will hear nothing. -/
inductive Doomed (file : List UInt8) (B : UInt32) (s : Session) : Prop
  | ended (hn : s.client.mvState ≠ .done) (hr : s.client.running = false)
  | apart {k : ℕ} (hs : s.client.mvState = .recvPackets) (hr : s.server.running = false)
      (hk : s.client.mvSequence.toNat ≤ k) (hL : k ≤ file.length / B.toNat)
      (hm : ∀ d ∈ s.toClient, num d ≠ k)
  | mute (hs : s.client.mvState = .recvPackets) (hr : s.client.mvRetries ≤ 1)
      (hd : s.toClient = []) (hq : ¬ s.Speaks)

theorem doomed_of_not_alive (hc : Content file B W s) (h : ¬ Alive file B s) :
    Doomed file B s := by
  simp only [Alive, not_or, not_and] at h
  obtain ⟨hn, h⟩ := h
  by_cases hcl : s.client.running = true
  · obtain ⟨he, h⟩ := h hcl
    obtain ⟨hs, -⟩ := hc.receiver hcl
    by_cases hr : s.server.running = true
    · obtain ⟨h2, hd, hq⟩ := h hr
      exact .mute hs (by omega) (not_not.mp hd) hq
    · simp only [Enough, not_forall, not_exists, not_and] at he
      obtain ⟨k, hk, hL, hm⟩ := he
      exact .apart hs (by simpa using hr) hk hL hm
  · exact .ended hn (by simpa using hcl)

/-- Where the child has stopped, no turn of the client makes up for the missing packet. -/
theorem apart_client (hz : Sized file B W) (hc : Content file B W s) {k : ℕ} {r : Recv}
    {a : Arrival} {l : List Datagram} {io : Bool} {c : Client} {out : Option Packet}
    (hs : s.client.mvState = .recvPackets) (hr : s.server.running = false)
    (hk : s.client.mvSequence.toNat ≤ k) (hL : k ≤ file.length / B.toNat)
    (hm : ∀ d ∈ s.toClient, num d ≠ k) (hal : a.allowed .free)
    (ha : a.recv s.toClient = some (r, l)) (ht : s.client.Turn r true io c out) :
    Doomed file B (s.afterClient l c out) := by
  have hsub : ∀ d ∈ l, num d ≠ k := fun d hd => hm d ((Arrival.recv_shed hal ha).sub hd)
  -- a packet that is taken has another number
  have hnext {src : Addr} {p : Packet} (he : r = .datagram src p) (hok : p.ok = true)
      (hq : p.sequence = s.client.mvSequence) :
      Server.Carries file B.toNat p ∧ s.client.mvSequence.toNat + 1 ≤ k ∧
        s.client.mvSequence.toNat + 1 < 2 ^ 32 := by
    subst he
    have hd := (Arrival.recv_ok hal ha hok).mem
    have hne := hm _ hd
    have hmax := (hc.wf.toClient _ hd).2
    simp only [num, hq] at hne hmax
    exact ⟨hc.carries _ hd, by omega, hmax⟩
  cases ht with
  | nag | old | gap => exact .apart hs hr hk hL hsub
  | @accept src p hok hq =>
    obtain ⟨-, hlt, hmax⟩ := hnext rfl hok hq
    refine .apart (k := k) hs hr ?_ hL hsub
    change (s.client.mvSequence + 1).toNat ≤ k
    rw [UInt32.toNat_add, UInt32.toNat_one, Nat.mod_eq_of_lt hmax]
    exact hlt
  | @finish src p _ hok hq hsh =>
    obtain ⟨hp, hlt, -⟩ := hnext rfl hok hq
    rw [Client.short_iff hc.copied hp hz.fits (by rw [hq]; exact hc.copied.within hs), hq] at hsh
    have hle := (Nat.le_div_iff_mul_le hz.pos).mp hL
    have := Nat.mul_le_mul_right B.toNat hlt
    omega
  | unsent | fail => exact .ended (by simp [afterClient]) rfl

/-- Where nothing comes, a turn of the client ends it. -/
theorem mute_client {r : Recv} {a : Arrival} {l : List Datagram} {sock : Addr} {wr io : Bool}
    {c : Client} {out : Option Packet} (hs : s.client.mvState = .recvPackets)
    (hr : s.client.mvRetries ≤ 1) (hd : s.toClient = []) (hal : a.allowed .free)
    (ha : a.recv s.toClient = some (r, l))
    (hst : s.client.step (.hear r sock wr io) = some (c, out)) :
    Doomed file B (s.afterClient l c out) := by
  obtain ⟨-, he⟩ := (Client.step_hear hst).resolve_left (by simp [hs])
  have hended (h : c.mvState = .error ∨ c.mvState = .recvPackets ∧ c.mvRetries ≤ 0) :
      Doomed file B (s.afterClient l c out) := by
    rcases h with h | ⟨h, h0⟩
    · exact .ended (by simp [afterClient, h]) (by simp [afterClient, Client.running, h])
    · refine .ended (by simp [afterClient, h]) ?_
      simp only [afterClient, Client.running, h]
      exact decide_eq_false (by omega)
  rcases Arrival.recv_cases hal ha with ⟨-, rfl, -⟩ | ⟨-, rfl, -⟩ | ⟨d, -, ht⟩ | ⟨d, q, -, -, -, ht⟩
  · subst he
    cases io with
    | false => exact hended (.inl rfl)
    | true =>
      refine hended (.inr ⟨hs, ?_⟩)
      change s.client.mvRetries - 1 ≤ 0
      omega
  · exact hended (.inl (he ▸ rfl))
  all_goals
    have := ht.mem
    simp [hd] at this

/-- Where the child has nothing to say, its turns change nothing. -/
theorem mute_child (hz : Sized file B W) (hc : Content file B W s) {e : Server.Event}
    {l : List Datagram} {v : Server} {out : Option Packet}
    (hs : s.client.mvState = .recvPackets) (hr : s.client.mvRetries ≤ 1) (hd : s.toClient = [])
    (hq : ¬ s.Speaks) (hrun : s.server.running = true) (ht : s.server.Turn e v out)
    (hl : ∀ d ∈ l, d ∈ s.toServer)
    (hh : ∀ src p io, e = .hear (.datagram src p) io → p.ok = true → ⟨src, p⟩ ∈ s.toServer) :
    Doomed file B (s.afterServer l v out) := by
  obtain ⟨-, hn, -⟩ := hc.child hrun
  simp only [Speaks, not_or, not_exists, not_and] at hq
  obtain ⟨hvoc, hmoves⟩ := hq
  have hstays (hv : ¬ v.Vocal) (hlow : v.lowest = s.server.lowest) :
      Doomed file B (s.afterServer l v none) := by
    refine .mute hs hr (by simp [afterServer, hd]) ?_
    rintro (h | ⟨d, hd', hm⟩)
    · exact hv h
    · exact hmoves d (hl d hd') (by simpa only [afterServer, Server.Moves, hlow] using hm)
  have hfront (hw : s.server.mvState = .waitRR) :=
    (hn.front_eq (by rw [hc.wf.windowSize]; exact hz.window) hw).1
  cases ht with
  | push _ hlt => exact absurd (.inr hlt) hvoc
  | sendOne _ ho => exact absurd (.inl (by simp [ho])) hvoc
  | full | sent | again | oldRR => exact hstays hvoc rfl
  | @shiftTo src p io hw hok hty hle =>
    rw [UInt32.le_iff_toNat_le, hfront hw] at hle
    exact absurd (.inr ⟨hty, hle⟩) (hmoves _ (hh _ _ _ rfl hok))
  | @resend src p io hw hok hty => exact absurd (.inl hty) (hmoves _ (hh _ _ _ rfl hok))
  | @rewind src p hw hok hty => exact absurd (.inl hty) (hmoves _ (hh _ _ _ rfl hok))
  | @ignore src p io hw hok hr hj =>
    rcases (hc.wf.toServer _ (hh _ _ _ rfl hok)).2 with h | h
    · exact absurd h hr
    · exact absurd h hj
  | fail =>
    exact .apart (k := s.client.mvSequence.toNat) hs rfl le_rfl (hc.wants hz hs)
      (by simp [afterServer, hd])

/-- **There is no way back from them.** -/
theorem Doomed.step (hz : Sized file B W) (hc : Content file B W s) (h : Doomed file B s)
    (hm : (transfer file B W .free .free).Move s t) : Doomed file B t := by
  obtain ⟨e, ⟨hk, hw⟩, hn⟩ := hm
  cases e with
  | serverAct io =>
    obtain ⟨⟨v, out⟩, hst, rfl⟩ := Option.map_eq_some_iff.mp hn
    have hrun : s.server.running = true := by
      simp only [Server.step, Option.ite_none_right_eq_some, Bool.and_eq_true] at hst
      exact hst.1.1
    cases h with
    | ended hne hr => exact .ended hne hr
    | apart _ hr => simp [hrun] at hr
    | mute hs hr hd hq =>
      exact mute_child hz hc hs hr hd hq hrun (Server.step_cases (hc.child hrun).1 hst)
        (fun _ h => h) (by simp)
  | serverHear a io =>
    obtain ⟨⟨r, l⟩, ha, hn⟩ := Option.bind_eq_some_iff.mp hn
    obtain ⟨⟨v, out⟩, hst, rfl⟩ := Option.map_eq_some_iff.mp hn
    have hrun : s.server.running = true := by
      simp only [Server.step, Option.ite_none_right_eq_some, Bool.and_eq_true] at hst
      exact hst.1.1
    cases h with
    | ended hne hr => exact .ended hne hr
    | apart _ hr => simp [hrun] at hr
    | mute hs hr hd hq =>
      refine mute_child hz hc hs hr hd hq hrun (Server.step_cases (hc.child hrun).1 hst)
        (fun _ h => (Arrival.recv_shed hk ha).sub h) ?_
      rintro src p io he hok
      obtain ⟨rfl, -⟩ := Server.Event.hear.inj he
      exact (Arrival.recv_ok hk ha hok).mem
  | clientHear a wr io =>
    obtain ⟨⟨r, l⟩, ha, hn⟩ := Option.bind_eq_some_iff.mp hn
    obtain ⟨⟨c, out⟩, hst, rfl⟩ := Option.map_eq_some_iff.mp hn
    obtain rfl : wr = true := hw
    cases h with
    | ended _ hr => simp [Client.step, hr] at hst
    | apart hs hr hk' hL hm =>
      exact apart_client hz hc hs hr hk' hL hm hk ha (Client.step_cases hc.wf.client hst).2
    | mute hs hr hd => exact mute_client hs hr hd hk ha hst
  | loseDown i =>
    obtain rfl := Option.some.inj hn
    cases h with
    | ended hne hr => exact .ended hne hr
    | apart hs hr hk' hL hm =>
      exact .apart hs hr hk' hL fun d hd => hm d (List.mem_of_mem_eraseIdx hd)
    | mute hs hr hd hq => exact .mute hs hr (by simp [hd]) hq
  | dupDown i =>
    obtain rfl := Option.some.inj hn
    cases h with
    | ended hne hr => exact .ended hne hr
    | apart hs hr hk' hL hm => exact .apart hs hr hk' hL fun d hd => hm d (Link.mem_of_mem_dup hd)
    | mute hs hr hd hq => exact .mute hs hr (by simp [hd, Link.dup]) hq
  | loseUp i =>
    obtain rfl := Option.some.inj hn
    cases h with
    | ended hne hr => exact .ended hne hr
    | apart hs hr hk' hL hm => exact .apart hs hr hk' hL hm
    | mute hs hr hd hq =>
      refine .mute hs hr hd fun h => hq (h.imp_right ?_)
      rintro ⟨d, hd, hm⟩
      exact ⟨d, List.mem_of_mem_eraseIdx hd, hm⟩
  | dupUp i =>
    obtain rfl := Option.some.inj hn
    cases h with
    | ended hne hr => exact .ended hne hr
    | apart hs hr hk' hL hm => exact .apart hs hr hk' hL hm
    | mute hs hr hd hq =>
      refine .mute hs hr hd fun h => hq (h.imp_right ?_)
      rintro ⟨d, hd, hm⟩
      exact ⟨d, Link.mem_of_mem_dup hd, hm⟩

omit [Host] in
theorem Doomed.not_done (h : Doomed file B s) : s.client.mvState ≠ .done := by
  cases h with
  | ended hn => exact hn
  | apart hs | mute hs => simp [hs]

/-- **Which transfers can still end.**  From a reachable state of the data phase some continuation
has the client done, with the whole file written, if and only if it is done already, or is running
and everything it needs is on its way, or both are running and the client has a retry to spare, or
something on its way to it, or a child that speaks. -/
theorem finishes_iff (file : List UInt8) (B W : UInt32) (hz : Sized file B W) (s : Session)
    (h : (transfer file B W .free .free).Reach s) :
    (∃ t, Relation.ReflTransGen (transfer file B W .free .free).Move s t ∧
      t.client.mvState = .done ∧ t.client.mvTo = file) ↔ Alive file B s := by
  have hc := content_of_reach hz.pos hz.fits hz.window hz.offsets h
  constructor
  · rintro ⟨t, hr, hdone, -⟩
    by_contra hna
    have hdoom : Doomed file B t := by
      clear hdone
      induction hr with
      | refl => exact doomed_of_not_alive hc hna
      | @tail u t hr hm ih => exact ih.step hz (hc.moves hz hr) hm
    exact hdoom.not_done hdone
  · rintro (hdone | ⟨hcl, he | ⟨hr, hsp⟩⟩)
    · exact ⟨s, .refl, hdone, hc.copied.done hdone⟩
    · exact finishes_of_enough hz hc hcl he
    · exact finishes_of_child hz hc hcl hr hsp

end Session

end Fileserver

namespace Fileserver.Session

open Proto

local instance rescueHost : Host := refHost [1, 2, 3]

/-- The child has sent both packets and has ended with an error: the client can do without it. -/
theorem finishes_iff_error :
    ∃ s, (transfer [1, 2, 3] 2 2 .free .free).Reach s ∧ s.server.mvState = .error ∧
      ∃ t, Relation.ReflTransGen (transfer [1, 2, 3] 2 2 .free .free).Move s t ∧
        t.client.mvState = .done ∧ t.client.mvTo = [1, 2, 3] := by
  have h0 : (transfer [1, 2, 3] 2 2 .free .free).Reach (atStart [1, 2, 3] 2 2) :=
    .start (atStart_start [1, 2, 3] 2 2)
  obtain ⟨s, h, ht⟩ := h0.run_any (List.replicate 6 (.serverAct true) ++
      [.serverHear .failed true])
    (fun s => decide (s.server.mvState = .error ∧ s.client.running = true ∧
      0 ∈ s.toClient.map num ∧ 1 ∈ s.toClient.map num)) (by decide +kernel)
  obtain ⟨he, hcl, hfirst, hlast⟩ := of_decide_eq_true ht
  refine ⟨s, h, he, (finishes_iff [1, 2, 3] 2 2 (by constructor <;> decide) s h).mpr
    (.inr ⟨hcl, .inl ?_⟩)⟩
  intro k _ hk
  have hL : ([1, 2, 3] : List UInt8).length / (2 : UInt32).toNat = 1 := by decide
  obtain rfl | rfl : k = 0 ∨ k = 1 := by omega
  · exact List.mem_map.mp hfirst
  · exact List.mem_map.mp hlast

end Fileserver.Session
