/-
# Clients at the parent

What `Server::Run` answers to the datagrams of many clients, against what it would answer to
each client alone.  A log lists the requests the parent has taken, LATEST FIRST, each with the
socket the system hands out if it asks for one, so that a client's requests can be taken out of
a log together with their sockets.

The parent keeps one pending connection and one last packet for all clients.  `pending` and
`answered` say in terms of the log alone whose they are, and `independent_iff` says how far the
clients are independent of each other: exactly as far as they keep `Apart`.
-/
import Fileserver.Cksum
import Fileserver.Parent

namespace Fileserver

/-- A datagram at the parent's socket, and the socket opened for it if it is a `CXN`. -/
structure Request where
  src : Addr
  pkt : Packet
  sock : Addr

/-- What the parent does for one request: the reply, for whom the packet in it was built, and
the child. -/
structure Answer where
  dst : Addr
  reply : Option Packet
  builtFor : Option Addr
  child : Option Server
deriving DecidableEq

/-- The requests of one client. -/
def ofClient (x : Addr) (log : List Request) : List Request := log.filter fun e => e.src = x

theorem ofClient_cons_self (e : Request) (log : List Request) :
    ofClient e.src (e :: log) = e :: ofClient e.src log := by
  simp [ofClient]

theorem ofClient_cons_ne {x : Addr} {e : Request} (h : e.src ≠ x) (log : List Request) :
    ofClient x (e :: log) = ofClient x log := by
  simp [ofClient, h]

/-! ## 1. The log -/

/-- The socket of the latest `CXN`, if no `CXN2` came after it. -/
def pending : List Request → Option Addr
  | [] => none
  | e :: past =>
    if e.pkt.type = pktTypeCXN then some e.sock
    else if e.pkt.type = pktTypeCXN2 then none
    else pending past

/-- The latest request for which a packet was built: a `CXN`, or the first `CXN2` after one. -/
def answered : List Request → Option Request
  | [] => none
  | e :: past =>
    if e.pkt.type = pktTypeCXN then some e
    else if e.pkt.type = pktTypeCXN2 ∧ (pending past).isSome then some e
    else answered past

/-- **The clients keep apart.**  Whenever a client sends its `CXN2`, the pending connection is
the one its own requests alone would have left; whenever it sends a `REJ`, the latest packet was
built for it. -/
def Apart : List Request → Prop
  | [] => True
  | e :: past =>
    Apart past ∧
    (e.pkt.type = pktTypeCXN2 → pending past = pending (ofClient e.src past)) ∧
    (e.pkt.type = pktTypeREJ → (answered past).map Request.src = some e.src)

instance Apart.decidable : DecidablePred Apart
  | [] => inferInstanceAs (Decidable True)
  | _ :: past =>
    have := Apart.decidable past
    inferInstanceAs (Decidable (_ ∧ _ ∧ _))

/-- While the clients keep apart, the latest packet is the one the client it was built for would
have had on its own. -/
theorem answered_ofClient {x : Addr} {log : List Request} (h : Apart log)
    (hx : (answered log).map Request.src = some x) : answered (ofClient x log) = answered log := by
  induction log with
  | nil => rfl
  | cons e past ih =>
    obtain ⟨hpast, hcxn2, -⟩ := h
    by_cases hc : e.pkt.type = pktTypeCXN
    · have he : e.src = x := by simpa [answered, hc] using hx
      subst he
      simp [ofClient_cons_self, answered, hc]
    · by_cases hp : e.pkt.type = pktTypeCXN2 ∧ (pending past).isSome
      · have he : e.src = x := by simpa [answered, hc, hp] using hx
        subst he
        have hp' : (pending (ofClient e.src past)).isSome := hcxn2 hp.1 ▸ hp.2
        rw [ofClient_cons_self, answered, answered, if_neg hc, if_neg hc, if_pos hp,
          if_pos ⟨hp.1, hp'⟩]
      · rw [answered, if_neg hc, if_neg hp] at hx ⊢
        by_cases he : e.src = x
        · subst he
          have hp' : ¬ (e.pkt.type = pktTypeCXN2 ∧ (pending (ofClient e.src past)).isSome) := by
            rintro ⟨ht, hs⟩
            exact hp ⟨ht, hcxn2 ht ▸ hs⟩
          rw [ofClient_cons_self, answered, if_neg hc, if_neg hp', ih hpast hx]
        · rw [ofClient_cons_ne he, ih hpast hx]

namespace Parent

variable [Host]

/-- A valid request: one of the three datagrams `Run` acts on, unharmed. -/
def Valid (e : Request) : Prop :=
  e.pkt.ok = true ∧
    (e.pkt.type = pktTypeCXN ∨ e.pkt.type = pktTypeCXN2 ∨ e.pkt.type = pktTypeREJ)

instance : DecidablePred Valid := fun _ => inferInstanceAs (Decidable (_ ∧ _))

/-- The answer to a request, when every system call succeeds. -/
def answer (p : Parent) (e : Request) : Parent × Answer :=
  let (p', reply, child) := p.run e.src e.pkt e.sock true true
  (p', { dst := e.src, reply, builtFor := if reply.isSome then p'.outFor else none, child })

/-- The parent behind a log. -/
def after (p : Parent) : List Request → Parent
  | [] => p
  | e :: past => ((p.after past).answer e).1

/-- The answers to a log, latest first. -/
def answers (p : Parent) : List Request → List Answer
  | [] => []
  | e :: past => ((p.after past).answer e).2 :: p.answers past

/-- **The clients are independent.**  What each client gets is what its requests alone would
get, and every packet sent to it was built for it. -/
def Independent (p : Parent) (log : List Request) : Prop :=
  (∀ x, (p.answers log).filter (fun a => a.dst = x) = p.answers (ofClient x log)) ∧
    ∀ a ∈ p.answers log, a.reply.isSome → a.builtFor = some a.dst

/-! ## 2. The parent and the log -/

/-- The packet built for a request. -/
def built (e : Request) : Packet :=
  if e.pkt.type = pktTypeCXN then announce e.pkt.sequence e.sock else rrpkt e.pkt.sequence

/-- The variables of `Run` behind a log. -/
structure Follows (p₀ p : Parent) (log : List Request) : Prop where
  server : p.server = p₀.server
  cxn2 : p.cxn2 = (pending log).isSome
  sk : ∀ a, pending log = some a → p.sk = a
  outFor : p.outFor = (answered log).map Request.src
  outpkt : p.outpkt = ((answered log).map built).getD p₀.outpkt

theorem after_follows {p : Parent} (hp : p.Start) {log : List Request}
    (hv : ∀ e ∈ log, Valid e) : Follows p (p.after log) log := by
  induction log with
  | nil =>
    exact { server := rfl, cxn2 := hp.cxn2, sk := by simp [pending], outFor := hp.outFor,
            outpkt := rfl }
  | cons e past ih =>
    have hf := ih fun e' he' => hv e' (List.mem_cons_of_mem _ he')
    obtain ⟨hok, ht⟩ := hv e List.mem_cons_self
    rcases ht with ht | ht | ht
    · constructor <;>
        simp [after, answer, run, send, pending, answered, built, hok, ht, hf.server]
    · cases hpe : pending past with
      | none =>
        have hc : (p.after past).cxn2 = false := by simp [hf.cxn2, hpe]
        constructor <;>
          simp [after, answer, run, pending, answered, hok, ht, hpe, hc, hf.server, hf.outFor,
            hf.outpkt, pktTypeCXN, pktTypeCXN2]
      | some a =>
        have hc : (p.after past).cxn2 = true := by simp [hf.cxn2, hpe]
        constructor <;>
          simp [after, answer, run, send, pending, answered, built, hok, ht, hpe, hc, hf.server,
            pktTypeCXN, pktTypeCXN2]
    · constructor <;>
        simp [after, answer, run, send, pending, answered, hok, ht, hf.server, hf.cxn2,
          hf.outFor, hf.outpkt, pktTypeCXN, pktTypeCXN2, pktTypeREJ]
      exact hf.sk

/-! ## 3. One request -/

variable {p : Parent} {e : Request} {past : List Request}

/-- A `CXN2` gets the same answer in both runs if and only if both have the same connection
pending. -/
theorem answer_cxn2_iff {p₀ q : Parent} {alone : List Request} (hf : Follows p₀ p past)
    (hg : Follows p₀ q alone) (hok : e.pkt.ok = true) (ht : e.pkt.type = pktTypeCXN2) :
    (p.answer e).2 = (q.answer e).2 ↔ pending past = pending alone := by
  have hne : pktTypeCXN2 ≠ pktTypeCXN := by decide
  cases hp : pending past with
  | none =>
    have hc : p.cxn2 = false := by simp [hf.cxn2, hp]
    cases hq : pending alone with
    | none =>
      have hd : q.cxn2 = false := by simp [hg.cxn2, hq]
      simp [answer, run, hok, ht, hne, hc, hd]
    | some b =>
      have hd : q.cxn2 = true := by simp [hg.cxn2, hq]
      simp [answer, run, send, hok, ht, hne, hc, hd]
  | some a =>
    have hc : p.cxn2 = true := by simp [hf.cxn2, hp]
    cases hq : pending alone with
    | none =>
      have hd : q.cxn2 = false := by simp [hg.cxn2, hq]
      simp [answer, run, send, hok, ht, hne, hc, hd]
    | some b =>
      have hd : q.cxn2 = true := by simp [hg.cxn2, hq]
      simp [answer, run, send, hok, ht, hne, hc, hd, hf.server, hg.server, hf.sk a hp, hg.sk b hq,
        Server.forked]

/-- **One request.**  The client gets what it would get alone, in a packet built for it, exactly
if it keeps apart from the others at this point. -/
theorem answer_agrees_iff (hp : p.Start) (hv : ∀ e' ∈ e :: past, Valid e') (ha : Apart past) :
    (((p.after past).answer e).2 = ((p.after (ofClient e.src past)).answer e).2 ∧
      (((p.after past).answer e).2.reply.isSome →
        ((p.after past).answer e).2.builtFor = some e.src)) ↔
    ((e.pkt.type = pktTypeCXN2 → pending past = pending (ofClient e.src past)) ∧
      (e.pkt.type = pktTypeREJ → (answered past).map Request.src = some e.src)) := by
  have hf := after_follows hp fun e' he' => hv e' (List.mem_cons_of_mem _ he')
  have hg : Follows p (p.after (ofClient e.src past)) (ofClient e.src past) :=
    after_follows hp fun e' he' => hv e' (List.mem_cons_of_mem _ (List.mem_filter.mp he').1)
  obtain ⟨hok, ht | ht | ht⟩ := hv e List.mem_cons_self
  · have h1 : pktTypeCXN ≠ pktTypeCXN2 := by decide
    have h2 : pktTypeCXN ≠ pktTypeREJ := by decide
    simp [answer, run, send, hok, ht, h1, h2]
  · have h2 : pktTypeCXN2 ≠ pktTypeREJ := by decide
    have hbuilt : ((p.after past).answer e).2.reply.isSome →
        ((p.after past).answer e).2.builtFor = some e.src := by
      have hne : pktTypeCXN2 ≠ pktTypeCXN := by decide
      cases hc : (p.after past).cxn2 <;> simp [answer, run, send, hok, ht, hne, hc]
    rw [answer_cxn2_iff hf hg hok ht]
    exact ⟨fun h => ⟨fun _ => h.1, by simp [ht, h2]⟩, fun h => ⟨h.1 ht, hbuilt⟩⟩
  · have h1 : pktTypeREJ ≠ pktTypeCXN2 := by decide
    have h2 : pktTypeREJ ≠ pktTypeCXN := by decide
    simp only [ht, h1, false_imp_iff, true_and, true_imp_iff]
    constructor
    · intro h
      have := h.2 (by simp [answer, run, send, hok, ht, h1, h2])
      rw [← hf.outFor]
      simpa [answer, run, send, hok, ht, h1, h2] using this
    · intro h
      have hans := answered_ofClient ha h
      have hout : (p.after past).outpkt = (p.after (ofClient e.src past)).outpkt := by
        rw [hf.outpkt, hg.outpkt, hans]
      have hfor : (p.after past).outFor = (p.after (ofClient e.src past)).outFor := by
        rw [hf.outFor, hg.outFor, hans]
      have hsrc : (p.after past).outFor = some e.src := by rw [hf.outFor, h]
      simp [answer, run, send, hok, ht, h1, h2, hout, ← hfor, hsrc]

/-! ## 4. Whole logs -/

theorem independent_cons : Independent p (e :: past) ↔
    Independent p past ∧
    ((p.after past).answer e).2 = ((p.after (ofClient e.src past)).answer e).2 ∧
    (((p.after past).answer e).2.reply.isSome →
      ((p.after past).answer e).2.builtFor = some e.src) := by
  constructor
  · rintro ⟨hx, hb⟩
    have hself := hx e.src
    rw [ofClient_cons_self, answers, answers, List.filter_cons_of_pos (by simp [answer])] at hself
    obtain ⟨heq, hrest⟩ := List.cons.inj hself
    refine ⟨⟨?_, fun a ha => hb a (List.mem_cons_of_mem _ ha)⟩, heq,
      hb _ List.mem_cons_self⟩
    intro x
    by_cases he : e.src = x
    · exact he ▸ hrest
    · have := hx x
      rwa [ofClient_cons_ne he, answers, List.filter_cons_of_neg (by simp [answer, he])] at this
  · rintro ⟨⟨hx, hb⟩, heq, hbe⟩
    refine ⟨?_, ?_⟩
    · intro x
      by_cases he : e.src = x
      · subst he
        rw [ofClient_cons_self, answers, answers, List.filter_cons_of_pos (by simp [answer]), heq,
          hx]
      · rw [ofClient_cons_ne he, answers, List.filter_cons_of_neg (by simp [answer, he]), hx]
    · intro a ha
      rcases List.mem_cons.mp ha with rfl | ha
      · exact hbe
      · exact hb a ha

/-- **How far clients are independent.**  For every log of valid requests, each client gets what
it would get alone if and only if the clients keep apart: no `CXN` or `CXN2` of another client
between a client's `CXN` and its `CXN2`, or before a `CXN2` that its own `CXN` does not precede,
and no packet built for another client before its `REJ`. -/
theorem independent_iff (p : Parent) (hp : p.Start) (log : List Request)
    (hv : ∀ e ∈ log, Valid e) : Independent p log ↔ Apart log := by
  induction log with
  | nil => simp [Independent, Apart, answers, ofClient]
  | cons e past ih =>
    have ih := ih fun e' he' => hv e' (List.mem_cons_of_mem _ he')
    rw [independent_cons, ih, Apart]
    constructor
    · rintro ⟨ha, h⟩
      exact ⟨ha, (answer_agrees_iff hp hv ha).mp h⟩
    · rintro ⟨ha, h⟩
      exact ⟨ha, (answer_agrees_iff hp hv ha).mpr h⟩

end Parent

namespace Parent

local instance : Host := refHost []

/-- The `CXN` of the client at `x`, for which socket `1:port` is opened. -/
def cxnOf (x : Addr) (port : UInt16) : Request :=
  ⟨x, Packet.sealed { memset pktTypeCXN with sequence := 0 }, ⟨1, port⟩⟩

/-- Its `CXN2`. -/
def cxn2Of (x : Addr) : Request :=
  ⟨x, Packet.sealed { memset pktTypeCXN2 with sequence := 1 }, ⟨0, 0⟩⟩

/-- Two clients, one after the other, are independent. -/
theorem independent_in_turn :
    Independent (atStart ⟨1, 7⟩)
      [cxn2Of ⟨3, 9⟩, cxnOf ⟨3, 9⟩ 22, cxn2Of ⟨2, 9⟩, cxnOf ⟨2, 9⟩ 21] :=
  (independent_iff (atStart ⟨1, 7⟩) (atStart_start _) _ (by decide +kernel)).mpr
    (by decide +kernel)

/-- A second client's `CXN` between the two datagrams of the first: the child forked for the
first listens on the socket that was announced to the second. -/
theorem not_independent_between :
    (∀ e ∈ [cxn2Of ⟨2, 9⟩, cxnOf ⟨3, 9⟩ 22, cxnOf ⟨2, 9⟩ 21], Valid e) ∧
    ((answers (atStart ⟨1, 7⟩) [cxn2Of ⟨2, 9⟩, cxnOf ⟨3, 9⟩ 22, cxnOf ⟨2, 9⟩ 21]).map
      fun a => (a.dst, a.child.map Server.mvSocket)) =
        [(⟨2, 9⟩, some ⟨1, 22⟩), (⟨3, 9⟩, none), (⟨2, 9⟩, none)] ∧
    ¬ Independent (atStart ⟨1, 7⟩) [cxn2Of ⟨2, 9⟩, cxnOf ⟨3, 9⟩ 22, cxnOf ⟨2, 9⟩ 21] := by
  refine ⟨by decide +kernel, by decide +kernel, ?_⟩
  intro h
  have hx := congrArg (List.map fun a => a.child.map Server.mvSocket) (h.1 ⟨2, 9⟩)
  exact absurd hx (by decide +kernel)

end Parent

end Fileserver
