/-
# A run to the data phase

A run in which nothing goes wrong, from the start to the moment when both processes have entered
the data phase: the `CXN` is answered with an announcement, the `CXN2` with the fork, and the
client goes over to the announced socket.  The child does not know that the parent has had the
`CXN2`: it rejects the `BUF` packet, and the client sends the `CXN2` again.  After that the child
takes the packets one by one.
-/
import Fileserver.Exchange

namespace Fileserver

open Proto

variable [Host]

namespace World

variable {from_ : List UInt8} {bufsz winsz : Int32} {w t : World} {v : Server}

/-! ## 1. The steps of such a run -/

/-- What a calm run reaches, a run over any links reaches. -/
theorem of_calm {n : Link} (h : (calm from_ bufsz winsz).Reach w) :
    (system from_ bufsz winsz n).Reach w := by
  obtain ⟨w₀, h0, hr⟩ := h
  exact calm_runs (.start h0) hr

/-- The client in `init` sends. -/
theorem sends_reach (h : (calm from_ bufsz winsz).Reach w) (hs : w.client.mvState = .init)
    (hsent : w.client.sent = false) :
    (calm from_ bufsz winsz).Reach (w.afterClient w.down w.bound
      ({ w.client with sent := true }, some (w.client.pkt w.client.i))) := by
  refine h.step (e := .clientAct true) ⟨trivial, rfl⟩ ?_
  simp [calm, System.under, system, next, Client.step, Client.running, Client.receives, hs, hsent,
    Client.initTop]

/-- The parent takes a request. -/
theorem requested_reach (h : (calm from_ bufsz winsz).Reach w) {d : Datagram} {l : List Datagram}
    (hr : w.parent.returned = false) (hq : w.up w.port = d :: l) (sock : Addr)
    (hf : Parent.opensOn (.datagram d.src d.pkt) = true →
      sock ∉ w.bound ∧ sock.host = w.port.host)
    {r : Parent × Option Packet × Option Server}
    (hrun : w.parent.run d.src d.pkt sock true true = r) :
    (calm from_ bufsz winsz).Reach (w.afterParent d.src l
      (w.bind (Parent.opensOn (.datagram d.src d.pkt)) sock) r) := by
  refine h.step (e := .parentHear (.take 0) sock true true)
    ⟨⟨.inr rfl, ?_⟩, rfl⟩ ?_
  · intro x hx
    simp only [Arrival.recv, hq, List.getElem?_cons_zero, Option.map_some,
      List.eraseIdx_cons_zero, Option.mem_def, Option.some.injEq] at hx
    subst hx
    exact hf
  · simp [calm, System.under, system, next, hr, Arrival.recv, hq, hrun]

/-- The client in `init` takes a reply. -/
theorem reads_reach (h : (calm from_ bufsz winsz).Reach w) {d : Datagram} {l : List Datagram}
    (hs : w.client.mvState = .init) (hsent : w.client.sent = true)
    (hq : w.down w.client.mvSocket = d :: l) (sock : Addr)
    (hf : w.client.opensOn (.datagram d.src d.pkt) = true → sock ∉ w.bound) {c : Client}
    (hc : w.client.init (.datagram d.src d.pkt) sock true = c) :
    (calm from_ bufsz winsz).Reach (w.afterClient (Function.update w.down w.client.mvSocket l)
      (w.bind (w.client.opensOn (.datagram d.src d.pkt)) sock) (c, none)) := by
  refine h.step (e := .clientHear (.take 0) sock true true) ⟨⟨.inr rfl, ?_⟩, rfl⟩ ?_
  · intro x hx
    simp only [Arrival.recv, hq, List.getElem?_cons_zero, Option.map_some,
      List.eraseIdx_cons_zero, Option.mem_def, Option.some.injEq] at hx
    subst hx
    exact hf
  · simp [calm, System.under, system, next, Arrival.recv, hq, Client.step, Client.running,
      Client.receives, hs, hsent, hc]

end World

/-- For a valid packet there is one turn of the client's `init`. -/
theorem Client.InitTurn.eq_init {c d : Client} {src sock : Addr} {buf : Packet} (h0 : 0 ≤ c.i)
    (h5 : c.i < 5) (hok : buf.ok = true)
    (hq : buf.type = pktTypeRR → (buf.sequence.toNat : Int) = c.i)
    (h : c.InitTurn sock (.datagram src buf) true d) :
    c.init (.datagram src buf) sock true = d := by
  have ht := init_cases h0 h5 (.datagram src buf) sock true
  generalize c.init (.datagram src buf) sock true = e at ht ⊢
  have hbad : (Recv.datagram src buf).bad = false := by simp [Recv.bad, hok]
  cases h <;> cases ht <;> simp_all [Onward] <;> omega

/-- There is one of the child's. -/
theorem Server.InitTurn.eq_init {s t : Server} {src : Addr} {buf : Packet} {out : Option Packet}
    (hl : s.initLoop = true) (hok : buf.ok = true)
    (h : s.InitTurn (.datagram src buf) true t out) :
    s.init (.datagram src buf) true = (t, out) := by
  have ht := init_cases hl (.datagram src buf) true
  generalize s.init (.datagram src buf) true = e at ht ⊢
  obtain ⟨t', out'⟩ := e
  have hbad : (Recv.datagram src buf).bad = false := by simp [Recv.bad, hok]
  cases h <;> cases ht <;> first | rfl | (simp_all [UInt32.lt_iff_toNat_lt] <;> omega)

namespace World

variable {from_ : List UInt8} {bufsz winsz : Int32} {w t : World} {v : Server}

/-- The parent's answers to the two requests. -/
theorem run_cxn (p : Parent) (a sock : Addr) (c : Client) :
    p.run a (c.pkt 0) sock true true =
      ({ p with sk := sock, outpkt := Parent.announce 0 sock, outFor := some a, cxn2 := true },
        some (Parent.announce 0 sock), none) := by
  have hok := Client.pkt_ok (c := c) (i := 0) (by decide) (by decide)
  have ht : (c.pkt 0).type = pktTypeCXN := rfl
  simp only [Parent.run, hok, ht, Parent.send, if_true]
  rfl

theorem run_cxn2 {p : Parent} (hp : p.cxn2 = true) (a sock : Addr) (c : Client) :
    p.run a (c.pkt 1) sock true true =
      ({ p with cxn2 := false, outpkt := rrpkt 1, outFor := some a }, some (rrpkt 1),
        some (p.server.forked p.sk a)) := by
  have hok := Client.pkt_ok (c := c) (i := 1) (by decide) (by decide)
  have ht : (c.pkt 1).type = pktTypeCXN2 := rfl
  have hne : pktTypeCXN2 ≠ pktTypeCXN := by decide
  simp only [Parent.run, hok, ht, hp, hne, Parent.send, if_true, if_false]
  rfl

/-! ## 2. The two requests -/

omit [Host] in
theorem not_mem_bind {b : Bool} {x sock : Addr} (h : x ∉ w.bound) (hn : x ≠ sock) :
    x ∉ w.bind b sock := by
  unfold bind
  split_ifs
  · simp [hn, h]
  · exact h

/-- Before the fork: the client is about to send request `i` to the parent. -/
structure Lone (w : World) (i : Int) : Prop where
  children : w.children = []
  client : w.client.mvState = .init
  sent : w.client.sent = false
  index : w.client.i = i
  addr : w.client.mvAddr = w.port
  up : w.up = silent
  down : w.down = silent
  live : w.parent.returned = false

/-- A request is on its way. -/
theorem Lone.request {i : Int} (hl : w.Lone i) :
    post w.up w.client.mvAddr w.client.mvSocket (some (w.client.pkt i)) w.port
      = [⟨w.client.mvSocket, w.client.pkt i⟩] := by
  rw [hl.up, hl.addr, post_silent, if_pos rfl]

/-- It has been taken. -/
theorem Lone.taken {i : Int} (hl : w.Lone i) :
    Function.update (post w.up w.client.mvAddr w.client.mvSocket (some (w.client.pkt i)))
      w.port [] = silent := by
  rw [hl.up, hl.addr, update_post_silent]

/-- The `CXN` is answered with an announcement. -/
theorem Lone.announced (h : (calm from_ bufsz winsz).Reach w) (hl : w.Lone 0) (s₁ s₂ : Addr)
    (h₁ : s₁ ∉ w.bound) (hh : s₁.host = w.port.host) (h₂ : s₂ ∉ w.bound) (hne : s₂ ≠ s₁) :
    ∃ t, (calm from_ bufsz winsz).Reach t ∧ t.Lone 1 ∧ t.parent.cxn2 = true ∧
      t.client.addr = t.parent.sk := by
  have hremote := (wf_of_reach h.of_under).remote
  have hok := Parent.announce_ok 0 s₁
  have hi : 0 ≤ w.client.i ∧ w.client.i < 5 := by rw [hl.index]; decide
  have r₁ := sends_reach h hl.client hl.sent
  rw [hl.index, hl.down] at r₁
  have r₂ := requested_reach r₁ hl.live hl.request s₁ (fun _ => ⟨h₁, hh⟩)
    (run_cxn _ _ _ w.client)
  have q₂ : post silent w.client.mvSocket w.port (some (Parent.announce 0 s₁)) w.client.mvSocket
      = [⟨w.port, Parent.announce 0 s₁⟩] := by
    rw [post_silent, if_pos rfl]
  have r₃ := reads_reach r₂ hl.client rfl q₂ s₂ (fun _ => not_mem_bind h₂ hne)
    (Client.InitTurn.eq_init hi.1 hi.2 hok (fun _ => hl.index.symm)
      (.opens hok rfl rfl hl.index))
  refine ⟨_, r₃, ?_, rfl, ?_⟩
  · exact
      { children := by simp [afterClient, afterParent, hl.children]
        client := hl.client, sent := rfl, index := rfl, addr := rfl
        up := (post_none ..).trans hl.taken
        down := update_post_silent _ _ _
        live := hl.live }
  · change (⟨w.client.mvRemote, htons (htons s₁.sinPort)⟩ : Addr) = s₁
    rw [htons_htons, hremote, ← hh]

/-- Nothing is in flight, the client is about to send packet `i`, and the child waits for the
packet with number `q`. -/
structure Ready (w : World) (v : Server) (i : Int) (q : UInt32) : Prop extends w.Facing v where
  sent : w.client.sent = false
  index : w.client.i = i
  sequence : v.mvSequence = q
  mvAddr : w.client.mvAddr = v.mvSocket
  addr : w.client.addr = v.mvSocket
  window : v.mvWindow = []
  outBuf : v.mvOutBuf = []
  up : w.up = silent
  down : w.down = silent

/-- The `CXN2` is answered by the fork. -/
theorem Lone.forked (h : (calm from_ bufsz winsz).Reach w) (hl : w.Lone 1)
    (hx : w.parent.cxn2 = true) (ha : w.client.addr = w.parent.sk) :
    ∃ t v, (calm from_ bufsz winsz).Reach t ∧ t.Ready v 2 1 := by
  have hp := (wf_of_reach h.of_under).parent
  have hok := rrpkt_ok 1
  have hi : 0 ≤ w.client.i ∧ w.client.i < 5 := by rw [hl.index]; decide
  have ht : (w.client.pkt 1).type ≠ pktTypeCXN := by
    simp [Client.pkt, memset, pktTypeCXN, pktTypeCXN2]
  have hno : Parent.opensOn (.datagram w.client.mvSocket (w.client.pkt 1)) ≠ true := by
    simp [Parent.opensOn, ht]
  have hno' : ({ w.client with sent := true } : Client).opensOn (.datagram w.port (rrpkt 1))
      ≠ true := by
    have ht' : (({ w.client with sent := true } : Client).pkt w.client.i).type ≠ pktTypeCXN := by
      rw [hl.index]
      exact ht
    simp [Client.opensOn, Client.opens, ht']
  have r₁ := sends_reach h hl.client hl.sent
  rw [hl.index, hl.down] at r₁
  have r₂ := requested_reach r₁ hl.live hl.request w.port (fun ho => absurd ho hno)
    (run_cxn2 hx _ _ w.client)
  have q₂ : post silent w.client.mvSocket w.port (some (rrpkt 1)) w.client.mvSocket
      = [⟨w.port, rrpkt 1⟩] := by
    rw [post_silent, if_pos rfl]
  have r₃ := reads_reach r₂ hl.client rfl q₂ w.port (fun ho => absurd ho hno')
    (Client.InitTurn.eq_init hi.1 hi.2 hok (fun _ => hl.index.symm)
      (.switches hok rfl rfl hl.index))
  refine ⟨_, w.parent.server.forked w.parent.sk w.client.mvSocket, r₃, ?_⟩
  exact
    { children := by simp [afterClient, afterParent, hl.children]
      server := rfl, client := hl.client, sent := rfl, index := rfl, sequence := rfl
      mvAddr := ha, addr := ha, window := hp.window, outBuf := hp.outBuf
      up := (post_none ..).trans hl.taken
      down := update_post_silent _ _ _ }

/-- **The connection can be made.** -/
theorem reach_connected (from_ : List UInt8) (bufsz winsz : Int32) :
    ∃ w v, (calm from_ bufsz winsz).Reach w ∧ w.Ready v 2 1 := by
  have h₀ : (calm from_ bufsz winsz).Reach (atStart from_ bufsz winsz) :=
    .start (atStart_start _ _ _)
  have hl : (atStart from_ bufsz winsz).Lone 0 := ⟨rfl, rfl, rfl, rfl, rfl, rfl, rfl, rfl⟩
  obtain ⟨w, h, hl', hx, ha⟩ := hl.announced h₀ ⟨1, 21⟩ ⟨2, 11⟩ (by simp [atStart]) rfl
    (by simp [atStart]) (by decide)
  exact hl'.forked h hx ha

/-! ## 3. The parameters -/

/-- A child in `init` takes a packet. -/
theorem hears_reach (h : (calm from_ bufsz winsz).Reach w) (hk : w.children = [v])
    (hs : v.mvState = .init) {d : Datagram} {l : List Datagram} (hq : w.up v.mvSocket = d :: l)
    {r : Server × Option Packet} (hv : v.init (.datagram d.src d.pkt) true = r) :
    (calm from_ bufsz winsz).Reach
      (w.afterChild 0 (Function.update w.up v.mvSocket l) w.built r) := by
  refine h.step (e := .childHear 0 (.take 0) true) ⟨.inr rfl, rfl⟩ ?_
  simp [calm, System.under, system, next, Arrival.recv, hk, hq, Server.step, Server.running,
    Server.receives, hs, Server.hear, hv]

/-- The packet of the client is answered, and the answer heard. -/
theorem Ready.exchange {i : Int} {q : UInt32} (h : (calm from_ bufsz winsz).Reach w)
    (hr : w.Ready v i q) (h1 : 1 ≤ i) (h5 : i < 5) {v' : Server} {p : Packet} {c : Client}
    (hv : v.InitTurn (.datagram w.client.mvSocket (w.client.pkt i)) true v' (some p))
    (ha : v'.mvAddr = w.client.mvSocket) (hsock : v'.mvSocket = v.mvSocket) (hp : p.ok = true)
    (hq : p.type = pktTypeRR → (p.sequence.toNat : Int) = i)
    (hc : ({ w.client with sent := true } : Client).InitTurn w.port (.datagram v.mvSocket p)
      true c) :
    ∃ t, (calm from_ bufsz winsz).Reach t ∧ t.children = [v'] ∧ t.client = c ∧
      t.up = silent ∧ t.down = silent := by
  have hi := hr.index
  have hb : 0 ≤ w.client.i ∧ w.client.i < 5 := by omega
  have hok := w.client.pkt_ok (i := i) (by omega) h5
  have hloop := (hr.facts (of_calm h)).loop
  have hno : ({ w.client with sent := true } : Client).opensOn (.datagram v.mvSocket p)
      ≠ true := by
    have ht : (({ w.client with sent := true } : Client).pkt w.client.i).type ≠ pktTypeCXN := by
      intro hc
      have := (Client.pkt_type_cxn (by omega) (by omega)).mp hc
      omega
    simp [Client.opensOn, Client.opens, ht]
  have r₁ := sends_reach h hr.client hr.sent
  rw [hr.index, hr.down] at r₁
  have q₁ : post w.up w.client.mvAddr w.client.mvSocket (some (w.client.pkt i)) v.mvSocket
      = [⟨w.client.mvSocket, w.client.pkt i⟩] := by
    rw [hr.up, hr.mvAddr, post_silent, if_pos rfl]
  have r₂ := hears_reach r₁ hr.children hr.server q₁ (hv.eq_init hloop hok)
  have q₂ : post silent v'.mvAddr v'.mvSocket (some p) w.client.mvSocket
      = [⟨v.mvSocket, p⟩] := by
    rw [post_silent, if_pos ha.symm, hsock]
  have r₃ := reads_reach r₂ hr.client rfl q₂ w.port (fun ho => absurd ho hno)
    (hc.eq_init hb.1 hb.2 hp fun ht => (hq ht).trans hi.symm)
  refine ⟨_, r₃, by simp [afterClient, afterChild, hr.children], rfl, (post_none ..).trans ?_, ?_⟩
  · change Function.update
      (post w.up w.client.mvAddr w.client.mvSocket (some (w.client.pkt i))) v.mvSocket [] = silent
    rw [hr.up, hr.mvAddr, update_post_silent]
  · change Function.update (post silent v'.mvAddr v'.mvSocket (some p)) w.client.mvSocket []
      = silent
    rw [← ha, update_post_silent]

/-- The child has not taken the `CXN2` yet, and asks for it. -/
theorem Ready.rejected (h : (calm from_ bufsz winsz).Reach w) (hr : w.Ready v 2 1) :
    ∃ t v', (calm from_ bufsz winsz).Reach t ∧ t.Ready v' 1 1 := by
  have hi := hr.index
  have hlt : v.mvSequence < (w.client.pkt 2).sequence := by
    have hq : (w.client.pkt 2).sequence = 2 := rfl
    rw [hr.sequence, hq]
    decide
  have hone : (rejpkt v.mvSequence).sequence.toNat = 1 := congrArg UInt32.toNat hr.sequence
  obtain ⟨t, ht, hk, hc, hu, hd⟩ := hr.exchange h (by decide) (by decide)
    (.high (Client.pkt_ok (by decide) (by decide)) hlt) rfl rfl (rejpkt_ok _) (by simp)
    (.back (rejpkt_ok _) rfl (by dsimp only; omega))
  refine ⟨t, { v with
      mvRetries := pktTrnsMax - 1, mvAddr := w.client.mvSocket, mvAddrLen := sizeofIn }, ht, ?_⟩
  exact
    { children := hk, server := hr.server
      client := by rw [hc]; exact hr.client
      sent := by rw [hc]
      index := by rw [hc]; exact congrArg Nat.cast hone
      sequence := hr.sequence
      mvAddr := by rw [hc]
      addr := by rw [hc]; exact hr.addr
      window := hr.window, outBuf := hr.outBuf
      up := hu, down := hd }

/-- The child takes a packet that is not the last one. -/
theorem Ready.accepted {i : Int} {q : UInt32} (h : (calm from_ bufsz winsz).Reach w)
    (hr : w.Ready v i q) (hq : (q.toNat : Int) = i) (h1 : 1 ≤ i) (h4 : i < 4) :
    ∃ t v', (calm from_ bufsz winsz).Reach t ∧ t.Ready v' (i + 1) (q + 1) := by
  have hi := hr.index
  have hx := hr.facts (of_calm h)
  have hseq : (w.client.pkt i).sequence = v.mvSequence := by
    have := Client.pkt_sequence (c := w.client) (i := i) (by omega) (by omega)
    rw [hr.sequence, ← UInt32.toNat_inj]
    omega
  have hrr : ((rrpkt v.mvSequence).sequence.toNat : Int) = i := by
    rw [rrpkt_sequence, hr.sequence, hq]
  obtain ⟨c, hc, hs, hsent, hi', ha, hda⟩ : ∃ c,
      ({ w.client with sent := true } : Client).InitTurn w.port
        (.datagram v.mvSocket (rrpkt v.mvSequence)) true c ∧ c.mvState = .init ∧
        c.sent = false ∧ c.i = i + 1 ∧ c.mvAddr = v.mvSocket ∧ c.addr = v.mvSocket := by
    by_cases hi1 : i = 1
    · subst hi1
      exact ⟨_, .switches (rrpkt_ok _) rfl (by omega) hi, hr.client, rfl, rfl, hr.addr, hr.addr⟩
    · refine ⟨_, .onward (rrpkt_ok _) (.inl ⟨rfl, ?_, ?_⟩) ?_, hr.client, rfl, ?_, rfl, hr.addr⟩
      all_goals dsimp only; omega
  obtain ⟨t, ht, hk, hc', hu, hd⟩ := hr.exchange h h1 (by omega)
    (.take (Client.pkt_ok (by omega) (by omega)) hseq (hx.counting.not_last (by omega) h4))
    (Server.taken_addr ..) (Server.taken_socket ..) (rrpkt_ok _) (fun _ => hrr) hc
  refine ⟨t, v.taken w.client.mvSocket (w.client.pkt i), ht, ?_⟩
  exact
    { children := hk
      server := (Server.taken_state ..).trans hr.server
      client := by rw [hc', hs]
      sent := by rw [hc', hsent]
      index := by rw [hc', hi']
      sequence := by rw [Server.taken_sequence, hr.sequence]
      mvAddr := by rw [hc', ha, Server.taken_socket]
      addr := by rw [hc', hda, Server.taken_socket]
      window := (Server.taken_window ..).trans hr.window
      outBuf := (Server.taken_outBuf ..).trans hr.outBuf
      up := hu, down := hd }

/-- Both have just entered the data phase, and nothing is in flight. -/
structure Begun (w : World) (v : Server) : Prop where
  children : w.children = [v]
  server : v.mvState = .fillWindow
  retries : 0 < v.mvRetries
  window : v.mvWindow = []
  outBuf : v.mvOutBuf = []
  client : w.client.mvState = .recvPackets
  mvAddr : w.client.mvAddr = v.mvSocket
  left : 0 < w.client.mvRetries
  up : w.up = silent
  down : w.down = silent

/-- With the name of a file it can open, the child goes on to the data phase. -/
theorem Ready.begun (h : (calm from_ bufsz winsz).Reach w) (hr : w.Ready v 4 4)
    (hf : (Host.file (nameSent from_)).isSome = true) :
    ∃ t v', (calm from_ bufsz winsz).Reach t ∧ t.Begun v' := by
  have hx := hr.facts (of_calm h)
  have hq : v.mvSequence.toNat = 4 := congrArg UInt32.toNat hr.sequence
  have hloop : (v.taken w.client.mvSocket (w.client.pkt 4)).initLoop = false :=
    hx.counting.last hq
  have hkid : v ∈ w.children := by
    rw [hr.children]
    exact List.mem_singleton_self v
  -- the child has the name from the packet it has just taken
  have hname : (v.taken w.client.mvSocket (w.client.pkt 4)).mvFromName = nameSent from_ := by
    have ht := ((told_of_reach h.of_under).init v hkid hr.server).taken w.client.mvSocket
      (w.client.own_pkt (j := 4) (by decide) (by decide))
    rw [ht.fn (Server.flags_of_taken hloop).2.2, (pkt_of_reach h.of_under).2.2]
  obtain ⟨contents, hf⟩ := Option.isSome_iff_exists.mp hf
  rw [← hname] at hf
  have hrr : ((rrpkt v.mvSequence).sequence.toNat : Int) = 4 := congrArg Nat.cast hq
  have ho : ({ w.client with sent := true } : Client).Onward (rrpkt v.mvSequence) :=
    .inl ⟨rfl, hrr.trans hr.index.symm, by rw [hr.index]; decide⟩
  obtain ⟨t, ht, hk, hc, hu, hd⟩ := hr.exchange h (by decide) (by decide)
    (.opened (Client.pkt_ok (by decide) (by decide)) hr.sequence.symm hloop hf)
    (Server.taken_addr ..) (Server.taken_socket ..) (rrpkt_ok _) (fun _ => hrr)
    (.leaves (rrpkt_ok _) ho hr.index)
  have hten : 0 < pktTrnsMax := by decide
  refine ⟨t, _, ht, hk, rfl, ?_, ?_, ?_, ?_, ?_, ?_, hu, hd⟩
  · exact (Server.taken_retries ..).symm ▸ hten
  · exact (Server.taken_window ..).trans hr.window
  · exact (Server.taken_outBuf ..).trans hr.outBuf
  · rw [hc]
  · rw [hc]
    exact (Server.taken_socket ..).symm
  · rw [hc]
    exact hten

/-- **The data phase can be reached**, if the server can open the file. -/
theorem reach_begun (from_ : List UInt8) (bufsz winsz : Int32)
    (hf : (Host.file (nameSent from_)).isSome = true) :
    ∃ w v, (calm from_ bufsz winsz).Reach w ∧ w.Begun v := by
  obtain ⟨w, v, h, hr⟩ := reach_connected from_ bufsz winsz
  obtain ⟨w, v, h, hr⟩ := hr.rejected h
  obtain ⟨w, v, h, hr⟩ := hr.accepted h rfl (by decide) (by decide)
  obtain ⟨w, v, h, hr⟩ := hr.accepted h rfl (by decide) (by decide)
  obtain ⟨w, v, h, hr⟩ := hr.accepted h rfl (by decide) (by decide)
  exact hr.begun h hf

end World

end Fileserver
