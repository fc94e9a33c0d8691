/-
# From the first request to the whole file

As long as nothing is lost, late or damaged and no call fails, every run of the whole program
ends with the client done and the file written, whatever the order of the turns and whichever
sockets the two processes are given (`all_delivered`).

There are three stretches.  Before the fork there is one datagram in flight at a time
(`Connecting`); behind it the handshake is that of `Exchange.lean`, which is followed here up to
the moment the child opens the file (`Opened`); and from there on the program goes along with a
`Session` (`Along`), whose end is inevitable.
-/
import Fileserver.Completion
import Fileserver.Connect
import Fileserver.InOrder
import Fileserver.Recovery

namespace Fileserver

open Proto

/-- A list of three addresses leaves one on any machine. -/
theorem exists_fresh {l : List Addr} (h : l.length ≤ 3) (host : UInt32) :
    ∃ a, a ∉ l ∧ a.host = host := by
  by_contra hno
  have hall (p : UInt16) : (⟨host, p⟩ : Addr) ∈ l := by
    by_contra hp
    exact hno ⟨_, hp, rfl⟩
  have hnd : [(⟨host, 0⟩ : Addr), ⟨host, 1⟩, ⟨host, 2⟩, ⟨host, 3⟩].Nodup := by simp
  have hsub : [(⟨host, 0⟩ : Addr), ⟨host, 1⟩, ⟨host, 2⟩, ⟨host, 3⟩] ⊆ l := by
    simp [hall]
  have := List.Nodup.length_le_of_subset hnd hsub
  simp only [List.length_cons, List.length_nil] at this
  omega

/-- The client as it goes on to `RECV_PACKETS`. -/
def Client.entered (c : Client) (src : Addr) : Client :=
  { c with
    mvRetries := pktTrnsMax, mvAddr := src, mvAddrLen := sizeofIn, i := 5, sent := false
    mvSequence := 0
    mvState := .recvPackets }

variable [Host]

/-- A child in the data phase answers where its last unharmed packet came from. -/
theorem Server.Turn.mvAddr {v v' : Server} {e : Server.Event} {out : Option Packet}
    (h : v.Turn e v' out) (he : e.fails = false) (hb : ∀ r io, e = .hear r io → r.bad = false) :
    v'.mvAddr = v.mvAddr ∨ ∃ buf io, e = .hear (.datagram v'.mvAddr buf) io := by
  cases h with
  | push | full | sendOne | sent => exact .inl rfl
  | again hs hr => simp [hb _ _ rfl] at hr
  | shiftTo | oldRR | resend | rewind | ignore => exact .inr ⟨_, _, rfl⟩
  | fail hq hf => simp [he] at hf

namespace World

variable {from_ : List UInt8} {bufsz winsz : Int32} {w t : World} {v : Server}

/-! ## 1. Before the fork -/

/-- The steps of a calm world without a child. -/
inductive LoneTurn (w : World) : World → Prop
  | parent {d : Datagram} {l : List Datagram} {b : List Addr} {sock : Addr}
      (hq : w.up w.port = d :: l) (hb : b.length ≤ w.bound.length + 1)
      (hh : Parent.opensOn (.datagram d.src d.pkt) = true → sock.host = w.port.host) :
      LoneTurn w (w.afterParent d.src l b (w.parent.run d.src d.pkt sock true true))
  | clientSends (hs : w.client.mvState = .init) (hsent : w.client.sent = false) :
      LoneTurn w (w.afterClient w.down w.bound
        ({ w.client with sent := true }, some (w.client.pkt w.client.i)))
  | clientHear {d : Datagram} {l : List Datagram} {b : List Addr} {sock : Addr} {c : Client}
      {out : Option Packet} (hq : w.down w.client.mvSocket = d :: l)
      (hst : w.client.step (.hear (.datagram d.src d.pkt) sock true true) = some (c, out)) :
      LoneTurn w (w.afterClient (Function.update w.down w.client.mvSocket l) b (c, out))

omit [Host] in
theorem length_bind (w : World) (o : Bool) (sock : Addr) :
    (w.bind o sock).length ≤ w.bound.length + 1 := by
  unfold bind
  split_ifs <;> simp

/-- **The list of steps is complete.** -/
theorem lone_cases (hk : w.children = []) (hm : (calm from_ bufsz winsz).Move w t) :
    LoneTurn w t := by
  obtain ⟨e, ⟨hm, hq⟩, h⟩ := hm
  cases e with
  | parentHear a sock forks io =>
    obtain ⟨⟨hg, rfl⟩, rfl⟩ : (a.good = true ∧ forks = true) ∧ io = true := by
      simpa [Event.quiet] using hq
    obtain ⟨hal, hn⟩ := hm
    simp only [calm, System.under, system, next, Option.ite_none_left_eq_some] at h
    obtain ⟨-, h⟩ := h
    split at h
    · rename_i src buf l ha
      obtain rfl := Option.some.inj h
      obtain ⟨d, hr, hl⟩ := Arrival.recv_oldest rfl hal ha hg
      obtain ⟨rfl, rfl⟩ := Recv.datagram.inj hr
      exact .parent hl (length_bind ..) fun ho => (hn _ (Option.mem_def.mpr ha) ho).2
    · rename_i l ha
      obtain ⟨d, hr, -⟩ := Arrival.recv_oldest rfl hal ha hg
      simp at hr
    · simp at h
    · simp at h
  | childAct k io | childHear k a io =>
    obtain ⟨u, hu, -⟩ := Option.bind_eq_some_iff.mp h
    simp [hk] at hu
  | clientAct io =>
    obtain rfl : io = true := hq
    obtain ⟨⟨c, out⟩, hst, rfl⟩ := Option.map_eq_some_iff.mp h
    simp only [Client.step, Option.ite_none_right_eq_some, Option.some.injEq] at hst
    obtain ⟨hg, hst⟩ := hst
    obtain ⟨hs, hsent⟩ : w.client.mvState = .init ∧ w.client.sent = false := by
      cases hs : w.client.mvState <;> simp [Client.running, Client.receives, hs] at hg ⊢
      exact hg
    obtain ⟨rfl, rfl⟩ := Prod.mk.inj hst
    exact .clientSends hs hsent
  | clientHear a sock wr io =>
    obtain ⟨⟨hg, rfl⟩, rfl⟩ : (a.good = true ∧ wr = true) ∧ io = true := by
      simpa [Event.quiet] using hq
    obtain ⟨⟨r, l⟩, ha, h⟩ := Option.bind_eq_some_iff.mp h
    obtain ⟨⟨c, out⟩, hst, rfl⟩ := Option.map_eq_some_iff.mp h
    obtain ⟨d, rfl, hl⟩ := Arrival.recv_oldest rfl hm.1 ha hg
    exact .clientHear hl hst
  | loseUp | dupUp | loseDown | dupDown => simp [Event.quiet] at hq

/-- Request `i` of the client is on its way to the parent. -/
structure Asking (w : World) (i : Int) : Prop where
  children : w.children = []
  client : w.client.mvState = .init
  sent : w.client.sent = true
  index : w.client.i = i
  addr : w.client.mvAddr = w.port
  live : w.parent.returned = false
  up : w.up = post silent w.port w.client.mvSocket (some (w.client.pkt i))
  down : w.down = silent

/-- What is known with request `i`: nothing yet with the `CXN`, and with the `CXN2` that a
connection is pending on the socket the client was told. -/
def Pending (w : World) (i : Int) : Prop :=
  i = 0 ∧ w.bound.length ≤ 2 ∨ i = 1 ∧ w.parent.cxn2 = true ∧ w.client.addr = w.parent.sk

/-- **The moments before the fork has been acknowledged**: a request of the client about to be
sent, or on its way; the announcement on its way; the acknowledgement of the fork on its way.
The last argument bounds the steps that are left. -/
inductive Connecting (w : World) : ℕ → Prop
  | request {i : Int} (hl : w.Lone i) (hp : w.Pending i) : Connecting w (3 * (1 - i).toNat + 3)
  | asked {i : Int} (ha : w.Asking i) (hp : w.Pending i) : Connecting w (3 * (1 - i).toNat + 2)
  | announced (hk : w.children = []) (hc : w.client.mvState = .init)
      (hs : w.client.sent = true) (hi : w.client.i = 0) (hl : w.parent.returned = false)
      (hx : w.parent.cxn2 = true) (hh : w.parent.sk.host = w.port.host)
      (hb : w.bound.length ≤ 3) (hu : w.up = silent)
      (hd : w.down = post silent w.client.mvSocket w.port
        (some (Parent.announce 0 w.parent.sk))) : Connecting w 4
  | forked {v : Server} (hf : w.Facing v) (hs : w.client.sent = true) (hi : w.client.i = 1)
      (hq : v.mvSequence = 1) (ha : w.client.addr = v.mvSocket) (hu : w.up = silent)
      (hd : w.down = post silent w.client.mvSocket w.port (some (rrpkt 1))) : Connecting w 1

/-- The parent takes a request. -/
theorem Asking.step {i : Int} (ha : w.Asking i) (hp : w.Pending i) (hm : LoneTurn w t) :
    ∃ m < 3 * (1 - i).toNat + 2, t.Connecting m := by
  have hup : w.up w.port = [⟨w.client.mvSocket, w.client.pkt i⟩] := by
    rw [ha.up, post_silent, if_pos rfl]
  cases hm with
  | clientSends hs hsent => simp [ha.sent] at hsent
  | clientHear hq => simp [ha.down, silent] at hq
  | @parent d l b sock hq hb hh =>
    obtain ⟨rfl, rfl⟩ := List.cons.inj (hup.symm.trans hq)
    have hport := port_afterParent w w.client.mvSocket w.client.mvSocket [] b sock
      (w.client.pkt i) true true
    have hupt : Function.update w.up w.port [] = silent := by
      rw [ha.up, update_post_silent]
    rcases hp with ⟨rfl, hlen⟩ | ⟨rfl, hx, haddr⟩
    · have hok := Client.pkt_ok (c := w.client) (i := 0) (by decide) (by decide)
      have hty : (w.client.pkt 0).type = pktTypeCXN := rfl
      have hhost := hh (by simp [Parent.opensOn, hok, hty])
      refine ⟨4, by decide, ?_⟩
      rw [run_cxn] at hport ⊢
      refine .announced ?_ ha.client ha.sent ha.index ha.live rfl ?_ ?_ hupt ?_
      · simp [afterParent, ha.children]
      · rw [hport]
        exact hhost
      · change b.length ≤ 3
        omega
      · rw [hport]
        simp only [afterParent, ha.down]
    · refine ⟨1, by decide, ?_⟩
      rw [run_cxn2 hx] at hport ⊢
      refine .forked (v := w.parent.server.forked w.parent.sk w.client.mvSocket)
        ⟨?_, rfl, ha.client⟩ ha.sent ha.index rfl haddr hupt ?_
      · simp [afterParent, ha.children]
      · rw [hport]
        simp only [afterParent, ha.down]

/-- The client takes the announcement. -/
theorem announced_step (hk : w.children = []) (hw : w.Wf) (hc : w.client.mvState = .init)
    (hi : w.client.i = 0) (hl : w.parent.returned = false) (hx : w.parent.cxn2 = true)
    (hh : w.parent.sk.host = w.port.host) (hu : w.up = silent) {b : List Addr} {sock : Addr}
    {c : Client}
    (ht : w.client.InitTurn sock (.datagram w.port (Parent.announce 0 w.parent.sk)) true c) :
    ∃ m < 4, (w.afterClient silent b (c, none)).Connecting m := by
  have hup : (w.afterClient silent b (c, none)).up = silent := (post_none ..).trans hu
  cases ht with
  | again hk' ha hr =>
    rcases hr with hb | ⟨src, buf, hb, -, -, hne⟩
    · simp [Recv.bad] at hb
    · obtain ⟨-, rfl⟩ := Recv.datagram.inj hb
      simp [hi] at hne
  | switches hok hrr hq => simp at hq
  | back hok hrej => simp at hrej
  | onward hok ho | leaves hok ho =>
    rcases ho with ⟨-, -, h2⟩ | ⟨hrej, -⟩ | ⟨hno, -⟩
    · omega
    · simp at hrej
    · simp at hno
  | fail hf => simp [Recv.bad] at hf
  | opens hok hrr hq hi' =>
    refine ⟨_, ?_, .request (i := 1) ⟨hk, hc, rfl, rfl, rfl, hup, rfl, hl⟩ (.inr ⟨rfl, hx, ?_⟩)⟩
    · decide
    · change (⟨w.client.mvRemote, htons (htons w.parent.sk.sinPort)⟩ : Addr) = w.parent.sk
      rw [htons_htons, hw.remote, ← hh]

/-- The client takes the acknowledgement of the fork, and goes over to the child. -/
theorem forked_step (hf : w.Facing v) (hi : w.client.i = 1) (hq : v.mvSequence = 1)
    (ha : w.client.addr = v.mvSocket) (hu : w.up = silent) {b : List Addr} {sock : Addr}
    {c : Client} (ht : w.client.InitTurn sock (.datagram w.port (rrpkt 1)) true c) :
    (w.afterClient silent b (c, none)).Facing v ∧
      ∃ m, (w.afterClient silent b (c, none)).Phase v m := by
  have hup : (w.afterClient silent b (c, none)).up = silent := (post_none ..).trans hu
  have hone : (rrpkt 1).sequence.toNat = 1 := rfl
  cases ht with
  | again hk' ha hr =>
    rcases hr with hb | ⟨src, buf, hb, -, -, hne⟩
    · simp [Recv.bad] at hb
    · obtain ⟨-, rfl⟩ := Recv.datagram.inj hb
      simp [hi] at hne
  | opens hok hrr hq' hi' => omega
  | back hok hrej => simp at hrej
  | onward hok ho | leaves hok ho =>
    rcases ho with ⟨-, -, h2⟩ | ⟨hrej, -⟩ | ⟨hno, -⟩
    · omega
    · simp at hrej
    · simp at hno
  | fail hf => simp [Recv.bad] at hf
  | switches hok hrr hq' hi' =>
    refine ⟨⟨hf.children, hf.server, hf.client⟩, _, .idle rfl hup rfl ha (fun _ => ha) ?_⟩
    have h1 : v.mvSequence.toNat = 1 := congrArg UInt32.toNat hq
    change (v.mvSequence.toNat : Int) ≤ 2
    omega

/-- **Every step brings the connection closer.** -/
theorem Connecting.step (hw : w.Wf) {n : ℕ} (hc : w.Connecting n)
    (hm : (calm from_ bufsz winsz).Move w t) :
    (∃ v, t.Facing v ∧ ∃ m, t.Phase v m) ∨ ∃ m < n, t.Connecting m := by
  cases hc with
  | @request i hl hp =>
    right
    cases lone_cases hl.children hm with
    | parent hq => simp [hl.up, silent] at hq
    | clientHear hq => simp [hl.down, silent] at hq
    | clientSends =>
      refine ⟨_, Nat.lt_succ_self _, .asked (i := i) ?_ hp⟩
      refine ⟨hl.children, hl.client, rfl, hl.index, hl.addr, hl.live, ?_, hl.down⟩
      simp only [afterClient, hl.up, hl.index]
      rw [hl.addr]
      rfl
  | asked ha hp => exact .inr (ha.step hp (lone_cases ha.children hm))
  | announced hk hcl hs hi hl hx hh hb hu hd =>
    right
    cases lone_cases hk hm with
    | parent hq => simp [hu, silent] at hq
    | clientSends _ hsent => simp [hs] at hsent
    | clientHear hq hst =>
      rw [hd, post_silent, if_pos rfl] at hq
      obtain ⟨rfl, rfl⟩ := List.cons.inj hq
      obtain ⟨-, rfl, ht⟩ := Client.initTurn_of_step hcl (by omega) hst
      rw [hd, update_post_silent]
      exact announced_step hk hw hcl hi hl hx hh hu ht
  | forked hf hs hi hq ha hu hd =>
    left
    cases calm_cases hf.children hm with
    | parent hq' | childHear hq' => simp [hu, silent] at hq'
    | childAct hst => exact absurd hst (no_act hf.server)
    | clientSends _ hsent => simp [hs] at hsent
    | clientHear hq' hst =>
      rw [hd, post_silent, if_pos rfl] at hq'
      obtain ⟨rfl, rfl⟩ := List.cons.inj hq'
      obtain ⟨-, rfl, ht⟩ := Client.initTurn_of_step hf.client (by omega) hst
      rw [hd, update_post_silent]
      exact ⟨_, forked_step hf hi hq ha hu ht⟩

/-- **The connection is never stuck**: there is an address for every new socket. -/
theorem Connecting.progress {n : ℕ} (hc : w.Connecting n) :
    ∃ t, (calm from_ bufsz winsz).Move w t := by
  cases hc with
  | request hl hp => exact calm_sends hl.client hl.sent
  | @asked i ha hp =>
    have hup : w.up w.port = [⟨w.client.mvSocket, w.client.pkt i⟩] := by
      rw [ha.up, post_silent, if_pos rfl]
    -- only the `CXN` opens a socket
    obtain ⟨sock, hs⟩ : ∃ sock : Addr,
        Parent.opensOn (.datagram w.client.mvSocket (w.client.pkt i)) = true →
          sock ∉ w.bound ∧ sock.host = w.port.host := by
      rcases hp with ⟨rfl, hlen⟩ | ⟨rfl, -⟩
      · obtain ⟨sock, hs⟩ := exists_fresh (l := w.bound) (by omega) w.port.host
        exact ⟨sock, fun _ => hs⟩
      · refine ⟨⟨0, 0⟩, fun ho => ?_⟩
        simp [Parent.opensOn, Client.pkt, memset, pktTypeCXN, pktTypeCXN2] at ho
    refine System.exists_move (.parentHear (.take 0) sock true true) ⟨⟨.inr rfl, ?_⟩, rfl⟩ ?_
    · intro x hx
      simp only [Arrival.recv, hup, List.getElem?_cons_zero, Option.map_some,
        List.eraseIdx_cons_zero, Option.mem_def, Option.some.injEq] at hx
      subst hx
      exact hs
    · simp [calm, System.under, system, next, Arrival.recv, hup, ha.live]
  | announced hk hcl hs hi hl hx hh hb hu hd =>
    obtain ⟨sock, hsock, -⟩ := exists_fresh hb w.port.host
    have hq : w.down w.client.mvSocket = [⟨w.port, Parent.announce 0 w.parent.sk⟩] := by
      rw [hd, post_silent, if_pos rfl]
    refine System.exists_move (.clientHear (.take 0) sock true true)
      ⟨⟨.inr rfl, fun _ _ _ => hsock⟩, rfl⟩ ?_
    simp [calm, System.under, system, next, Arrival.recv, hq, Client.step, Client.running,
      Client.receives, hcl, hs]
  | forked hf hs hi hq ha hu hd =>
    refine calm_reads hf.client hs (by omega) ?_
    simp [hd, post_silent]

/-- **The client gets its child.** -/
theorem Connecting.inevitable (hr : (system from_ bufsz winsz .lossy).Reach w) {n : ℕ}
    (hc : w.Connecting n) :
    (calm from_ bufsz winsz).Inevitable (fun t => (system from_ bufsz winsz .lossy).Reach t ∧
      ∃ v, t.Facing v ∧ ∃ m, t.Phase v m) w := by
  refine .of_rank (fun n w => (system from_ bufsz winsz .lossy).Reach w ∧ w.Connecting n) ?_ ?_
    ⟨hr, hc⟩
  · rintro n w ⟨hr, hc⟩
    exact hc.progress
  · rintro n w t ⟨hr, hc⟩ hm
    have hrt := calm_reach hr hm
    exact (hc.step (wf_of_reach hr) hm).imp (And.intro hrt)
      fun ⟨m, hlt, hct⟩ => ⟨m, hlt, hrt, hct⟩

/-- The start of the program is the first of these moments. -/
theorem Start.connecting (h : Start from_ bufsz winsz w) : w.Connecting 6 := by
  obtain ⟨sock, sk, addr, -, hc⟩ := h.client
  refine .request (i := 0) ⟨h.children, ?_, ?_, ?_, ?_, h.up, h.down, h.parent.returned⟩
    (.inl ⟨rfl, by simp [h.bound]⟩)
  · rw [hc]; rfl
  · rw [hc]; rfl
  · rw [hc]; rfl
  · rw [hc]
    change (⟨w.port.host, htons (htons w.port.sinPort)⟩ : Addr) = w.port
    rw [htons_htons]

/-! ## 2. The child opens the file -/

/-- The child has opened the file, the client has yet to hear of it. -/
structure Opened (w : World) (v : Server) (contents : List UInt8) (B W : UInt32) : Prop where
  children : w.children = [v]
  server : Server.DataStart contents B W v
  retries : 0 < v.mvRetries
  mvAddr : v.mvAddr = w.client.mvSocket
  socket : v.mvSocket ≠ w.port
  client : w.client.mvState = .init
  sent : w.client.sent = true
  index : w.client.i = 4
  up : w.up = silent
  down : w.down = post silent w.client.mvSocket v.mvSocket (some (rrpkt 4))

variable {contents : List UInt8}

/-- A child that takes its last packet opens the file. -/
theorem asked_opens (hs : Serves from_ bufsz winsz contents)
    (hr : (system from_ bufsz winsz .lossy).Reach w) (hf : w.Facing v) (hx : w.Facts v)
    {u : Server} {out : Option Packet} {b : List Packet} (hd : w.down = silent)
    (hrt : (system from_ bufsz winsz .lossy).Reach (w.afterChild 0 silent b (u, out)))
    (ht : v.InitTurn (.datagram w.client.mvSocket (w.client.pkt w.client.i)) true u out)
    (hu : (w.afterChild 0 silent b (u, out)).Closing u) :
    (w.afterChild 0 silent b (u, out)).Opened u contents bufsz.toUInt32 winsz.toUInt32 := by
  obtain ⟨h0, h5⟩ := hx.index
  have hkid : v ∈ w.children := by
    rw [hf.children]
    exact List.mem_singleton_self v
  have hkid' : u ∈ (w.afterChild 0 silent b (u, out)).children := by
    rw [hu.children]
    exact List.mem_singleton_self u
  have hi4 : w.client.i = 4 := hu.index
  have hstart (hdata : u.inData) :
      Server.DataStart contents bufsz.toUInt32 winsz.toUInt32 u := by
    obtain ⟨K, hi⟩ := delivers_of_reach hs (reach_unmixed hr)
    obtain ⟨hw0, ho0⟩ := hi.fresh v hkid hf.server
    obtain ⟨hfrom, hbs, hws⟩ := hs.setUp hrt ((told_of_reach hrt).data u hkid' hdata)
    have hst := ht.dataStart hf.server hw0 ho0 hdata
    rwa [hfrom, hbs, hws] at hst
  cases ht with
  | nag hb | gaveUp hb => simp [Recv.bad, Client.pkt_ok h0 h5] at hb
  | fail hfail => simp at hfail
  | old | high => exact absurd hf.server hu.left
  | take => exact absurd ((Server.taken_state ..).trans hf.server) hu.left
  | unopened hok hq hl hfile =>
    have hname := (((told_of_reach hr).init v hkid hf.server).taken w.client.mvSocket
      (Client.own_pkt h0 h5)).fn (Server.flags_of_taken hl).2.2
    rw [hname, (pkt_of_reach hr).2.2, hs.file] at hfile
    simp at hfile
  | @opened src buf content hok hq hl hfile =>
    have hfour : v.mvSequence = 4 := by
      rw [← hq, hi4]
      rfl
    exact
      { children := hu.children, server := hstart (.inl rfl), client := hu.client, sent := hu.sent
        index := hi4, up := hu.up
        retries := by
          rw [Server.taken_retries]
          decide
        mvAddr := Server.taken_addr ..
        socket := by
          rw [Server.taken_socket]
          exact hx.socket
        down := by
          simp only [afterChild, hd, Server.taken_socket, Server.taken_addr, hfour] }

/-- **The exchange ends with the file open.** -/
theorem Phase.opens (hs : Serves from_ bufsz winsz contents)
    (hr : (system from_ bufsz winsz .lossy).Reach w) (hf : w.Facing v) {n : ℕ}
    (hp : w.Phase v n) (hm : (calm from_ bufsz winsz).Move w t) :
    (∃ u, t.Opened u contents bufsz.toUInt32 winsz.toUInt32) ∨
      ∃ u, t.Facing u ∧ ∃ m < n, t.Phase u m := by
  have hx := hf.facts hr
  have hrt := calm_reach hr hm
  have hturn := calm_cases hf.children hm
  rcases hp.step hf hx hturn with ⟨u, hu⟩ | h
  · left
    have hkid : v ∈ w.children := by
      rw [hf.children]
      exact List.mem_singleton_self v
    have hstay : t.children ≠ [v] := by
      intro he
      obtain rfl : v = u := (List.cons.inj (he.symm.trans hu.children)).1
      exact hu.left hf.server
    cases hturn with
    | @parent d l b sock hq =>
      have hc := hu.children
      simp only [afterParent, hf.children, List.singleton_append] at hc
      obtain ⟨rfl, -⟩ := List.cons.inj hc
      exact absurd hf.server hu.left
    | childAct hst => exact absurd hst (no_act hf.server)
    | clientSends | clientHear => exact absurd hf.children hstay
    | @childHear d l v' out hq hst =>
      obtain rfl : v' = u := by
        have hc := hu.children
        simp only [afterChild, hf.children, List.set_cons_zero] at hc
        exact (List.cons.inj hc).1
      cases hp with
      | idle _ hup | rejected _ hup | accepted _ hup => simp [hup, silent] at hq
      | asked hsent hup hdn hxa hle =>
        rw [hup, post_silent, if_pos rfl] at hq
        obtain ⟨rfl, rfl⟩ := List.cons.inj hq
        have ht := Server.initTurn_of_step hf.server hx.loop hst
        rw [hup, update_post_silent] at hu hrt ⊢
        exact ⟨v', asked_opens hs hr hf hx hdn hrt ht hu⟩
  · exact .inr h

/-! ## 3. The transfer -/

/-- The client's half: what it has read so far, and what is on its way to it.  Before it takes the
last acknowledgement (`late`) it is one turn behind. -/
inductive Reads (w : World) (s : Session) : ℕ → Prop
  | late (hc : w.client.mvState = .init) (hsent : w.client.sent = true) (hi : w.client.i = 4)
      (hs : s.client = w.client.entered s.server.mvSocket)
      (hd : w.down w.client.mvSocket = ⟨s.server.mvSocket, rrpkt 4⟩ :: s.toClient) :
      Reads w s 1
  | level (hs : s.client = w.client) (ha : w.client.mvAddr = s.server.mvSocket)
      (hd : w.down w.client.mvSocket = s.toClient) : Reads w s 0

/-- **The program as a session.**  The child and the client are those of the session, and what is
in flight between their sockets is what is in flight there. -/
structure Along (contents : List UInt8) (B W : UInt32) (n : ℕ) (w : World) (s : Session) :
    Prop where
  children : w.children = [s.server]
  socket : s.server.mvSocket ≠ w.port
  mvAddr : s.server.mvAddr = w.client.mvSocket
  idle : w.up w.port = []
  up : w.up s.server.mvSocket = s.toServer
  fromClient : ∀ d ∈ s.toServer, d.src = w.client.mvSocket
  fromServer : ∀ d ∈ s.toClient, d.src = s.server.mvSocket
  reads : w.Reads s n
  calm : Session.Calm contents B W s

variable {B W : UInt32} {s : Session} {n : ℕ}

/-- With the file open the two go along with a session at its start. -/
theorem Opened.along (ho : w.Opened v contents B W) (hto : w.client.mvTo = [])
    (hb : w.client.mvBufferSize = B) :
    Along contents B W 1 w ⟨v, w.client.entered v.mvSocket, [], []⟩ := by
  have hstart : Session.Start contents B W ⟨v, w.client.entered v.mvSocket, [], []⟩ :=
    ⟨ho.server, rfl, rfl, hb, hto, rfl, rfl⟩
  refine
    { children := ho.children, socket := ho.socket, mvAddr := ho.mvAddr
      idle := by simp [ho.up, silent], up := by simp [ho.up, silent]
      fromClient := by simp, fromServer := by simp
      reads := .late ho.client ho.sent ho.index rfl (by simp [ho.down, post_silent])
      calm := ⟨hstart.content, .of_resend hstart.content.numbers ?_ ?_ ?_ rfl rfl, ho.retries, ?_⟩ }
  · simp [Session.abs, Client.entered]
  · simp [Session.abs, Session.mode, ho.server.state]
  · simp [Session.abs, Server.lowest, ho.server.window, ho.server.sequence, ho.server.outBuf,
      lowestOf]
  · exact (by decide : 0 < pktTrnsMax)

/-- A turn of the child. -/
theorem Along.child (hs : Serves from_ bufsz winsz contents)
    (ha : Along contents bufsz.toUInt32 winsz.toUInt32 n w s) {e : Session.Event}
    {ev : Server.Event} {l : List Datagram} {v' : Server} {out : Option Packet}
    {up : Addr → List Datagram} {b : List Packet} (hst : s.server.step ev = some (v', out))
    (hgood : ev.fails = false) (hbad : ∀ r io, ev = .hear r io → r.bad = false)
    (hsrc : ∀ src buf io, ev = .hear (.datagram src buf) io → src = w.client.mvSocket)
    (hl : ∀ d ∈ l, d ∈ s.toServer) (hup : up = Function.update w.up s.server.mvSocket l)
    (he : Session.may .perfect .perfect e ∧ e.writes) (hq : e.quiet = true)
    (hn : s.next e = some (s.afterServer l v' out)) :
    ∃ t', (Session.calm contents bufsz.toUInt32 winsz.toUInt32).Move s t' ∧
      Along contents bufsz.toUInt32 winsz.toUInt32 n (w.afterChild 0 up b (v', out)) t' := by
  obtain ⟨hB, hD, hW⟩ := hs.sizes
  have hm : (Session.calm contents bufsz.toUInt32 winsz.toUInt32).Move s
      (s.afterServer l v' out) := ⟨e, ⟨he, hq⟩, hn⟩
  have hopen : s.client.mvState = .recvPackets := by
    simpa [Session.abs] using ha.calm.smooth.opened
  have hcalm := ((ha.calm.step hB hD hW hs.offsets hm).resolve_left
    (by simp [Session.afterServer, hopen])).1
  have hd : s.server.inData := by
    rcases ha.calm.wf.phase with he | ⟨hd, -⟩
    · simp [Server.step_error he] at hst
    · exact hd
  have ht := Server.step_cases hd hst
  have hk := ht.socket
  have hx : v'.mvAddr = w.client.mvSocket := by
    rcases ht.mvAddr hgood hbad with h | ⟨buf, io, h⟩
    · exact h.trans ha.mvAddr
    · exact hsrc _ _ _ h
  refine ⟨_, hm, ?_⟩
  exact
    { children := by simp [afterChild, ha.children, Session.afterServer]
      socket := by
        change v'.mvSocket ≠ w.port
        rw [hk]
        exact ha.socket
      mvAddr := hx
      idle := by
        change up w.port = []
        rw [hup, Function.update_of_ne ha.socket.symm]
        exact ha.idle
      up := by simp [afterChild, hup, hk, Session.afterServer]
      fromClient := fun d hd => ha.fromClient d (hl d hd)
      fromServer := by
        intro d hd
        rcases List.mem_append.mp hd with hd | hd
        · exact (ha.fromServer d hd).trans hk.symm
        · obtain ⟨p, -, rfl⟩ := List.mem_map.mp hd
          rfl
      reads := by
        have hdown : post w.down v'.mvAddr v'.mvSocket out w.client.mvSocket =
            w.down w.client.mvSocket ++ out.toList.map (Datagram.mk v'.mvSocket) := by
          rw [hx, post, Function.update_self]
        cases ha.reads with
        | late hc hsent hi hs hd =>
          refine .late hc hsent hi (hs.trans (by rw [← hk]; rfl)) (hdown.trans ?_)
          rw [hd, ← hk]
          rfl
        | level hs hx' hd =>
          refine .level hs (hx'.trans hk.symm) (hdown.trans ?_)
          rw [hd]
          rfl
      calm := hcalm }

/-- The client goes over to `RECV_PACKETS`, while the session stands still. -/
theorem Along.leaves (ha : Along contents B W 1 w s) {b : List Addr} {sock : Addr} {c : Client}
    {q : List Datagram} (hi : w.client.i = 4)
    (hs : s.client = w.client.entered s.server.mvSocket)
    (hd : Function.update w.down w.client.mvSocket q w.client.mvSocket = s.toClient)
    (ht : w.client.InitTurn sock (.datagram s.server.mvSocket (rrpkt 4)) true c) :
    Along contents B W 0 (w.afterClient (Function.update w.down w.client.mvSocket q) b (c, none))
      s := by
  have hfour : ((rrpkt 4).sequence.toNat : Int) = 4 := rfl
  cases ht with
  | again hk ha hr =>
    rcases hr with hb | ⟨src, buf, hb, -, -, hne⟩
    · simp [Recv.bad] at hb
    · obtain ⟨-, rfl⟩ := Recv.datagram.inj hb
      omega
  | opens hok hrr hq hi' | switches hok hrr hq hi' | onward hok ho hi' => omega
  | back hok hrej => simp at hrej
  | fail hfail => simp [Recv.bad] at hfail
  | leaves =>
    have hup : (post w.up s.server.mvSocket w.client.mvSocket none) = w.up := post_none ..
    exact
      { children := ha.children, socket := ha.socket, mvAddr := ha.mvAddr
        idle := (congrFun hup _).trans ha.idle, up := (congrFun hup _).trans ha.up
        fromClient := ha.fromClient, fromServer := ha.fromServer, calm := ha.calm
        reads := .level hs rfl hd }

/-- A turn of the client in `RECV_PACKETS`. -/
theorem Along.client (hs : Serves from_ bufsz winsz contents)
    (ha : Along contents bufsz.toUInt32 winsz.toUInt32 0 w s) {d : Datagram} {l : List Datagram}
    {b : List Addr} {sock : Addr} {c : Client} {out : Option Packet} (hc : s.client = w.client)
    (hx : w.client.mvAddr = s.server.mvSocket) (hd : w.down w.client.mvSocket = s.toClient)
    (hq : w.down w.client.mvSocket = d :: l)
    (hst : w.client.step (.hear (.datagram d.src d.pkt) sock true true) = some (c, out)) :
    (c.mvState = .done ∧ c.mvTo = contents) ∨
      ∃ t', (Session.calm contents bufsz.toUInt32 winsz.toUInt32).Move s t' ∧
        Along contents bufsz.toUInt32 winsz.toUInt32 0
          (w.afterClient (Function.update w.down w.client.mvSocket l) b (c, out)) t' := by
  obtain ⟨hB, hD, hW⟩ := hs.sizes
  have hopen : w.client.mvState = .recvPackets := by
    rw [← hc]
    simpa [Session.abs] using ha.calm.smooth.opened
  have hdl : s.toClient = d :: l := hd.symm.trans hq
  have hm : (Session.calm contents bufsz.toUInt32 winsz.toUInt32).Move s
      (s.afterClient l c out) := by
    refine ⟨.clientHear (.take 0) true true, ⟨⟨.inr rfl, rfl⟩, rfl⟩, ?_⟩
    have hst' : s.client.step (.hear (.datagram d.src d.pkt) s.client.sk true true)
        = some (c, out) := by
      rw [hc, ← hst]
      simp [Client.step, hopen]
    simp [Session.calm, System.under, Session.transfer, Session.next, Arrival.recv, hdl, hst']
  refine (ha.calm.step hB hD hW hs.offsets hm).imp id ?_
  rintro ⟨hcalm, -⟩
  have ht := (Client.step_cases (by simp [hopen]) hst).2
  have hk : c.mvSocket = w.client.mvSocket := ht.socket
  have hsrc : d.src = s.server.mvSocket := ha.fromServer d (by simp [hdl])
  have haddr : c.mvAddr = s.server.mvSocket := by
    obtain ⟨hi, -⟩ | ⟨-, he⟩ := Client.step_hear hst
    · simp [hopen] at hi
    have h := w.client.recvPackets_addr (.datagram d.src d.pkt) true true
    rw [← he] at h
    rcases h with h | ⟨buf, h⟩
    · exact h.trans hx
    · exact (Recv.datagram.inj h).1.symm.trans hsrc
  have hup : (w.afterClient (Function.update w.down w.client.mvSocket l) b (c, out)).up =
      post w.up s.server.mvSocket w.client.mvSocket out := by
    simp only [afterClient, haddr, hk]
  refine ⟨_, hm, ?_⟩
  exact
    { children := ha.children, socket := ha.socket, mvAddr := ha.mvAddr.trans hk.symm
      idle := by
        rw [hup]
        exact (Function.update_of_ne ha.socket.symm ..).trans ha.idle
      up := by
        rw [hup]
        simp [post, ha.up, Session.afterClient, hk]
      fromClient := by
        intro d' hd'
        rcases List.mem_append.mp hd' with hd' | hd'
        · exact (ha.fromClient d' hd').trans hk.symm
        · obtain ⟨p, -, rfl⟩ := List.mem_map.mp hd'
          rfl
      fromServer := fun d' hd' => ha.fromServer d' (hdl ▸ List.mem_cons_of_mem _ hd')
      reads := .level rfl haddr (by
        simp only [afterClient, hk]
        exact Function.update_self ..)
      calm := hcalm }

/-- **Every step of the program** ends the transfer, or goes with a step of the session, or is the
one by which the client goes over to `RECV_PACKETS`. -/
theorem Along.step (hs : Serves from_ bufsz winsz contents)
    (ha : Along contents bufsz.toUInt32 winsz.toUInt32 n w s)
    (hm : (World.calm from_ bufsz winsz).Move w t) :
    (t.client.mvState = .done ∧ t.client.mvTo = contents) ∨
      (∃ m < n, Along contents bufsz.toUInt32 winsz.toUInt32 m t s) ∨
      ∃ m t', (Session.calm contents bufsz.toUInt32 winsz.toUInt32).Move s t' ∧
        Along contents bufsz.toUInt32 winsz.toUInt32 m t t' := by
  cases calm_cases ha.children hm with
  | parent hq => simp [ha.idle] at hq
  | @childAct v' out b hst =>
    refine .inr (.inr ⟨n, ha.child hs (l := s.toServer) (e := .serverAct true)
      hst rfl (by simp) (by simp) (fun _ h => h) ?_ ⟨trivial, trivial⟩ rfl ?_⟩)
    · rw [← ha.up, Function.update_eq_self]
    · simp [Session.next, hst]
  | @childHear d l v' out hq hst =>
    have hdl : s.toServer = d :: l := ha.up.symm.trans hq
    have hmem : d ∈ s.toServer := hdl ▸ List.mem_cons_self
    refine .inr (.inr ⟨n, ha.child hs (e := .serverHear (.take 0) true) hst rfl ?_ ?_ ?_ rfl
      ⟨.inr rfl, trivial⟩ rfl ?_⟩)
    · rintro r io he
      obtain ⟨rfl, -⟩ := Server.Event.hear.inj he
      simp [Recv.bad, (ha.calm.wf.toServer d hmem).1]
    · rintro src buf io he
      obtain ⟨he, -⟩ := Server.Event.hear.inj he
      obtain ⟨rfl, -⟩ := Recv.datagram.inj he
      exact ha.fromClient d hmem
    · exact fun d' hd' => hdl ▸ List.mem_cons_of_mem _ hd'
    · simp [Session.next, Arrival.recv, hdl, hst]
  | clientSends hs' hsent =>
    cases ha.reads with
    | late hc hsent' => simp [hsent] at hsent'
    | level hc =>
      have hopen : s.client.mvState = .recvPackets := by
        simpa [Session.abs] using ha.calm.smooth.opened
      rw [hc, hs'] at hopen
      simp at hopen
  | clientHear hq hst =>
    cases ha.reads with
    | late hc hsent hi hs' hd =>
      rw [hd] at hq
      obtain ⟨rfl, rfl⟩ := List.cons.inj hq
      obtain ⟨-, rfl, ht⟩ := Client.initTurn_of_step hc (by omega) hst
      exact .inr (.inl ⟨0, Nat.one_pos, ha.leaves hi hs' (Function.update_self ..) ht⟩)
    | level hc hx hd =>
      exact (ha.client hs hc hx hd hq hst).imp id fun h => .inr ⟨0, h⟩

/-- **As long as the session goes on, so does the program.** -/
theorem Along.progress (ha : Along contents B W n w s)
    (hm : ∃ t', (Session.calm contents B W).Move s t') :
    ∃ t, (World.calm from_ bufsz winsz).Move w t := by
  have hopen : s.client.mvState = .recvPackets := by
    simpa [Session.abs] using ha.calm.smooth.opened
  obtain ⟨t', e, ⟨⟨hk, -⟩, hq⟩, hn⟩ := hm
  cases e with
  | serverAct io =>
    obtain ⟨⟨v', out⟩, hst, -⟩ := Option.map_eq_some_iff.mp hn
    refine System.exists_move (.childAct 0 io) ⟨trivial, hq⟩ ?_
    simp [World.calm, System.under, system, next, ha.children, hst]
  | serverHear a io =>
    obtain ⟨⟨r, l⟩, har, hn⟩ := Option.bind_eq_some_iff.mp hn
    obtain ⟨⟨v', out⟩, hst, -⟩ := Option.map_eq_some_iff.mp hn
    refine System.exists_move (.childHear 0 a io) ⟨hk, hq⟩ ?_
    simp [World.calm, System.under, system, next, ha.children, ha.up, har, hst]
  | clientHear a wr io =>
    obtain ⟨⟨r, l⟩, har, hn⟩ := Option.bind_eq_some_iff.mp hn
    obtain ⟨⟨c, out⟩, hst, -⟩ := Option.map_eq_some_iff.mp hn
    cases ha.reads with
    | late hc hsent hi hs hd => exact calm_reads hc hsent (by omega) (by simp [hd])
    | level hc hx hd =>
      rw [hc] at hst hopen
      refine System.exists_move (.clientHear a w.client.sk wr io) ⟨⟨hk, ?_⟩, hq⟩ ?_
      · intro x _ ho
        cases hr : x.1 <;> simp [Client.opensOn, hopen, hr] at ho
      · simp [World.calm, System.under, system, next, hd, har, hst]
  | _ => simp [Session.Event.quiet] at hq

/-- With the file open, the transfer comes to its end. -/
theorem Opened.inevitable (hs : Serves from_ bufsz winsz contents)
    (hr : (system from_ bufsz winsz .lossy).Reach w)
    (ho : w.Opened v contents bufsz.toUInt32 winsz.toUInt32) :
    (calm from_ bufsz winsz).Inevitable
      (fun t => t.client.mvState = .done ∧ t.client.mvTo = contents) w := by
  obtain ⟨hB, hD, hW⟩ := hs.sizes
  obtain ⟨K, hi⟩ := delivers_of_reach hs (reach_unmixed hr)
  have hcop := (hi.client.copied (by simp [ho.client])).1
  have hto : w.client.mvTo = [] := by simp [hcop.output, hi.client.fresh ho.client]
  have ha := ho.along hto hcop.bufferSize
  refine .of_sim (Along contents bufsz.toUInt32 winsz.toUInt32) ?_ ?_ ?_ ha
    (ha.calm.inevitable hB hD hW hs.offsets)
  · rintro n w s ha ⟨hdone, -⟩
    have hopen : s.client.mvState = .recvPackets := by
      simpa [Session.abs] using ha.calm.smooth.opened
    simp [hdone] at hopen
  · exact fun n w s ha hm => ha.progress hm
  · exact fun n w s t ha hm => ha.step hs hm

/-! ## 4. The whole program -/

/-- An exchange comes to the open file. -/
theorem Phase.inevitable_opened (hs : Serves from_ bufsz winsz contents)
    (hr : (system from_ bufsz winsz .lossy).Reach w) (hf : w.Facing v) (hp : w.Phase v n) :
    (calm from_ bufsz winsz).Inevitable (fun t => (system from_ bufsz winsz .lossy).Reach t ∧
      ∃ u, t.Opened u contents bufsz.toUInt32 winsz.toUInt32) w := by
  refine .of_rank (fun n w => (system from_ bufsz winsz .lossy).Reach w ∧
    ∃ v, w.Facing v ∧ w.Phase v n) ?_ ?_ ⟨hr, v, hf, hp⟩
  · rintro n w ⟨hr, v, hf, hp⟩
    exact hp.progress hf (hf.facts hr)
  · rintro n w t ⟨hr, v, hf, hp⟩ hm
    refine (hp.opens hs hr hf hm).imp (And.intro (calm_reach hr hm)) ?_
    rintro ⟨u, hu, m, hlt, hpu⟩
    exact ⟨m, hlt, calm_reach hr hm, u, hu, hpu⟩

/-- **The file arrives.**  The server has the file, the sizes are in range.  From the start of the
program on, as long as datagrams are delivered in order and unharmed, no timeout fires and no call
fails, every run, in whatever order server, child and client take their turns, ends with the client
done and the whole file in its output. -/
theorem all_delivered (from_ : List UInt8) (bufsz winsz : Int32) (contents : List UInt8)
    (hs : Serves from_ bufsz winsz contents) (w : World) (h : Start from_ bufsz winsz w) :
    (calm from_ bufsz winsz).Inevitable
      (fun t => t.client.mvState = .done ∧ t.client.mvTo = contents) w := by
  have hr : (system from_ bufsz winsz .lossy).Reach w := .start h
  refine (h.connecting.inevitable hr).trans ?_
  rintro t ⟨hrt, v, hf, m, hp⟩
  refine (hp.inevitable_opened hs hrt hf).trans ?_
  rintro u ⟨hru, v', ho⟩
  exact ho.inevitable hs hru

end World

end Fileserver

namespace Fileserver

open Proto

namespace World

local instance endToEndHost : Host := refHost [1, 2, 3]

/-- Three bytes in packets of two. -/
theorem all_delivered_three :
    (calm [0x66] 2 3).Inevitable
      (fun t => t.client.mvState = .done ∧ t.client.mvTo = [1, 2, 3]) (atStart [0x66] 2 3) :=
  all_delivered [0x66] 2 3 [1, 2, 3] (by refine ⟨?_, ?_, ?_, ?_⟩ <;> decide +kernel) _
    (atStart_start _ _ _)

end World

end Fileserver
