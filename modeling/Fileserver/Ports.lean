/-
# The announced port

Every `CXN` has the parent open a socket of its own and announce it, and the parent forks with
the socket it opened LAST, while the client goes to the one in the announcement that reached it
first.  The two are the same as long as the client's announcement is that of the last socket and
no `CXN` is taken behind it (`Announced`); `port_agreement` proves it, and `not_port_agreement`
is a run with a retransmitted `CXN` in which they are not.

`Ports` says what the three processes mean by the announced socket.  That the client keeps to it
is a matter of who else can reach the socket it has opened: nobody has heard of this socket before
the client uses it, and the client uses it to write to the child only (`Paths`).
-/
import Fileserver.Established
import Fileserver.Peers
import Fileserver.Sent

namespace Fileserver

open Proto

variable [Host]

/-- A packet that announces the port of `sock`, if it is one that announces a port. -/
def Recv.announces (sock : Addr) : Recv → Bool
  | .datagram _ buf => decide (buf.size = htons sock.sinPort)
  | _ => true

/-- The client has gone over to the socket it opened for the announced address. -/
def Client.Switched (c : Client) : Prop := c.skSet = true ∧ c.mvSocket = c.sk

/-- The pending socket behind a turn: that of a `CXN`, or the one before. -/
theorem Parent.run_sk (p : Parent) (a : Addr) {q : Packet} (sock : Addr) (forks io : Bool)
    (hok : q.ok = true) :
    (p.run a q sock forks io).1.sk = if q.type = pktTypeCXN then sock else p.sk := by
  unfold run send
  split_ifs <;> simp_all

/-- Behind `init`, nothing changes what the client was told of its connection. -/
theorem Client.Turn.connection {c c' : Client} {r : Recv} {wr io : Bool} {out : Option Packet}
    (h : c.Turn r wr io c' out) : c'.i = c.i ∧ c'.skSet = c.skSet ∧ c'.addr = c.addr := by
  cases h <;> exact ⟨rfl, rfl, rfl⟩

/-- With the `RR` for its `CXN` the client calls `GetSocket`. -/
theorem Client.opensOn_rr {c : Client} {src : Addr} {buf : Packet} (hs : c.mvState = .init)
    (hok : buf.ok = true) (ht : buf.type = pktTypeRR) (hq : buf.sequence.toNat = 0)
    (hi : c.i = 0) : c.opensOn (.datagram src buf) = true := by
  have hnum : buf.sequence = UInt32.ofInt 0 := UInt32.toNat_inj.mp hq
  have htype : (c.pkt 0).type = pktTypeCXN := rfl
  simp [opensOn, opens, hs, hok, ht, hi, hnum, htype]

namespace World

variable {n : Link} {w t : World} {e : Event}

/-! ## 1. What the announcement means -/

/-- The announcement the client takes is that of the socket the parent opened last, and once it
has taken one the parent takes no `CXN` any more. -/
def Announced (w : World) : Event → Prop
  | .parentHear a _ _ _ =>
    ∀ x ∈ a.recv (w.up w.port), Parent.opensOn x.1 = true → w.client.i = 0
  | .clientHear a _ _ _ =>
    ∀ x ∈ a.recv (w.down w.client.mvSocket), w.client.opensOn x.1 = true →
      x.1.announces w.parent.sk = true
  | _ => True

instance (w : World) : DecidablePred w.Announced
  | .parentHear a _ _ _ =>
    inferInstanceAs (Decidable (∀ x ∈ a.recv (w.up w.port), Parent.opensOn x.1 = true →
      w.client.i = 0))
  | .clientHear a _ _ _ =>
    inferInstanceAs (Decidable (∀ x ∈ a.recv (w.down w.client.mvSocket),
      w.client.opensOn x.1 = true → x.1.announces w.parent.sk = true))
  | .childAct .. | .childHear .. | .clientAct _ | .loseUp .. | .dupUp .. | .loseDown ..
  | .dupDown .. => inferInstanceAs (Decidable True)

/-- The socket the parent opened last is on the server's machine, and is not the parent's own. -/
def Offered (w : World) : Prop := w.parent.sk.host = w.port.host ∧ w.parent.sk ≠ w.port

/-- **What the announcement means.**  The client has one exactly if it is past its first packet;
then parent, children and client mean the same socket.  It is one of the server's as soon as it
counts. -/
structure Ports (w : World) : Prop where
  index : w.client.skSet = true → 1 ≤ w.client.i
  set : w.client.i ≠ 0 → w.client.skSet = true
  addr : w.client.skSet = true → w.client.addr = w.parent.sk
  children : w.client.skSet = true → ∀ v ∈ w.children, v.mvSocket = w.parent.sk
  offered : w.client.skSet = true → w.Offered
  pending : w.parent.cxn2 = true → w.Offered
  forked : w.children ≠ [] → w.Offered
  down : w.client.mvState = .init → ∀ x, ∀ d ∈ w.down x, w.Offered

omit [Host] in
/-- A turn of a child. -/
theorem Ports.child (hi : w.Ports) {k : ℕ} {v v' : Server} {up : Addr → List Datagram}
    {b : List Packet} {out : Option Packet} (hk : w.children[k]? = some v)
    (hs : v'.mvSocket = v.mvSocket) : (w.afterChild k up b (v', out)).Ports := by
  have hv := List.mem_of_getElem? hk
  have hhost := hi.forked (List.ne_nil_of_mem hv)
  refine { hi with children := ?_, forked := fun _ => hhost, down := ?_ }
  · exact fun hc => forall_set (hi.children hc) (hs.trans (hi.children hc v hv))
  · exact fun _ _ _ _ => hhost

/-- A turn of the parent. -/
theorem Ports.parent (hi : w.Ports) (ho : w.client.mvState = .init → w.Opening)
    {src sock : Addr} {forks io : Bool} {buf : Packet} {l : List Datagram} {b : List Addr}
    (hn : buf.type = pktTypeCXN → sock.host = w.port.host ∧ sock ≠ w.port)
    (h0 : buf.type = pktTypeCXN → w.client.i = 0) (hok : buf.ok = true)
    (hm : ⟨src, buf⟩ ∈ w.up w.port) :
    (w.afterParent src l b (w.parent.run src buf sock forks io)).Ports := by
  have hport := port_afterParent w src src l b sock buf forks io
  have hsk : (w.afterParent src l b (w.parent.run src buf sock forks io)).parent.sk =
      if buf.type = pktTypeCXN then sock else w.parent.sk :=
    w.parent.run_sk src sock forks io hok
  by_cases ht : buf.type = pktTypeCXN
  · -- the client has no announcement yet
    have hno : ¬ w.client.skSet = true := fun h => by
      have := hi.index h
      have := h0 ht
      omega
    have hoffered : (w.afterParent src l b (w.parent.run src buf sock forks io)).Offered := by
      unfold Offered
      rw [hsk, if_pos ht, hport]
      exact hn ht
    exact
      { index := hi.index
        set := hi.set
        addr := fun h => absurd h hno
        children := fun h => absurd h hno
        offered := fun _ => hoffered
        pending := fun _ => hoffered
        forked := fun _ => hoffered
        down := fun _ _ _ _ => hoffered }
  · rw [if_neg ht] at hsk
    have hkid {v : Server} (hv : v ∈ (w.parent.run src buf sock forks io).2.2.toList) :
        w.parent.cxn2 = true ∧ v.mvSocket = w.parent.sk := by
      obtain ⟨-, hx, rfl⟩ := Parent.run_child (Option.mem_toList.mp hv)
      exact ⟨hx, rfl⟩
    have hoffered (h : w.Offered) :
        (w.afterParent src l b (w.parent.run src buf sock forks io)).Offered := by
      unfold Offered
      rw [hsk, hport]
      exact h
    constructor
    · exact hi.index
    · exact hi.set
    · rw [hsk]
      exact hi.addr
    · rw [hsk]
      intro hc v hv
      rcases List.mem_append.mp hv with hv | hv
      · exact hi.children hc v hv
      · exact (hkid hv).2
    · exact fun hc => hoffered (hi.offered hc)
    · intro hx
      rcases Parent.run_pending hx with ⟨hcxn, -⟩ | ⟨hx, -⟩
      · exact absurd hcxn ht
      · exact hoffered (hi.pending hx)
    · intro hne
      obtain ⟨v, hv⟩ := List.exists_mem_of_ne_nil _ hne
      rcases List.mem_append.mp hv with hv | hv
      · exact hoffered (hi.forked (List.ne_nil_of_mem hv))
      · exact hoffered (hi.pending (hkid hv).1)
    · intro hs x d hd
      rcases mem_post.mp hd with hd | ⟨-, p, hp, -⟩
      · exact hoffered (hi.down hs x d hd)
      · rcases Parent.run_out hp with hcxn | hx | hrej
        · exact absurd hcxn ht
        · exact hoffered (hi.pending hx)
        · obtain ⟨j, hj0, hj5, hj, -⟩ := (ho hs).up _ _ hm
          obtain rfl : buf = w.client.pkt j := hj
          exact absurd hrej (Client.pkt_type_rej hj0 hj5)

/-- The first reply the client in `init` takes is the announcement. -/
theorem Opening.first_onward (ho : w.Opening) (hi : w.client.i = 0) {src : Addr} {buf : Packet}
    {x : Addr} (hx : ⟨src, buf⟩ ∈ w.down x) : ¬ w.client.Onward buf := by
  have hnil := (ho.first hi).1
  have hno (q : ℕ) : ¬ w.Reached q := by
    rintro ⟨v, hv, -⟩
    simp [hnil] at hv
  rintro (⟨-, -, h2⟩ | ⟨hrej, -⟩ | ⟨h1, h2⟩)
  · omega
  · exact hno _ ((ho.down x _ hx).of_rej hrej).2.2
  · exact hno _ (((ho.down x _ hx).of_other h1 h2).2 0)

/-- A turn of the client in `init`. -/
theorem Ports.clientInit (hi : w.Ports) (hw : w.Wf) (ho : w.Opening)
    (hs : w.client.mvState = .init) {sock : Addr} {r : Recv} {io : Bool} {c : Client}
    {down : Addr → List Datagram} {bound : List Addr} (h : w.client.InitTurn sock r io c)
    (hd : ∀ x, ∀ d ∈ down x, d ∈ w.down x)
    (hr : ∀ src buf, r = .datagram src buf → ∃ x, ⟨src, buf⟩ ∈ w.down x)
    (hb : w.client.opensOn r = true → r.announces w.parent.sk = true) :
    (w.afterClient down bound (c, none)).Ports := by
  obtain ⟨h0, -, -⟩ := hw.client hs
  -- a turn that leaves the connection alone
  have hkeep {c : Client} (hc : c.skSet = w.client.skSet) (ha : c.addr = w.client.addr)
      (hx : w.client.skSet = true → 1 ≤ c.i) (hz : c.i ≠ 0 → w.client.i ≠ 0) :
      (w.afterClient down bound (c, none)).Ports :=
    { index := fun h => hx (hc ▸ h)
      set := fun h => hc.trans (hi.set (hz h))
      addr := fun h => ha.trans (hi.addr (hc ▸ h))
      children := fun h => hi.children (hc ▸ h)
      offered := fun h => hi.offered (hc ▸ h)
      pending := hi.pending
      forked := hi.forked
      down := fun _ x d h => hi.down hs x d (hd x d h) }
  cases h with
  | again | fail => exact hkeep rfl rfl hi.index id
  | switches hok hrr hq hi1 => exact hkeep rfl rfl (fun _ => by simp) fun _ => by omega
  | leaves hok hon hi4 => exact hkeep rfl rfl (fun _ => by simp) fun _ => by omega
  | @onward src buf _ hok hon hlt =>
    obtain ⟨x, hx⟩ := hr src buf rfl
    exact hkeep rfl rfl (fun _ => by dsimp only; omega) fun _ hz => ho.first_onward hz hx hon
  | @back src buf _ hok hrej hq =>
    obtain ⟨x, hx⟩ := hr src buf rfl
    have hlow := ((ho.down x _ hx).of_rej hrej).1
    dsimp only at hlow
    exact hkeep rfl rfl (fun _ => by dsimp only; omega) fun _ => by omega
  | @opens src buf hok hrr hq hi0 =>
    obtain ⟨x, hx⟩ := hr src buf rfl
    have hsize : buf.size = htons w.parent.sk.sinPort := by
      simpa [Recv.announces] using hb (Client.opensOn_rr hs hok hrr hq hi0)
    refine
      { index := fun _ => by simp [afterClient], set := fun _ => rfl, addr := ?_, children := ?_
        offered := fun _ => hi.down hs x _ hx, pending := hi.pending, forked := hi.forked
        down := fun _ x d h => hi.down hs x d (hd x d h) }
    · intro _
      have hhost := (hi.down hs x _ hx).1.trans hw.remote.symm
      simp only [afterClient, hsize, htons_htons]
      rw [← hhost]
    · intro _ v hv
      have hv : v ∈ w.children := hv
      simp [(ho.first hi0).1] at hv

theorem Ports.step (hg : n.garbles = false) (hi : w.Ports) (hw : w.Wf)
    (ho : w.client.mvState = .init → w.Opening) (hb : w.Announced e) (h : Turn n w e t) :
    t.Ports := by
  cases h with
  | parentStops => exact { hi with }
  | parentDrops hok ha hs =>
    rw [afterParent_drop]
    exact { hi with }
  | @parent a sock src forks io buf l hn hok ha ht =>
    refine hi.parent ho (fun hc => ⟨(hn hc).2, fun hp => (hn hc).1 (hp ▸ hw.bound)⟩) ?_ hok ht.mem
    intro hc
    exact hb _ (Option.mem_def.mpr ha) (by simp [Parent.opensOn, hok, hc])
  | childAct hk hd ht | childHear hk hd hal ha ht => exact hi.child hk ht.socket
  | childInit hk hs hal ha ht =>
    exact hi.child hk (ht.stays (hw.loop _ (List.mem_of_getElem? hk) hs)).2.2.2
  | clientSends hs hsent => exact { hi with }
  | clientStops hs => exact { hi with down := by simp [afterClient] }
  | clientInit hn hs hsent hal ha ht =>
    refine hi.clientInit hw (ho hs) hs ht
      (fun _ _ h => mem_update (fun _ => (Arrival.recv_shed hal ha).sub) h) ?_
      (hb _ (Option.mem_def.mpr ha))
    rintro src buf rfl
    exact ⟨_, (Arrival.recv_clean hg hal ha).mem⟩
  | clientHear hs hal ha ht =>
    obtain ⟨h1, h2, h3⟩ := ht.connection
    exact
      { index := fun h => by rw [afterClient, h1]; exact hi.index (h2 ▸ h)
        set := fun h => h2.trans (hi.set (h1 ▸ h))
        addr := fun h => h3.trans (hi.addr (h2 ▸ h))
        children := fun h => hi.children (h2 ▸ h)
        offered := fun h => hi.offered (h2 ▸ h)
        pending := hi.pending
        forked := hi.forked
        down := fun hc => by cases ht <;> simp [afterClient, Client.accepted, hs] at hc }
  | noiseUp hn => exact { hi with }
  | noiseDown hn =>
    exact { hi with down := fun hs x d h => hi.down hs x d (mem_update (fun _ => hn.sub) h) }

theorem ports_of_reach {from_ : List UInt8} {bufsz winsz : Int32} (hg : n.garbles = false)
    (h : ((system from_ bufsz winsz n).under Announced).Reach w) : w.Ports := by
  refine h.invariant (I := Ports) ?_ ?_
  · intro w h0
    obtain ⟨sock, sk, addr, -, hc⟩ := Start.client h0
    have hx := (Start.parent h0).cxn2
    constructor <;> simp [hc, Client.rcopy, Start.children h0, Start.down h0, hx]
  · intro w e t hr hi hm hn
    have hr' := hr.of_under
    have hw := wf_of_reach hr'
    exact hi.step hg hw (opening_of_reach hg hr') hm.2 (next_cases hw hm.1 hn)

/-! ## 2. Who reaches the client -/

/-- **The paths.**  Before the switch all that is sent comes from the client's first socket or goes
there; behind it none but the child writes to the new socket, and the client to none but the
child. -/
structure Paths (w : World) : Prop where
  bound : w.client.skSet = false → w.client.mvSocket ∈ w.bound
  before : ¬ w.client.Switched →
    (∀ x, ∀ d ∈ w.up x, d.src = w.client.mvSocket) ∧
      (∀ x, ∀ d ∈ w.down x, x = w.client.mvSocket) ∧
      ∀ v ∈ w.children, v.mvAddr = w.client.mvSocket
  behind : w.client.Switched →
    w.client.mvAddr = w.client.addr ∧
      (∀ d ∈ w.down w.client.mvSocket, d.src = w.client.addr) ∧
      ∀ d ∈ w.up w.port, d.src ≠ w.client.mvSocket

omit [Host] in
/-- A step of the others. -/
theorem Paths.others (hi : w.Paths) (hc : t.client = w.client) (hport : t.port = w.port)
    (hb : ∀ x ∈ w.bound, x ∈ t.bound) (hup : ∀ x, ∀ d ∈ t.up x, d ∈ w.up x)
    (hdown : ∀ x, ∀ d ∈ t.down x, d ∈ w.down x ∨
      (¬ w.client.Switched → x = w.client.mvSocket) ∧
        (w.client.Switched → x = w.client.mvSocket → d.src = w.client.addr))
    (hkids : ¬ w.client.Switched → ∀ v ∈ t.children, v.mvAddr = w.client.mvSocket) : t.Paths := by
  constructor
  · rw [hc]
    exact fun hs => hb _ (hi.bound hs)
  · rw [hc]
    intro hs
    obtain ⟨h1, h2, -⟩ := hi.before hs
    refine ⟨fun x d hd => h1 x d (hup x d hd), ?_, hkids hs⟩
    intro x d hd
    rcases hdown x d hd with hd | ⟨hx, -⟩
    · exact h2 x d hd
    · exact hx hs
  · rw [hc, hport]
    intro hs
    obtain ⟨h1, h2, h3⟩ := hi.behind hs
    refine ⟨h1, ?_, fun d hd => h3 d (hup _ d hd)⟩
    intro d hd
    rcases hdown _ d hd with hd | ⟨-, hx⟩
    · exact h2 d hd
    · exact hx hs rfl

/-- A turn of the parent. -/
theorem Paths.parent (hi : w.Paths) {src sock : Addr} {forks io : Bool} {buf : Packet}
    {l : List Datagram} {b : List Addr} (hb : ∀ x ∈ w.bound, x ∈ b)
    (hm : ⟨src, buf⟩ ∈ w.up w.port) (hl : ∀ d ∈ l, d ∈ w.up w.port) :
    (w.afterParent src l b (w.parent.run src buf sock forks io)).Paths := by
  refine hi.others rfl (port_afterParent ..) hb (fun x d hd => mem_update hl hd) ?_ ?_
  · intro x d hd
    rcases mem_post.mp hd with hd | ⟨rfl, -⟩
    · exact .inl hd
    · exact .inr ⟨fun hs => (hi.before hs).1 _ _ hm,
        fun hs hx => absurd hx ((hi.behind hs).2.2 _ hm)⟩
  · intro hs
    exact forall_fork (hi.before hs).2.2 ((hi.before hs).1 _ _ hm)

omit [Host] in
/-- A turn of a child. -/
theorem Paths.child (hi : w.Paths) (hp : w.Ports) {k : ℕ} {v v' : Server}
    {up : Addr → List Datagram} {b : List Packet} {out : Option Packet}
    (hk : w.children[k]? = some v) (hs : v'.mvSocket = v.mvSocket)
    (hup : ∀ x, ∀ d ∈ up x, d ∈ w.up x)
    (ha : v'.mvAddr = v.mvAddr ∨ ∃ x, ∃ d ∈ w.up x, v'.mvAddr = d.src) :
    (w.afterChild k up b (v', out)).Paths := by
  have hv := List.mem_of_getElem? hk
  -- before the switch the child has heard of one socket only
  have haddr (hn : ¬ w.client.Switched) : v'.mvAddr = w.client.mvSocket := by
    obtain ⟨h1, -, h3⟩ := hi.before hn
    rcases ha with ha | ⟨x, d, hd, ha⟩
    · exact ha.trans (h3 v hv)
    · exact ha.trans (h1 x d hd)
  refine hi.others rfl rfl (fun _ h => h) hup ?_ ?_
  · intro x d hd
    rcases mem_post.mp hd with hd | ⟨rfl, p, -, rfl⟩
    · exact .inl hd
    · refine .inr ⟨haddr, fun hsw _ => ?_⟩
      rw [hp.addr hsw.1, ← hp.children hsw.1 v hv]
      exact hs
  · exact fun hn => forall_set (hi.before hn).2.2 (haddr hn)

omit [Host] in
/-- Behind the switch the client hears the child only. -/
theorem Paths.hears (hi : w.Paths) (hs : w.client.Switched) {a : Addr}
    (ha : a = w.client.mvAddr ∨ ∃ d ∈ w.down w.client.mvSocket, a = d.src) :
    a = w.client.addr := by
  obtain ⟨h1, h2, -⟩ := hi.behind hs
  rcases ha with ha | ⟨d, hx, ha⟩
  · exact ha.trans h1
  · exact ha.trans (h2 d hx)

omit [Host] in
/-- A turn of the client that keeps to its socket and to what it was told. -/
theorem Paths.client (hi : w.Paths) (hp : w.Ports) {c : Client} {down : Addr → List Datagram}
    {bound : List Addr} {out : Option Packet} (hb : ∀ x ∈ w.bound, x ∈ bound)
    (hd : ∀ x, ∀ d ∈ down x, d ∈ w.down x) (hsock : c.mvSocket = w.client.mvSocket)
    (hset : c.skSet = w.client.skSet) (hsk : c.sk = w.client.sk) (haddr : c.addr = w.client.addr)
    (ha : w.client.Switched → c.mvAddr = w.client.addr) :
    (w.afterClient down bound (c, out)).Paths := by
  have hsw : c.Switched ↔ w.client.Switched := by
    unfold Client.Switched
    rw [hset, hsock, hsk]
  refine ⟨fun hc => ?_, fun hn => ?_, fun hc => ?_⟩
  · exact hsock ▸ hb _ (hi.bound (hset ▸ hc))
  · obtain ⟨h1, h2, h3⟩ := hi.before (mt hsw.mpr hn)
    refine ⟨?_, fun x d h => (h2 x d (hd x d h)).trans hsock.symm,
      fun v hv => (h3 v hv).trans hsock.symm⟩
    intro x d hx
    rcases mem_post.mp hx with hx | ⟨-, p, -, rfl⟩
    · exact (h1 x d hx).trans hsock.symm
    · rfl
  · have hs := hsw.mp hc
    obtain ⟨-, h2, h3⟩ := hi.behind hs
    have hpeer := ha hs
    refine ⟨hpeer.trans haddr.symm, ?_, ?_⟩
    · intro d hx
      simp only [afterClient, hsock] at hx
      exact (h2 d (hd _ d hx)).trans haddr.symm
    · intro d hx
      rcases mem_post.mp hx with hx | ⟨hport, -⟩
      · simp only [afterClient, hsock]
        exact h3 d hx
      · -- the client's peer is not the parent
        have hne := (hp.offered hs.1).2
        rw [← hp.addr hs.1, ← hpeer] at hne
        exact absurd hport.symm hne

/-- A turn of the client in `init`. -/
theorem Paths.clientInit (hi : w.Paths) (hp : w.Ports) (hs : w.client.mvState = .init)
    {sock : Addr} {r : Recv} {io : Bool} {c : Client} {down : Addr → List Datagram}
    (h : w.client.InitTurn sock r io c) (hd : ∀ x, ∀ d ∈ down x, d ∈ w.down x)
    (hn : w.client.opensOn r = true → sock ∉ w.bound)
    (ha : c.mvSocket = w.client.mvSocket ∧
        (c.mvAddr = w.client.mvAddr ∨ ∃ d ∈ w.down w.client.mvSocket, c.mvAddr = d.src) ∨
      c.mvSocket = w.client.sk ∧ c.mvAddr = w.client.addr) :
    (w.afterClient down (w.bind (w.client.opensOn r) sock) (c, none)).Paths := by
  have hpeer (hc : w.client.Switched) : c.mvAddr = w.client.addr := by
    rcases ha with ⟨-, ha⟩ | ⟨-, ha⟩
    · exact hi.hears hc ha
    · exact ha
  cases h with
  | again | back | onward | leaves | fail =>
    exact hi.client hp (fun _ => mem_bind) hd rfl rfl rfl rfl hpeer
  | @opens src buf hok hrr hq hi0 =>
    -- nobody uses the new socket, the client included
    have hset : w.client.skSet = false := by
      by_contra hset
      have := hp.index (by simpa using hset)
      omega
    have hsock : sock ∉ w.bound := hn (Client.opensOn_rr hs hok hrr hq hi0)
    have hne : w.client.mvSocket ≠ sock := fun hx => hsock (hx ▸ hi.bound hset)
    obtain ⟨h1, h2, h3⟩ := hi.before fun hc => absurd hc.1 (by simp [hset])
    refine ⟨by simp [afterClient], fun _ => ⟨?_, fun x d hx => h2 x d (hd x d hx), h3⟩,
      fun hc => absurd hc.2 hne⟩
    simpa [afterClient] using h1
  | @switches src buf io hok hrr hq hi1 =>
    have hset := hp.set (by omega)
    -- nobody but the child has heard of the new socket
    have hnew : (∀ d ∈ w.down w.client.sk, d.src = w.client.addr) ∧
        ∀ d ∈ w.up w.port, d.src ≠ w.client.sk := by
      by_cases hsw : w.client.Switched
      · obtain ⟨-, h2, h3⟩ := hi.behind hsw
        rw [← hsw.2]
        exact ⟨h2, h3⟩
      · obtain ⟨h1, h2, -⟩ := hi.before hsw
        have hne : w.client.mvSocket ≠ w.client.sk := fun hx => hsw ⟨hset, hx⟩
        exact ⟨fun d hx => absurd (h2 _ d hx).symm hne,
          fun d hx hx' => hne ((h1 _ d hx).symm.trans hx')⟩
    refine ⟨by simp [afterClient, hset], fun hc => absurd ⟨hset, rfl⟩ hc, fun _ => ⟨rfl, ?_, ?_⟩⟩
    · exact fun d hx => hnew.1 d (hd _ d hx)
    · simpa [afterClient, World.port] using hnew.2

theorem Paths.step (hg : n.garbles = false) (hi : w.Paths) (hp : w.Ports) (hw : w.Wf)
    (h : Turn n w e t) (hn : w.next e = some t) : t.Paths := by
  cases h with
  | parentStops =>
    exact hi.others rfl rfl (fun _ h => h) (fun _ _ h => h) (fun _ _ => .inl)
      fun hs => (hi.before hs).2.2
  | parentDrops hok ha hs =>
    rw [afterParent_drop]
    exact hi.others rfl rfl (fun _ h => h) (fun _ _ => mem_update fun _ => hs.sub) (fun _ _ => .inl)
      fun hs => (hi.before hs).2.2
  | parent hn' hok ha ht => exact hi.parent (fun _ => mem_bind) ht.mem fun _ => ht.sub
  | childAct hk hd ht hst =>
    exact hi.child hp hk ht.socket (fun _ _ h => h) (.inl (Server.step_act_peer hst))
  | @childInit k a io v v' r l out hk hs hal ha ht hst =>
    have hsock := (ht.stays (hw.loop v (List.mem_of_getElem? hk) hs)).2.2.2
    refine hi.child hp hk hsock (fun _ _ => mem_update fun _ => (Arrival.recv_shed hal ha).sub) ?_
    exact (Arrival.leads hg hal ha (Server.step_peer hst)).imp_right fun h => ⟨_, h⟩
  | @childHear k a io v v' r l out hk hd hal ha ht hst =>
    refine hi.child hp hk ht.socket
      (fun _ _ => mem_update fun _ => (Arrival.recv_shed hal ha).sub) ?_
    exact (Arrival.leads hg hal ha (Server.step_peer hst)).imp_right fun h => ⟨_, h⟩
  | clientSends hs hsent =>
    exact hi.client (c := { w.client with sent := true }) hp (fun _ h => h) (fun _ _ h => h) rfl
      rfl rfl rfl fun hc => (hi.behind hc).1
  | clientStops hs =>
    exact hi.client (c := { w.client with mvState := .error }) hp (fun _ h => h)
      (fun _ _ h => h) rfl rfl rfl rfl fun hc => (hi.behind hc).1
  | clientInit hn' hs hsent hal ha ht =>
    exact hi.clientInit hp hs ht (fun _ _ => mem_update fun _ => (Arrival.recv_shed hal ha).sub)
      hn' ((clientHear_peer hg hal hn).imp_right And.right)
  | clientHear hs hal ha ht =>
    have hpeer := (clientHear_peer hg hal hn).resolve_right (by simp [hs])
    obtain ⟨-, h2, h3⟩ := ht.connection
    refine hi.client hp (fun _ => mem_bind)
      (fun _ _ => mem_update fun _ => (Arrival.recv_shed hal ha).sub) ht.socket h2 ?_ h3
      fun hc => hi.hears hc hpeer.2
    cases ht <;> rfl
  | noiseUp hno =>
    exact hi.others rfl rfl (fun _ h => h) (fun _ _ => mem_update fun _ => hno.sub)
      (fun _ _ => .inl) fun hs => (hi.before hs).2.2
  | noiseDown hno =>
    exact hi.others rfl rfl (fun _ h => h) (fun _ _ h => h)
      (fun _ _ hd => .inl (mem_update (fun _ => hno.sub) hd)) fun hs => (hi.before hs).2.2

theorem paths_of_reach {from_ : List UInt8} {bufsz winsz : Int32} (hg : n.garbles = false)
    (h : ((system from_ bufsz winsz n).under Announced).Reach w) : w.Paths := by
  refine h.invariant (I := Paths) ?_ ?_
  · intro w h0
    obtain ⟨sock, sk, addr, -, hc⟩ := Start.client h0
    refine ⟨fun _ => by simp [Start.bound h0], fun _ => ?_, fun hsw => ?_⟩
    · simp [Start.children h0, Start.up h0, Start.down h0]
    · exact absurd hsw.1 (by simp [hc, Client.rcopy])
  · intro w e t hr hi hm hn
    have hw := wf_of_reach hr.of_under
    exact hi.step hg (ports_of_reach hg hr) hw (next_cases hw hm.1 hn) hn

/-! ## 3. The agreement -/

/-- **The ports agree.**  The client's announcement is that of the socket opened last and the
parent takes no `CXN` behind it: then in every run over links that lose datagrams, a client that
has gone over to the announced address has gone over to the socket its child listens on, and
writes to no other from then on. -/
theorem port_agreement (from_ : List UInt8) (bufsz winsz : Int32) (w : World) (v : Server)
    (h : ((system from_ bufsz winsz .lossy).under Announced).Reach w) (hv : v ∈ w.children)
    (hc : w.client.Switched) :
    w.client.addr = v.mvSocket ∧ w.client.mvAddr = v.mvSocket := by
  have hi := ports_of_reach rfl h
  have haddr : w.client.addr = v.mvSocket := by rw [hi.addr hc.1, hi.children hc.1 v hv]
  exact ⟨haddr, ((paths_of_reach rfl h).behind hc).1.trans haddr⟩

end World

end Fileserver

namespace Fileserver

open Proto

namespace World

local instance portsHost : Host := refHost [1, 2, 3]

/-- The `CXN` is sent twice, and the client goes by the first announcement. -/
def twice : List Event :=
  [.clientAct true, .clientHear .timeout ⟨2, 10⟩ true true, .clientAct true,
   .parentHear (.take 0) ⟨1, 21⟩ true true, .parentHear (.take 0) ⟨1, 22⟩ true true,
   .clientHear (.take 0) ⟨2, 11⟩ true true, .clientAct true,
   .parentHear (.take 0) ⟨1, 23⟩ true true, .clientHear (.take 0) ⟨2, 12⟩ true true,
   .clientAct true, .clientHear (.take 0) ⟨2, 13⟩ true true]

/-- One `CXN`, one announcement, one child. -/
theorem port_agreement_connect :
    ∃ w v, ((system [0x66] 2 3 .lossy).under Announced).Reach w ∧ v ∈ w.children ∧
      w.client.Switched ∧ w.client.addr = v.mvSocket ∧ w.client.mvAddr = v.mvSocket := by
  have h0 : ((system [0x66] 2 3 .lossy).under Announced).Reach (atStart [0x66] 2 3) :=
    .start (atStart_start _ _ _)
  obtain ⟨w, h, hw⟩ := h0.run_any connect (fun w => decide (w.children.length = 1 ∧
    w.client.skSet = true ∧ w.client.mvSocket = w.client.sk)) (by decide +kernel)
  obtain ⟨hk, hc⟩ := of_decide_eq_true hw
  obtain ⟨v, hv⟩ := List.length_eq_one_iff.mp hk
  have hmem : v ∈ w.children := by simp [hv]
  exact ⟨w, v, h, hmem, hc, port_agreement [0x66] 2 3 w v h hmem hc⟩

/-- **The client went to port 21, its child listens on port 22.** -/
theorem not_port_agreement :
    ¬ ∀ (w : World) (v : Server), (system [0x66] 2 3 .lossy).Reach w → v ∈ w.children →
      w.client.Switched → w.client.addr = v.mvSocket ∨ w.client.mvAddr = v.mvSocket := by
  intro hall
  have h0 : (system [0x66] 2 3 .lossy).Reach (atStart [0x66] 2 3) := .start (atStart_start _ _ _)
  obtain ⟨w, h, hw⟩ := h0.run_any twice (fun w => decide
    (w.children.map Server.mvSocket = [⟨1, 22⟩] ∧ w.client.addr = ⟨1, 21⟩ ∧
      w.client.mvAddr = ⟨1, 21⟩ ∧ w.client.skSet = true ∧ w.client.mvSocket = w.client.sk))
    (by decide +kernel)
  obtain ⟨hk, haddr, hpeer, hc⟩ := of_decide_eq_true hw
  obtain ⟨v, hv, hs⟩ := List.map_eq_singleton_iff.mp hk
  have heq := hall w v h (by simp [hv]) hc
  rw [haddr, hpeer, hs, or_self] at heq
  exact absurd heq (by decide)

end World

end Fileserver
