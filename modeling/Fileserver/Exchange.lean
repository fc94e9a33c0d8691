/-
# The handshake without disturbance

What becomes of client and child in `init` when, from some moment on, every datagram is delivered
in order and no timeout fires.  The client sends its packet and waits for the reply, so there is
one datagram in flight at a time.  `Phase` lists the moments of an exchange when the child waits
for the client's packet or an earlier one, and bounds the steps that are left; `Phase.step` says
that every step takes the two closer to the data phase.
-/
import Fileserver.Established

namespace Fileserver

open Proto

variable [Host]

namespace World

/-! ## 1. Quiet steps -/

/-- Nothing goes wrong in the step: no timeout, no damage, no loss, no failed call. -/
def Event.quiet : Event → Bool
  | .parentHear a _ forks io => a.good && forks && io
  | .childAct _ io => io
  | .childHear _ a io => a.good && io
  | .clientAct io => io
  | .clientHear a _ wr io => a.good && wr && io
  | _ => false

/-- The program while every datagram is delivered in order and no timeout fires. -/
def calm (from_ : List UInt8) (bufsz winsz : Int32) : System World Event :=
  (system from_ bufsz winsz .perfect).under fun _ e => e.quiet = true

variable {from_ : List UInt8} {bufsz winsz : Int32} {w t : World} {v : Server}

/-- The steps of a calm world with one child. -/
inductive CalmTurn (w : World) (v : Server) : World → Prop
  | parent {d : Datagram} {l : List Datagram} {b : List Addr} {sock : Addr}
      (hq : w.up w.port = d :: l) :
      CalmTurn w v (w.afterParent d.src l b (w.parent.run d.src d.pkt sock true true))
  | childAct {v' : Server} {out : Option Packet} {b : List Packet}
      (hst : v.step (.act true) = some (v', out)) :
      CalmTurn w v (w.afterChild 0 w.up b (v', out))
  | childHear {d : Datagram} {l : List Datagram} {v' : Server} {out : Option Packet}
      (hq : w.up v.mvSocket = d :: l)
      (hst : v.step (.hear (.datagram d.src d.pkt) true) = some (v', out)) :
      CalmTurn w v (w.afterChild 0 (Function.update w.up v.mvSocket l) w.built (v', out))
  | clientSends (hs : w.client.mvState = .init) (hsent : w.client.sent = false) :
      CalmTurn w v (w.afterClient w.down w.bound
        ({ w.client with sent := true }, some (w.client.pkt w.client.i)))
  | clientHear {d : Datagram} {l : List Datagram} {b : List Addr} {sock : Addr} {c : Client}
      {out : Option Packet} (hq : w.down w.client.mvSocket = d :: l)
      (hst : w.client.step (.hear (.datagram d.src d.pkt) sock true true) = some (c, out)) :
      CalmTurn w v (w.afterClient (Function.update w.down w.client.mvSocket l) b (c, out))

/-- **The list of steps is complete.** -/
theorem calm_cases (hk : w.children = [v]) (hm : (calm from_ bufsz winsz).Move w t) :
    CalmTurn w v t := by
  obtain ⟨e, ⟨hm, hq⟩, h⟩ := hm
  -- the only child is child 0
  have hzero {k : ℕ} {u : Server} (hu : w.children[k]? = some u) : k = 0 ∧ u = v := by
    rw [hk, List.getElem?_singleton] at hu
    by_cases h0 : k = 0
    · simp only [h0, if_true, Option.some.injEq] at hu
      exact ⟨h0, hu.symm⟩
    · simp [h0] at hu
  cases e with
  | parentHear a sock forks io =>
    obtain ⟨⟨hg, rfl⟩, rfl⟩ : (a.good = true ∧ forks = true) ∧ io = true := by
      simpa [Event.quiet] using hq
    simp only [calm, System.under, system, next, Option.ite_none_left_eq_some] at h
    obtain ⟨-, h⟩ := h
    split at h
    · rename_i src buf l ha
      obtain rfl := Option.some.inj h
      obtain ⟨d, hr, hl⟩ := Arrival.recv_oldest rfl hm.1 ha hg
      obtain ⟨rfl, rfl⟩ := Recv.datagram.inj hr
      exact .parent hl
    · rename_i l ha
      obtain ⟨d, hr, -⟩ := Arrival.recv_oldest rfl hm.1 ha hg
      simp at hr
    · simp at h
    · simp at h
  | childAct k io =>
    obtain rfl : io = true := hq
    obtain ⟨u, hu, h⟩ := Option.bind_eq_some_iff.mp h
    obtain ⟨⟨v', out⟩, hst, rfl⟩ := Option.map_eq_some_iff.mp h
    obtain ⟨rfl, rfl⟩ := hzero hu
    exact .childAct hst
  | childHear k a io =>
    obtain ⟨hg, rfl⟩ : a.good = true ∧ io = true := by simpa [Event.quiet] using hq
    obtain ⟨u, hu, h⟩ := Option.bind_eq_some_iff.mp h
    obtain ⟨⟨r, l⟩, ha, h⟩ := Option.bind_eq_some_iff.mp h
    obtain ⟨⟨v', out⟩, hst, rfl⟩ := Option.map_eq_some_iff.mp h
    obtain ⟨rfl, rfl⟩ := hzero hu
    obtain ⟨d, rfl, hl⟩ := Arrival.recv_oldest rfl hm ha hg
    exact .childHear hl hst
  | clientAct io =>
    obtain rfl : io = true := hq
    obtain ⟨⟨c, out⟩, hst, rfl⟩ := Option.map_eq_some_iff.mp h
    simp only [Client.step, Option.ite_none_right_eq_some, Option.some.injEq] at hst
    obtain ⟨hg, hst⟩ := hst
    obtain ⟨hs, hsent⟩ : w.client.mvState = .init ∧ w.client.sent = false := by
      cases hs : w.client.mvState <;> simp [Client.running, Client.receives, hs] at hg ⊢
      exact hg
    obtain ⟨rfl, rfl⟩ := Prod.mk.inj hst
    exact .clientSends hs hsent
  | clientHear a sock wr io =>
    obtain ⟨⟨hg, rfl⟩, rfl⟩ : (a.good = true ∧ wr = true) ∧ io = true := by
      simpa [Event.quiet] using hq
    obtain ⟨⟨r, l⟩, ha, h⟩ := Option.bind_eq_some_iff.mp h
    obtain ⟨⟨c, out⟩, hst, rfl⟩ := Option.map_eq_some_iff.mp h
    obtain ⟨d, rfl, hl⟩ := Arrival.recv_oldest rfl hm.1 ha hg
    exact .clientHear hl hst
  | loseUp | dupUp | loseDown | dupDown => simp [Event.quiet] at hq

/-- A calm step is a step of any links. -/
theorem calm_reach {n : Link} (h : (system from_ bufsz winsz n).Reach w)
    (hm : (calm from_ bufsz winsz).Move w t) : (system from_ bufsz winsz n).Reach t := by
  obtain ⟨e, ⟨hm, hq⟩, hn⟩ := hm
  have hal (a : Arrival) (ha : a.allowed .perfect) : a.allowed n := by
    have hpick (i : ℕ) (hi : Link.perfect.picks i) : n.picks i :=
      .inr (by simpa [Link.picks, Link.perfect] using hi)
    cases a with
    | garble => simp [Arrival.allowed, Link.perfect] at ha
    | take i => exact hpick i ha
    | timeout | failed => trivial
  refine h.step (e := e) ?_ hn
  cases e with
  | parentHear a sock forks io => exact ⟨hal a hm.1, hm.2⟩
  | childHear k a io => exact hal a hm
  | clientHear a sock wr io => exact ⟨hal a hm.1, hm.2⟩
  | childAct | clientAct => trivial
  | loseUp | dupUp | loseDown | dupDown => simp [Event.quiet] at hq

theorem calm_runs {n : Link} (h : (system from_ bufsz winsz n).Reach w)
    (hr : Relation.ReflTransGen (calm from_ bufsz winsz).Move w t) :
    (system from_ bufsz winsz n).Reach t := by
  induction hr with
  | refl => exact h
  | tail _ hm ih => exact calm_reach ih hm

/-- A client in `init` that is about to send can do so. -/
theorem calm_sends (hs : w.client.mvState = .init) (hsent : w.client.sent = false) :
    ∃ t, (calm from_ bufsz winsz).Move w t := by
  refine System.exists_move (.clientAct true) ⟨trivial, rfl⟩ ?_
  simp [calm, System.under, system, next, Client.step, Client.running, Client.receives, hs, hsent]

/-- A child in `init` with a datagram in its queue can take it. -/
theorem calm_hears (hk : w.children = [v]) (hs : v.mvState = .init)
    (hq : w.up v.mvSocket ≠ []) : ∃ t, (calm from_ bufsz winsz).Move w t := by
  obtain ⟨d, l, hl⟩ := List.exists_cons_of_ne_nil hq
  refine System.exists_move (.childHear 0 (.take 0) true) ⟨.inr rfl, rfl⟩ ?_
  simp [calm, System.under, system, next, Arrival.recv, hk, hl, Server.step, Server.running,
    Server.receives, hs]

/-- So can a client in `init` that has its connection. -/
theorem calm_reads (hs : w.client.mvState = .init) (hsent : w.client.sent = true)
    (hi : 1 ≤ w.client.i ∧ w.client.i < 5) (hq : w.down w.client.mvSocket ≠ []) :
    ∃ t, (calm from_ bufsz winsz).Move w t := by
  obtain ⟨d, l, hl⟩ := List.exists_cons_of_ne_nil hq
  have hne : (w.client.pkt w.client.i).type ≠ pktTypeCXN := by
    intro h
    have := (Client.pkt_type_cxn (by omega) hi.2).mp h
    omega
  refine System.exists_move (.clientHear (.take 0) ⟨0, 0⟩ true true)
    ⟨⟨.inr rfl, ?_⟩, rfl⟩ ?_
  · intro x hx ho
    simp only [Arrival.recv, hl, List.getElem?_cons_zero, Option.map_some, List.eraseIdx_cons_zero,
      Option.mem_def, Option.some.injEq] at hx
    subst hx
    simp [Client.opensOn, Client.opens, hne] at ho
  · simp [calm, System.under, system, next, Arrival.recv, hl, Client.step, Client.running,
      Client.receives, hs, hsent]

/-! ## 2. One datagram in flight -/

/-- Nothing is in flight. -/
def silent : Addr → List Datagram := fun _ => []

omit [Host] in
theorem post_silent (dst src x : Addr) (p : Packet) :
    post silent dst src (some p) x = if x = dst then [⟨src, p⟩] else [] := by
  by_cases hx : x = dst
  · subst hx
    rw [post, Function.update_self, if_pos rfl]
    rfl
  · rw [post, Function.update_of_ne hx, if_neg hx]
    rfl

omit [Host] in
/-- The only datagram in flight is taken. -/
theorem update_post_silent (dst src : Addr) (out : Option Packet) :
    Function.update (post silent dst src out) dst [] = silent := by
  rw [post, Function.update_idem]
  exact Function.update_eq_self dst silent

/-- Client and child are in `init`, the child the only one. -/
structure Facing (w : World) (v : Server) : Prop where
  children : w.children = [v]
  server : v.mvState = .init
  client : w.client.mvState = .init

/-- The four moments of an exchange, as long as the child is not ahead of the client: before the
client's packet, with the packet in flight, with a `REJ` in flight, with the acknowledgement in
flight.  The last argument bounds the steps that are left. -/
inductive Phase (w : World) (v : Server) : ℕ → Prop
  | idle (hs : w.client.sent = false) (hu : w.up = silent) (hd : w.down = silent)
      (ha : w.client.mvAddr = v.mvSocket)
      (hx : v.mvSequence.toNat = 1 → w.client.addr = v.mvSocket)
      (hle : (v.mvSequence.toNat : Int) ≤ w.client.i) :
      Phase w v (16 * (5 - v.mvSequence.toNat) + 3 * (w.client.i - v.mvSequence.toNat).toNat + 3)
  | asked (hs : w.client.sent = true)
      (hu : w.up = post silent v.mvSocket w.client.mvSocket (some (w.client.pkt w.client.i)))
      (hd : w.down = silent)
      (hx : v.mvSequence.toNat = 1 → w.client.addr = v.mvSocket)
      (hle : (v.mvSequence.toNat : Int) ≤ w.client.i) :
      Phase w v (16 * (5 - v.mvSequence.toNat) + 3 * (w.client.i - v.mvSequence.toNat).toNat + 2)
  | rejected (hs : w.client.sent = true) (hu : w.up = silent)
      (hd : w.down = post silent w.client.mvSocket v.mvSocket (some (rejpkt v.mvSequence)))
      (hx : v.mvSequence.toNat = 1 → w.client.addr = v.mvSocket)
      (hlt : (v.mvSequence.toNat : Int) < w.client.i) :
      Phase w v (16 * (5 - v.mvSequence.toNat) + 3 * (w.client.i - v.mvSequence.toNat).toNat + 1)
  | accepted {q : UInt32} (hs : w.client.sent = true) (hu : w.up = silent)
      (hd : w.down = post silent w.client.mvSocket v.mvSocket (some (rrpkt q)))
      (hx : w.client.i = 1 → w.client.addr = v.mvSocket) (hq : (q.toNat : Int) = w.client.i)
      (h1 : 1 ≤ w.client.i) (heq : (v.mvSequence.toNat : Int) = w.client.i + 1) :
      Phase w v (16 * (5 - v.mvSequence.toNat) + 4)

/-- The child has taken the last packet and has told the client so. -/
structure Closing (w : World) (v : Server) : Prop where
  children : w.children = [v]
  left : v.mvState ≠ .init
  data : (Host.file v.mvFromName).isSome = true → v.inData
  client : w.client.mvState = .init
  sent : w.client.sent = true
  index : w.client.i = 4
  up : w.up = silent
  down : ∃ src l, w.down w.client.mvSocket = ⟨src, rrpkt 4⟩ :: l

/-- A child in `init` only receives. -/
theorem no_act {v' : Server} {out : Option Packet} (hs : v.mvState = .init) :
    v.step (.act true) ≠ some (v', out) := by
  simp [Server.step, Server.receives, hs]

/-- What holds of client and child in `init` besides. -/
structure Facts (w : World) (v : Server) : Prop where
  socket : v.mvSocket ≠ w.port
  counting : v.Counting
  loop : v.initLoop = true
  index : 0 ≤ w.client.i ∧ w.client.i < 5

theorem Facing.facts (hf : w.Facing v) (hr : (system from_ bufsz winsz .lossy).Reach w) :
    w.Facts v := by
  have hv : v ∈ w.children := by rw [hf.children]; exact List.mem_singleton_self v
  have hw := wf_of_reach hr
  obtain ⟨hp, hc⟩ := (opening_of_reach rfl hr hf.client).children v hv
  obtain ⟨h0, h5, -⟩ := hw.client hf.client
  exact ⟨hp, hc hf.server, hw.loop v hv hf.server, h0, h5⟩

/-- The child hears the packet of the client. -/
theorem asked_step (hf : w.Facing v) (hx : w.Facts v) {v' : Server} {out : Option Packet}
    {b : List Packet} (hs : w.client.sent = true) (hd : w.down = silent)
    (ha : v.mvSequence.toNat = 1 → w.client.addr = v.mvSocket)
    (hle : (v.mvSequence.toNat : Int) ≤ w.client.i)
    (ht : v.InitTurn (.datagram w.client.mvSocket (w.client.pkt w.client.i)) true v' out) :
    (∃ u, (w.afterChild 0 silent b (v', out)).Closing u) ∨
    ∃ u, (w.afterChild 0 silent b (v', out)).Facing u ∧
      ∃ m < 16 * (5 - v.mvSequence.toNat) + 3 * (w.client.i - v.mvSequence.toNat).toNat + 2,
        (w.afterChild 0 silent b (v', out)).Phase u m := by
  obtain ⟨h0, h5⟩ := hx.index
  have hlow := hx.counting.low
  have hseq := Client.pkt_sequence (c := w.client) h0 h5
  have hok := Client.pkt_ok (c := w.client) h0 h5
  have hkids (u : Server) : w.children.set 0 u = [u] := by rw [hf.children]; rfl
  have hsucc : (v.mvSequence + 1).toNat = v.mvSequence.toNat + 1 := by
    rw [UInt32.toNat_add, UInt32.toNat_one]
    exact Nat.mod_eq_of_lt (by omega)
  -- the last packet has been taken
  have hlast (h : (v.taken w.client.mvSocket (w.client.pkt w.client.i)).initLoop = false) :
      w.client.i = 4 := by
    by_contra hne
    rw [hx.counting.not_last h0 (by omega)] at h
    simp at h
  have hfour (hq : (w.client.pkt w.client.i).sequence = v.mvSequence) (hi : w.client.i = 4) :
      v.mvSequence = 4 := by
    rw [← UInt32.toNat_inj, ← hq]
    change (w.client.pkt w.client.i).sequence.toNat = 4
    omega
  cases ht with
  | nag hb | gaveUp hb => simp [Recv.bad, hok] at hb
  | fail hfail => simp at hfail
  | old hok hq =>
    rw [UInt32.lt_iff_toNat_lt] at hq
    omega
  | high hok hq =>
    rw [UInt32.lt_iff_toNat_lt] at hq
    refine .inr ⟨_, ⟨hkids _, hf.server, hf.client⟩, _, ?_, .rejected hs rfl ?_ ha ?_⟩
    · change 16 * (5 - v.mvSequence.toNat) +
        3 * (w.client.i - v.mvSequence.toNat).toNat + 1 < _
      omega
    · simp only [afterChild, hd]
    · change (v.mvSequence.toNat : Int) < w.client.i
      omega
  | take hok hq hl =>
    rw [hq] at hseq
    refine .inr ⟨_, ⟨hkids _, ?_, hf.client⟩, _, ?_,
      .accepted (q := v.mvSequence) hs rfl ?_ ?_ hseq ?_ ?_⟩
    · rw [Server.taken_state]
      exact hf.server
    · rw [Server.taken_sequence, hsucc]
      omega
    · simp only [afterChild, hd, Server.taken_socket, Server.taken_addr]
    · intro hi
      rw [Server.taken_socket]
      exact ha (by simp only [afterChild] at hi; omega)
    · change 1 ≤ w.client.i
      omega
    · rw [Server.taken_sequence, hsucc]
      change ((v.mvSequence.toNat + 1 : ℕ) : Int) = w.client.i + 1
      omega
  | opened hok hq hl hfile =>
    refine .inl ⟨_, hkids _, by simp, fun _ => .inl rfl, hf.client, hs, hlast hl, rfl, ?_⟩
    rw [hfour hq (hlast hl)]
    refine ⟨v.mvSocket, [], ?_⟩
    simp [afterChild, hd, post_silent]
  | unopened hok hq hl hfile =>
    refine .inl ⟨_, hkids _, by simp, ?_, hf.client, hs, hlast hl, rfl, ?_⟩
    · intro hsome
      dsimp only at hsome
      simp [hfile] at hsome
    rw [hfour hq (hlast hl)]
    refine ⟨v.mvSocket, [], ?_⟩
    simp [afterChild, hd, post_silent]

/-- The client hears the `REJ` of the child and goes back to the packet the child waits for. -/
theorem rejected_step (hf : w.Facing v) {c : Client} {sock : Addr}
    {b : List Addr} (hu : w.up = silent) (ha : v.mvSequence.toNat = 1 → w.client.addr = v.mvSocket)
    (hlt : (v.mvSequence.toNat : Int) < w.client.i)
    (ht : w.client.InitTurn sock (.datagram v.mvSocket (rejpkt v.mvSequence)) true c) :
    (w.afterClient silent b (c, none)).Facing v ∧
      ∃ m < 16 * (5 - v.mvSequence.toNat) + 3 * (w.client.i - v.mvSequence.toNat).toNat + 1,
        (w.afterClient silent b (c, none)).Phase v m := by
  have hup {c : Client} : (w.afterClient silent b (c, none)).up = silent := by
    simp [afterClient, hu]
  cases ht with
  | again hk ha hr =>
    rcases hr with hb | ⟨src, buf, hb, -, hrr, -⟩
    · simp [Recv.bad] at hb
    · obtain ⟨-, rfl⟩ := Recv.datagram.inj hb
      simp at hrr
  | opens hok hrr | switches hok hrr => simp at hrr
  | onward hok ho hi | leaves hok ho hi =>
    rcases ho with ⟨hrr, -⟩ | ⟨-, hq⟩ | ⟨-, hrej⟩
    · simp at hrr
    · simp only [rejpkt_sequence] at hq
      omega
    · simp at hrej
  | fail hfail => simp [Recv.bad] at hfail
  | back hok hrej hq =>
    refine ⟨⟨hf.children, hf.server, hf.client⟩, _, ?_, .idle rfl hup rfl rfl ha (Int.le_refl _)⟩
    change 16 * (5 - v.mvSequence.toNat) +
      3 * ((v.mvSequence.toNat : Int) - v.mvSequence.toNat).toNat + 3 < _
    omega

/-- The client hears the acknowledgement. -/
theorem accepted_step (hf : w.Facing v) (hx : w.Facts v) {c : Client} {sock : Addr}
    {b : List Addr} {q : UInt32} (hu : w.up = silent)
    (ha : w.client.i = 1 → w.client.addr = v.mvSocket) (hq : (q.toNat : Int) = w.client.i)
    (h1 : 1 ≤ w.client.i) (heq : (v.mvSequence.toNat : Int) = w.client.i + 1)
    (ht : w.client.InitTurn sock (.datagram v.mvSocket (rrpkt q)) true c) :
    (w.afterClient silent b (c, none)).Facing v ∧
      ∃ m < 16 * (5 - v.mvSequence.toNat) + 4, (w.afterClient silent b (c, none)).Phase v m := by
  have hhigh := hx.counting.high
  have hup {c : Client} : (w.afterClient silent b (c, none)).up = silent := by
    simp [afterClient, hu]
  have hone (h : v.mvSequence.toNat = 1) : False := by omega
  cases ht with
  | again hk ha hr =>
    rcases hr with hb | ⟨src, buf, hb, -, -, hne⟩
    · simp [Recv.bad] at hb
    · obtain ⟨-, rfl⟩ := Recv.datagram.inj hb
      exact absurd hq hne
  | opens hok hrr hq' hi => omega
  | switches hok hrr hq' hi =>
    refine ⟨⟨hf.children, hf.server, hf.client⟩, _, ?_,
      .idle rfl hup rfl (ha hi) (fun h => (hone h).elim) ?_⟩
    · change 16 * (5 - v.mvSequence.toNat) + 3 * ((2 : Int) - v.mvSequence.toNat).toNat + 3 < _
      omega
    · change (v.mvSequence.toNat : Int) ≤ 2
      omega
  | back hok hrej => simp at hrej
  | onward hok ho hi =>
    refine ⟨⟨hf.children, hf.server, hf.client⟩, _, ?_,
      .idle rfl hup rfl rfl (fun h => (hone h).elim) ?_⟩
    · change 16 * (5 - v.mvSequence.toNat) +
        3 * (w.client.i + 1 - v.mvSequence.toNat).toNat + 3 < _
      omega
    · change (v.mvSequence.toNat : Int) ≤ w.client.i + 1
      omega
  | leaves hok ho hi => omega
  | fail hfail => simp [Recv.bad] at hfail

/-- **Every step of an exchange brings the data phase closer.** -/
theorem Phase.step (hf : w.Facing v) (hx : w.Facts v) {n : ℕ} (hp : w.Phase v n)
    (hm : w.CalmTurn v t) :
    (∃ u, t.Closing u) ∨ ∃ u, t.Facing u ∧ ∃ m < n, t.Phase u m := by
  have hport (x : Addr) (p : Packet) : post silent v.mvSocket x (some p) w.port = [] := by
    rw [post_silent, if_neg hx.socket.symm]
  have hchild {d : Datagram} {l : List Datagram} {src : Addr} {p : Packet}
      (hd : w.down = post silent w.client.mvSocket src (some p))
      (hq : w.down w.client.mvSocket = d :: l) : d = ⟨src, p⟩ ∧ l = [] := by
    rw [hd, post_silent, if_pos rfl] at hq
    obtain ⟨h1, h2⟩ := List.cons.inj hq
    exact ⟨h1.symm, h2.symm⟩
  cases hp with
  | idle hs hu hd ha hxa hle =>
    right
    cases hm with
    | parent hq | childHear hq => simp [hu, silent] at hq
    | clientHear hq => simp [hd, silent] at hq
    | childAct hst => exact absurd hst (no_act hf.server)
    | clientSends =>
      refine ⟨v, ⟨hf.children, hf.server, hf.client⟩, _, ?_, .asked rfl ?_ hd hxa hle⟩
      · change 16 * (5 - v.mvSequence.toNat) +
          3 * (w.client.i - v.mvSequence.toNat).toNat + 2 < _
        omega
      · rw [← hu, ← ha]
        rfl
  | asked hs hu hd hxa hle =>
    cases hm with
    | parent hq => simp [hu, hport] at hq
    | clientHear hq => simp [hd, silent] at hq
    | childAct hst => exact absurd hst (no_act hf.server)
    | clientSends hsend hsent => simp [hs] at hsent
    | @childHear d l v' out hq hst =>
      rw [hu, post_silent, if_pos rfl] at hq
      obtain ⟨rfl, rfl⟩ := List.cons.inj hq
      rw [hu, update_post_silent]
      exact asked_step hf hx hs hd hxa hle (Server.initTurn_of_step hf.server hx.loop hst)
  | rejected hs hu hd hxa hlt =>
    right
    cases hm with
    | parent hq | childHear hq => simp [hu, silent] at hq
    | childAct hst => exact absurd hst (no_act hf.server)
    | clientSends hsend hsent => simp [hs] at hsent
    | @clientHear d l b sock c out hq hst =>
      obtain ⟨rfl, rfl⟩ := hchild hd hq
      obtain ⟨-, rfl, ht⟩ := Client.initTurn_of_step hf.client hx.index hst
      rw [hd, update_post_silent]
      exact ⟨v, rejected_step hf hu hxa hlt ht⟩
  | accepted hs hu hd hxa hq' h1 heq =>
    right
    cases hm with
    | parent hq | childHear hq => simp [hu, silent] at hq
    | childAct hst => exact absurd hst (no_act hf.server)
    | clientSends hsend hsent => simp [hs] at hsent
    | @clientHear d l b sock c out hq hst =>
      obtain ⟨rfl, rfl⟩ := hchild hd hq
      obtain ⟨-, rfl, ht⟩ := Client.initTurn_of_step hf.client hx.index hst
      rw [hd, update_post_silent]
      exact ⟨v, accepted_step hf hx hu hxa hq' h1 heq ht⟩

/-- **An exchange is never stuck.** -/
theorem Phase.progress (hf : w.Facing v) (hx : w.Facts v) {n : ℕ} (hp : w.Phase v n) :
    ∃ t, (calm from_ bufsz winsz).Move w t := by
  have hlow := hx.counting.low
  have hi := hx.index
  cases hp with
  | idle hs => exact calm_sends hf.client hs
  | asked hs hu =>
    refine calm_hears hf.children hf.server ?_
    simp [hu, post_silent]
  | rejected hs hu hd hxa hlt =>
    refine calm_reads hf.client hs (by omega) ?_
    simp [hd, post_silent]
  | accepted hs hu hd hxa hq h1 heq =>
    refine calm_reads hf.client hs (by omega) ?_
    simp [hd, post_silent]

end World

end Fileserver
