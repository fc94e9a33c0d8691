/-
# When the handshake comes to its end

Left alone with nothing in flight, client and child in `init` either come to the data phase or
never get there, and `recovers_iff` says which.  They never get there if the client sends to an
address at which its child does not listen (`Astray`), or if the child is AHEAD of the client
(`Ahead`): the child answers the client's packet, which it has taken before, with the number it
waits for, the client takes that for the acknowledgement of some other packet and sends its own
again, and so on for ever.
-/
import Fileserver.Exchange

namespace Fileserver

open Proto

variable [Host]

/-! ## 1. The last acknowledgement -/

/-- The turns the child has left before it waits for a reply. -/
def Server.work (v : Server) : ℕ :=
  match v.mvState with
  | .fillWindow => 2 * (v.mvWindowSize.toNat - v.mvWindow.length) + v.mvOutBuf.length + 2
  | .sendWindow => v.mvOutBuf.length + 1
  | _ => 0

theorem Server.Turn.work_lt {v v' : Server} {out : Option Packet}
    (h : v.Turn (.act true) v' out) : v'.work < v.work ∧ v'.inData := by
  cases h with
  | push hs hl =>
    refine ⟨?_, .inl hs⟩
    simp only [work, hs, List.length_append, List.length_singleton]
    omega
  | full hs hl =>
    refine ⟨?_, .inr (.inl rfl)⟩
    simp only [work, hs]
    omega
  | sendOne hs ho =>
    refine ⟨?_, .inr (.inl hs)⟩
    simp [work, hs, ho]
  | sent hs ho =>
    refine ⟨?_, .inr (.inr rfl)⟩
    simp [work, hs, ho]
  | fail hq he => simp [Event.fails] at he

/-- The packets behind the connection mean nothing to the parent. -/
theorem Parent.run_ignores {p : Parent} {a sock : Addr} {c : Client} {j : Int} {forks io : Bool}
    (h2 : 2 ≤ j) (h5 : j < 5) : p.run a (c.pkt j) sock forks io = (p, none, none) := by
  obtain rfl | rfl | rfl : j = 2 ∨ j = 3 ∨ j = 4 := by omega
  all_goals
    simp [run, Client.pkt, memset, pktTypeCXN, pktTypeCXN2, pktTypeREJ, pktTypeBUF, pktTypeWIN,
      pktTypeFLN]

namespace World

variable {from_ : List UInt8} {bufsz winsz : Int32} {w t : World} {v : Server}

/-- The client is in `RECV_PACKETS` and the child past `init`: in the data phase, if the server
has the file. -/
def Finished (w : World) : Prop :=
  w.client.mvState = .recvPackets ∧ ∃ v, w.children = [v] ∧ v.mvState ≠ .init ∧
    ((Host.file v.mvFromName).isSome = true → v.inData)

/-- The child goes about its window until the client takes the acknowledgement. -/
theorem Closing.step (hc : w.Closing v) (hm : w.CalmTurn v t) :
    t.Finished ∨ ∃ u, t.Closing u ∧ u.work < v.work := by
  obtain ⟨src, l₀, hdown⟩ := hc.down
  cases hm with
  | parent hq | childHear hq => simp [hc.up, silent] at hq
  | clientSends hs hsent => simp [hc.sent] at hsent
  | @childAct v' out b hst =>
    have ht := Server.step_cases (Server.inData_of_step hst hc.left) hst
    obtain ⟨hlt, hd⟩ := ht.work_lt
    have hd' : v'.mvState ≠ .init := by rcases hd with h | h | h <;> simp [h]
    refine .inr ⟨v', ?_, hlt⟩
    exact
      { children := by simp [afterChild, hc.children]
        left := hd', data := fun _ => hd, client := hc.client, sent := hc.sent
        index := hc.index, up := hc.up
        down := by
          by_cases hx : w.client.mvSocket = v'.mvAddr
          · simp [afterChild, post, ← hx, hdown]
          · simp [afterChild, post, Function.update_of_ne hx, hdown] }
  | @clientHear d l b sock c out hq hst =>
    left
    obtain ⟨rfl, rfl⟩ := List.cons.inj (hdown.symm.trans hq)
    have hi := hc.index
    obtain ⟨-, rfl, ht⟩ := Client.initTurn_of_step hc.client (by omega) hst
    have hfour : ((rrpkt 4).sequence.toNat : Int) = 4 := rfl
    cases ht with
    | again hk ha hr =>
      rcases hr with hb | ⟨src, buf, hb, -, -, hne⟩
      · simp [Recv.bad] at hb
      · obtain ⟨-, rfl⟩ := Recv.datagram.inj hb
        dsimp only at hne
        omega
    | opens hok hrr hq' hi' | switches hok hrr hq' hi' | onward hok ho hi' => omega
    | back hok hrej => simp at hrej
    | fail hfail => simp [Recv.bad] at hfail
    | leaves => exact ⟨rfl, v, hc.children, hc.left, hc.data⟩

theorem Closing.progress (hc : w.Closing v) : ∃ t, (calm from_ bufsz winsz).Move w t := by
  obtain ⟨src, l, hdown⟩ := hc.down
  have hi := hc.index
  exact calm_reads hc.client hc.sent (by omega) (by simp [hdown])

theorem Closing.inevitable (hc : w.Closing v) :
    (calm from_ bufsz winsz).Inevitable Finished w := by
  refine .of_rank (fun n w => ∃ v, w.Closing v ∧ v.work = n) ?_ ?_ ⟨v, hc, rfl⟩
  · rintro n w ⟨v, hc, -⟩
    exact hc.progress
  · rintro n w t ⟨v, hc, rfl⟩ hm
    refine (hc.step (calm_cases hc.children hm)).imp_right ?_
    rintro ⟨u, hu, hlt⟩
    exact ⟨u.work, hlt, u, hu, rfl⟩

/-- **An exchange in which the child is not ahead of the client comes to the data phase.** -/
theorem Phase.inevitable (hr : (system from_ bufsz winsz .lossy).Reach w) (hf : w.Facing v)
    {n : ℕ} (hp : w.Phase v n) : (calm from_ bufsz winsz).Inevitable Finished w := by
  have hclose : (calm from_ bufsz winsz).Inevitable (fun t => ∃ u, t.Closing u) w := by
    refine .of_rank (fun n w => (system from_ bufsz winsz .lossy).Reach w ∧
      ∃ v, w.Facing v ∧ w.Phase v n) ?_ ?_ ⟨hr, v, hf, hp⟩
    · rintro n w ⟨hr, v, hf, hp⟩
      exact hp.progress hf (hf.facts hr)
    · rintro n w t ⟨hr, v, hf, hp⟩ hm
      refine (hp.step hf (hf.facts hr) (calm_cases hf.children hm)).imp_right ?_
      rintro ⟨u, hu, m, hlt, hm'⟩
      exact ⟨m, hlt, calm_reach hr hm, u, hu, hm'⟩
  exact hclose.trans fun t ⟨u, hu⟩ => hu.inevitable

/-! ## 2. The client sends to the wrong address -/

/-- The client sends to an address at which its child does not listen, and nobody answers. -/
structure Astray (w : World) (v : Server) : Prop where
  facing : w.Facing v
  addr : w.client.mvAddr ≠ v.mvSocket
  index : 2 ≤ w.client.i
  down : w.down = silent
  child : w.up v.mvSocket = []
  port : ∀ d ∈ w.up w.port, w.client.sent = true ∧ d.pkt = w.client.pkt w.client.i

theorem Astray.step (ha : w.Astray v) (hx : w.Facts v) (hm : w.CalmTurn v t) : t.Astray v := by
  obtain ⟨h0, h5⟩ := hx.index
  have hf := ha.facing
  cases hm with
  | @parent d l b sock hq =>
    have hd := (ha.port d (hq ▸ List.mem_cons_self)).2
    rw [hd, Parent.run_ignores ha.index h5]
    refine
      { facing := ⟨by simp [afterParent, hf.children], hf.server, hf.client⟩, addr := ha.addr
        index := ha.index, down := by simpa [afterParent] using ha.down, child := ?_, port := ?_ }
    · simp only [afterParent]
      rw [Function.update_of_ne hx.socket]
      exact ha.child
    · intro d' hd'
      refine ha.port d' (hq ▸ List.mem_cons_of_mem _ ?_)
      simpa [afterParent, World.port] using hd'
  | childAct hst => exact absurd hst (no_act hf.server)
  | childHear hq => simp [ha.child] at hq
  | clientHear hq => simp [ha.down, silent] at hq
  | clientSends hs hsent =>
    refine
      { facing := ⟨hf.children, hf.server, hf.client⟩, addr := ha.addr, index := ha.index
        down := ha.down, child := ?_, port := fun d hd => ⟨rfl, ?_⟩ }
    · simp only [afterClient, post]
      rw [Function.update_of_ne ha.addr.symm]
      exact ha.child
    · rcases mem_post.mp hd with hd | ⟨-, p, hp, rfl⟩
      · simpa [hsent] using (ha.port d hd).1
      · exact (Option.some.inj hp).symm

/-! ## 3. The child is ahead -/

/-- The three moments of an exchange when the child is ahead of the client. -/
inductive Ahead (w : World) (v : Server) : Prop
  | idle (hs : w.client.sent = false) (hu : w.up = silent) (hd : w.down = silent)
      (ha : w.client.mvAddr = v.mvSocket)
  | asked (hs : w.client.sent = true)
      (hu : w.up = post silent v.mvSocket w.client.mvSocket (some (w.client.pkt w.client.i)))
      (hd : w.down = silent)
  | answered (hs : w.client.sent = true) (hu : w.up = silent)
      (hd : w.down = post silent w.client.mvSocket v.mvSocket (some (rrpkt v.mvSequence)))

/-- **The ping-pong never ends.** -/
theorem Ahead.step (hf : w.Facing v) (hx : w.Facts v) (h2 : 2 ≤ w.client.i)
    (hlt : w.client.i < v.mvSequence.toNat) (ha : w.Ahead v) (hm : w.CalmTurn v t) :
    ∃ u, t.Facing u ∧ 2 ≤ t.client.i ∧ t.client.i < u.mvSequence.toNat ∧ t.Ahead u := by
  obtain ⟨h0, h5⟩ := hx.index
  cases ha with
  | idle hs hu hd ha =>
    cases hm with
    | parent hq | childHear hq => simp [hu, silent] at hq
    | clientHear hq => simp [hd, silent] at hq
    | childAct hst => exact absurd hst (no_act hf.server)
    | clientSends =>
      refine ⟨v, ⟨hf.children, hf.server, hf.client⟩, h2, hlt, .asked rfl ?_ hd⟩
      rw [← hu, ← ha]
      rfl
  | asked hs hu hd =>
    cases hm with
    | parent hq =>
      rw [hu, post_silent, if_neg hx.socket.symm] at hq
      simp at hq
    | clientHear hq => simp [hd, silent] at hq
    | childAct hst => exact absurd hst (no_act hf.server)
    | clientSends hsend hsent => simp [hs] at hsent
    | @childHear d l v' out hq hst =>
      rw [hu, post_silent, if_pos rfl] at hq
      obtain ⟨rfl, rfl⟩ := List.cons.inj hq
      rw [hu, update_post_silent]
      have hseq := Client.pkt_sequence (c := w.client) h0 h5
      have hok := Client.pkt_ok (c := w.client) h0 h5
      cases Server.initTurn_of_step hf.server hx.loop hst with
      | nag hb | gaveUp hb => simp [Recv.bad, hok] at hb
      | fail hfail => simp at hfail
      | high hok hq =>
        rw [UInt32.lt_iff_toNat_lt] at hq
        dsimp only at hq
        omega
      | take hok hq | opened hok hq | unopened hok hq =>
        rw [hq] at hseq
        omega
      | old hok hq =>
        refine ⟨{ v with
            mvRetries := pktTrnsMax, mvAddr := w.client.mvSocket, mvAddrLen := sizeofIn },
          ⟨by simp [afterChild, hf.children], hf.server, hf.client⟩, h2, hlt,
          .answered hs rfl ?_⟩
        simp only [afterChild, hd]
  | answered hs hu hd =>
    cases hm with
    | parent hq | childHear hq => simp [hu, silent] at hq
    | childAct hst => exact absurd hst (no_act hf.server)
    | clientSends hsend hsent => simp [hs] at hsent
    | @clientHear d l b sock c out hq hst =>
      rw [hd, post_silent, if_pos rfl] at hq
      obtain ⟨rfl, rfl⟩ := List.cons.inj hq
      obtain ⟨-, rfl, ht⟩ := Client.initTurn_of_step hf.client hx.index hst
      rw [hd, update_post_silent]
      have hup {c : Client} : (w.afterClient silent b (c, none)).up = silent := by
        simp [afterClient, hu]
      cases ht with
      | @again r io k a m hk ha hr =>
        refine ⟨v, ⟨hf.children, hf.server, hf.client⟩, h2, hlt, .idle rfl hup rfl ?_⟩
        rcases ha with ⟨hb, -⟩ | ⟨buf, hb⟩
        · simp at hb
        · exact (Recv.datagram.inj hb).1.symm
      | opens hok hrr hq' hi | switches hok hrr hq' hi =>
        dsimp only [rrpkt_sequence] at hq'
        omega
      | back hok hrej => simp at hrej
      | onward hok ho hi | leaves hok ho hi =>
        rcases ho with ⟨-, hq', -⟩ | ⟨hrej, -⟩ | ⟨hrr, -⟩
        · simp only [rrpkt_sequence] at hq'
          omega
        · simp at hrej
        · simp at hrr
      | fail hfail => simp [Recv.bad] at hfail

theorem Ahead.progress (hf : w.Facing v) (hx : w.Facts v) (h2 : 2 ≤ w.client.i)
    (ha : w.Ahead v) : ∃ t, (calm from_ bufsz winsz).Move w t := by
  have hi := hx.index
  cases ha with
  | idle hs => exact calm_sends hf.client hs
  | asked hs hu =>
    refine calm_hears hf.children hf.server ?_
    simp [hu, post_silent]
  | answered hs hu hd =>
    refine calm_reads hf.client hs (by omega) ?_
    simp [hd, post_silent]

theorem Facing.not_finished (hf : w.Facing v) : ¬ w.Finished := by
  rintro ⟨hc, -⟩
  simp [hf.client] at hc

/-! ## 4. Which states recover -/

/-- A child ahead of the client is never caught up with. -/
theorem not_inevitable_of_ahead (hr : (system from_ bufsz winsz .lossy).Reach w)
    (hf : w.Facing v) (h2 : 2 ≤ w.client.i) (hlt : w.client.i < v.mvSequence.toNat)
    (ha : w.Ahead v) : ¬ (calm from_ bufsz winsz).Inevitable Finished w := by
  refine System.not_inevitable_of_trap (fun w => (system from_ bufsz winsz .lossy).Reach w ∧
    ∃ v, w.Facing v ∧ 2 ≤ w.client.i ∧ w.client.i < v.mvSequence.toNat ∧ w.Ahead v) ?_
    ⟨hr, v, hf, h2, hlt, ha⟩
  rintro w ⟨hr, v, hf, h2, hlt, ha⟩
  obtain ⟨t, hm⟩ := ha.progress hf (hf.facts hr) h2
  exact ⟨hf.not_finished, .inr ⟨t, hm, calm_reach hr hm,
    ha.step hf (hf.facts hr) h2 hlt (calm_cases hf.children hm)⟩⟩

/-- A client that sends to the wrong address waits for ever. -/
theorem not_inevitable_of_astray (hr : (system from_ bufsz winsz .lossy).Reach w)
    (ha : w.Astray v) : ¬ (calm from_ bufsz winsz).Inevitable Finished w := by
  refine System.not_inevitable_of_trap (fun w => (system from_ bufsz winsz .lossy).Reach w ∧
    ∃ v, w.Astray v) ?_ ⟨hr, v, ha⟩
  rintro w ⟨hr, v, ha⟩
  refine ⟨ha.facing.not_finished, ?_⟩
  by_cases hex : ∃ t, (calm from_ bufsz winsz).Move w t
  · obtain ⟨t, hm⟩ := hex
    exact .inr ⟨t, hm, calm_reach hr hm, v,
      ha.step (ha.facing.facts hr) (calm_cases ha.facing.children hm)⟩
  · exact .inl (not_exists.mp hex)

/-- **Which states recover.**  Client and child are both in `init`, the client is about to send
packet `i ≥ 2`, nothing is in flight.  From there on every loss-free run comes to the data phase
if and only if the client sends to the socket of the child and the child waits for packet `i`
or an earlier one. -/
theorem recovers_iff (from_ : List UInt8) (bufsz winsz : Int32) (w : World) (v : Server)
    (h : (system from_ bufsz winsz .lossy).Reach w) (hk : w.children = [v])
    (hv : v.mvState = .init) (hc : w.client.mvState = .init) (hs : w.client.sent = false)
    (hi : 2 ≤ w.client.i) (hu : ∀ x, w.up x = []) (hd : ∀ x, w.down x = []) :
    (calm from_ bufsz winsz).Inevitable Finished w ↔
      w.client.mvAddr = v.mvSocket ∧ (v.mvSequence.toNat : Int) ≤ w.client.i := by
  have hf : w.Facing v := ⟨hk, hv, hc⟩
  have hx := hf.facts h
  have hup : w.up = silent := funext hu
  have hdown : w.down = silent := funext hd
  constructor
  · intro hinev
    by_contra hne
    by_cases ha : w.client.mvAddr = v.mvSocket
    · have hlt : w.client.i < v.mvSequence.toNat := by
        by_contra hle
        exact hne ⟨ha, by omega⟩
      exact not_inevitable_of_ahead h hf hi hlt (.idle hs hup hdown ha) hinev
    · exact not_inevitable_of_astray h
        ⟨hf, ha, hi, hdown, hu _, fun d hd => by simp [hu] at hd⟩ hinev
  · rintro ⟨ha, hle⟩
    refine Phase.inevitable h hf (.idle hs hup hdown ha ?_ hle)
    intro h1
    -- a child that waits for the `CXN2` listens where the client was told to go
    rcases (opening_of_reach rfl h hc).addr hi with heq | heq | ⟨u, hu, hr⟩
    · exact heq.symm.trans ha
    · exact absurd (ha.symm.trans heq) hx.socket
    · rw [hk, List.mem_singleton] at hu
      subst hu
      rcases hr with hr | hr
      · exact absurd hv hr
      · omega

/-! ## 5. Where datagrams can be -/

variable {n : Link} {e : Event} {l : List Addr}

/-- Everything in flight is at one of the addresses `l`. -/
structure Within (l : List Addr) (w : World) : Prop where
  up : ∀ x, ∀ d ∈ w.up x, x ∈ l
  down : ∀ x, ∀ d ∈ w.down x, x ∈ l

/-- The step sends to addresses in `l` only. -/
def SendsTo (l : List Addr) (w : World) (e : Event) : Prop :=
  ∀ t ∈ w.next e, t.client.mvAddr ∈ l ∧ (∀ v ∈ t.children, v.mvAddr ∈ l) ∧
    ∀ d ∈ w.up w.port, d.src ∈ l

instance (l : List Addr) (w : World) (e : Event) : Decidable (SendsTo l w e) :=
  inferInstanceAs (Decidable (∀ t ∈ w.next e, t.client.mvAddr ∈ l ∧
    (∀ v ∈ t.children, v.mvAddr ∈ l) ∧ ∀ d ∈ w.up w.port, d.src ∈ l))

theorem Within.step (hi : w.Within l) (h : Turn n w e t) (hc : t.client.mvAddr ∈ l)
    (hv : ∀ v ∈ t.children, v.mvAddr ∈ l) (hp : ∀ d ∈ w.up w.port, d.src ∈ l) : t.Within l := by
  have hpost {q : Addr → List Datagram} {dst src : Addr} {out : Option Packet}
      (hq : ∀ x, ∀ d ∈ q x, x ∈ l) (hd : dst ∈ l) : ∀ x, ∀ d ∈ post q dst src out x, x ∈ l := by
    intro x d h
    rcases mem_post.mp h with h | ⟨rfl, -⟩
    · exact hq x d h
    · exact hd
  have hless {q : Addr → List Datagram} {y : Addr} {k : List Datagram}
      (hq : ∀ x, ∀ d ∈ q x, x ∈ l) (hk : ∀ d ∈ k, d ∈ q y) :
      ∀ x, ∀ d ∈ Function.update q y k x, x ∈ l :=
    fun x d h => hq x d (mem_update hk h)
  cases h with
  | parentStops => exact { hi with }
  | parentDrops hok ha hs =>
    exact ⟨hless hi.up fun _ => hs.sub, by simpa [afterParent] using hi.down⟩
  | parent hn hok ha ht =>
    exact ⟨hless hi.up fun _ => ht.sub, hpost hi.down (hp _ ht.mem)⟩
  | childAct hk hd ht => exact ⟨hi.up, hpost hi.down (hv _ (mem_set_self hk))⟩
  | childInit hk hd hal ha | childHear hk hd hal ha =>
    exact ⟨hless hi.up fun _ => (Arrival.recv_shed hal ha).sub,
      hpost hi.down (hv _ (mem_set_self hk))⟩
  | clientSends | clientStops => exact ⟨hpost hi.up hc, hi.down⟩
  | clientInit hn hs hsent hal ha | clientHear hs hal ha =>
    exact ⟨hpost hi.up hc, hless hi.down fun _ => (Arrival.recv_shed hal ha).sub⟩
  | noiseUp hn => exact ⟨hless hi.up fun _ => hn.sub, hi.down⟩
  | noiseDown hn => exact ⟨hi.up, hless hi.down fun _ => hn.sub⟩

/-- A run that sends to addresses in `l` only has nothing in flight if nothing is at those. -/
theorem silent_of_within (h : ((system from_ bufsz winsz n).under (SendsTo l)).Reach w)
    (hl : ∀ x ∈ l, w.up x = [] ∧ w.down x = []) : ∀ x, w.up x = [] ∧ w.down x = [] := by
  have hw : w.Within l := by
    refine h.invariant (I := Within l) ?_ ?_
    · intro w h0
      constructor <;> simp [Start.up h0, Start.down h0]
    · intro w e t hr hi hm hn
      obtain ⟨hc, hv, hp⟩ := hm.2 t hn
      exact hi.step (next_cases (wf_of_reach hr.of_under) hm.1 hn) hc hv hp
  intro x
  by_cases hx : x ∈ l
  · exact hl x hx
  · exact ⟨List.eq_nil_iff_forall_not_mem.mpr fun d hd => hx (hw.up x d hd),
      List.eq_nil_iff_forall_not_mem.mpr fun d hd => hx (hw.down x d hd)⟩

end World

end Fileserver

namespace Fileserver

open Proto

namespace World

local instance : Host := refHost [1, 2, 3]

/-- The addresses of a run with one child. -/
def places : List Addr := [⟨1, 7⟩, ⟨1, 21⟩, ⟨2, 9⟩, ⟨2, 11⟩]

/-- A computed run with one child, both in `init`, that has nothing in flight any more. -/
theorem reach_silent (es : List Event) (i : Int) (q : UInt32) (a : Addr)
    (h : (((system [0x66] 2 3 .lossy).under (SendsTo places)).run (atStart [0x66] 2 3) es).any
      (fun w => decide (w.children.map (fun v => (v.mvState, v.mvSequence, v.mvSocket)) =
        [(.init, q, a)] ∧ w.client.mvState = .init ∧ w.client.sent = false ∧ w.client.i = i ∧
        w.client.mvAddr = a ∧ ∀ x ∈ places, w.up x = [] ∧ w.down x = [])) = true) :
    ∃ w v, (system [0x66] 2 3 .lossy).Reach w ∧ w.children = [v] ∧ v.mvState = .init ∧
      v.mvSequence = q ∧ w.client.mvState = .init ∧ w.client.sent = false ∧ w.client.i = i ∧
      w.client.mvAddr = v.mvSocket ∧ ∀ x, w.up x = [] ∧ w.down x = [] := by
  have h0 : ((system [0x66] 2 3 .lossy).under (SendsTo places)).Reach (atStart [0x66] 2 3) :=
    .start (atStart_start _ _ _)
  obtain ⟨w, hr, hw⟩ := h0.run_any es _ h
  obtain ⟨hk, hc, hs, hi, ha, hl⟩ := of_decide_eq_true hw
  obtain ⟨v, hv, hq⟩ := List.map_eq_singleton_iff.mp hk
  obtain ⟨h1, h2, h3⟩ : v.mvState = .init ∧ v.mvSequence = q ∧ v.mvSocket = a := by
    simpa using hq
  exact ⟨w, v, hr.of_under, hv, h1, h2, hc, hs, hi, ha.trans h3.symm, silent_of_within hr hl⟩

/-- The connection is made and nothing is late or lost. -/
theorem recovers_connected :
    ∃ w, (system [0x66] 2 3 .lossy).Reach w ∧ (calm [0x66] 2 3).Inevitable Finished w := by
  obtain ⟨w, v, h, hk, hv, hq, hc, hs, hi, ha, hx⟩ :=
    reach_silent connect 2 1 ⟨1, 21⟩ (by decide +kernel)
  have hseq : v.mvSequence.toNat = 1 := congrArg UInt32.toNat hq
  exact ⟨w, h, (recovers_iff [0x66] 2 3 w v h hk hv hc hs (by omega) (fun x => (hx x).1)
    fun x => (hx x).2).mpr ⟨ha, by omega⟩⟩

/-- **The child's `RR` for the `BUF` packet is lost**: the client, back at that packet after its
timeout, is never told anything but the number 3. -/
theorem not_recovers_ahead :
    ¬ ∀ (w : World) (v : Server), (system [0x66] 2 3 .lossy).Reach w → w.children = [v] →
      v.mvState = .init → w.client.mvState = .init → w.client.sent = false → 2 ≤ w.client.i →
      (∀ x, w.up x = []) → (∀ x, w.down x = []) →
      (calm [0x66] 2 3).Inevitable Finished w := by
  intro hall
  obtain ⟨w, v, h, hk, hv, hq, hc, hs, hi, ha, hx⟩ :=
    reach_silent
      (connect ++ [13, 14].flatMap exchange ++
        [.clientAct true, .childHear 0 (.take 0) true, .loseDown ⟨2, 11⟩ 0,
         .clientHear .timeout ⟨2, 15⟩ true true])
      2 3 ⟨1, 21⟩ (by decide +kernel)
  have hseq : v.mvSequence.toNat = 3 := congrArg UInt32.toNat hq
  have hup : w.up = silent := funext fun x => (hx x).1
  have hdown : w.down = silent := funext fun x => (hx x).2
  exact not_inevitable_of_ahead h ⟨hk, hv, hc⟩ (by omega) (by omega) (.idle hs hup hdown ha)
    (hall w v h hk hv hc hs (by omega) (fun x => (hx x).1) fun x => (hx x).2)

end World

end Fileserver
