/-
# No premature release

The child drops a packet from its window for an `RR` only, and the client sends the `RR` for a
packet behind the `write` of its bytes.  So the window never passes the packets written
(`Written`), whatever the links do to the datagrams and whichever `write` fails.  That it never
passes the client's counter is the invariant of go-back-N read back through `abs`
(`Refinement.lean`), and takes no bound on the file.
-/
import Fileserver.Transfer

namespace Fileserver

open Proto

variable [Host]

/-! ## 1. The child -/

namespace Server

/-- **The window does not pass `k`**, unless an `RR` for `k` or a later number arrives. -/
theorem Turn.lowest_le {s t : Server} {e : Event} {out : Option Packet} {k : ℕ}
    (h : Turn s e t out) (hn : s.Numbered) (hW : 0 < s.mvWindowSize.toNat) (hk : s.lowest ≤ k)
    (hp : s.pushes e → s.mvSequence.toNat + 1 < 2 ^ 32)
    (hr : ∀ src buf io, e = .hear (.datagram src buf) io → buf.ok = true →
      buf.type = pktTypeRR → buf.sequence.toNat < k) (ht : t.inData) : t.lowest ≤ k := by
  have hnt : t.Numbered := by
    rcases h.numbered hn hp with he | ⟨-, hnt⟩
    · simp [inData, he] at ht
    · exact hnt
  have hls := hn.lowest_eq
  have hlt := hnt.lowest_eq
  cases h with
  | push hs hl =>
    have hseq : (s.mvSequence + 1).toNat = s.mvSequence.toNat + 1 := by
      rw [UInt32.toNat_add, UInt32.toNat_one]
      exact Nat.mod_eq_of_lt (hp ⟨rfl, hs, hl⟩)
    simp only [hseq, List.length_append, List.length_singleton] at hlt
    omega
  | @shiftTo src buf io hs hok hty hle =>
    obtain ⟨hf, hlw⟩ := hn.front_eq hW hs
    have hfull := hn.full (by simp [hs])
    have hmax := s.mvSequence.toNat_lt
    have hlen := length_shift buf.sequence s.front.sequence s.mvWindow (by omega)
    have hq := hr src buf io rfl hok hty
    dsimp only at hlt
    omega
  | @rewind src buf hs hok hty hlow =>
    obtain ⟨hf, hlw⟩ := hn.front_eq hW hs
    rw [UInt32.lt_iff_toNat_lt] at hlow
    dsimp only at hlt
    omega
  | full | sendOne | sent | again | oldRR | resend | ignore =>
    dsimp only at hlt
    omega
  | fail => simp [inData] at ht

end Server

/-! ## 2. The client -/

namespace Client

variable {file : List UInt8} {B : UInt32} {K : ℕ} {c d : Client}

/-- **What the client has, from the first request on**, when it has written `K` packets.  A `write`
that fails leaves the counter ahead of the output, and ends the client. -/
structure Holds (file : List UInt8) (B : UInt32) (K : ℕ) (c : Client) : Prop where
  copied : c.mvState ≠ .error → Copied file B c ∧ c.mvSequence.toNat = K
  fresh : c.mvState = .init → c.mvSequence = 0
  bound : c.mvSequence.toNat * B.toNat ≤ file.length + B.toNat
  counted : K ≤ c.mvSequence.toNat
  written : file.take (K * B.toNat) <+: c.mvTo
  part : c.mvTo <+: file

omit [Host] in
theorem Copied.holds (h : Copied file B c) (hs : c.mvState = .init → c.mvSequence = 0) :
    Holds file B c.mvSequence.toNat c where
  copied := fun _ => ⟨h, rfl⟩
  fresh := hs
  bound := h.bound
  counted := le_rfl
  written := by rw [h.output]
  part := by
    rw [h.output]
    exact List.take_prefix _ _

omit [Host] in
/-- The client ends where it is. -/
theorem Holds.ends (h : Holds file B K c) (he : d.mvState = .error)
    (hq : d.mvSequence = c.mvSequence) (ht : d.mvTo = c.mvTo) : Holds file B K d :=
  ⟨fun hne => absurd he hne, by simp [he], hq ▸ h.bound, hq ▸ h.counted, ht ▸ h.written,
    ht ▸ h.part⟩

/-- A packet with a number below `K` stands in the output at the place of its number. -/
theorem Holds.inPlace (h : Holds file B K c) {p : Packet} (hp : Server.Carries file B.toNat p)
    (hD : B.toNat ≤ pktDMax) (hk : p.sequence.toNat < K) :
    p.bytes p.size.toNat <+: c.mvTo.drop (p.sequence.toNat * B.toNat) := by
  have hle : p.sequence.toNat * B.toNat + B.toNat ≤ K * B.toNat := by
    rw [← Nat.succ_mul]
    exact Nat.mul_le_mul_right _ hk
  have hpart := h.written.drop (p.sequence.toNat * B.toNat)
  rw [List.drop_take] at hpart
  rw [hp.bytes hD, slice]
  exact (List.take_prefix_take_left (by omega)).trans hpart

/-- **A turn of `recvPackets` writes what belongs at the end of the output**, as long as what has
the number the client waits for is the packet of that number; and an `RR` is sent only for what
has been written. -/
theorem Turn.holds {r : Recv} {wr io : Bool} {out : Option Packet} (h : c.Turn r wr io d out)
    (hs : c.mvState = .recvPackets) (hc : Holds file B K c) (hD : B.toNat ≤ pktDMax)
    (hw : c.mvSequence.toNat + 1 < 2 ^ 32)
    (hr : ∀ src p, r = .datagram src p → p.ok = true → p.sequence = c.mvSequence →
      Server.Carries file B.toNat p) :
    ∃ K', K ≤ K' ∧ Holds file B K' d ∧
      ∀ p, out = some p → p.type = pktTypeRR → p.sequence.toNat < K' := by
  obtain ⟨hcop, rfl⟩ := hc.copied (by simp [hs])
  have hseq : (c.mvSequence + 1).toNat = c.mvSequence.toNat + 1 := by
    rw [UInt32.toNat_add, UInt32.toNat_one]
    exact Nat.mod_eq_of_lt hw
  -- the packet the client waits for, and a turn that writes it
  have hexp {src : Addr} {p : Packet} {d : Client} {io : Bool} {out : Option Packet}
      (hrp : r = .datagram src p) (hok : p.ok = true) (hq : p.sequence = c.mvSequence)
      (ht : c.Turn (.datagram src p) true io d out) (hd : d.mvSequence = c.mvSequence + 1)
      (hne : d.mvState ≠ .init)
      (hout : ∀ x, out = some x → x.type = pktTypeRR → x.sequence = c.mvSequence) :
      ∃ K', c.mvSequence.toNat ≤ K' ∧ Holds file B K' d ∧
        ∀ x, out = some x → x.type = pktTypeRR → x.sequence.toNat < K' := by
    have hcd : Copied file B d := by
      refine ht.copied hcop hs hD ?_
      rintro _ _ he -
      obtain ⟨rfl, rfl⟩ := Recv.datagram.inj he
      exact ⟨hr _ _ hrp hok hq, hq ▸ hw⟩
    refine ⟨d.mvSequence.toNat, by rw [hd, hseq]; omega,
      hcd.holds fun hi => absurd hi hne, ?_⟩
    intro x hx hty
    rw [hout x hx hty, hd, hseq]
    omega
  have hsame {k : Int} {a : Addr} {m : UInt32} : Holds file B c.mvSequence.toNat
      { c with mvRetries := k, mvAddr := a, mvAddrLen := m } :=
    { hc with copied := fun _ => ⟨{ hcop with }, rfl⟩ }
  cases h with
  | nag | gap => exact ⟨_, le_rfl, hsame, by simp⟩
  | old hok hq =>
    rw [UInt32.lt_iff_toNat_lt] at hq
    exact ⟨_, le_rfl, hsame, by simpa using hq⟩
  | accept hok hq hsh =>
    exact hexp rfl hok hq (.accept hok hq hsh) rfl (by simp [accepted, hs]) (by simp [hq])
  | @finish src p io hok hq hsh =>
    exact hexp rfl hok hq (@Turn.finish _ c src p io hok hq hsh) rfl (by simp) (by simp)
  | unsent hok hq hsh =>
    exact hexp rfl hok hq (.unsent hok hq hsh) rfl (by simp) (by simp)
  | @unwritten src p io hok hq =>
    have hin := hcop.within hs
    refine ⟨_, le_rfl, ⟨by simp, by simp, ?_, ?_, hc.written, hc.part⟩, by simp⟩
    · simp only [accepted, hseq, Nat.succ_mul]
      omega
    · simp only [accepted, hseq]
      omega
  | fail => exact ⟨_, le_rfl, hc.ends rfl rfl rfl, by simp⟩

end Client

namespace Session

/-! ## 3. The session -/

variable {file : List UInt8} {B W : UInt32} {dn up : Link} {s t : Session} {K : ℕ}

/-- **The invariant**, when the client has written `K` packets: no `RR` in flight is for a later
one, and the child's window has not passed them. -/
structure Written (file : List UInt8) (B W : UInt32) (K : ℕ) (s : Session) : Prop extends
    Inv W.toNat s where
  loaded : Server.Loaded file B s.server
  carries : ∀ d ∈ s.toClient, Server.Carries file B.toNat d.pkt
  held : s.server.inData → s.server.lowest ≤ K
  acked : ∀ d ∈ s.toServer, d.pkt.type = pktTypeRR → d.pkt.sequence.toNat < K
  client : s.client.Holds file B K

theorem Start.written (h : Start file B W s) : Written file B W 0 s := by
  have hc := h.content
  have hq : s.client.mvSequence.toNat = 0 := by simp [h.sequence]
  refine ⟨h.inv, hc.loaded, hc.carries, fun _ => ?_, by simp [h.toServer], ?_⟩
  · simp [Server.lowest, h.server.window, h.server.sequence, lowestOf]
  · rw [← hq]
    exact hc.copied.holds fun _ => h.sequence

/-- **Every step keeps it**, and the client only ever writes more. -/
theorem Written.step (hi : Written file B W K s) (hB : 0 < B.toNat) (hD : B.toNat ≤ pktDMax)
    (hW : 0 < W.toNat) (hlen : file.length + (W.toNat + 1) * B.toNat < 2 ^ 32) {e : Event}
    (hk : may dn up e) (h : s.next e = some t) : ∃ K', Written file B W K' t := by
  have hfit := hi.toInv.fits hi.client.bound hlen (e := e)
  obtain ⟨hit, hl, hd⟩ := hi.toInv.carries hi.loaded hi.carries hB hW hfit hk h
  have hWs : 0 < s.server.mvWindowSize.toNat := by rw [hi.wf.windowSize]; exact hW
  -- a turn of the child
  have hserver {ev : Server.Event} {v : Server} {out : Option Packet}
      (hst : s.server.step ev = some (v, out))
      (hp : s.server.pushes ev → (s.server.mvSequence.toNat + 1) * B.toNat < 2 ^ 32)
      (hr : ∀ src buf io, ev = .hear (.datagram src buf) io → buf.ok = true →
        buf.type = pktTypeRR → buf.sequence.toNat < K) (hv : v.inData) : v.lowest ≤ K := by
    rcases hi.wf.phase with he | ⟨hdat, hn⟩
    · simp [Server.step_error he] at hst
    exact (Server.step_cases hdat hst).lowest_le hn hWs (hi.held hdat)
      (fun h => lt_of_le_of_lt (Nat.le_mul_of_pos_right _ hB) (hp h)) hr hv
  cases e with
  | serverAct io =>
    obtain ⟨⟨v, out⟩, hst, rfl⟩ := Option.map_eq_some_iff.mp h
    exact ⟨K, hit, hl, hd, hserver hst hfit (by simp), hi.acked, hi.client⟩
  | serverHear a io =>
    obtain ⟨⟨r, l⟩, ha, h⟩ := Option.bind_eq_some_iff.mp h
    obtain ⟨⟨v, out⟩, hst, rfl⟩ := Option.map_eq_some_iff.mp h
    refine ⟨K, hit, hl, hd, hserver hst (by simp [Server.pushes]) ?_, ?_, hi.client⟩
    · rintro src buf io he hok ht
      obtain ⟨rfl, rfl⟩ := Server.Event.hear.inj he
      exact hi.acked _ (Arrival.recv_ok hk ha hok).mem ht
    · exact fun d hx => hi.acked d ((Arrival.recv_shed hk ha).sub hx)
  | clientHear a wr io =>
    obtain ⟨⟨r, l⟩, ha, h⟩ := Option.bind_eq_some_iff.mp h
    obtain ⟨⟨c, out⟩, hst, rfl⟩ := Option.map_eq_some_iff.mp h
    obtain ⟨hs, ht⟩ := Client.step_cases hi.wf.client hst
    obtain ⟨hcop, -⟩ := hi.client.copied (by simp [hs])
    obtain ⟨K', hle, hc, hout⟩ := ht.holds hs hi.client hD (hcop.unwrapped hB hlen hs)
      fun src p hr hok _ => hi.carries _ (Arrival.recv_ok hk (hr ▸ ha) hok).mem
    refine ⟨K', hit, hl, hd, fun hv => (hi.held hv).trans hle, ?_, hc⟩
    intro d hx hty
    rcases List.mem_append.mp hx with hx | hx
    · exact (hi.acked d hx hty).trans_le hle
    · obtain ⟨p, hp, rfl⟩ := List.mem_map.mp hx
      exact hout p (Option.mem_toList.mp hp) hty
  | loseUp i =>
    obtain rfl := Option.some.inj h
    exact ⟨K, hit, hl, hd, hi.held, fun d hx => hi.acked d (List.mem_of_mem_eraseIdx hx), hi.client⟩
  | dupUp i =>
    obtain rfl := Option.some.inj h
    exact ⟨K, hit, hl, hd, hi.held, fun d hx => hi.acked d (Link.mem_of_mem_dup hx), hi.client⟩
  | loseDown i | dupDown i =>
    obtain rfl := Option.some.inj h
    exact ⟨K, hit, hl, hd, hi.held, hi.acked, hi.client⟩

theorem written_of_reach (hB : 0 < B.toNat) (hD : B.toNat ≤ pktDMax) (hW : 0 < W.toNat)
    (hlen : file.length + (W.toNat + 1) * B.toNat < 2 ^ 32)
    (h : (system file B W dn up).Reach s) : ∃ K, Written file B W K s := by
  refine h.invariant (I := fun s => ∃ K, Written file B W K s) ?_ ?_
  · exact fun _ h0 => ⟨0, Start.written h0⟩
  · rintro s e t - ⟨K, hi⟩ hm hn
    exact hi.step hB hD hW hlen hm.1 hn

/-! ## 4. Flow control -/

/-- A packet that an `RR` removes from the window has the number of the `RR` or a smaller one. -/
theorem Inv.released {W : ℕ} (hi : Inv W s) (hW : 0 < W) {a : Arrival} (hk : a.allowed up)
    {io : Bool} {src : Addr} {buf p : Packet} {l : List Datagram}
    (ha : a.recv s.toServer = some (.datagram src buf, l)) (hb : buf.type = pktTypeRR)
    (hn : s.next (.serverHear a io) = some t) (hp : p ∈ s.server.mvWindow)
    (hpt : p ∉ t.server.mvWindow) :
    ⟨src, buf⟩ ∈ s.toServer ∧ p.sequence.toNat ≤ buf.sequence.toNat := by
  obtain ⟨⟨r, l'⟩, ha', hn⟩ := Option.bind_eq_some_iff.mp hn
  obtain ⟨⟨v, out⟩, hst, rfl⟩ := Option.map_eq_some_iff.mp hn
  obtain ⟨rfl, rfl⟩ := Prod.mk.inj (Option.some.inj (ha.symm.trans ha'))
  rcases hi.wf.phase with he | ⟨hd, hnum⟩
  · simp [Server.step_error he] at hst
  have hrem := fun w => hnum.consec.removed (v := w) (p := p)
  cases Server.step_cases hd hst with
  | shiftTo hs hok ht hlow =>
    have hWs : 0 < s.server.mvWindowSize.toNat := by rw [hi.wf.windowSize]; exact hW
    obtain ⟨hf, hlw⟩ := hnum.front_eq hWs hs
    have hfull := hnum.full (by simp [hs])
    have hmax := s.server.mvSequence.toNat_lt
    have hle := hnum.consec.le
    rw [UInt32.le_iff_toNat_le] at hlow
    have hlen := Server.length_shift buf.sequence s.server.front.sequence s.server.mvWindow
      (by omega)
    have hlt := hrem _ (Server.shift_suffix buf.sequence s.server.front.sequence _) hp hpt
    exact ⟨(Arrival.recv_ok hk ha hok).mem, by omega⟩
  | resend hs hok ht | rewind hs hok ht => simp [hb] at ht
  | again | oldRR | ignore | fail => exact absurd hp hpt

/-- **No premature release, and flow control.**  Over links that lose, duplicate, reorder and
damage datagrams, the child's window never passes the client: what an `RR` removes from it the
client has counted, and what is sent lies less than `W` ahead of the client.  What an `RR` removes
the client has written, too: with offsets that fit 32 bits, the packet's bytes stand in the output
at the place of its number. -/
theorem flow_control (file : List UInt8) (B W : UInt32) (hW : 0 < W.toNat) (s : Session)
    (h : (system file B W .free .free).Reach s) :
    s.server.lowest ≤ s.client.mvSequence.toNat ∧
    (∀ a io src buf l t, a.recv s.toServer = some (.datagram src buf, l) →
      buf.type = pktTypeRR → s.next (.serverHear a io) = some t →
      ∀ p ∈ s.server.mvWindow, p ∉ t.server.mvWindow →
        p.sequence.toNat < s.client.mvSequence.toNat ∧
        (0 < B.toNat → B.toNat ≤ pktDMax →
          file.length + (W.toNat + 1) * B.toNat < 2 ^ 32 →
          p.bytes p.size.toNat <+: s.client.mvTo.drop (p.sequence.toNat * B.toNat))) ∧
    (∀ io v p, s.server.step (.act io) = some (v, some p) →
      p.sequence.toNat < s.client.mvSequence.toNat + W.toNat) := by
  have hi := inv_of_reach hW h
  have hbase : s.server.lowest ≤ s.client.mvSequence.toNat := hi.numbers.base_le
  refine ⟨hbase, ?_, ?_⟩
  · intro a io src buf l t ha hb hn p hp hpt
    obtain ⟨hm, hle⟩ := hi.released hW a.allowed_free ha hb hn hp hpt
    refine ⟨?_, ?_⟩
    · have hrr : .rr buf.sequence.toNat ∈ (abs s).up :=
        List.mem_map.mpr ⟨_, hm, by simp [reply, hb, num]⟩
      exact hle.trans_lt (hi.numbers.rr_lt _ hrr)
    · intro hB hD hlen
      obtain ⟨K, hw⟩ := written_of_reach hB hD hW hlen h
      have hp' := hw.loaded.window p hp
      exact hw.client.inPlace hp' hD (hle.trans_lt (hw.acked _ hm hb))
  · intro io v p hv
    rcases hi.wf.phase with he | ⟨hd, hn⟩
    · simp [Server.step_error he] at hv
    have ht := Server.step_cases hd hv
    have hlt := (hn.consec.mem (hn.suffix.subset ht.out_mem)).2
    have hlow := hn.consec.lowestOf
    have hlen := hn.le
    rw [hi.wf.windowSize] at hlen
    have hle := hn.consec.le
    simp only [Server.lowest] at hbase
    omega

end Session

end Fileserver

namespace Fileserver.Session

open Proto

local instance flowHost : Host := refHost [1, 2, 3]

/-- The child hears the `RR` for its first packet, and lets go of the two bytes the client has
written at the start of its output. -/
theorem flow_control_window :
    ∃ s t p, (system [1, 2, 3] 2 2 .free .free).Reach s ∧
      s.next (.serverHear (.take 0) true) = some t ∧ p ∈ s.server.mvWindow ∧
      p ∉ t.server.mvWindow ∧ s.server.lowest ≤ s.client.mvSequence.toNat ∧
      p.bytes p.size.toNat <+: s.client.mvTo.drop (p.sequence.toNat * 2) := by
  have h0 : (system [1, 2, 3] 2 2 .free .free).Reach (atStart [1, 2, 3] 2 2) :=
    .start (atStart_start [1, 2, 3] 2 2)
  obtain ⟨s, h, hs⟩ := h0.run_any
    (List.replicate 6 (.serverAct true) ++ [.clientHear (.take 0) true true])
    (fun s => decide (s.toServer.map (fun d => d.pkt.type) = [pktTypeRR]) &&
      (s.next (.serverHear (.take 0) true)).any fun t : Session =>
        decide (∃ p ∈ s.server.mvWindow, p ∉ t.server.mvWindow)) (by decide +kernel)
  obtain ⟨hrr, ht⟩ := Bool.and_eq_true_iff.mp hs
  obtain ⟨d, hd, hb⟩ := List.map_eq_singleton_iff.mp (of_decide_eq_true hrr)
  obtain ⟨t, hn, hpt⟩ := (Option.any_eq_true _ _).mp ht
  obtain ⟨p, hp, hpt⟩ := of_decide_eq_true hpt
  have ha : (Arrival.take 0).recv s.toServer = some (.datagram d.src d.pkt, []) := by
    simp [Arrival.recv, hd]
  obtain ⟨hlow, hrel, -⟩ := flow_control [1, 2, 3] 2 2 (by decide) s h
  exact ⟨s, t, p, h, hn, hp, hpt, hlow,
    (hrel _ _ _ _ _ _ ha hb hn p hp hpt).2 (by decide) (by decide) (by decide)⟩

end Fileserver.Session
