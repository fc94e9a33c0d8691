/-
# What the client knows when `Client::init` returns

`Client::init` returns on an `RR` with number 4, or on a packet that is no `RR` and no `REJ`.
The child sends that `RR` when it takes the `FLN` packet, and also when it gets a packet it has
taken before WHILE IT WAITS for the `FLN` packet: it answers with the number it waits for.  The
second kind is the only way to go wrong (`Timely`); `handshake_sound` proves it, and
`handshake_unsound` is a run in which it happens.
-/
import Fileserver.Cksum
import Fileserver.OnlyChild

namespace Fileserver

open Proto

variable [Host]

/-- A valid packet with a number below `q`. -/
def Recv.below (q : UInt32) : Recv → Bool
  | .datagram _ buf => buf.ok && decide (buf.sequence < q)
  | _ => false

namespace Server

/-- **When a child says `RR(4)`**: unless it has just heard an old packet, it has taken the `FLN`
packet and has opened the file, if there is one of that name. -/
theorem InitTurn.last {v v' : Server} {r : Recv} {io : Bool} {p : Packet}
    (h : v.InitTurn r io v' (some p)) (hv : v.Counting) {c : Client} (hheard : v.Heard c.pkt)
    (hr : ∀ src buf, r = .datagram src buf → buf.ok = true →
      ∃ j : Int, 1 ≤ j ∧ j < 5 ∧ buf = c.pkt j)
    (hb : v.mvSequence = 4 → r.below 4 = false)
    (hf : (Host.file (cstr (c.pkt 4).data)).isSome = true)
    (ht : p.type = pktTypeRR) (hq : p.sequence = 4) : v'.inData := by
  -- the packet with the number the child waits for
  have hfour {src : Addr} {buf : Packet} (hr' : r = .datagram src buf) (hok : buf.ok = true)
      (h4 : v.mvSequence = 4) (hs : buf.sequence = v.mvSequence) : buf = c.pkt 4 := by
    obtain ⟨j, h1, h5, rfl⟩ := hr src buf hr' hok
    have hj := Client.pkt_sequence (c := c) (by omega) h5
    rw [hs, h4] at hj
    rw [show j = 4 from hj.symm]
  cases h with
  | nag | gaveUp | high => simp at ht
  | old hok hs =>
    simp only [rrpkt_sequence] at hq
    have := hb hq
    rw [hq] at hs
    simp [Recv.below, hok, hs] at this
  | take hok hs hl =>
    simp only [rrpkt_sequence] at hq
    rw [hfour rfl hok hq hs, hv.last (by rw [hq]; rfl)] at hl
    simp at hl
  | opened => exact .inl rfl
  | @unopened src buf hok hs hl hn =>
    simp only [rrpkt_sequence] at hq
    obtain rfl := hfour rfl hok hq hs
    have hname := (hheard.taken src (c.own_pkt (by decide) (by decide))).fn
      (flags_of_taken hl).2.2
    rw [hname] at hn
    simp [hn] at hf

end Server

namespace World

variable {n : Link} {w t : World} {e : Event}

/-- A child that waits for its last parameter takes no packet it has taken before. -/
def Timely (w : World) : Event → Prop
  | .childHear k a _ =>
    ∀ v ∈ w.children[k]?, v.mvState = .init → v.mvSequence = 4 →
      ∀ x ∈ a.recv (w.up v.mvSocket), x.1.below 4 = false
  | _ => True

instance (w : World) : DecidablePred w.Timely
  | .childHear k a _ =>
    inferInstanceAs (Decidable (∀ v ∈ w.children[k]?, v.mvState = .init → v.mvSequence = 4 →
      ∀ x ∈ a.recv (w.up v.mvSocket), x.1.below 4 = false))
  | .parentHear .. | .childAct .. | .clientAct _ | .clientHear .. | .loseUp .. | .dupUp ..
  | .loseDown .. | .dupDown .. => inferInstanceAs (Decidable True)

/-- Some child has the client's parameters and is past `init`. -/
def Established (w : World) : Prop := ∃ v ∈ w.children, v.SetUp w.client.pkt

/-- **What is established stays so.** -/
theorem Established.step (hi : w.Established) (h : Turn n w e t) : t.Established := by
  obtain ⟨v, hv, hs⟩ := hi
  -- the child that takes the turn may be the one that is set up
  have hchild {k : ℕ} {u u' : Server} {ev : Server.Event} {out : Option Packet}
      (hk : w.children[k]? = some u) (hst : u.step ev = some (u', out)) :
      ∃ v ∈ w.children.set k u', v.SetUp w.client.pkt := by
    rcases mem_set_of_mem u' hk hv with rfl | hv'
    · exact ⟨u', mem_set_self hk, hs.step hst⟩
    · exact ⟨v, hv', hs⟩
  rw [Established, h.pkt_eq]
  cases h with
  | parentDrops | parent => exact ⟨v, List.mem_append_left _ hv, hs⟩
  | childAct hk hd ht hst | childInit hk hs' hal ha ht hst | childHear hk hd hal ha ht hst =>
    exact hchild hk hst
  | parentStops | clientSends | clientStops | clientInit | clientHear | noiseUp | noiseDown =>
    exact ⟨v, hv, hs⟩

/-- The client will take the packet as the acknowledgement of its last one. -/
def Final (p : Packet) : Prop :=
  p.type = pktTypeRR ∧ p.sequence = 4 ∨ p.type = pktTypeDAT

/-- **The invariant.** -/
structure Sound (w : World) : Prop where
  ack : w.client.mvState = .init → ∀ x, ∀ d ∈ w.down x, Final d.pkt → w.Established
  ret : w.client.mvState = .recvPackets → w.Established

/-- The packet that ends `Client::init`. -/
theorem Reply.final {src : Addr} {buf : Packet} (h : w.Reply ⟨src, buf⟩)
    (ho : w.client.Onward buf) (hi : w.client.i = 4) : Final buf := by
  rcases ho with ⟨ht, hq, -⟩ | ⟨ht, hq⟩ | ⟨h1, h2⟩
  · refine .inl ⟨ht, ?_⟩
    rw [← UInt32.toNat_inj]
    change buf.sequence.toNat = 4
    omega
  · have := (h.of_rej ht).2.1
    dsimp only at this
    omega
  · exact .inr (h.of_other h1 h2).1

theorem Sound.step (hg : n.garbles = false) (hi : w.Sound)
    (ho : w.client.mvState = .init → w.Opening) (htold : w.Told) (htold' : t.Told)
    (hf : (Host.file (cstr (w.client.pkt 4).data)).isSome = true) (hb : w.Timely e)
    (h : Turn n w e t) : t.Sound := by
  by_cases hE : w.Established
  · exact ⟨fun _ _ _ _ _ => hE.step h, fun _ => hE.step h⟩
  · -- nothing in flight says that a child is established
    have hdown (hs : w.client.mvState = .init) (x : Addr) (d : Datagram) (hd : d ∈ w.down x) :
        ¬ Final d.pkt := fun h => hE (hi.ack hs x d hd h)
    have hret : w.client.mvState ≠ .recvPackets := fun h => hE (hi.ret h)
    have hkeep (hc : t.client = w.client) (hd : ∀ x, ∀ d ∈ t.down x, d ∈ w.down x) : t.Sound :=
      ⟨fun hs x d h hf => absurd hf (hdown (hc ▸ hs) x d (hd x d h)),
        fun h => absurd (hc ▸ h) hret⟩
    cases h with
    | parentStops => exact hkeep rfl fun _ _ h => h
    | parentDrops hok ha hs => exact hkeep rfl fun _ _ h => by simpa [afterParent] using h
    | @parent a sock src forks io buf l hn hok ha ht =>
      refine ⟨?_, fun h => absurd h hret⟩
      intro hs x d h hfin
      rcases mem_post.mp h with h | ⟨-, p, hp, rfl⟩
      · exact absurd hfin (hdown hs x d h)
      · obtain ⟨j, h0, h5, hj, -⟩ := (ho hs).up _ _ ht.mem
        obtain rfl : buf = w.client.pkt j := hj
        obtain ⟨-, hrr, hle⟩ := Parent.run_reply ⟨h0, h5⟩ hp
        rcases hfin with ⟨-, hq⟩ | hdat
        · have hq : p.sequence = 4 := hq
          rw [hq] at hle
          exact absurd hle (by decide)
        · have hdat : p.type = pktTypeDAT := hdat
          simp [hrr] at hdat
    | childAct hk hd | childHear hk hd =>
      have hv := List.mem_of_getElem? hk
      exact absurd ⟨_, hv, htold.data _ hv hd⟩ hE
    | @childInit k a io v v' r l out hk hs hal ha ht hst =>
      have hv := List.mem_of_getElem? hk
      refine ⟨?_, fun h => absurd h hret⟩
      intro hs' x d h hfin
      rcases mem_post.mp h with h | ⟨-, p, hp, rfl⟩
      · exact absurd hfin (hdown hs' x d h)
      · obtain ⟨hne, hcount⟩ := (ho hs').children v hv
        obtain rfl : out = some p := hp
        have hr : ∀ src buf, r = .datagram src buf → buf.ok = true →
            ∃ j : Int, 1 ≤ j ∧ j < 5 ∧ buf = w.client.pkt j := by
          rintro src buf rfl hok
          obtain ⟨j, h0, h5, hj, hz⟩ := (ho hs').up _ _ (Arrival.recv_clean hg hal ha).mem
          exact ⟨j, Int.lt_iff_le_and_ne.mpr ⟨h0, fun h => hne (hz h.symm)⟩, h5, hj⟩
        rcases hfin with ⟨htype, hq⟩ | hdat
        · have hd : v'.inData := ht.last (hcount hs) (htold.init v hv hs) hr
            (fun h4 => hb v (Option.mem_def.mpr hk) hs h4 _ (Option.mem_def.mpr ha)) hf htype hq
          exact ⟨v', mem_set_self hk, htold'.data v' (mem_set_self hk) hd⟩
        · obtain ⟨-, -, htype⟩ := (ht.counting (hcount hs) hr).2 p rfl
          rcases htype with h | ⟨h, -⟩ <;> simp [h] at hdat
    | clientSends hs hsent =>
      exact ⟨fun _ x d h hf => absurd hf (hdown hs x d h), fun h => absurd h hret⟩
    | clientStops hs => exact ⟨by simp [afterClient], by simp [afterClient]⟩
    | @clientInit a sock wr io r l c hn hs hsent hal ha ht =>
      refine ⟨fun _ x d h hf => absurd hf (hdown hs x d ?_), ?_⟩
      · exact mem_update (fun _ => (Arrival.recv_shed hal ha).sub) h
      · intro hc
        cases ht with
        | again | opens | switches | back | onward | fail => simp [afterClient, hs] at hc
        | @leaves src buf _ hok hon hi4 =>
          have hmem := (Arrival.recv_clean hg hal ha).mem
          exact absurd (((ho hs).down _ _ hmem).final hon hi4) (hdown hs _ _ hmem)
    | clientHear hs => exact absurd hs hret
    | noiseUp hn => exact hkeep rfl fun _ _ h => h
    | noiseDown hn => exact hkeep rfl fun _ _ h => mem_update (fun _ => hn.sub) h

theorem sound_of_reach {from_ : List UInt8} {bufsz winsz : Int32} (hg : n.garbles = false)
    (hf : (Host.file (nameSent from_)).isSome = true)
    (h : ((system from_ bufsz winsz n).under Timely).Reach w) : w.Sound := by
  refine h.invariant (I := Sound) ?_ ?_
  · intro w h0
    obtain ⟨sock, sk, addr, -, hc⟩ := Start.client h0
    exact ⟨by simp [Start.down h0], by simp [hc, Client.rcopy]⟩
  · intro w e t hr hi hm hn
    have hr' := hr.of_under
    have hw := wf_of_reach hr'
    refine hi.step hg (opening_of_reach hg hr') (told_of_reach hr')
      (told_of_reach (hr'.step hm.1 hn)) ?_ hm.2 (next_cases hw hm.1 hn)
    rw [(pkt_of_reach hr').2.2]
    exact hf

/-- **Soundness of the handshake.**  The server has the file and no packet comes back to a child
that waits for its last parameter: then in every run over links that lose datagrams, whenever
`Client::init` has returned `RECV_PACKETS`, the client has one child, and that one has taken the
client's three parameter packets and has gone on to `FILL_WINDOW`. -/
theorem handshake_sound (from_ : List UInt8) (bufsz winsz : Int32)
    (hf : (Host.file (nameSent from_)).isSome = true) (w : World)
    (h : ((system from_ bufsz winsz .lossy).under Timely).Reach w)
    (hc : w.client.mvState = .recvPackets) :
    ∃ v, w.children = [v] ∧ v.SetUp w.client.pkt := by
  obtain ⟨v, hv, hs⟩ := (sound_of_reach rfl hf h).ret hc
  rcases (onlyChild_of_reach h.of_under).one with hnil | ⟨⟨u, hu⟩, -⟩
  · simp [hnil] at hv
  · rw [hu, List.mem_singleton] at hv
    exact ⟨u, hu, hv ▸ hs⟩

end World

end Fileserver

namespace Fileserver

open Proto

namespace World

local instance : Host := refHost [1, 2, 3]

/-- The client asks for a connection and gets a child, on socket `1:21`. -/
def connect : List Event :=
  [.clientAct true, .parentHear (.take 0) ⟨1, 21⟩ true true,
   .clientHear (.take 0) ⟨2, 11⟩ true true,
   .clientAct true, .parentHear (.take 0) ⟨1, 22⟩ true true,
   .clientHear (.take 0) ⟨2, 12⟩ true true]

/-- The client sends its packet to the child and hears the reply. -/
def exchange (port : UInt16) : List Event :=
  [.clientAct true, .childHear 0 (.take 0) true, .clientHear (.take 0) ⟨2, port⟩ true true]

/-- The whole handshake when nothing is late or lost. -/
def greeting : List Event := connect ++ [13, 14, 15, 16, 17].flatMap exchange

/-- The child waits for the `FLN` packet when the `WIN` packet comes a second time, and the `FLN`
packet is lost behind it. -/
def early : List Event :=
  connect ++ [13, 14, 15].flatMap exchange ++
    [.clientAct true, .childHear 0 (.take 0) true, .clientHear .timeout ⟨2, 16⟩ true true,
     .clientAct true, .clientHear (.take 0) ⟨2, 17⟩ true true, .clientAct true,
     .loseUp ⟨1, 21⟩ 1, .childHear 0 (.take 0) true, .clientHear (.take 0) ⟨2, 18⟩ true true]

/-- Nothing is late or lost: the child is there, with the client's sizes. -/
theorem handshake_sound_greeting :
    ∃ w, ((system [0x66] 2 3 .lossy).under Timely).Reach w ∧ w.client.mvState = .recvPackets ∧
      ∃ v, w.children = [v] ∧ v.SetUp w.client.pkt := by
  have h0 : ((system [0x66] 2 3 .lossy).under Timely).Reach (atStart [0x66] 2 3) :=
    .start (atStart_start _ _ _)
  obtain ⟨w, h, hc⟩ := h0.run_any greeting
    (fun w => decide (w.client.mvState = .recvPackets)) (by decide +kernel)
  have hc := of_decide_eq_true hc
  exact ⟨w, h, hc, handshake_sound [0x66] 2 3 (by decide +kernel) w h hc⟩

/-- **The client is in `RECV_PACKETS`, the child still waits for the `FLN` packet.** -/
theorem handshake_unsound :
    ¬ ∀ w, (system [0x66] 2 3 .lossy).Reach w → w.client.mvState = .recvPackets →
      ∃ v, w.children = [v] ∧ v.SetUp w.client.pkt := by
  intro hall
  have h0 : (system [0x66] 2 3 .lossy).Reach (atStart [0x66] 2 3) := .start (atStart_start _ _ _)
  obtain ⟨w, h, hw⟩ := h0.run_any early
    (fun w => decide (w.client.mvState = .recvPackets ∧
      w.children.map (fun v => (v.mvState, v.mvSequence, v.fnSet)) = [(.init, 4, false)]))
    (by decide +kernel)
  obtain ⟨hc, hv⟩ := of_decide_eq_true hw
  obtain ⟨v, hk, hs⟩ := hall w h hc
  rw [hk, List.map_singleton] at hv
  exact hs.entered.ne_init (congrArg Prod.fst (List.singleton_inj.mp hv))

end World

end Fileserver
