/-
# What the client ends up with

`Session` has one child and starts with both sides in the data phase.  Here nothing is assumed
of how they get there: the whole program runs from the first request on, over links that lose,
duplicate, reorder and damage datagrams, with as many children as the parent forks.  Only the
late replies of `OnlyData.lean` are kept out.

`Delivers` is what holds on the way.  A child comes out of `init` with the sizes and the file of
the client's packets (`Told.lean`), so from there on its half of the invariant is that of
`Window.lean`; the client's half is that of `Flow.lean`; and what ties the two together is that
an `RR` in flight, whichever child it goes to, stands for a packet the client has written.
-/
import Fileserver.Flow
import Fileserver.OnlyData
import Fileserver.Sizes

namespace Fileserver

open Proto

variable [Host]

/-! ## 1. A child -/

namespace Server

/-- A child that leaves `init` for the data phase starts it. -/
theorem InitTurn.dataStart {s t : Server} {r : Recv} {io : Bool} {out : Option Packet}
    (h : s.InitTurn r io t out) (hs : s.mvState = .init) (hw : s.mvWindow = [])
    (ho : s.mvOutBuf = []) (hd : t.inData) :
    DataStart t.mvFrom.contents t.mvBufferSize t.mvWindowSize t := by
  cases h with
  | nag | old | high => simp [inData, hs] at hd
  | take => simp [inData, hs] at hd
  | gaveUp | unopened => simp [inData] at hd
  | fail hf he => simp [inData, he] at hd
  | opened => exact ⟨rfl, rfl, by simpa using hw, by simpa using ho, rfl, rfl, rfl⟩

end Server

/-! ## 2. The client -/

namespace Client

variable {file : List UInt8} {B : UInt32} {K : ℕ} {c d : Client}

/-- A turn of `init` writes nothing and counts nothing. -/
theorem InitTurn.holds {sock : Addr} {r : Recv} {io : Bool} (h : c.InitTurn sock r io d)
    (hs : c.mvState = .init) (hc : Holds file B K c) : Holds file B K d := by
  obtain ⟨hcop, rfl⟩ := hc.copied (by simp [hs])
  have hq := hc.fresh hs
  cases h with
  | again | opens | switches | back | onward =>
    exact { hc with copied := fun _ => ⟨{ hcop with }, rfl⟩ }
  | leaves =>
    have hto := hcop.output
    have hwr := hc.written
    rw [hq] at hto hwr ⊢
    exact ⟨fun _ => ⟨⟨hcop.bufferSize, hto, fun _ => by simp, by simp, by simp⟩, rfl⟩,
      fun _ => rfl, by simp, le_rfl, hwr, hc.part⟩
  | fail => exact hc.ends rfl rfl rfl

/-- The packets of `init` are no replies. -/
theorem pkt_type_rr {i : Int} (h0 : 0 ≤ i) (h5 : i < 5) : (c.pkt i).type ≠ pktTypeRR := by
  obtain rfl | rfl | rfl | rfl | rfl : i = 0 ∨ i = 1 ∨ i = 2 ∨ i = 3 ∨ i = 4 := by omega
  all_goals
    simp [pkt, memset, pktTypeCXN, pktTypeCXN2, pktTypeBUF, pktTypeWIN, pktTypeFLN, pktTypeRR]

end Client

namespace World

variable {w t : World} {e : Event} {from_ : List UInt8} {bufsz winsz : Int32}
  {contents : List UInt8}

/-! ## 3. The whole program -/

/-- The server has the file that is asked for, the sizes are in range, a packet takes at least one
byte, and the offsets of the packets fit 32 bits, those of a window behind the file's end too. -/
structure Serves (from_ : List UInt8) (bufsz winsz : Int32) (contents : List UInt8) : Prop where
  file : Host.file (nameSent from_) = some contents
  inRange : InRange bufsz winsz
  pos : 1 ≤ bufsz.toInt
  offsets : contents.length + (winsz.toUInt32.toNat + 1) * bufsz.toUInt32.toNat < 2 ^ 32

/-- The sizes as the two sides have them. -/
theorem Serves.sizes (h : Serves from_ bufsz winsz contents) :
    0 < bufsz.toUInt32.toNat ∧ bufsz.toUInt32.toNat ≤ pktDMax ∧ 0 < winsz.toUInt32.toNat := by
  obtain ⟨⟨hb0, hb⟩, hw1, hw⟩ := h.inRange
  have hpos := h.pos
  have hmax : (pktDMax : Int) ≤ 65535 := by decide
  have hxb := toInt_eq bufsz
  have hxw := toInt_eq winsz
  have hltb := bufsz.toUInt32.toNat_lt
  have hltw := winsz.toUInt32.toNat_lt
  split_ifs at hxb hxw <;> omega

/-- A child that is set up has those sizes and that file. -/
theorem Serves.setUp (h : Serves from_ bufsz winsz contents) {n : Link}
    (hr : (system from_ bufsz winsz n).Reach w) {v : Server} (hv : v.SetUp w.client.pkt) :
    v.mvFrom.contents = contents ∧ v.mvBufferSize = bufsz.toUInt32 ∧
      v.mvWindowSize = winsz.toUInt32 := by
  obtain ⟨⟨hb0, hb⟩, hw1, hw⟩ := h.inRange
  have hmax : (pktDMax : Int) ≤ 65535 := by decide
  obtain ⟨hpb, hpw, hname⟩ := pkt_of_reach hr
  have hfile := hv.file
  rw [hv.fromName, hname, h.file] at hfile
  refine ⟨(Option.some.inj hfile).symm, ?_, ?_⟩
  · rw [hv.bufferSize, hpb]
    exact (cut_eq_iff bufsz).mpr ⟨hb0, by omega⟩
  · rw [hv.windowSize, hpw]
    exact (cut_eq_iff winsz).mpr ⟨by omega, hw⟩

/-- **The invariant**, when the client has written `K` packets: no `RR` in flight is for a later
one, and no child's window has passed them. -/
structure Delivers (contents : List UInt8) (B W : UInt32) (K : ℕ) (w : World) : Prop where
  fresh : ∀ v ∈ w.children, v.mvState = .init → v.mvWindow = [] ∧ v.mvOutBuf = []
  kids : ∀ v ∈ w.children, v.inData → Server.DataInv contents B W v ∧ v.lowest ≤ K
  built : ∀ p ∈ w.built, Server.Carries contents B.toNat p
  acked : ∀ x, ∀ d ∈ w.up x, d.pkt.type = pktTypeRR → d.pkt.sequence.toNat < K
  client : w.client.Holds contents B K

variable {B W : UInt32} {K : ℕ}

/-- A child in the data phase has its numbers in order, and its next packet lies at most a window
ahead of the client. -/
theorem Delivers.numbered (hi : Delivers contents B W K w) {v : Server} (hv : v ∈ w.children)
    (hd : v.inData) : v.Numbered ∧ v.mvSequence.toNat ≤ K + v.mvWindow.length := by
  obtain ⟨hdata, hlow⟩ := hi.kids v hv hd
  rcases hdata.phase with he | ⟨-, hn⟩
  · simp [Server.inData, he] at hd
  · rw [hn.lowest_eq] at hlow
    exact ⟨hn, by omega⟩

/-- So its offset fits 32 bits. -/
theorem Delivers.fits (hi : Delivers contents B W K w)
    (hlen : contents.length + (W.toNat + 1) * B.toNat < 2 ^ 32) {v : Server}
    (hv : v ∈ w.children) (hd : v.inData) {e : Server.Event} (hp : v.pushes e) :
    (v.mvSequence.toNat + 1) * B.toNat < 2 ^ 32 := by
  obtain ⟨-, hahead⟩ := hi.numbered hv hd
  have hroom := hp.2.2
  rw [(hi.kids v hv hd).1.windowSize] at hroom
  have hcount := hi.client.counted
  exact offset_lt hi.client.bound hlen (by omega)

/-- A turn of a child. -/
theorem Delivers.child (hi : Delivers contents B W K w) {k : ℕ} {v' : Server}
    {up : Addr → List Datagram} {b : List Packet} {out : Option Packet}
    (hup : ∀ x, ∀ d ∈ up x, d ∈ w.up x)
    (hinit : v'.mvState = .init → v'.mvWindow = [] ∧ v'.mvOutBuf = [])
    (hdata : v'.inData → Server.DataInv contents B W v' ∧ v'.lowest ≤ K)
    (hb : ∀ p ∈ b, Server.Carries contents B.toNat p) :
    (w.afterChild k up b (v', out)).Delivers contents B W K :=
  ⟨forall_set hi.fresh hinit, forall_set hi.kids hdata, hb,
    fun x d hd => hi.acked x d (hup x d hd), hi.client⟩

/-- A turn of a child in the data phase. -/
theorem Delivers.childTurn (hi : Delivers contents B W K w) (hB : 0 < B.toNat) (hW : 0 < W.toNat)
    (hlen : contents.length + (W.toNat + 1) * B.toNat < 2 ^ 32) {k : ℕ} {v v' : Server}
    {e : Server.Event} {up : Addr → List Datagram} {b : List Packet} {out : Option Packet}
    (hv : v ∈ w.children) (hd : v.inData) (ht : v.Turn e v' out)
    (hup : ∀ x, ∀ d ∈ up x, d ∈ w.up x)
    (hr : ∀ src buf io, e = .hear (.datagram src buf) io → buf.ok = true →
      buf.type = pktTypeRR → buf.sequence.toNat < K)
    (hb : ∀ p ∈ b, Server.Carries contents B.toNat p) :
    (w.afterChild k up b (v', out)).Delivers contents B W K := by
  obtain ⟨hdata, hlow⟩ := hi.kids v hv hd
  obtain ⟨hn, -⟩ := hi.numbered hv hd
  have hfit := hi.fits hlen hv hd (e := e)
  have hWv : 0 < v.mvWindowSize.toNat := by rwa [hdata.windowSize]
  refine hi.child hup (fun hs => absurd hs (ht.ne_init hd)) ?_ hb
  intro hd'
  exact ⟨ht.dataInv hdata hn hW hB hfit, ht.lowest_le hn hWv hlow
    (fun hp => lt_of_le_of_lt (Nat.le_mul_of_pos_right _ hB) (hfit hp)) hr hd'⟩

/-- A turn of the client. -/
theorem Delivers.clientTurn (hi : Delivers contents B W K w) {down : Addr → List Datagram}
    {bound : List Addr} {c : Client} {out : Option Packet} {K' : ℕ} (hle : K ≤ K')
    (hc : c.Holds contents B K')
    (hout : ∀ p, out = some p → p.type = pktTypeRR → p.sequence.toNat < K') :
    (w.afterClient down bound (c, out)).Delivers contents B W K' := by
  refine ⟨hi.fresh, fun v hv hd => ?_, hi.built, ?_, hc⟩
  · exact (hi.kids v hv hd).imp_right fun h => h.trans hle
  · intro x d hd ht
    rcases mem_post.mp hd with hd | ⟨-, p, hp, rfl⟩
    · exact (hi.acked x d hd ht).trans_le hle
    · exact hout p hp ht

/-- **Every step keeps it**, and the client only ever writes more. -/
theorem Delivers.step (hs : Serves from_ bufsz winsz contents)
    (hr : (system from_ bufsz winsz .free).Reach w) (hrt : (system from_ bufsz winsz .free).Reach t)
    (hi : Delivers contents bufsz.toUInt32 winsz.toUInt32 K w) (hu : w.Unmixed e)
    (h : Turn .free w e t) :
    ∃ K', K ≤ K' ∧ Delivers contents bufsz.toUInt32 winsz.toUInt32 K' t := by
  obtain ⟨hB, hD, hW⟩ := hs.sizes
  have hw := wf_of_reach hr
  cases h with
  | parentStops => exact ⟨K, le_rfl, { hi with }⟩
  | parentDrops hok ha hl =>
    refine ⟨K, le_rfl, by simpa [afterParent] using hi.fresh, by simpa [afterParent] using hi.kids,
      hi.built, ?_, hi.client⟩
    exact fun x d hd => hi.acked x d (mem_update (fun _ => hl.sub) hd)
  | parent hn hok ha ht =>
    refine ⟨K, le_rfl, forall_fork hi.fresh ?_, forall_fork hi.kids ?_, hi.built, ?_, hi.client⟩
    · simp [Server.forked, hw.parent.window, hw.parent.outBuf]
    · simp [Server.forked, Server.inData]
    · exact fun x d hd => hi.acked x d (mem_update (fun _ => ht.sub) hd)
  | @childAct k io v v' out hk hd ht =>
    have hv := List.mem_of_getElem? hk
    refine ⟨K, le_rfl, hi.childTurn hB hW hs.offsets hv hd ht (fun _ _ h => h) (by simp) ?_⟩
    intro p hp
    split_ifs at hp with hpush
    · rcases List.mem_append.mp hp with hp | hp
      · exact hi.built p hp
      · obtain rfl := List.mem_singleton.mp hp
        exact (hi.kids v hv hd).1.loaded.nextPacket (by simp [hpush.2.1])
    · exact hi.built p hp
  | @childInit k a io v v' r l out hk hst hal ha ht =>
    have hv := List.mem_of_getElem? hk
    obtain ⟨hwin, hout⟩ := hi.fresh v hv hst
    obtain ⟨-, hw', ho', -⟩ := ht.stays (hw.loop v hv hst)
    refine ⟨K, le_rfl, hi.child (fun _ _ => mem_update fun _ => (Arrival.recv_shed hal ha).sub)
      (fun _ => ⟨hw'.trans hwin, ho'.trans hout⟩) ?_ hi.built⟩
    intro hd
    have hstart := ht.dataStart hst hwin hout hd
    have hkid : v' ∈ w.children.set k v' :=
      List.mem_set (List.getElem?_eq_some_iff.mp hk).1 v'
    obtain ⟨hf, hbs, hws⟩ := hs.setUp hrt ((told_of_reach hrt).data v' hkid hd)
    rw [hf, hbs, hws] at hstart
    refine ⟨⟨.inr ⟨hd, hstart.numbered⟩, hstart.loaded, hstart.windowSize⟩, ?_⟩
    simp [Server.lowest, hstart.window, hstart.sequence, lowestOf]
  | @childHear k a io v v' r l out hk hd hal ha ht =>
    have hv := List.mem_of_getElem? hk
    refine ⟨K, le_rfl, hi.childTurn hB hW hs.offsets hv hd ht
      (fun _ _ => mem_update fun _ => (Arrival.recv_shed hal ha).sub) ?_ hi.built⟩
    rintro src buf io he hok hty
    obtain ⟨rfl, rfl⟩ := Server.Event.hear.inj he
    exact hi.acked _ _ (Arrival.recv_ok hal ha hok).mem hty
  | clientSends hst hsent =>
    obtain ⟨h0, h5, -⟩ := hw.client hst
    obtain ⟨hcop, hK⟩ := hi.client.copied (by simp [hst])
    refine ⟨K, le_rfl, hi.clientTurn (c := { w.client with sent := true }) le_rfl ?_ ?_⟩
    · exact { hi.client with copied := fun _ => ⟨{ hcop with }, hK⟩ }
    · intro p hp hty
      obtain rfl := Option.some.inj hp
      exact absurd hty (Client.pkt_type_rr h0 h5)
  | clientStops hst =>
    exact ⟨K, le_rfl, hi.clientTurn le_rfl (hi.client.ends rfl rfl rfl) (by simp)⟩
  | clientInit hn hst hsent hal ha ht =>
    exact ⟨K, le_rfl, hi.clientTurn le_rfl (ht.holds hst hi.client) (by simp)⟩
  | @clientHear a sock wr io r l c out hst hal ha ht =>
    have hcarries : ∀ src p, r = .datagram src p → p.ok = true →
        p.sequence = w.client.mvSequence → Server.Carries contents bufsz.toUInt32.toNat p := by
      rintro src p rfl hok hq
      have hno := hu hst _ (Option.mem_def.mpr ha)
      rcases (sent_of_reach hr).down _ _ (Arrival.recv_ok hal ha hok).mem with hrep | hmem
      · have hrep : p.type = pktTypeRR ∨ p.type = pktTypeREJ := hrep
        rcases hrep with hrep | hrep <;> simp [Recv.replies, hok, hq, hrep] at hno
      · exact hi.built p hmem
    obtain ⟨hcop, -⟩ := hi.client.copied (by simp [hst])
    obtain ⟨K', hle, hc, hout⟩ :=
      ht.holds hst hi.client hD (hcop.unwrapped hB hs.offsets hst) hcarries
    exact ⟨K', hle, hi.clientTurn hle hc hout⟩
  | noiseUp hn =>
    exact ⟨K, le_rfl,
      { hi with acked := fun x d hd => hi.acked x d (mem_update (fun _ => hn.sub) hd) }⟩
  | noiseDown hn => exact ⟨K, le_rfl, { hi with }⟩

theorem delivers_of_reach (hs : Serves from_ bufsz winsz contents)
    (h : ((system from_ bufsz winsz .free).under Unmixed).Reach w) :
    ∃ K, Delivers contents bufsz.toUInt32 winsz.toUInt32 K w := by
  refine h.invariant (I := fun w => ∃ K, Delivers contents bufsz.toUInt32 winsz.toUInt32 K w) ?_ ?_
  · intro w h0
    obtain ⟨sock, sk, addr, -, hc⟩ := h0.client
    have hcop : Client.Copied contents bufsz.toUInt32 w.client := by
      rw [hc]
      constructor <;> simp [Client.rcopy]
    refine ⟨_, by simp [h0.children], by simp [h0.children], by simp [h0.built], by simp [h0.up],
      hcop.holds fun _ => ?_⟩
    rw [hc]
    rfl
  · rintro w e t hr ⟨K, hi⟩ hm hn
    have hr' := hr.of_under
    obtain ⟨K', -, ht⟩ :=
      hi.step hs hr' (hr'.step hm.1 hn) hm.2 (next_cases (wf_of_reach hr') hm.1 hn)
    exact ⟨K', ht⟩

/-! ## 4. What is written, and what is acknowledged -/

/-- **The output is the file.**  From the first request to the end of the client, with as many
children as the parent forks, over links that lose, duplicate, reorder and damage datagrams and
with calls that fail: as long as no late reply passes for data, the output file is a part of the
served file from its start on, that of the packets counted while the client takes packets, and
all of it when the client is done. -/
theorem output_safe (from_ : List UInt8) (bufsz winsz : Int32) (contents : List UInt8)
    (hs : Serves from_ bufsz winsz contents) (w : World)
    (h : ((system from_ bufsz winsz .free).under Unmixed).Reach w) :
    w.client.mvTo <+: contents ∧
    (w.client.mvState = .recvPackets → w.client.mvTo =
      contents.take (w.client.mvSequence.toNat * bufsz.toUInt32.toNat)) ∧
    (w.client.mvState = .done → w.client.mvTo = contents) := by
  obtain ⟨K, hi⟩ := delivers_of_reach hs h
  refine ⟨hi.client.part, ?_, ?_⟩
  · intro hc
    exact (hi.client.copied (by simp [hc])).1.output
  · intro hc
    exact (hi.client.copied (by simp [hc])).1.done hc

/-- **What is acknowledged is written.**  In the same runs the output holds the bytes of every
packet an `RR` in flight acknowledges, and of every packet below the window of any child; so when
an `RR` makes a child drop packets, they are in the output file, whatever becomes of the client.
And what a child sends lies less than a window ahead of the packets written. -/
theorem acknowledged_written (from_ : List UInt8) (bufsz winsz : Int32) (contents : List UInt8)
    (hs : Serves from_ bufsz winsz contents) (w : World)
    (h : ((system from_ bufsz winsz .free).under Unmixed).Reach w) :
    (∀ x, ∀ d ∈ w.up x, d.pkt.type = pktTypeRR →
      contents.take ((d.pkt.sequence.toNat + 1) * bufsz.toUInt32.toNat) <+: w.client.mvTo) ∧
    (∀ v ∈ w.children, v.inData →
      contents.take (v.lowest * bufsz.toUInt32.toNat) <+: w.client.mvTo) ∧
    (∀ v ∈ w.children, v.inData → ∀ io v' p, v.step (.act io) = some (v', some p) →
      p.sequence.toNat < w.client.mvSequence.toNat + winsz.toUInt32.toNat) := by
  obtain ⟨K, hi⟩ := delivers_of_reach hs h
  have hbelow {n : ℕ} (hn : n ≤ K) :
      contents.take (n * bufsz.toUInt32.toNat) <+: w.client.mvTo :=
    (List.take_prefix_take_left (Nat.mul_le_mul_right _ hn)).trans hi.client.written
  refine ⟨fun x d hd ht => hbelow (hi.acked x d hd ht),
    fun v hv hd => hbelow (hi.kids v hv hd).2, ?_⟩
  intro v hv hd io v' p hst
  obtain ⟨hn, hahead⟩ := hi.numbered hv hd
  have ht := Server.step_cases hd hst
  have hlt := (hn.consec.mem (hn.suffix.subset ht.out_mem)).2
  have hle := hn.le
  rw [(hi.kids v hv hd).1.windowSize] at hle
  have hcount := hi.client.counted
  omega

end World

end Fileserver

namespace Fileserver

open Proto

namespace World

local instance deliveredHost : Host := refHost [1, 2, 3]

theorem serves_three : Serves [0x66] 2 3 [1, 2, 3] := by
  refine ⟨?_, ?_, ?_, ?_⟩ <;> decide +kernel

/-- The client is done with the three bytes of the file. -/
theorem output_safe_three :
    ∃ w, ((system [0x66] 2 3 .free).under Unmixed).Reach w ∧ w.client.mvState = .done ∧
      w.client.mvTo = [1, 2, 3] := by
  have h0 : ((system [0x66] 2 3 .free).under Unmixed).Reach (atStart [0x66] 2 3) :=
    .start (atStart_start _ _ _)
  obtain ⟨w, h, hw⟩ := h0.run_any (greeting ++ delivery)
    (fun w => decide (w.client.mvState = .done)) (by decide +kernel)
  have hdone := of_decide_eq_true hw
  exact ⟨w, h, hdone, (output_safe [0x66] 2 3 [1, 2, 3] serves_three w h).2.2 hdone⟩

/-- The first packet has been acknowledged, and is in the output file. -/
theorem acknowledged_written_first :
    ∃ w, ((system [0x66] 2 3 .free).under Unmixed).Reach w ∧
      (∃ x, ∃ d ∈ w.up x, d.pkt.type = pktTypeRR ∧ d.pkt.sequence = 0) ∧
      [1, 2] <+: w.client.mvTo := by
  have h0 : ((system [0x66] 2 3 .free).under Unmixed).Reach (atStart [0x66] 2 3) :=
    .start (atStart_start _ _ _)
  obtain ⟨w, h, hw⟩ := h0.run_any (greeting ++ delivery.take 9)
    (fun w => (w.up w.client.mvAddr).any fun d =>
      decide (d.pkt.type = pktTypeRR ∧ d.pkt.sequence = 0)) (by decide +kernel)
  obtain ⟨d, hd, hp⟩ := List.any_eq_true.mp hw
  obtain ⟨ht, hq⟩ := of_decide_eq_true hp
  have hout := (acknowledged_written [0x66] 2 3 [1, 2, 3] serves_three w h).1 _ d hd ht
  rw [hq] at hout
  exact ⟨w, h, ⟨_, d, hd, ht, hq⟩, hout⟩

end World

end Fileserver
