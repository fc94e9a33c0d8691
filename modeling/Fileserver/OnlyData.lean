/-
# Only file data is written

`Client::recvPackets` looks at the number of a packet and not at its type: an `RR` or a `REJ` of
the handshake that comes late, with the number the client waits for, is written to the output
file like a data packet, and it says it has 0xAAAA or 0x5555 bytes.  Where none does
(`Unmixed`), and where a read fits a packet (`Fits`), only data is written.
-/
import Fileserver.Established
import Fileserver.Sent

namespace Fileserver

open Proto

variable [Host]

/-- A valid `RR` or `REJ` with number `q`. -/
def Recv.replies (q : UInt32) : Recv → Bool
  | .datagram _ buf =>
    buf.ok && (decide (buf.type = pktTypeRR) || decide (buf.type = pktTypeREJ)) &&
      decide (buf.sequence = q)
  | _ => false

namespace Client

/-- What has been written is the data of some of the packets `built`, each of them a data packet
and none taken past its end. -/
def OnlyData (built : List Packet) (c : Client) : Prop :=
  ∃ ps : List Packet,
    (∀ p ∈ ps, p ∈ built ∧ p.type = pktTypeDAT ∧ p.size.toNat ≤ pktDMax) ∧
    c.mvTo = ps.flatMap fun p => p.data.toList.take p.size.toNat

omit [Host] in
theorem OnlyData.mono {b b' : List Packet} {c c' : Client} (h : c.OnlyData b)
    (hb : ∀ p ∈ b, p ∈ b') (hc : c'.mvTo = c.mvTo) : c'.OnlyData b' := by
  obtain ⟨ps, hps, hto⟩ := h
  exact ⟨ps, fun p hp => ⟨hb p (hps p hp).1, (hps p hp).2⟩, hc.trans hto⟩

/-- One more packet is written. -/
theorem OnlyData.append {b : List Packet} {c d : Client} (h : c.OnlyData b) {p : Packet}
    (hp : p ∈ b) (ht : p.type = pktTypeDAT) (hs : p.size.toNat ≤ pktDMax)
    (hd : d.mvTo = c.mvTo ++ p.bytes p.size.toNat) : d.OnlyData b := by
  obtain ⟨ps, hps, hto⟩ := h
  refine ⟨ps ++ [p], ?_, ?_⟩
  · intro q hq
    rcases List.mem_append.mp hq with hq | hq
    · exact hps q hq
    · exact List.mem_singleton.mp hq ▸ ⟨hp, ht, hs⟩
  · simp [hd, hto, Packet.bytes_of_le p hs]

theorem InitTurn.output {c d : Client} {sock : Addr} {r : Recv} {io : Bool}
    (h : c.InitTurn sock r io d) : d.mvTo = c.mvTo := by
  cases h <;> rfl

/-- **A turn of `recvPackets` writes data**, if what has the right number is data. -/
theorem Turn.onlyData {c d : Client} {r : Recv} {wr io : Bool} {out : Option Packet}
    {b : List Packet} (h : c.Turn r wr io d out) (hc : c.OnlyData b)
    (hr : ∀ src buf, r = .datagram src buf → buf.ok = true → buf.sequence = c.mvSequence →
      buf ∈ b ∧ buf.type = pktTypeDAT ∧ buf.size.toNat ≤ pktDMax) : d.OnlyData b := by
  cases h with
  | accept hok hq | unsent hok hq | finish hok hq =>
    obtain ⟨h1, h2, h3⟩ := hr _ _ rfl hok hq
    exact hc.append h1 h2 h3 rfl
  | nag | old | gap | unwritten | fail => exact hc.mono (fun _ h => h) rfl

/-- A turn that hears a packet with another number, or an invalid one, leaves the counter and the
output alone. -/
theorem Turn.inert {c d : Client} {src : Addr} {buf : Packet} {wr io : Bool}
    {out : Option Packet} (h : c.Turn (.datagram src buf) wr io d out)
    (hq : buf.ok = true → buf.sequence ≠ c.mvSequence) :
    d.mvSequence = c.mvSequence ∧ d.mvTo = c.mvTo := by
  cases h with
  | accept hok hs | unsent hok hs | finish hok hs | unwritten hok hs => exact absurd hs (hq hok)
  | nag | old | gap | fail => exact ⟨rfl, rfl⟩

end Client

namespace World

variable {w t : World} {e : Event}

/-- No valid reply with the number the client in `RECV_PACKETS` waits for reaches it. -/
def Unmixed (w : World) : Event → Prop
  | .clientHear a _ _ _ =>
    w.client.mvState = .recvPackets → ∀ x ∈ a.recv (w.down w.client.mvSocket),
      x.1.replies w.client.mvSequence = false
  | _ => True

instance (w : World) : DecidablePred w.Unmixed
  | .clientHear a _ _ _ =>
    inferInstanceAs (Decidable (w.client.mvState = .recvPackets →
      ∀ x ∈ a.recv (w.down w.client.mvSocket), x.1.replies w.client.mvSequence = false))
  | .parentHear .. | .childAct .. | .childHear .. | .clientAct _ | .loseUp .. | .dupUp ..
  | .loseDown .. | .dupDown .. => inferInstanceAs (Decidable True)

/-- A reply that reaches `recvPackets` in the step from `w` to `t` changes neither the counter
nor the output file. -/
def Inert (w t : World) : Event → Prop
  | .clientHear a _ _ _ =>
    w.client.mvState = .recvPackets → ∀ src buf l,
      a.recv (w.down w.client.mvSocket) = some (.datagram src buf, l) →
      buf.type = pktTypeRR ∨ buf.type = pktTypeREJ →
      t.client.mvSequence = w.client.mvSequence ∧ t.client.mvTo = w.client.mvTo
  | _ => True

/-- The packets built stay recorded. -/
theorem Turn.built_subset {n : Link} (h : Turn n w e t) : ∀ p ∈ w.built, p ∈ t.built := by
  intro p hp
  cases h with
  | childAct =>
    simp only [afterChild]
    split_ifs
    · exact List.mem_append_left _ hp
    · exact hp
  | _ => exact hp

theorem onlyData_step {n : Link} (hs : w.Sent)
    (hb : ∀ p ∈ w.built, IsData p ∧ p.size.toNat ≤ pktDMax) (hu : w.Unmixed e)
    (hi : w.client.OnlyData w.built) (h : Turn n w e t) : t.client.OnlyData t.built := by
  have hsub := h.built_subset
  cases h with
  | clientInit hn hs hsent hal ha ht => exact hi.mono hsub ht.output
  | @clientHear a sock wr io r l c out hc hal ha ht =>
    refine ht.onlyData hi ?_
    rintro src buf rfl hok hq
    have hno := hu hc _ (Option.mem_def.mpr ha)
    rcases hs.down _ _ (Arrival.recv_ok hal ha hok).mem with hrep | hmem
    · have hrep : buf.type = pktTypeRR ∨ buf.type = pktTypeREJ := hrep
      rcases hrep with hrep | hrep <;> simp [Recv.replies, hok, hq, hrep] at hno
    · exact ⟨hmem, (hb buf hmem).1.2, (hb buf hmem).2⟩
  | _ => exact hi.mono hsub rfl

/-- **Only file data is written.**  Reads fit a packet, and no valid `RR` or `REJ` with the number
the client waits for reaches `recvPackets`: then in every run over links that lose, duplicate,
reorder and damage datagrams, the output is the data of packets `fillWindow` has built, none
taken past its end, and no reply changes the counter or the output. -/
theorem only_data_written (from_ : List UInt8) (bufsz winsz : Int32) (hD : Fits from_ bufsz)
    (w : World) (h : ((system from_ bufsz winsz .free).under Unmixed).Reach w) :
    w.client.OnlyData w.built ∧
    ∀ e t, ((system from_ bufsz winsz .free).under Unmixed).may w e → w.next e = some t →
      Inert w t e := by
  constructor
  · refine h.invariant (I := fun w => w.client.OnlyData w.built) ?_
      ?_
    · intro w h0
      obtain ⟨sock, sk, addr, -, hc⟩ := Start.client h0
      exact ⟨[], by simp, by simp [hc, Client.rcopy]⟩
    · intro w e t hr hi hm hn
      have hr' := hr.of_under
      exact onlyData_step (sent_of_reach hr') (built_of_reach hD hr') hm.2 hi
        (next_cases (wf_of_reach hr') hm.1 hn)
  · intro e t hm hn
    have hturn := next_cases (wf_of_reach h.of_under) hm.1 hn
    cases e with
    | clientHear a sock wr io =>
      intro hc src buf l ha htype
      have hno := hm.2 hc _ (Option.mem_def.mpr ha)
      obtain ⟨⟨r, l'⟩, ha', hn⟩ := Option.bind_eq_some_iff.mp hn
      obtain ⟨⟨c, out⟩, hst, rfl⟩ := Option.map_eq_some_iff.mp hn
      obtain ⟨rfl, rfl⟩ := Prod.mk.inj (Option.some.inj (ha.symm.trans ha'))
      refine (Client.step_cases (by simp [hc]) hst).2.inert ?_
      intro hok hq
      rcases htype with htype | htype <;> simp [Recv.replies, hok, hq, htype] at hno
    | _ => trivial

end World

end Fileserver

namespace Fileserver

open Proto

namespace World

local instance onlyDataHost : Host := refHost [1, 2, 3]

/-- The transfer of the three-byte file behind the handshake, nothing late or lost. -/
def delivery : List Event :=
  List.replicate 8 (.childAct 0 true) ++
    List.replicate 2 (.clientHear (.take 0) ⟨2, 18⟩ true true)

/-- The child's first `REJ` is duplicated, and the second copy is late: it arrives behind the first
data packet. -/
def late : List Event :=
  connect ++
    [.clientAct true, .childHear 0 (.take 0) true, .dupDown ⟨2, 11⟩ 0,
     .clientHear (.take 0) ⟨2, 13⟩ true true] ++
    [14, 15, 16, 17].flatMap (fun port => [.clientAct true, .childHear 0 (.take 0) true,
      .clientHear (.take 1) ⟨2, port⟩ true true]) ++
    List.replicate 5 (.childAct 0 true) ++ [.clientHear (.take 1) ⟨2, 18⟩ true true]

theorem fits_two (from_ : List UInt8) : Fits from_ 2 :=
  fun _ _ => (Nat.min_le_left _ _).trans (by decide)

/-- The three bytes of the file are written, all of them data. -/
theorem only_data_delivered :
    ∃ w, ((system [0x66] 2 3 .free).under Unmixed).Reach w ∧ w.client.mvTo = [1, 2, 3] ∧
      w.client.OnlyData w.built := by
  have h0 : ((system [0x66] 2 3 .free).under Unmixed).Reach (atStart [0x66] 2 3) :=
    .start (atStart_start _ _ _)
  obtain ⟨w, h, hw⟩ := h0.run_any (greeting ++ delivery)
    (fun w => decide (w.client.mvTo = [1, 2, 3])) (by decide +kernel)
  exact ⟨w, h, of_decide_eq_true hw, (only_data_written [0x66] 2 3 (fits_two _) w h).1⟩

/-- **A `REJ` is written.**  It has the number 1, for which the client waits, and takes the
counter to 2. -/
theorem not_only_data :
    ¬ ∀ w e t, (system [0x66] 2 3 .free).Reach w → (system [0x66] 2 3 .free).may w e →
      w.next e = some t → Inert w t e := by
  intro hall
  have h0 : (system [0x66] 2 3 .free).Reach (atStart [0x66] 2 3) := .start (atStart_start _ _ _)
  obtain ⟨w, h, hw⟩ := h0.run_any late (fun w => decide (w.client.mvState = .recvPackets ∧
      may .free w (.clientHear (.take 0) ⟨2, 19⟩ true true) ∧
      ((w.down w.client.mvSocket)[0]?.map fun d => d.pkt.type) = some pktTypeREJ ∧
      ((w.next (.clientHear (.take 0) ⟨2, 19⟩ true true)).any fun t =>
        decide (t.client.mvSequence ≠ w.client.mvSequence)) = true))
    (by decide +kernel)
  obtain ⟨hc, hm, htype, hn⟩ := of_decide_eq_true hw
  obtain ⟨d, hd, ht⟩ := Option.map_eq_some_iff.mp htype
  obtain ⟨t, ht', hne⟩ := (Option.any_eq_true _ _).mp hn
  have harr : (Arrival.take 0).recv (w.down w.client.mvSocket) =
      some (.datagram d.src d.pkt, (w.down w.client.mvSocket).eraseIdx 0) := by
    simp only [Arrival.recv, hd, Option.map_some]
  have hinert : Inert w t (.clientHear (.take 0) ⟨2, 19⟩ true true) := hall w _ t h hm ht'
  exact of_decide_eq_true hne (hinert hc d.src d.pkt _ harr (.inr ht)).1

end World

end Fileserver
