/-
# What a reject costs

The child never sends anything again of its own accord: a timeout or a damaged reply has it go
round its loop with nothing to send.  Only a `REJ` makes it send its window again, so the `REJ`s
of the client pay for all the packets that are sent more than once, at a window each
(`sent_le`).  What the links do to the data shows in nothing else.

This needs replies that keep their order.  A `REJ` overtaken by an `RR` has the child go back in
the file, and pays for as many packets as it goes back.
-/
import Fileserver.Transcript

namespace Fileserver

open Proto

/-- The `REJ`s among the packets. -/
def rejects (l : List Packet) : ℕ := l.countP fun p => decide (p.type = pktTypeREJ)

theorem rejects_append (l m : List Packet) : rejects (l ++ m) = rejects l + rejects m :=
  List.countP_append

/-! ## 1. A turn of the child -/

namespace Server

variable [Host]

/-- Where the child has got to in sending: the number of the next packet to go out. -/
def sentTo (v : Server) : ℕ := v.mvSequence.toNat - v.mvOutBuf.length

/-- The `REJ`s the child hears in this turn. -/
def Event.rejects : Event → ℕ
  | .hear (.datagram _ p) _ => if p.ok = true then Fileserver.rejects [p] else 0
  | _ => 0

/-- **Every packet sent is a step ahead or paid for**: only a `REJ` takes the child back, by a
window, as long as none takes it back in the file. -/
theorem Turn.pays {v v' : Server} {e : Event} {out : Option Packet} (h : v.Turn e v' out)
    (hn : v.Numbered) (hq : v.pushes e → v.mvSequence.toNat + 1 < 2 ^ 32)
    (hb : ∀ r io, e = .hear r io → v.mvState = .waitRR → ¬ v.Rewinds r)
    (he : v'.mvState ≠ .error) :
    v.sentTo + out.toList.length ≤ v'.sentTo + v.mvWindowSize.toNat * e.rejects := by
  cases h with
  | push hs hl =>
    have hseq : (v.mvSequence + 1).toNat = v.mvSequence.toNat + 1 := by
      rw [UInt32.toNat_add, UInt32.toNat_one]
      exact Nat.mod_eq_of_lt (hq ⟨rfl, hs, hl⟩)
    simp [sentTo, hseq]
  | @sendOne p rest hs ho =>
    have hlen := hn.suffix.length_le
    have hle := hn.consec.le
    rw [ho, List.length_cons] at hlen
    simp only [sentTo, ho, List.length_cons, Option.toList_some, List.length_nil]
    omega
  | @resend src buf io hs hok ht hle =>
    have hrej : (Event.hear (.datagram src buf) io).rejects = 1 := by
      simp [Event.rejects, hok, Fileserver.rejects, ht]
    have hfull := hn.le
    simp only [sentTo, hn.sent hs, hrej, List.length_nil, Option.toList_none]
    omega
  | @rewind src buf hs hok ht hlt =>
    exact absurd ⟨hok, ht, hlt⟩ (hb (.datagram src buf) true rfl hs)
  | full | sent | again | shiftTo | oldRR | ignore => exact Nat.le_add_right _ _
  | fail => exact absurd rfl he

/-- A turn that ends the child sends nothing. -/
theorem Turn.silent {v v' : Server} {e : Event} {out : Option Packet} (h : v.Turn e v' out)
    (he : v'.mvState = .error) : out = none := by
  cases h with
  | sendOne hs => simp [hs] at he
  | _ => rfl

end Server

namespace Session

variable [Host] {file : List UInt8} {B W : UInt32} {dn up : Link} {s t : Session}
  {d u : List Packet}

/-! ## 2. A step of the session -/

/-- The `REJ`s in flight. -/
def asked (l : List Datagram) : ℕ := rejects (l.map Datagram.pkt)

omit [Host] in
theorem asked_le {l l' : List Datagram} (h : l'.Sublist l) : asked l' ≤ asked l :=
  (h.map _).countP_le

/-- A `REJ` that is heard is in flight no more. -/
theorem asked_recv (hr : up.reorders = false) {a : Arrival} {r : Recv} {l l' : List Datagram}
    (hk : a.allowed up) (ha : a.recv l = some (r, l')) (io : Bool) :
    asked l' + (Server.Event.hear r io).rejects ≤ asked l := by
  have hle := asked_le (Arrival.recv_shed hk ha).sublist
  cases r with
  | timeout | failed => exact hle
  | datagram src p =>
    by_cases hok : p.ok = true
    · have hl := (Arrival.recv_ok hk ha hok).head hr
      rw [hl, Server.Event.rejects, if_pos hok, asked, asked, List.map_cons, Nat.add_comm,
        ← rejects_append]
      exact le_rfl
    · rw [Server.Event.rejects, if_neg hok]
      exact hle

/-- A child that is running has sent at most a window from the end of the file on. -/
theorem sentTo_le (hi : Inv W.toNat s) {L : ℕ} (hb : GoBackN.Below L (abs s))
    (hs : s.server.mvState ≠ .error) : s.server.sentTo ≤ L + W.toNat := by
  have hlive : (abs s).mode ≠ .halt := by
    rcases hi.wf.phase with he | ⟨hd | hd | hd, -⟩
    · exact absurd he hs
    all_goals simp [abs, mode, hd]
  obtain ⟨-, hout, hnext⟩ := hi.numbers.window hlive
  have hbase := hb.base_le
  change (abs s).out ≤ _
  omega

/-- Besides, the end of the file is not acknowledged. -/
structure Capped (file : List UInt8) (B W : UInt32) (s : Session) : Prop extends
    Lined file B W s where
  below : GoBackN.Below (file.length / B.toNat) (abs s)

theorem Capped.step (hz : Numberable file B W) (hr : up.reorders = false)
    (hd : up.duplicates = false) (h : Capped file B W s) {e : Event}
    (hm : (transfer file B W dn up).may s e) (hn : s.next e = some t) : Capped file B W t := by
  have hl := h.toLined.step hz hr hd hm hn
  obtain ⟨-, hg⟩ := refines hz.window h.wf hm.1 (h.counts hz) hn
  refine ⟨hl, h.below.step (hg.imp_right And.right) ?_⟩
  intro hc
  have hs : t.client.mvState = .recvPackets := by simpa [abs] using hc
  exact (Nat.le_div_iff_mul_le hz.pos).mpr (hl.copied.within hs)

/-- **Paid for.**  The `REJ`s the client has sent pay for what has been sent twice, those that are
still in flight not counted. -/
structure Priced (file : List UInt8) (B W : UInt32) (s : Session) (d u : List Packet) : Prop extends
    Capped file B W s where
  paid : s.server.mvState ≠ .error →
    d.length + W.toNat * asked s.toServer ≤ s.server.sentTo + W.toNat * rejects u
  total : d.length ≤ file.length / B.toNat + W.toNat * (1 + rejects u)

/-- Where the child is running, the total follows. -/
theorem Capped.priced (hl : Capped file B W s) (hs : s.server.mvState ≠ .error)
    (h : d.length + W.toNat * asked s.toServer ≤ s.server.sentTo + W.toNat * rejects u) :
    Priced file B W s d u := by
  refine ⟨hl, fun _ => h, ?_⟩
  have hle := sentTo_le hl.toInv hl.below hs
  rw [Nat.mul_add, Nat.mul_one]
  omega

/-- A turn of the child. -/
theorem Priced.childTurn (h : Priced file B W s d u) {ev : Server.Event} {l : List Datagram}
    {v : Server} {out : Option Packet} (hst : s.server.step ev = some (v, out))
    (hq : s.server.pushes ev → s.server.mvSequence.toNat + 1 < 2 ^ 32)
    (hb : ∀ r io, ev = .hear r io → s.server.mvState = .waitRR → ¬ s.server.Rewinds r)
    (hask : asked l + ev.rejects ≤ asked s.toServer)
    (hl : Capped file B W (s.afterServer l v out)) :
    Priced file B W (s.afterServer l v out) (d ++ out.toList) u := by
  rcases h.wf.phase with he | ⟨hd, hn⟩
  · simp [Server.step_error he] at hst
  have hs : s.server.mvState ≠ .error := by rcases hd with hd | hd | hd <;> simp [hd]
  have ht := Server.step_cases hd hst
  by_cases he : v.mvState = .error
  · obtain rfl := ht.silent he
    refine ⟨hl, fun hne => absurd he hne, ?_⟩
    simpa using h.total
  · refine hl.priced he ?_
    have hpays := ht.pays hn hq hb he
    have hpaid := h.paid hs
    have hmul := Nat.mul_le_mul_left W.toNat hask
    rw [Nat.mul_add] at hmul
    rw [h.wf.windowSize] at hpays
    simp only [afterServer, List.length_append]
    omega

/-- A step in which the child does nothing: the `REJ`s in flight are paid for by those sent. -/
theorem Priced.aside (h : Priced file B W s d u) (hl : Capped file B W t)
    (hv : t.server = s.server) {u' : List Packet} (hu : rejects u ≤ rejects u')
    (ha : asked t.toServer + rejects u ≤ asked s.toServer + rejects u') :
    Priced file B W t d u' := by
  by_cases he : s.server.mvState = .error
  · refine ⟨hl, fun hne => absurd (hv ▸ he) hne, h.total.trans ?_⟩
    exact Nat.add_le_add_left (Nat.mul_le_mul_left _ (Nat.add_le_add_left hu 1)) _
  · refine hl.priced (by rwa [hv]) ?_
    have hpaid := h.paid he
    have hmul := Nat.mul_le_mul_left W.toNat ha
    rw [Nat.mul_add, Nat.mul_add] at hmul
    rw [hv]
    omega

/-- **Every step is paid for.** -/
theorem Priced.step (hz : Numberable file B W) (hr : up.reorders = false)
    (hd : up.duplicates = false) (h : Priced file B W s d u) {e : Event}
    (hm : (transfer file B W dn up).may s e) (hn : s.next e = some t) :
    Priced file B W t (d ++ (s.childSends e).toList) (u ++ (s.clientSends e).toList) := by
  have hl := h.toCapped.step hz hr hd hm hn
  have hq := h.counts hz (e := e)
  obtain ⟨hk, -⟩ := hm
  cases e with
  | serverAct io =>
    obtain ⟨⟨v, out⟩, hst, rfl⟩ := Option.map_eq_some_iff.mp hn
    simpa [childSends, clientSends, hst] using h.childTurn hst hq (by simp) le_rfl hl
  | serverHear a io =>
    obtain ⟨⟨r, l⟩, ha, hn⟩ := Option.bind_eq_some_iff.mp hn
    obtain ⟨⟨v, out⟩, hst, rfl⟩ := Option.map_eq_some_iff.mp hn
    have hstays := not_rewinds h.toInv hz.window h.ordered.base_le hk ha
    simpa [childSends, clientSends, ha, hst] using h.childTurn hst (by simp [Server.pushes])
      (fun _ _ he => (Server.Event.hear.inj he).1 ▸ hstays) (asked_recv hr hk ha io) hl
  | clientHear a wr io =>
    obtain ⟨⟨r, l⟩, ha, hn⟩ := Option.bind_eq_some_iff.mp hn
    obtain ⟨⟨c, out⟩, hst, rfl⟩ := Option.map_eq_some_iff.mp hn
    have hsent : asked (s.afterClient l c out).toServer =
        asked s.toServer + rejects out.toList := by
      simp [asked, afterClient, rejects_append, List.map_map, Function.comp_def]
    have hu : rejects (u ++ out.toList) = rejects u + rejects out.toList := rejects_append _ _
    have hpaid : asked (s.afterClient l c out).toServer + rejects u ≤
        asked s.toServer + rejects (u ++ out.toList) := by omega
    have hnext : Priced file B W (s.afterClient l c out) d (u ++ out.toList) :=
      h.aside hl rfl (by omega) hpaid
    simpa [childSends, clientSends, ha, hst] using hnext
  | loseDown i | dupDown i =>
    obtain rfl := Option.some.inj hn
    simpa [childSends, clientSends] using h.aside hl rfl le_rfl le_rfl
  | loseUp i =>
    obtain rfl := Option.some.inj hn
    have hle := asked_le (List.eraseIdx_sublist s.toServer i)
    simpa [childSends, clientSends] using
      h.aside hl rfl le_rfl (Nat.add_le_add_right hle (rejects u))
  | dupUp i =>
    rw [may, hd] at hk
    exact absurd hk (by simp)

/-! ## 3. Every run -/

theorem Start.priced (h : Start file B W s) : Priced file B W s [] [] := by
  have hcapped : Capped file B W s := by
    refine ⟨h.lined, ?_⟩
    constructor <;>
      simp [abs, Server.lowest, lowestOf, h.server.sequence, h.server.window, h.toServer]
  refine hcapped.priced (by simp [h.server.state]) ?_
  simp [asked, rejects, h.toServer]

theorem priced_of_reach (hz : Numberable file B W) (hr : up.reorders = false)
    (hd : up.duplicates = false) (h : (logged (transfer file B W dn up)).Reach (s, d, u)) :
    Priced file B W s d u := by
  refine h.recorded (I := fun s x => Priced file B W s x.1 x.2) ?_ ?_
  · intro s h0
    exact Start.priced h0
  · intro s e t x hi hm hn
    exact hi.step hz hr hd hm hn

/-- **What a reject costs.**  Whatever happens to the data, and whoever times out: as long as the
client's replies keep their order, the child has sent at most the full packets of the file and a
window, and one more window for each `REJ` the client has sent. -/
theorem sent_le (file : List UInt8) (B W : UInt32) (hz : Numberable file B W) (dn up : Link)
    (hr : up.reorders = false) (hd : up.duplicates = false) (s : Session) (d u : List Packet)
    (h : (logged (transfer file B W dn up)).Reach (s, d, u)) :
    d.length ≤ file.length / B.toNat + W.toNat * (1 + rejects u) :=
  (priced_of_reach hz hr hd h).total

end Session

end Fileserver

namespace Fileserver.Session

open Proto

local instance costHost : Host := refHost [1, 2, 3]

/-- One packet is lost, and the client rejects the next: the child sends five packets, as many as
one `REJ` pays for. -/
theorem sent_le_five :
    ∃ s d u, (logged (transfer [1, 2, 3] 2 2 .free .lossy)).Reach (s, d, u) ∧ rejects u = 1 ∧
      d.length = 5 ∧ d.length ≤ 1 + 2 * (1 + rejects u) := by
  have h0 : (logged (transfer [1, 2, 3] 2 2 .free .lossy)).Reach (atStart [1, 2, 3] 2 2, [], []) :=
    .start ⟨atStart_start [1, 2, 3] 2 2, rfl⟩
  obtain ⟨⟨s, d, u⟩, h, ht⟩ := h0.run_any (List.replicate 6 (.serverAct true) ++
      [.clientHear (.take 0) true true, .serverHear (.take 0) true] ++
      List.replicate 4 (.serverAct true) ++
      [.loseDown 0, .clientHear (.take 0) true true, .serverHear (.take 0) true] ++
      List.replicate 3 (.serverAct true))
    (fun x => decide (rejects x.2.2 = 1 ∧ x.2.1.length = 5)) (by decide +kernel)
  obtain ⟨hu, hlen⟩ := of_decide_eq_true ht
  have hz : Numberable [1, 2, 3] 2 2 := by constructor <;> decide
  exact ⟨s, d, u, h, hu, hlen, sent_le [1, 2, 3] 2 2 hz .free .lossy rfl rfl s d u h⟩

end Fileserver.Session
