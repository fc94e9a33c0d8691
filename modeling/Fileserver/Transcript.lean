/-
# What goes over the wire when nothing goes wrong

Child and client take their turns in any order, so a transfer has many runs even if nothing is ever
lost, late or damaged.  They all have one transcript: the child sends the packets of the file, each
of them once and in order, and the client acknowledges them, each of them once and in order
(`undisturbed_transcript`).  What is sent for nothing are the empty packets of the last window.
-/
import Fileserver.Large

namespace Fileserver.Session

open Proto

variable [Host]

/-! ## 1. The transcript -/

/-- What the child sends in the step. -/
def childSends (s : Session) : Event → Option Packet
  | .serverAct io => (s.server.step (.act io)).bind Prod.snd
  | .serverHear a io =>
    (a.recv s.toServer).bind fun x => (s.server.step (.hear x.1 io)).bind Prod.snd
  | _ => none

/-- What the client sends in the step. -/
def clientSends (s : Session) : Event → Option Packet
  | .clientHear a wr io =>
    (a.recv s.toClient).bind fun x =>
      (s.client.step (.hear x.1 s.client.sk wr io)).bind Prod.snd
  | _ => none

/-- A data phase next to what child and client have sent in it. -/
@[reducible] def logged (M : System Session Event) :
    System (Session × List Packet × List Packet) Event :=
  M.recorded ([], []) fun s e x =>
    (x.1 ++ (s.childSends e).toList, x.2 ++ (s.clientSends e).toList)

instance (file : List UInt8) (B W : UInt32) (s : Session) (e : Event) :
    Decidable ((calm file B W).may s e) :=
  inferInstanceAs (Decidable ((may .perfect .perfect e ∧ e.writes) ∧ e.quiet = true))

/-- The packet of the file with this number. -/
def filePkt (file : List UInt8) (B : UInt32) (n : ℕ) : Packet :=
  datpkt (UInt32.ofNat n) (slice file B.toNat n)

/-- **Undisturbed.**  Both transcripts are in order, and end where the numbers say. -/
structure Undisturbed (file : List UInt8) (B W : UInt32) (s : Session) (d u : List Packet) :
    Prop where
  placed : Placed file B W s
  fresh : GoBackN.Fresh W.toNat (abs s)
  child : d = (List.range (abs s).out).map (filePkt file B)
  client : u = (List.range (abs s).head).map fun n => rrpkt (UInt32.ofNat n)
  ends : s.client.mvState = .done → file.length < s.client.mvSequence.toNat * B.toNat

variable {file : List UInt8} {B W : UInt32} {s t : Session} {d u : List Packet}

omit [Host] in
theorem range_split (a b : ℕ) : List.range (a + b) = List.range a ++ List.range' a b := by
  rw [List.range_add, List.range'_eq_map_range]

/-! ## 2. The two sides -/

/-- What a turn of the child sends is the next packet of the file. -/
theorem Undisturbed.childTurn (h : Undisturbed file B W s d u) {l : List Datagram} {v : Server}
    {out : Option Packet} (hpt : Placed file B W (s.afterServer l v out))
    (hft : GoBackN.Fresh W.toNat (abs (s.afterServer l v out))) :
    Undisturbed file B W (s.afterServer l v out) (d ++ out.toList) u := by
  have hdown : (abs (s.afterServer l v out)).down =
      (abs s).down ++ out.toList.map fun p => p.sequence.toNat := by
    simp [abs, afterServer, num, List.map_map, Function.comp_def]
  obtain ⟨hout, hnums⟩ := h.fresh.sent hft rfl hdown
  have hcarries : out.toList.map (fun p => filePkt file B p.sequence.toNat) = out.toList := by
    refine (List.map_congr_left ?_).trans (List.map_id _)
    intro p hp
    have hc : Server.Carries file B.toNat p :=
      hpt.carries ⟨v.mvSocket, p⟩ (List.mem_append_right _ (List.mem_map_of_mem hp))
    rw [filePkt, UInt32.ofNat_toNat]
    exact hc.symm
  have hhead : (abs (s.afterServer l v out)).head = (abs s).head :=
    Nat.add_right_cancel (hft.cursor_eq.symm.trans h.fresh.cursor_eq)
  refine ⟨hpt, hft, ?_, ?_, h.ends⟩
  · rw [hout, range_split, List.map_append, ← h.child, ← hnums, List.map_map]
    exact congrArg (d ++ ·) hcarries.symm
  · rw [hhead]
    exact h.client

/-- The client answers with an `RR` or a `REJ`, built from a number and nothing else. -/
theorem answer_eq {c c' : Client} {r : Recv} {wr io : Bool} {p : Packet}
    (h : c.Turn r wr io c' (some p)) : p = rrpkt p.sequence ∨ p = rejpkt p.sequence := by
  cases h with
  | nag | gap => exact .inr rfl
  | accept | old => exact .inl rfl

/-- What a turn of the client sends is the next acknowledgement. -/
theorem Undisturbed.clientTurn (h : Undisturbed file B W s d u) {l : List Datagram} {c : Client}
    {r : Recv} {out : Option Packet} (ht : s.client.Turn r true true c out)
    (hpt : Placed file B W (s.afterClient l c out))
    (hft : GoBackN.Fresh W.toNat (abs (s.afterClient l c out)))
    (hends : c.mvState = .done → file.length < c.mvSequence.toNat * B.toNat) :
    Undisturbed file B W (s.afterClient l c out) d (u ++ out.toList) := by
  have hup : (abs (s.afterClient l c out)).up =
      (abs s).up ++ out.toList.map fun p => reply ⟨c.mvSocket, p⟩ := by
    simp [abs, afterClient, List.map_map, Function.comp_def]
  obtain ⟨hhead, hreps⟩ := h.fresh.answered hft rfl hup
  refine ⟨hpt, hft, h.child, ?_, hends⟩
  rw [hhead, range_split, List.map_append, ← h.client]
  refine congrArg (u ++ ·) ?_
  cases out with
  | none => rfl
  | some p =>
    have hp : reply ⟨c.mvSocket, p⟩ = .rr (abs s).head := by simpa using hreps
    have hrr : p = rrpkt (UInt32.ofNat (abs s).head) := by
      rcases answer_eq ht with he | he
      · rw [he] at hp ⊢
        have hn : p.sequence.toNat = (abs s).head := GoBackN.Reply.rr.inj hp
        rw [← hn, UInt32.ofNat_toNat]
      · rw [he] at hp
        exact absurd hp (by simp [reply])
    simpa using hrr

/-! ## 3. Every step -/

theorem Start.undisturbed (h : Start file B W s) : Undisturbed file B W s [] [] where
  placed := h.placed
  fresh := by
    refine ⟨h.inv.numbers, ?_, ?_, ?_, ?_, ?_⟩ <;> simp [abs, mode, Server.lowest, lowestOf,
      GoBackN.State.head, h.server.state, h.server.sequence, h.server.window, h.server.outBuf,
      h.sequence, h.state, h.toClient, h.toServer]
  child := by simp [abs, h.server.sequence, h.server.outBuf]
  client := by
    simp [abs, GoBackN.State.head, Server.lowest, lowestOf, h.server.sequence, h.server.window,
      h.toServer]
  ends := by simp [h.state]

/-- What ends the client is a packet the file ends in. -/
theorem Placed.finishes_short (hz : Numberable file B W) (hp : Placed file B W s)
    (hs : s.client.mvState = .recvPackets) {r : Recv} {io : Bool} {c : Client}
    {out : Option Packet} (h : s.client.Turn r true io c out)
    (hr : ∀ src p, r = .datagram src p → p.ok = true →
      Server.Carries file B.toNat p ∧ p.sequence.toNat + 1 < 2 ^ 32) (hd : c.mvState = .done) :
    file.length < c.mvSequence.toNat * B.toNat := by
  cases h with
  | nag | old | gap | accept => simp [Client.accepted, hs] at hd
  | @finish src p _ hok hq hsh =>
    obtain ⟨hcar, hw⟩ := hr src p rfl hok
    obtain ⟨hseq, -, -, hiff⟩ := hp.copied.accepted src hs hcar hz.fits hq (hq ▸ hw)
    have hlt := hiff.mp hsh
    rw [← hseq] at hlt
    exact hlt
  | unsent | fail => simp at hd

/-- **Every step goes on with the transcript.** -/
theorem Undisturbed.step (hz : Numberable file B W) (h : Undisturbed file B W s d u) {e : Event}
    (hm : (calm file B W).may s e) (hn : s.next e = some t) :
    Undisturbed file B W t (d ++ (s.childSends e).toList) (u ++ (s.clientSends e).toList) := by
  obtain ⟨⟨hk, hwr⟩, hq⟩ := hm
  have hft : GoBackN.Fresh W.toNat (abs t) :=
    h.fresh.step (((refines hz.window h.placed.wf hk (h.placed.counts hz) hn).2).resolve_right
      (by simp [hq]))
  have hsb := seeksBelow_of_rrs h.placed.toInv hz.window h.fresh.up_eq hk
  have hpt := h.placed.step hz hk hwr hsb hn
  cases e with
  | serverAct io =>
    obtain ⟨⟨v, out⟩, hst, rfl⟩ := Option.map_eq_some_iff.mp hn
    simpa [childSends, clientSends, hst] using h.childTurn hpt hft
  | serverHear a io =>
    obtain ⟨⟨r, l⟩, ha, hn⟩ := Option.bind_eq_some_iff.mp hn
    obtain ⟨⟨v, out⟩, hst, rfl⟩ := Option.map_eq_some_iff.mp hn
    simpa [childSends, clientSends, ha, hst] using h.childTurn hpt hft
  | clientHear a wr io =>
    obtain ⟨⟨r, l⟩, ha, hn⟩ := Option.bind_eq_some_iff.mp hn
    obtain ⟨⟨c, out⟩, hst, rfl⟩ := Option.map_eq_some_iff.mp hn
    obtain ⟨⟨hg, rfl⟩, rfl⟩ : (a.good = true ∧ wr = true) ∧ io = true := by
      simpa [Event.quiet] using hq
    obtain ⟨hs, ht⟩ := Client.step_cases h.placed.wf.client hst
    obtain ⟨x, rfl, hx⟩ := Arrival.recv_good ha hg
    have hends := h.placed.finishes_short hz hs ht (by
      intro src p he _
      obtain ⟨-, rfl⟩ := Recv.datagram.inj he
      exact ⟨h.placed.carries x hx, (h.placed.wf.toClient x hx).2⟩)
    simpa [childSends, clientSends, ha, hst] using h.clientTurn ht hpt hft hends
  | loseDown | dupDown | loseUp | dupUp => simp [Event.quiet] at hq

/-! ## 4. Every run -/

theorem undisturbed_of_reach (hz : Numberable file B W)
    (h : (logged (calm file B W)).Reach (s, d, u)) : Undisturbed file B W s d u := by
  refine h.recorded (I := fun s x => Undisturbed file B W s x.1 x.2) ?_ ?_
  · intro s h0
    exact Start.undisturbed h0
  · intro s e t x hi hm hn
    exact hi.step hz hm hn

/-- **One transcript.**  However the two sides take their turns, the child has sent the first
`k` packets of the file and the client has acknowledged the first `m`, each once and in order.
The child is at most a window ahead, the last packet of the file is not acknowledged, and once
the client is done it has acknowledged all the others. -/
theorem undisturbed_transcript (file : List UInt8) (B W : UInt32) (hz : Numberable file B W)
    (s : Session) (d u : List Packet) (h : (logged (calm file B W)).Reach (s, d, u)) :
    ∃ k m, m ≤ file.length / B.toNat ∧ m ≤ k ∧ k ≤ m + W.toNat ∧
      d = (List.range k).map (filePkt file B) ∧
      u = (List.range m).map (fun n => rrpkt (UInt32.ofNat n)) ∧
      (s.client.mvState = .done → m = file.length / B.toNat ∧ m < k) := by
  have hi := undisturbed_of_reach hz h
  have hcur : s.client.mvSequence.toNat = (abs s).head + if (abs s).closed then 1 else 0 :=
    hi.fresh.cursor_eq
  have hout : s.client.mvSequence.toNat ≤ (abs s).out := hi.fresh.cursor_le
  have hwin := hi.placed.numbers.window hi.fresh.live
  have hhead : (abs s).base ≤ (abs s).head := Nat.le_add_right ..
  have hfile : (abs s).head * B.toNat ≤ file.length := by
    cases hcl : (abs s).closed with
    | true =>
      have hb := hi.placed.copied.bound
      rw [hcur, hcl, if_pos rfl, Nat.add_one_mul] at hb
      exact Nat.le_of_add_le_add_right hb
    | false =>
      have hs : s.client.mvState = .recvPackets := by simpa [abs] using hcl
      have hb := hi.placed.copied.within hs
      simpa [hcur, hcl] using hb
  have hlast := (Nat.le_div_iff_mul_le hz.pos).mpr hfile
  refine ⟨(abs s).out, (abs s).head, hlast, by omega, by omega, hi.child, hi.client, ?_⟩
  intro hd
  have hcl : (abs s).closed = true := by simp [abs, hd]
  rw [hcl, if_pos rfl] at hcur
  have hends := hi.ends hd
  rw [hcur] at hends
  have hlt := (Nat.div_lt_iff_lt_mul hz.pos).mpr hends
  omega

end Fileserver.Session

namespace Fileserver.Session

open Proto

local instance transcriptHost : Host := refHost [1, 2, 3]

/-- The child hears of packet 0 before the client reads packet 1, and sends an empty packet behind
the end of the file. -/
theorem undisturbed_transcript_empty :
    ∃ s d u, (logged (calm [1, 2, 3] 2 2)).Reach (s, d, u) ∧ s.client.mvState = .done ∧
      d = [datpkt 0 [1, 2], datpkt 1 [3], datpkt 2 []] ∧ u = [rrpkt 0] := by
  have h0 : (logged (calm [1, 2, 3] 2 2)).Reach (atStart [1, 2, 3] 2 2, [], []) :=
    .start ⟨atStart_start [1, 2, 3] 2 2, rfl⟩
  obtain ⟨⟨s, d, u⟩, h, ht⟩ := h0.run_any (List.replicate 6 (.serverAct true) ++
      [.clientHear (.take 0) true true, .serverHear (.take 0) true] ++
      List.replicate 4 (.serverAct true) ++ [.clientHear (.take 0) true true])
    (fun x => decide (x.1.client.mvState = .done ∧ x.2.1.length = 3)) (by decide +kernel)
  obtain ⟨hd, hlen⟩ := of_decide_eq_true ht
  obtain ⟨k, m, -, -, -, rfl, rfl, hend⟩ :=
    undisturbed_transcript [1, 2, 3] 2 2 (by constructor <;> decide) s d u h
  obtain rfl : k = 3 := by simpa using hlen
  obtain ⟨rfl, -⟩ := hend hd
  exact ⟨s, _, _, h, hd, rfl, rfl⟩

end Fileserver.Session
