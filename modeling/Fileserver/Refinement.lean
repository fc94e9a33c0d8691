/-
# The data phase refines go-back-N

`refines` matches every step of a session by a step of the pattern in `Lib/GoBackN.lean`: a
good one, or a fault if the environment or a system call caused it.  All that is asked for is
that the counter of the child does not wrap.
-/
import Fileserver.Session

namespace Fileserver.Session

open Proto

variable [Host]

/-! ## 1. A turn of the child -/

theorem Wf.afterServer {W : ℕ} {s : Session} (hw : Wf W s) (hn : s.server.Numbered)
    {l : List Datagram} {v : Server} {e : Server.Event} {out : Option Packet}
    (h : s.server.Turn e v out) (hl : ∀ d ∈ l, d ∈ s.toServer)
    (hr : s.server.pushes e → s.server.mvSequence.toNat + 1 < 2 ^ 32) :
    Wf W (s.afterServer l v out) where
  phase := h.numbered hn hr
  windowSize := by rw [Session.afterServer, h.sizes.2, hw.windowSize]
  client := hw.client
  window := (h.isData hw.window hw.outBuf).1
  outBuf := (h.isData hw.window hw.outBuf).2
  toClient := by
    intro d hd
    rcases List.mem_append.mp hd with hd | hd
    · exact hw.toClient d hd
    · cases out with
      | none => simp at hd
      | some p =>
        obtain rfl : d = ⟨v.mvSocket, p⟩ := by simpa using hd
        have hp := h.out_mem
        have hlt := (hn.consec.mem (hn.suffix.subset hp)).2
        have hmax := s.server.mvSequence.toNat_lt
        exact ⟨hw.outBuf p hp, by simp only [num]; omega⟩
  toServer := fun d hd => hw.toServer d (hl d hd)

omit [Host] in
/-- A child that ends keeps the lowest number it held. -/
theorem refines_fail {dn up : Link} {s : Session} (hn : s.server.Numbered)
    (hW : 0 < s.server.mvWindowSize.toNat) {k : Int} {a : Addr} {m : UInt32} {q : UInt32}
    {l : List Datagram} (hq : q = s.server.mvSequence ∨ s.server.mvState = .waitRR)
    (hl : up.Shed (s.toServer.map reply) (l.map reply)) :
    GoBackN.Fault dn up (abs s) (abs (s.afterServer l
      { s.server with
        mvRetries := k, mvAddr := a, mvAddrLen := m, mvSequence := q, mvState := .error }
      none)) := by
  have hlow : lowestOf q.toNat s.server.mvWindow
      = lowestOf s.server.mvSequence.toNat s.server.mvWindow := by
    rcases hq with rfl | hs
    · rfl
    · have hlen := hn.full (by simp [hs])
      cases hw : s.server.mvWindow with
      | nil => simp [hw] at hlen; omega
      | cons p w => rfl
  convert @GoBackN.Fault.halt dn up (abs s) _ (q.toNat - s.server.mvOutBuf.length) q.toNat hl
    using 1
  ext1 <;> simp [abs, Session.afterServer, mode, Server.lowest, hlow]

/-- **A turn of the child that does not receive** is a step of the pattern. -/
theorem refines_act {W : ℕ} {dn up : Link} {s : Session} (hw : Wf W s) (hW : 0 < W)
    (hn : s.server.Numbered) {v : Server} {io : Bool} {out : Option Packet}
    (h : s.server.Turn (.act io) v out)
    (hr : s.server.pushes (.act io) → s.server.mvSequence.toNat + 1 < 2 ^ 32) :
    GoBackN.Good W dn up (abs s) (abs (s.afterServer s.toServer v out)) ∨
      (Event.serverAct io).quiet = false ∧
        GoBackN.Fault dn up (abs s) (abs (s.afterServer s.toServer v out)) := by
  have hlow := hn.consec.lowestOf
  have hle := hn.consec.le
  have hout := hn.suffix.length_le
  cases h with
  | push hs hl =>
    have hseq : (s.server.mvSequence + 1).toNat = s.server.mvSequence.toNat + 1 := by
      have := hr ⟨rfl, hs, hl⟩
      rw [UInt32.toNat_add, UInt32.toNat_one]
      exact Nat.mod_eq_of_lt this
    have hlow' := (hn.consec.snoc (p := s.server.nextPacket) rfl).lowestOf
    rw [List.length_append, List.length_singleton] at hlow'
    refine .inl ?_
    convert (.fill ?_ ?_ : GoBackN.Good W dn up (abs s) _) using 1
    · ext1 <;> simp [abs, Session.afterServer, mode, Server.lowest, hs, hseq]; omega
    · simp [abs, mode, hs]
    · have := hw.windowSize
      simp only [abs, Server.lowest, hlow]
      omega
  | full hs hl =>
    refine .inl ?_
    convert (.filled ?_ ?_ : GoBackN.Good W dn up (abs s) _) using 1
    · ext1 <;> simp [abs, Session.afterServer, mode, Server.lowest]
    · simp [abs, mode, hs]
    · have := hw.windowSize
      simp only [abs, Server.lowest, hlow]
      omega
  | @sendOne p rest hs ho =>
    have hsuf := hn.suffix
    rw [ho] at hsuf hout
    rw [List.length_cons] at hout
    have hp := (hn.consec.suffix hsuf).head
    refine .inl ?_
    convert (.send ?_ ?_ : GoBackN.Good W dn up (abs s) _) using 1
    · ext1 <;> simp [abs, Session.afterServer, mode, Server.lowest, hs, ho, num] <;> omega
    · simp [abs, mode, hs]
    · simp only [abs, ho, List.length_cons]
      omega
  | sent hs ho =>
    refine .inl ?_
    convert (.sent ?_ ?_ : GoBackN.Good W dn up (abs s) _) using 1
    · ext1 <;> simp [abs, Session.afterServer, mode, Server.lowest]
    · simp [abs, mode, hs]
    · simp [abs, ho]
  | fail hq he =>
    exact .inr ⟨by simpa [Server.Event.fails, Event.quiet] using he,
      refines_fail hn (hw.windowSize ▸ hW) hq (.inl rfl)⟩

/-- **A turn of the child that receives** is a step of the pattern. -/
theorem refines_hear {W : ℕ} {dn up : Link} {s : Session} (hw : Wf W s) (hW : 0 < W)
    (hn : s.server.Numbered) {v : Server} {a : Arrival} {io : Bool} {r : Recv}
    {l : List Datagram} {out : Option Packet} (hk : a.allowed up)
    (ha : a.recv s.toServer = some (r, l)) (h : s.server.Turn (.hear r io) v out) :
    GoBackN.Good W dn up (abs s) (abs (s.afterServer l v out)) ∨
      (Event.serverHear a io).quiet = false ∧
        GoBackN.Fault dn up (abs s) (abs (s.afterServer l v out)) := by
  have hlow := hn.consec.lowestOf
  have hle := hn.consec.le
  have hws := hw.windowSize
  have hWs : 0 < s.server.mvWindowSize.toNat := by omega
  have hbad (hr : r.bad = true ∨ r = .failed) : a.good = false :=
    Arrival.good_eq_false hk ha (fun d hd => (hw.toServer d hd).1) hr
  have hshed : up.Shed (s.toServer.map reply) (l.map reply) := (Arrival.recv_shed hk ha).map reply
  cases h with
  | again hs hr =>
    refine .inr ⟨by simp [Event.quiet, hbad (.inl hr)], ?_⟩
    convert (.idle ?_ hshed : GoBackN.Fault dn up (abs s) _) using 1
    · ext1 <;> simp [abs, Session.afterServer, mode, Server.lowest]
    · simp [abs, mode, hs]
  | @shiftTo src buf io hs hok ht hle' =>
    have htake := (Arrival.recv_ok hk ha hok).map reply
    obtain ⟨hf, hlw⟩ := hn.front_eq hWs hs
    have hfull := hn.full (by simp [hs])
    have hmax := s.server.mvSequence.toNat_lt
    rw [UInt32.le_iff_toNat_le] at hle'
    have hsuf := Server.shift_suffix buf.sequence s.server.front.sequence s.server.mvWindow
    have hlen := Server.length_shift buf.sequence s.server.front.sequence s.server.mvWindow
      (by omega)
    have hlow' := (hn.consec.suffix hsuf).lowestOf
    have hrep : reply ⟨src, buf⟩ = .rr buf.sequence.toNat := by simp [reply, ht, num]
    rw [hrep] at htake
    refine .inl ?_
    convert (.rr ?_ htake ?_ : GoBackN.Good W dn up (abs s) _) using 1
    · ext1 <;> simp [abs, Session.afterServer, mode, Server.lowest]; omega
    · simp [abs, mode, hs]
    · simp only [abs]
      omega
  | @oldRR src buf io hs hok ht hlt =>
    have htake := (Arrival.recv_ok hk ha hok).map reply
    have hf := (hn.front_eq hWs hs).1
    rw [UInt32.lt_iff_toNat_lt] at hlt
    have hrep : reply ⟨src, buf⟩ = .rr buf.sequence.toNat := by simp [reply, ht, num]
    rw [hrep] at htake
    refine .inl ?_
    convert (.rrOld ?_ htake ?_ : GoBackN.Good W dn up (abs s) _) using 1
    · ext1 <;> simp [abs, Session.afterServer, mode, Server.lowest]
    · simp [abs, mode, hs]
    · simp only [abs]
      omega
  | @resend src buf io hs hok ht hle' =>
    have htake := (Arrival.recv_ok hk ha hok).map reply
    have hf := (hn.front_eq hWs hs).1
    rw [UInt32.le_iff_toNat_le] at hle'
    have hrep : reply ⟨src, buf⟩ = .rej buf.sequence.toNat := by simp [reply, ht, num]
    rw [hrep] at htake
    refine .inl ?_
    convert (.rej ?_ htake ?_ : GoBackN.Good W dn up (abs s) _) using 1
    · ext1 <;> simp [abs, Session.afterServer, mode, Server.lowest, hlow]
    · simp [abs, mode, hs]
    · simp only [abs]
      omega
  | @rewind src buf hs hok ht hlt =>
    have htake := (Arrival.recv_ok hk ha hok).map reply
    have hf := (hn.front_eq hWs hs).1
    rw [UInt32.lt_iff_toNat_lt] at hlt
    have hrep : reply ⟨src, buf⟩ = .rej buf.sequence.toNat := by simp [reply, ht, num]
    rw [hrep] at htake
    refine .inl ?_
    convert (.rewind ?_ htake ?_ : GoBackN.Good W dn up (abs s) _) using 1
    · ext1 <;> simp [abs, Session.afterServer, mode, Server.lowest, lowestOf]
    · simp [abs, mode, hs]
    · simp only [abs]
      omega
  | @ignore src buf io hs hok hr hj =>
    rcases (hw.toServer _ (Arrival.recv_ok hk ha hok).mem).2 with ht | ht
    · exact absurd ht hr
    · exact absurd ht hj
  | fail hq he =>
    refine .inr ⟨?_, refines_fail hn hWs hq hshed⟩
    cases r with
    | failed => simp [Event.quiet, hbad (.inr rfl)]
    | timeout | datagram =>
      obtain rfl : io = false := by simpa [Server.Event.fails] using he
      simp [Event.quiet]

/-! ## 2. A turn of the client -/

/-- An answer of the client is a reply, and the client leaves the data phase only to end. -/
theorem turn_isReply {c c' : Client} {r : Recv} {wr io : Bool} {out : Option Packet}
    (h : c.Turn r wr io c' out) (hc : c.mvState = .recvPackets) :
    c'.mvState ≠ .init ∧ ∀ p, out = some p → IsReply p := by
  cases h <;> simp [IsReply, Client.accepted, hc]

theorem Wf.afterClient {W : ℕ} {s : Session} (hw : Wf W s) (hc : s.client.mvState = .recvPackets)
    {l : List Datagram} {c : Client} {r : Recv} {wr io : Bool} {out : Option Packet}
    (h : s.client.Turn r wr io c out) (hl : ∀ d ∈ l, d ∈ s.toClient) :
    Wf W (s.afterClient l c out) :=
  { hw with
    client := (turn_isReply h hc).1
    toClient := fun d hd => hw.toClient d (hl d hd)
    toServer := by
      intro d hd
      rcases List.mem_append.mp hd with hd | hd
      · exact hw.toServer d hd
      · obtain ⟨p, hp, rfl⟩ := List.mem_map.mp hd
        exact (turn_isReply h hc).2 p (Option.mem_toList.mp hp) }

/-- **A turn of the client** is a step of the pattern. -/
theorem refines_client {W : ℕ} {dn up : Link} {s : Session} (hw : Wf W s)
    (hc : s.client.mvState = .recvPackets) {a : Arrival} {r : Recv} {wr io : Bool}
    {l : List Datagram} {c : Client} {out : Option Packet} (hk : a.allowed dn)
    (ha : a.recv s.toClient = some (r, l)) (h : s.client.Turn r wr io c out) :
    GoBackN.Good W dn up (abs s) (abs (s.afterClient l c out)) ∨
      (Event.clientHear a wr io).quiet = false ∧
        GoBackN.Fault dn up (abs s) (abs (s.afterClient l c out)) := by
  have hbad (hr : r.bad = true ∨ r = .failed) : a.good = false :=
    Arrival.good_eq_false hk ha (fun d hd => (hw.toClient d hd).1.1) hr
  have hshed : dn.Shed (s.toClient.map num) (l.map num) := (Arrival.recv_shed hk ha).map num
  have hopen : (abs s).closed = false := by simp [abs, hc]
  -- a packet with the expected number: the counter of the client does not wrap
  have hexp {src : Addr} {buf : Packet} (hr : r = .datagram src buf) (hok : buf.ok = true)
      (hq : buf.sequence = s.client.mvSequence) :
      dn.Takes (abs s).down (abs s).cursor (l.map num) ∧
        (s.client.mvSequence + 1).toNat = s.client.mvSequence.toNat + 1 := by
    subst hr
    have ht := Arrival.recv_ok hk ha hok
    have hlt := (hw.toClient _ ht.mem).2
    refine ⟨by simpa [abs, num, hq] using ht.map num, ?_⟩
    rw [UInt32.toNat_add, UInt32.toNat_one]
    exact Nat.mod_eq_of_lt (by simpa [num, hq] using hlt)
  cases h with
  | nag hr =>
    refine .inr ⟨by simp [Event.quiet, hbad (.inl hr)], ?_⟩
    convert (.nag hopen hshed : GoBackN.Fault dn up (abs s) _) using 1
    ext1 <;> simp [abs, Session.afterClient, reply, num]
  | @accept src buf hok hq hs =>
    obtain ⟨ht, hseq⟩ := hexp rfl hok hq
    refine .inl ?_
    convert (.accept hopen ht : GoBackN.Good W dn up (abs s) _) using 1
    ext1 <;> simp [abs, Session.afterClient, Client.accepted, hseq, reply, num, hq]
  | @finish src buf io hok hq hs =>
    obtain ⟨ht, hseq⟩ := hexp rfl hok hq
    refine .inl ?_
    convert (.finish hopen ht : GoBackN.Good W dn up (abs s) _) using 1
    ext1 <;> simp [abs, Session.afterClient, Client.accepted, hseq]
  | @old src buf wr hok hq =>
    have ht := (Arrival.recv_ok hk ha hok).map num
    rw [UInt32.lt_iff_toNat_lt] at hq
    refine .inl ?_
    convert (.old hopen ht hq : GoBackN.Good W dn up (abs s) _) using 1
    ext1 <;> simp [abs, Session.afterClient, reply, num]
  | @gap src buf wr hok hq =>
    have ht := (Arrival.recv_ok hk ha hok).map num
    rw [UInt32.lt_iff_toNat_lt] at hq
    refine .inl ?_
    convert (.gap hopen ht hq : GoBackN.Good W dn up (abs s) _) using 1
    ext1 <;> simp [abs, Session.afterClient, reply, num]
  | @unsent src buf hok hq hs =>
    obtain ⟨ht, hseq⟩ := hexp rfl hok hq
    refine .inl ?_
    convert (.finish hopen ht : GoBackN.Good W dn up (abs s) _) using 1
    ext1 <;> simp [abs, Session.afterClient, Client.accepted, hseq]
  | @unwritten src buf io hok hq =>
    obtain ⟨ht, hseq⟩ := hexp rfl hok hq
    refine .inl ?_
    convert (.finish hopen ht : GoBackN.Good W dn up (abs s) _) using 1
    ext1 <;> simp [abs, Session.afterClient, Client.accepted, hseq]
  | fail hr =>
    refine .inr ⟨?_, ?_⟩
    · rcases hr with rfl | rfl
      · simp [Event.quiet, hbad (.inr rfl)]
      · simp [Event.quiet]
    · convert (.close hshed : GoBackN.Fault dn up (abs s) _) using 1
      ext1 <;> simp [abs, Session.afterClient]

/-! ## 3. Every step -/

variable {W : ℕ} {dn up : Link} {s t : Session}

/-- **Every step of a session refines go-back-N**, and is a good step unless something goes
wrong in it. -/
theorem refines (hW : 0 < W) (hw : Wf W s) {e : Event} (hk : may dn up e)
    (hr : s.pushes e → s.server.mvSequence.toNat + 1 < 2 ^ 32) (h : s.next e = some t) :
    Wf W t ∧ (GoBackN.Good W dn up (abs s) (abs t) ∨
      e.quiet = false ∧ GoBackN.Fault dn up (abs s) (abs t)) := by
  cases e with
  | serverAct io =>
    obtain ⟨⟨v, out⟩, hst, rfl⟩ := Option.map_eq_some_iff.mp h
    rcases hw.phase with he | ⟨hd, hn⟩
    · simp [Server.step_error he] at hst
    have ht := Server.step_cases hd hst
    exact ⟨hw.afterServer hn ht (fun _ hd => hd) hr, refines_act hw hW hn ht hr⟩
  | serverHear a io =>
    obtain ⟨⟨r, l⟩, ha, h⟩ := Option.bind_eq_some_iff.mp h
    obtain ⟨⟨v, out⟩, hst, rfl⟩ := Option.map_eq_some_iff.mp h
    rcases hw.phase with he | ⟨hd, hn⟩
    · simp [Server.step_error he] at hst
    have ht := Server.step_cases hd hst
    refine ⟨hw.afterServer hn ht (fun _ => (Arrival.recv_shed hk ha).sub)
      (by simp [Server.pushes]), refines_hear hw hW hn hk ha ht⟩
  | clientHear a wr io =>
    obtain ⟨⟨r, l⟩, ha, h⟩ := Option.bind_eq_some_iff.mp h
    obtain ⟨⟨c, out⟩, hst, rfl⟩ := Option.map_eq_some_iff.mp h
    obtain ⟨hc, ht⟩ := Client.step_cases hw.client hst
    exact ⟨hw.afterClient hc ht (fun _ => (Arrival.recv_shed hk ha).sub),
      refines_client hw hc hk ha ht⟩
  | loseDown i =>
    obtain rfl := Option.some.inj h
    have hno : dn.Noise s.toClient (s.toClient.eraseIdx i) := .inl ⟨hk, i, rfl⟩
    refine ⟨{ hw with toClient := fun d hd => hw.toClient d (hno.sub hd) }, .inr ⟨rfl, ?_⟩⟩
    exact .noiseDown (hno.map num)
  | dupDown i =>
    obtain rfl := Option.some.inj h
    have hno : dn.Noise s.toClient (Link.dup i s.toClient) := .inr ⟨hk, i, rfl⟩
    refine ⟨{ hw with toClient := fun d hd => hw.toClient d (hno.sub hd) }, .inr ⟨rfl, ?_⟩⟩
    exact .noiseDown (hno.map num)
  | loseUp i =>
    obtain rfl := Option.some.inj h
    have hno : up.Noise s.toServer (s.toServer.eraseIdx i) := .inl ⟨hk, i, rfl⟩
    refine ⟨{ hw with toServer := fun d hd => hw.toServer d (hno.sub hd) }, .inr ⟨rfl, ?_⟩⟩
    exact .noiseUp (hno.map reply)
  | dupUp i =>
    obtain rfl := Option.some.inj h
    have hno : up.Noise s.toServer (Link.dup i s.toServer) := .inr ⟨hk, i, rfl⟩
    refine ⟨{ hw with toServer := fun d hd => hw.toServer d (hno.sub hd) }, .inr ⟨rfl, ?_⟩⟩
    exact .noiseUp (hno.map reply)

/-- What holds of every session on the way. -/
structure Inv (W : ℕ) (s : Session) : Prop where
  wf : Wf W s
  numbers : GoBackN.Inv W (abs s)

theorem Start.inv {file : List UInt8} {B W : UInt32} (h : Start file B W s) :
    Inv W.toNat s where
  wf :=
    { phase := .inr ⟨.inl h.server.state, h.server.numbered⟩
      windowSize := by rw [h.server.windowSize]
      client := by simp [h.state]
      window := by simp [h.server.window]
      outBuf := by simp [h.server.outBuf]
      toClient := by simp [h.toClient]
      toServer := by simp [h.toServer] }
  numbers := by
    constructor <;> simp [abs, mode, Server.lowest, lowestOf, h.server.state, h.server.sequence,
      h.server.window, h.server.outBuf, h.sequence, h.toClient, h.toServer]

theorem Inv.step (hW : 0 < W) (hi : Inv W s) {e : Event} (hk : may dn up e)
    (hr : s.pushes e → s.server.mvSequence.toNat + 1 < 2 ^ 32) (h : s.next e = some t) :
    Inv W t := by
  obtain ⟨hw, hg⟩ := refines hW hi.wf hk hr h
  exact ⟨hw, GoBackN.Step.inv (hg.imp_right And.right) hi.numbers⟩

theorem inv_of_reach {file : List UInt8} {B W : UInt32} (hW : 0 < W.toNat)
    (h : (system file B W dn up).Reach s) : Inv W.toNat s := by
  refine h.invariant (I := Inv W.toNat) (fun _ h0 => Start.inv h0) ?_
  intro _ _ _ _ hi hm hn
  exact hi.step hW hm.1 hm.2 hn

end Fileserver.Session
