/-
# The file arrives

Over links that may do anything to datagrams except forge them, the client's output is at every
moment the part of the file its counter stands for, and all of it once the client is done.

The numbers come from `Refinement.lean`.  What is added here are the bytes: every packet held
by the child or in flight is the packet of its number (`Loaded`, `Carries`), and the client has
written the packets below its counter (`Copied`).  The bound on the length of the file keeps
both 32-bit computations of the child exact, the counter and the offset of `lseek`.
-/
import Fileserver.Refinement

namespace Fileserver

open Proto

/-- Behind a counter `c` that has passed the end of the file by at most a packet, a window of
packets has offsets that fit. -/
theorem offset_lt {len c n B W : ℕ} (hc : c * B ≤ len + B) (hlen : len + (W + 1) * B < 2 ^ 32)
    (hn : n + 1 ≤ c + W) : (n + 1) * B < 2 ^ 32 :=
  calc (n + 1) * B
      ≤ (c + W) * B := Nat.mul_le_mul_right _ hn
    _ = c * B + W * B := Nat.add_mul _ _ _
    _ ≤ len + B + W * B := Nat.add_le_add_right hc _
    _ = len + (W + 1) * B := by rw [Nat.succ_mul]; omega
    _ < 2 ^ 32 := hlen

/-! ## 1. The client's half -/

namespace Client

/-- **What the client has written.**  The packets below its counter, which end inside the file
as long as it wants more. -/
structure Copied (file : List UInt8) (B : UInt32) (c : Client) : Prop where
  bufferSize : c.mvBufferSize = B
  output : c.mvTo = file.take (c.mvSequence.toNat * B.toNat)
  within : c.mvState = .recvPackets → c.mvSequence.toNat * B.toNat ≤ file.length
  bound : c.mvSequence.toNat * B.toNat ≤ file.length + B.toNat
  done : c.mvState = .done → c.mvTo = file

variable [Host] {file : List UInt8} {B : UInt32} {c c' : Client}

/-- A packet of the file is short exactly if the file ends in it. -/
theorem short_iff {p : Packet} (hc : Copied file B c) (hp : Server.Carries file B.toNat p)
    (hD : B.toNat ≤ pktDMax) (hk : p.sequence.toNat * B.toNat ≤ file.length) :
    c.short p ↔ file.length < (p.sequence.toNat + 1) * B.toNat := by
  have ht : p.type = pktTypeDAT := by rw [hp]; rfl
  have hsz := hp.size hD
  rw [length_slice, Nat.succ_mul] at hsz
  rw [short, hc.bufferSize, UInt32.lt_iff_toNat_lt, UInt16.toNat_toUInt32, hsz, Nat.succ_mul]
  constructor
  · rintro ⟨-, hlt⟩
    omega
  · intro hlt
    exact ⟨ht, by omega⟩

/-- The expected packet, written. -/
theorem Copied.accepted (src : Addr) {p : Packet} (hc : Copied file B c)
    (hs : c.mvState = .recvPackets) (hp : Server.Carries file B.toNat p)
    (hD : B.toNat ≤ pktDMax) (hq : p.sequence = c.mvSequence)
    (hw : c.mvSequence.toNat + 1 < 2 ^ 32) :
    (c.accepted src p).mvSequence.toNat = c.mvSequence.toNat + 1 ∧
      (c.accepted src p).mvTo = file.take ((c.mvSequence.toNat + 1) * B.toNat) ∧
      c.mvSequence.toNat * B.toNat ≤ file.length ∧
      (c.short p ↔ file.length < (c.mvSequence.toNat + 1) * B.toNat) := by
  refine ⟨?_, ?_, hc.within hs, ?_⟩
  · rw [Client.accepted, UInt32.toNat_add, UInt32.toNat_one]
    exact Nat.mod_eq_of_lt hw
  · rw [Client.accepted, hc.output, hp.bytes hD, hq, take_slice]
  · rw [short_iff hc hp hD (by rw [hq]; exact hc.within hs), hq]

/-- **Every turn writes what belongs at the end of the output**, as long as packets of the file
come in and the counter does not wrap. -/
theorem Turn.copied {r : Recv} {io : Bool} {out : Option Packet} (h : c.Turn r true io c' out)
    (hc : Copied file B c) (hs : c.mvState = .recvPackets) (hD : B.toNat ≤ pktDMax)
    (hr : ∀ src p, r = .datagram src p → p.ok = true →
      Server.Carries file B.toNat p ∧ p.sequence.toNat + 1 < 2 ^ 32) : Copied file B c' := by
  cases h with
  | nag hb => exact { hc with }
  | @accept src p hok hq hsh =>
    obtain ⟨hp, hw⟩ := hr src p rfl hok
    obtain ⟨hseq, hto, hin, hiff⟩ := hc.accepted src hs hp hD hq (hq ▸ hw)
    rw [hiff] at hsh
    refine ⟨hc.bufferSize, by rw [hto, hseq], fun _ => by rw [hseq]; omega, by rw [hseq]; omega, ?_⟩
    simp [Client.accepted, hs]
  | @finish src p io hok hq hsh =>
    obtain ⟨hp, hw⟩ := hr src p rfl hok
    obtain ⟨hseq, hto, hin, hiff⟩ := hc.accepted src hs hp hD hq (hq ▸ hw)
    rw [hiff] at hsh
    refine ⟨hc.bufferSize, by rw [← hseq] at hto; exact hto, by simp, ?_, ?_⟩
    · have := Nat.add_one_mul c.mvSequence.toNat B.toNat
      simp only [hseq]
      omega
    · intro _
      exact hto.trans (List.take_of_length_le hsh.le)
  | @unsent src p hok hq hsh =>
    obtain ⟨hp, hw⟩ := hr src p rfl hok
    obtain ⟨hseq, hto, hin, hiff⟩ := hc.accepted src hs hp hD hq (hq ▸ hw)
    rw [hiff] at hsh
    refine ⟨hc.bufferSize, by rw [← hseq] at hto; exact hto, by simp, ?_, by simp⟩
    simp only [hseq]
    omega
  | old hok hq => exact { hc with }
  | gap hok hq => exact { hc with }
  | fail hf => exact { hc with within := by simp, done := by simp }

omit [Host] in
/-- The client's counter does not wrap while it takes packets. -/
theorem Copied.unwrapped {W : UInt32} (h : Copied file B c) (hB : 0 < B.toNat)
    (hlen : file.length + (W.toNat + 1) * B.toNat < 2 ^ 32) (hs : c.mvState = .recvPackets) :
    c.mvSequence.toNat + 1 < 2 ^ 32 := by
  have hin := h.within hs
  calc c.mvSequence.toNat + 1
      ≤ (c.mvSequence.toNat + 1) * B.toNat := Nat.le_mul_of_pos_right _ hB
    _ = c.mvSequence.toNat * B.toNat + B.toNat := Nat.succ_mul _ _
    _ ≤ file.length + (W.toNat + 1) * B.toNat := by rw [Nat.succ_mul]; omega
    _ < 2 ^ 32 := hlen

end Client

namespace Session

/-! ## 2. The session -/

/-- Every `write` of the client succeeds. -/
def Event.writes : Event → Prop
  | .clientHear _ wr _ => wr = true
  | _ => True

instance : DecidablePred Event.writes
  | .clientHear _ wr _ => inferInstanceAs (Decidable (wr = true))
  | .serverAct _ | .serverHear .. | .loseDown _ | .dupDown _ | .loseUp _ | .dupUp _ =>
    inferInstanceAs (Decidable True)

variable [Host]

/-- The data phase over links `dn` and `up`, where writing to the output never fails. -/
def transfer (file : List UInt8) (B W : UInt32) (dn up : Link) : System Session Event where
  start := Start file B W
  may _ e := may dn up e ∧ e.writes
  next := next

instance (file : List UInt8) (B W : UInt32) (dn up : Link) (s : Session) (e : Event) :
    Decidable ((transfer file B W dn up).may s e) :=
  inferInstanceAs (Decidable (may dn up e ∧ e.writes))

/-- **The invariant of a transfer**: the numbers, and the bytes on the child, in flight and on
the client. -/
structure Content (file : List UInt8) (B W : UInt32) (s : Session) : Prop extends
    Inv W.toNat s where
  loaded : Server.Loaded file B s.server
  carries : ∀ d ∈ s.toClient, Server.Carries file B.toNat d.pkt
  copied : Client.Copied file B s.client

theorem Start.content {file : List UInt8} {B W : UInt32} {s : Session} (h : Start file B W s) :
    Content file B W s where
  toInv := h.inv
  loaded := h.server.loaded
  carries := by simp [h.toClient]
  copied := by
    constructor <;> simp [h.bufferSize, h.output, h.sequence, h.state]

variable {file : List UInt8} {B W : UInt32} {dn up : Link} {s t : Session}

/-- The next packet the child builds lies at most a window ahead of the client, so neither the
counter nor the offset wraps. -/
theorem Inv.fits (hi : Inv W.toNat s)
    (hb : s.client.mvSequence.toNat * B.toNat ≤ file.length + B.toNat)
    (hlen : file.length + (W.toNat + 1) * B.toNat < 2 ^ 32) {e : Event} (hp : s.pushes e) :
    (s.server.mvSequence.toNat + 1) * B.toNat < 2 ^ 32 := by
  cases e with
  | serverAct io =>
    obtain ⟨-, hs, hlt⟩ := hp
    rcases hi.wf.phase with he | ⟨-, hn⟩
    · simp [he] at hs
    have hlow := hn.consec.lowestOf
    have hle := hn.consec.le
    have hbase : s.server.lowest ≤ s.client.mvSequence.toNat := hi.numbers.base_le
    have hwin := hi.wf.windowSize
    simp only [Server.lowest] at hbase
    exact offset_lt hb hlen (by omega)
  | _ => exact hp.elim

theorem Content.fits (hc : Content file B W s)
    (hlen : file.length + (W.toNat + 1) * B.toNat < 2 ^ 32) {e : Event} (hp : s.pushes e) :
    (s.server.mvSequence.toNat + 1) * B.toNat < 2 ^ 32 :=
  hc.toInv.fits hc.copied.bound hlen hp

/-- **The bytes on the child and in flight**, behind a step that keeps the offsets exact. -/
theorem Inv.carries (hi : Inv W.toNat s) (hl : Server.Loaded file B s.server)
    (hd : ∀ d ∈ s.toClient, Server.Carries file B.toNat d.pkt) (hB : 0 < B.toNat)
    (hW : 0 < W.toNat) {e : Event}
    (hfit : s.pushes e → (s.server.mvSequence.toNat + 1) * B.toNat < 2 ^ 32) (hk : may dn up e)
    (h : s.next e = some t) :
    Inv W.toNat t ∧ Server.Loaded file B t.server ∧
      ∀ d ∈ t.toClient, Server.Carries file B.toNat d.pkt := by
  have hit : Inv W.toNat t := hi.step hW hk
    (fun hp => lt_of_le_of_lt (Nat.le_mul_of_pos_right _ hB) (hfit hp)) h
  have hWs : 0 < s.server.mvWindowSize.toNat := by rw [hi.wf.windowSize]; exact hW
  -- a turn of the child
  have hserver {ev : Server.Event} {v : Server} {out : Option Packet} {l : List Datagram}
      (hst : s.server.step ev = some (v, out))
      (hr : s.server.pushes ev → (s.server.mvSequence.toNat + 1) * B.toNat < 2 ^ 32) :
      Server.Loaded file B v ∧
        ∀ d ∈ (s.afterServer l v out).toClient, Server.Carries file B.toNat d.pkt := by
    rcases hi.wf.phase with he | ⟨hdat, hn⟩
    · simp [Server.step_error he] at hst
    have ht := Server.step_cases hdat hst
    refine ⟨ht.loaded hl hn hWs hB hr, ?_⟩
    intro d hx
    rcases List.mem_append.mp hx with hx | hx
    · exact hd d hx
    · obtain ⟨p, hp, rfl⟩ := List.mem_map.mp hx
      obtain rfl := Option.mem_toList.mp hp
      exact hl.outBuf p ht.out_mem
  cases e with
  | serverAct io =>
    obtain ⟨⟨v, out⟩, hst, rfl⟩ := Option.map_eq_some_iff.mp h
    exact ⟨hit, hserver (l := s.toServer) hst hfit⟩
  | serverHear a io =>
    obtain ⟨⟨r, l⟩, ha, h⟩ := Option.bind_eq_some_iff.mp h
    obtain ⟨⟨v, out⟩, hst, rfl⟩ := Option.map_eq_some_iff.mp h
    exact ⟨hit, hserver (l := l) hst (by simp [Server.pushes])⟩
  | clientHear a wr io =>
    obtain ⟨⟨r, l⟩, ha, h⟩ := Option.bind_eq_some_iff.mp h
    obtain ⟨⟨c, out⟩, hst, rfl⟩ := Option.map_eq_some_iff.mp h
    exact ⟨hit, hl, fun d hx => hd d ((Arrival.recv_shed hk ha).sub hx)⟩
  | loseDown i =>
    obtain rfl := Option.some.inj h
    exact ⟨hit, hl, fun d hx => hd d (List.mem_of_mem_eraseIdx hx)⟩
  | dupDown i =>
    obtain rfl := Option.some.inj h
    exact ⟨hit, hl, fun d hx => hd d (Link.mem_of_mem_dup hx)⟩
  | loseUp i | dupUp i =>
    obtain rfl := Option.some.inj h
    exact ⟨hit, hl, hd⟩

/-- **Every step keeps the invariant**, whatever the links do. -/
theorem Content.step (hc : Content file B W s) (hB : 0 < B.toNat) (hD : B.toNat ≤ pktDMax)
    (hW : 0 < W.toNat) (hlen : file.length + (W.toNat + 1) * B.toNat < 2 ^ 32) {e : Event}
    (hk : may dn up e) (hwr : e.writes) (h : s.next e = some t) : Content file B W t := by
  obtain ⟨hi, hl, hd⟩ := hc.toInv.carries hc.loaded hc.carries hB hW (hc.fits hlen (e := e)) hk h
  refine ⟨hi, hl, hd, ?_⟩
  cases e with
  | clientHear a wr io =>
    obtain ⟨⟨r, l⟩, ha, h⟩ := Option.bind_eq_some_iff.mp h
    obtain ⟨⟨c, out⟩, hst, rfl⟩ := Option.map_eq_some_iff.mp h
    obtain ⟨hs, ht⟩ := Client.step_cases hc.wf.client hst
    obtain rfl : wr = true := hwr
    refine ht.copied hc.copied hs hD ?_
    intro src p hr hok
    have hm := (Arrival.recv_ok hk (hr ▸ ha) hok).mem
    exact ⟨hc.carries _ hm, (hc.wf.toClient _ hm).2⟩
  | serverAct io =>
    obtain ⟨_, -, rfl⟩ := Option.map_eq_some_iff.mp h
    exact hc.copied
  | serverHear a io =>
    obtain ⟨_, -, h⟩ := Option.bind_eq_some_iff.mp h
    obtain ⟨_, -, rfl⟩ := Option.map_eq_some_iff.mp h
    exact hc.copied
  | loseDown i | dupDown i | loseUp i | dupUp i =>
    obtain rfl := Option.some.inj h
    exact hc.copied

theorem content_of_reach (hB : 0 < B.toNat) (hD : B.toNat ≤ pktDMax) (hW : 0 < W.toNat)
    (hlen : file.length + (W.toNat + 1) * B.toNat < 2 ^ 32)
    (h : (transfer file B W dn up).Reach s) : Content file B W s := by
  refine h.invariant (I := Content file B W) (fun _ h0 => Start.content h0)
    ?_
  intro _ _ _ _ hi hm hn
  exact hi.step hB hD hW hlen hm.1 hm.2 hn

/-- **Safety of the transfer.**  Whatever is lost, duplicated, delayed, reordered or damaged,
the output is the first `mvSequence * B` bytes of the file, or all of it; and it is the whole
file when the client is done. -/
theorem transfer_safe (file : List UInt8) (B W : UInt32) (hB : 0 < B.toNat)
    (hD : B.toNat ≤ pktDMax) (hW : 0 < W.toNat)
    (hlen : file.length + (W.toNat + 1) * B.toNat < 2 ^ 32) (s : Session)
    (h : (transfer file B W .free .free).Reach s) :
    s.client.mvTo = file.take (min file.length (s.client.mvSequence.toNat * B.toNat)) ∧
      (s.client.mvState = .done → s.client.mvTo = file) := by
  have hc := (content_of_reach hB hD hW hlen h).copied
  refine ⟨?_, hc.done⟩
  rw [hc.output, List.take_eq_take_min, Nat.min_comm]

end Session

namespace Session

local instance : Host := refHost [1, 2, 3]

/-- A first packet delivered twice does not show in the output. -/
theorem transfer_safe_dup :
    ∃ s, (transfer [1, 2, 3] 2 2 .free .free).Reach s ∧ s.client.mvState = .done ∧
      s.client.mvTo = [1, 2, 3] := by
  have h0 : (transfer [1, 2, 3] 2 2 .free .free).Reach (atStart [1, 2, 3] 2 2) :=
    .start (atStart_start [1, 2, 3] 2 2)
  obtain ⟨s, h, ht⟩ := h0.run_any (List.replicate 6 (.serverAct true) ++ .dupDown 0 ::
      List.replicate 3 (.clientHear (.take 0) true true))
    (fun s => decide (s.client.mvState = .done)) (by decide +kernel)
  have hs := of_decide_eq_true ht
  exact ⟨s, h, hs, (transfer_safe [1, 2, 3] 2 2 (by decide) (by decide) (by decide) (by decide)
    s h).2 hs⟩

end Session

end Fileserver
