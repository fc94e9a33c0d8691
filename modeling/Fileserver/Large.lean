/-
# Files beyond four gigabytes

The child works out in 32 bits where to seek, so in a large file it may not find the way back.
But it seeks only to go back, and on the way forward the file position, which is 64 bits wide,
takes care of itself.  So where replies keep their order and nothing is read again, a file may be
as large as the numbers of its packets allow (`large_file`): in packets of `PKT_DMAX` bytes that is
some thousand times the 4 GiB up to which the transfer is safe over any links.

`Placed` is the invariant of a transfer without the bound on the offsets, and `SeeksBelow` what its
steps need instead.
-/
import Fileserver.Recovery

namespace Fileserver.Session

open Proto

variable [Host]

/-! ## 1. Without the bound on the offsets -/

/-- The sizes are in range, and there are numbers for all packets. -/
structure Numberable (file : List UInt8) (B W : UInt32) : Prop where
  pos : 0 < B.toNat
  fits : B.toNat ≤ pktDMax
  window : 0 < W.toNat
  packets : file.length / B.toNat + W.toNat + 1 < 2 ^ 32

/-- The numbers, and the bytes on the child, in flight and on the client. -/
structure Placed (file : List UInt8) (B W : UInt32) (s : Session) : Prop extends
    Inv W.toNat s where
  inPlace : Server.InPlace file B s.server
  carries : ∀ d ∈ s.toClient, Server.Carries file B.toNat d.pkt
  copied : Client.Copied file B s.client

/-- If the child goes back in this step, then to an offset that 32 bits hold. -/
def SeeksBelow (s : Session) : Event → Prop
  | .serverHear a io =>
    ∀ r l, a.recv s.toServer = some (r, l) → s.server.SeeksBelow (.hear r io)
  | _ => True

variable {file : List UInt8} {B W : UInt32} {dn up : Link} {s t : Session}

theorem Start.placed (h : Start file B W s) : Placed file B W s :=
  ⟨h.inv, h.server.loaded.toInPlace, h.content.carries, h.content.copied⟩

/-- The client counts one packet more than there are full ones at most. -/
theorem Placed.cursor_le (hz : Numberable file B W) (hp : Placed file B W s) :
    s.client.mvSequence.toNat ≤ file.length / B.toNat + 1 := by
  rw [← Nat.add_div_right _ hz.pos]
  exact (Nat.le_div_iff_mul_le hz.pos).mpr hp.copied.bound

/-- The next packet the child builds has a number: it is at most a window ahead of the client. -/
theorem Placed.counts (hz : Numberable file B W) (hp : Placed file B W s) {e : Event}
    (he : s.pushes e) : s.server.mvSequence.toNat + 1 < 2 ^ 32 := by
  cases e with
  | serverAct io =>
    obtain ⟨-, hs, hlt⟩ := he
    rcases hp.wf.phase with he | ⟨-, hn⟩
    · simp [he] at hs
    have hlow := hn.consec.lowestOf
    have hle := hn.consec.le
    have hbase : s.server.lowest ≤ s.client.mvSequence.toNat := hp.numbers.base_le
    have hwin := hp.wf.windowSize
    have hcl := hp.cursor_le hz
    have hpackets := hz.packets
    simp only [Server.lowest] at hbase
    omega
  | _ => exact he.elim

/-- What the child holds and what it sends, after a turn. -/
theorem Placed.childTurn (hp : Placed file B W s) {ev : Server.Event} {v : Server}
    {out : Option Packet} (h : s.server.step ev = some (v, out))
    (hq : s.server.pushes ev → s.server.mvSequence.toNat + 1 < 2 ^ 32)
    (hr : s.server.SeeksBelow ev) (l : List Datagram) :
    Server.InPlace file B v ∧
      ∀ d ∈ (s.afterServer l v out).toClient, Server.Carries file B.toNat d.pkt := by
  rcases hp.wf.phase with he | ⟨hd, -⟩
  · simp [Server.step_error he] at h
  have ht := Server.step_cases hd h
  refine ⟨ht.inPlace hp.inPlace hq hr, ?_⟩
  intro d hd
  rcases List.mem_append.mp hd with hd | hd
  · exact hp.carries d hd
  · obtain ⟨p, ho, rfl⟩ := List.mem_map.mp hd
    obtain rfl := Option.mem_toList.mp ho
    exact hp.inPlace.outBuf p ht.out_mem

/-- **Every step keeps the bytes right**, whatever the links do, if the child does not go back
too far. -/
theorem Placed.step (hz : Numberable file B W) (hp : Placed file B W s) {e : Event}
    (hk : may dn up e) (hwr : e.writes) (hr : s.SeeksBelow e) (h : s.next e = some t) :
    Placed file B W t := by
  have hq := hp.counts hz (e := e)
  have hi : Inv W.toNat t := hp.toInv.step hz.window hk hq h
  cases e with
  | serverAct io =>
    obtain ⟨⟨v, out⟩, hst, rfl⟩ := Option.map_eq_some_iff.mp h
    obtain ⟨hv, hd⟩ := hp.childTurn hst hq trivial s.toServer
    exact ⟨hi, hv, hd, hp.copied⟩
  | serverHear a io =>
    obtain ⟨⟨r, l⟩, ha, h⟩ := Option.bind_eq_some_iff.mp h
    obtain ⟨⟨v, out⟩, hst, rfl⟩ := Option.map_eq_some_iff.mp h
    obtain ⟨hv, hd⟩ := hp.childTurn hst (by simp [Server.pushes]) (hr r l ha) l
    exact ⟨hi, hv, hd, hp.copied⟩
  | clientHear a wr io =>
    obtain ⟨⟨r, l⟩, ha, h⟩ := Option.bind_eq_some_iff.mp h
    obtain ⟨⟨c, out⟩, hst, rfl⟩ := Option.map_eq_some_iff.mp h
    obtain ⟨hs, ht⟩ := Client.step_cases hp.wf.client hst
    obtain rfl : wr = true := hwr
    refine ⟨hi, hp.inPlace, fun d hd => hp.carries d ((Arrival.recv_shed hk ha).sub hd), ?_⟩
    refine ht.copied hp.copied hs hz.fits ?_
    intro src p he hok
    have hm := (Arrival.recv_ok hk (he ▸ ha) hok).mem
    exact ⟨hp.carries _ hm, (hp.wf.toClient _ hm).2⟩
  | loseDown i =>
    obtain rfl := Option.some.inj h
    exact ⟨hi, hp.inPlace, fun d hd => hp.carries d (List.mem_of_mem_eraseIdx hd), hp.copied⟩
  | dupDown i =>
    obtain rfl := Option.some.inj h
    exact ⟨hi, hp.inPlace, fun d hd => hp.carries d (Link.mem_of_mem_dup hd), hp.copied⟩
  | loseUp i | dupUp i =>
    obtain rfl := Option.some.inj h
    exact ⟨hi, hp.inPlace, hp.carries, hp.copied⟩

/-! ## 2. Where replies keep their order -/

/-- A waiting child that only hears of numbers at or behind the front of its window does not go
back. -/
theorem not_rewinds (hi : Inv W.toNat s) (hW : 0 < W.toNat)
    (hb : ∀ n, .rej n ∈ (abs s).up → (abs s).base ≤ n) {a : Arrival} {r : Recv}
    {l : List Datagram} (hk : a.allowed up) (ha : a.recv s.toServer = some (r, l))
    (hs : s.server.mvState = .waitRR) : ¬ s.server.Rewinds r := by
  cases r with
  | timeout | failed => exact id
  | datagram src buf =>
    rintro ⟨hok, ht, hlt⟩
    rcases hi.wf.phase with he | ⟨-, hn⟩
    · simp [hs] at he
    have hf := (hn.front_eq (by rwa [hi.wf.windowSize]) hs).1
    have hmem : reply ⟨src, buf⟩ ∈ (abs s).up :=
      List.mem_map_of_mem (Arrival.recv_ok hk ha hok).mem
    have hrep : reply ⟨src, buf⟩ = .rej buf.sequence.toNat := by simp [reply, ht, num]
    have hbase : s.server.lowest ≤ buf.sequence.toNat := hb _ (hrep ▸ hmem)
    rw [UInt32.lt_iff_toNat_lt] at hlt
    omega

theorem seeksBelow_of_base_le (hi : Inv W.toNat s) (hW : 0 < W.toNat) {e : Event}
    (hb : ∀ n, .rej n ∈ (abs s).up → (abs s).base ≤ n) (hk : may dn up e) : s.SeeksBelow e := by
  cases e with
  | serverHear a io =>
    intro r l ha
    cases r with
    | timeout | failed => trivial
    | datagram src buf => exact fun hs hr => absurd hr (not_rewinds hi hW hb hk ha hs)
  | _ => trivial

/-- The bytes are right and the replies in order. -/
structure Lined (file : List UInt8) (B W : UInt32) (s : Session) : Prop extends
    Placed file B W s where
  ordered : GoBackN.Ordered (abs s)

theorem Start.lined (h : Start file B W s) : Lined file B W s := by
  refine ⟨h.placed, ?_⟩
  constructor <;> simp [abs, h.toServer]

/-- **Where replies keep their order, every step keeps the bytes right.** -/
theorem Lined.step (hz : Numberable file B W) (hr : up.reorders = false)
    (hd : up.duplicates = false) (h : Lined file B W s) {e : Event}
    (hm : (transfer file B W dn up).may s e) (hn : s.next e = some t) : Lined file B W t := by
  obtain ⟨hk, hwr⟩ := hm
  have hsb := seeksBelow_of_base_le h.toInv hz.window h.ordered.base_le hk
  obtain ⟨-, hg⟩ := refines hz.window h.wf hk (h.counts hz) hn
  exact ⟨h.toPlaced.step hz hk hwr hsb hn,
    h.ordered.step hr hd h.numbers (hg.imp_right And.right)⟩

theorem lined_of_reach (hz : Numberable file B W) (hr : up.reorders = false)
    (hd : up.duplicates = false) (h : (transfer file B W dn up).Reach s) : Lined file B W s := by
  refine h.invariant (I := Lined file B W) (fun _ h0 => Start.lined h0) ?_
  intro s e t _ hi hm hn
  exact hi.step hz hr hd hm hn

/-! ## 3. When nothing goes wrong -/

/-- Everything is in line and both sides are running. -/
structure Steady (file : List UInt8) (B W : UInt32) (s : Session) : Prop extends
    Placed file B W s where
  smooth : GoBackN.Smooth W.toNat (abs s)
  server : 0 < s.server.mvRetries
  client : 0 < s.client.mvRetries

/-- With acknowledgements only in flight the child goes nowhere. -/
theorem seeksBelow_of_rrs (hi : Inv W.toNat s) (hW : 0 < W.toNat) {l : List ℕ}
    (hu : (abs s).up = l.map .rr) {e : Event} (hk : may dn up e) : s.SeeksBelow e := by
  refine seeksBelow_of_base_le hi hW ?_ hk
  intro n hn
  rw [hu] at hn
  simp at hn

/-- **A quiet step** ends the transfer, or keeps it steady and brings it closer to the end. -/
theorem Steady.step (hz : Numberable file B W) (hc : Steady file B W s)
    (hm : (calm file B W).Move s t) :
    (t.client.mvState = .done ∧ t.client.mvTo = file) ∨
      (Steady file B W t ∧ GoBackN.left W.toNat (file.length / B.toNat) (abs t)
        < GoBackN.left W.toNat (file.length / B.toNat) (abs s)) := by
  obtain ⟨e, ⟨⟨hk, hwr⟩, hq⟩, h⟩ := hm
  have hcs : s.client.mvState = .recvPackets := by simpa [abs] using hc.smooth.opened
  have hsb := seeksBelow_of_rrs hc.toInv hz.window hc.smooth.up_eq hk
  have ht := hc.toPlaced.step hz hk hwr hsb h
  obtain ⟨hs, hr, hst⟩ := quiet_retries hc.wf hcs hk hq h hc.server hc.client
  rcases hst with hst | hst
  · have hg : GoBackN.Good W.toNat .perfect .perfect (abs s) (abs t) :=
      ((refines hz.window hc.wf hk (hc.counts hz) h).2).resolve_right (by simp [hq])
    have hopen : (abs t).closed = false := by simp [abs, hst]
    have hlast : (abs t).cursor ≤ file.length / B.toNat :=
      (Nat.le_div_iff_mul_le hz.pos).mpr (ht.copied.within hst)
    exact .inr ⟨⟨ht, hc.smooth.step hg hopen, hs, hr⟩, hc.smooth.step_lt hg hopen hlast⟩
  · exact .inl ⟨hst, ht.copied.done hst⟩

/-- It is never stuck: the child has something to do, or something is in flight. -/
theorem Steady.progress (hz : Numberable file B W) (hc : Steady file B W s) :
    ∃ t, (calm file B W).Move s t := by
  have hcs : s.client.mvState = .recvPackets := by simpa [abs] using hc.smooth.opened
  have hact (hs : s.server.mvState = .fillWindow ∨ s.server.mvState = .sendWindow) :
      ∃ t, (calm file B W).Move s t := by
    refine System.exists_move (.serverAct true) ⟨⟨trivial, trivial⟩, rfl⟩ ?_
    rcases hs with hs | hs <;> simp [calm, System.under, transfer, next, Server.step,
      Server.running, Server.receives, hs, hc.server]
  rcases hc.wf.phase with he | ⟨hst | hst | hst, -⟩
  · exact absurd (by simp [abs, mode, he]) hc.smooth.live
  · exact hact (.inl hst)
  · exact hact (.inr hst)
  · rcases hc.smooth.waiting hz.window (by simp [abs, mode, hst]) with hu | hd
    · have hup : s.toServer ≠ [] := by simpa [abs] using hu
      obtain ⟨d, l, hl⟩ := List.exists_cons_of_ne_nil hup
      refine System.exists_move (.serverHear (.take 0) true) ⟨⟨.inr rfl, trivial⟩, rfl⟩ ?_
      simp [calm, System.under, transfer, next, Arrival.recv, hl, Server.step, Server.running,
        Server.receives, hst, hc.server]
    · have hdown : s.toClient ≠ [] := by simpa [abs] using hd
      obtain ⟨d, l, hl⟩ := List.exists_cons_of_ne_nil hdown
      refine System.exists_move (.clientHear (.take 0) true true) ⟨⟨.inr rfl, rfl⟩, rfl⟩ ?_
      simp [calm, System.under, transfer, next, Arrival.recv, hl, Client.step, Client.running,
        Client.receives, hcs, hc.client]

theorem Steady.inevitable (hz : Numberable file B W) (hc : Steady file B W s) :
    (calm file B W).Inevitable (fun t => t.client.mvState = .done ∧ t.client.mvTo = file) s :=
  System.Inevitable.of_measure (I := Steady file B W)
    (fun s => GoBackN.left W.toNat (file.length / B.toNat) (abs s))
    (fun _ hs _ => hs.progress hz) (fun _ _ hs _ hm => hs.step hz hm) hc

theorem Start.steady (h : Start file B W s) (hv : 0 < s.server.mvRetries)
    (hc : 0 < s.client.mvRetries) : Steady file B W s where
  toPlaced := h.placed
  smooth := by
    refine ⟨h.inv.numbers, ?_, ?_, ?_, ?_, ?_, ?_⟩ <;> simp [abs, mode, Server.lowest, lowestOf,
      GoBackN.State.head, h.server.state, h.server.sequence, h.server.window, h.server.outBuf,
      h.sequence, h.state, h.toClient, h.toServer]
  server := hv
  client := hc

/-! ## 4. Large files -/

/-- **Large files.**  With fewer than 2^32 packets, and where the client's replies may be lost but
keep their order, the output is at every moment the part of the file the client's counter stands
for, and all of it once the client is done, whatever the links do to the data.  If nothing goes
wrong the client gets there in every run. -/
theorem large_file (file : List UInt8) (B W : UInt32) (hz : Numberable file B W) :
    (∀ dn up, up.reorders = false → up.duplicates = false →
      ∀ s, (transfer file B W dn up).Reach s →
        s.client.mvTo = file.take (s.client.mvSequence.toNat * B.toNat) ∧
          (s.client.mvState = .recvPackets →
            s.client.mvSequence.toNat * B.toNat ≤ file.length) ∧
          (s.client.mvState = .done → s.client.mvTo = file)) ∧
    ∀ s, Start file B W s → 0 < s.server.mvRetries → 0 < s.client.mvRetries →
      (calm file B W).Inevitable (fun t => t.client.mvState = .done ∧ t.client.mvTo = file) s := by
  refine ⟨?_, fun s h hv hc => (h.steady hv hc).inevitable hz⟩
  intro dn up hr hd s h
  have hc := (lined_of_reach hz hr hd h).copied
  exact ⟨hc.output, hc.within, hc.done⟩

end Fileserver.Session

namespace Fileserver.Session

open Proto

local instance largeHost : Host := refHost []

/-- Eight gigabytes arrive, in packets of 1400 bytes, of which the client has counted as many as it
takes. -/
theorem large_file_eight :
    ∃ file s, file.length = 2 ^ 33 ∧ (transfer file 1400 10 .perfect .perfect).Reach s ∧
      s.client.mvTo = file ∧ 2 ^ 33 ≤ s.client.mvSequence.toNat * 1400 := by
  obtain ⟨file, hlen⟩ : ∃ file : List UInt8, file.length = 2 ^ 33 :=
    ⟨List.replicate (2 ^ 33) 0, List.length_replicate⟩
  have hz : Numberable file 1400 10 := by
    refine ⟨by decide, by decide, by decide, ?_⟩
    rw [hlen]
    decide
  obtain ⟨hsafe, hends⟩ := large_file file 1400 10 hz
  have hten : (0 : Int) < pktTrnsMax := by decide
  have h0 := atStart_start file 1400 10
  obtain ⟨s, hr, -, hto⟩ := (hends _ h0 hten hten).reached (.start h0)
  have hreach : (transfer file 1400 10 .perfect .perfect).Reach s := hr.of_under
  refine ⟨file, s, hlen, hreach, hto, ?_⟩
  obtain ⟨hout, -⟩ := hsafe .perfect .perfect rfl rfl s hreach
  have hl := congrArg List.length (hto.symm.trans hout)
  rw [List.length_take, hlen] at hl
  have h1400 : (1400 : UInt32).toNat = 1400 := rfl
  rw [h1400] at hl
  omega

end Fileserver.Session
