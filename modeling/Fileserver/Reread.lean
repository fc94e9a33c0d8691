/-
# Reading the file again

A `REJ` below the window sends the child back in the file: it takes the number from the packet,
seeks to `mvBufferSize * mvSequence`, both 32 bits wide, and fills an empty window from there.
The file position itself is 64 bits wide and never wraps on the way forward.  So the two ways to
a packet, reading on and seeking, can come apart once `k * B` passes 2^32.

`anyPeer` is the data phase of one child for as long as its counter does not wrap, with no bound
on the file.  `reread_iff` says exactly when a refilled window holds the packets of its numbers;
`reach_waiting` shows how far a child can get.
-/
import Fileserver.Window

namespace Fileserver

open Proto

/-! ## 1. Blocks of a list -/

/-- Two lists agree on their first `W` blocks of `B` if they agree on each of them. -/
theorem take_mul_eq_iff {α : Type*} (l l' : List α) (B W : ℕ) :
    l.take (W * B) = l'.take (W * B) ↔
      ∀ j < W, (l.drop (j * B)).take B = (l'.drop (j * B)).take B := by
  constructor
  · intro h j hj
    have hle : j * B + B ≤ W * B := by
      rw [← Nat.succ_mul]
      exact Nat.mul_le_mul_right B hj
    have hblock (m : List α) :
        (m.drop (j * B)).take B = ((m.take (W * B)).drop (j * B)).take B := by
      rw [List.drop_take, List.take_take]
      congr 1
      omega
    rw [hblock l, hblock l', h]
  · intro h
    induction W with
    | zero => simp
    | succ W ih =>
      rw [Nat.succ_mul, List.take_add, List.take_add, ih fun j hj => h j (Nat.lt_succ_of_lt hj),
        h W (Nat.lt_succ_self W)]

namespace Server

variable [Host]

/-! ## 2. The child against any peer -/

/-- The data phase of one child against a peer that may send anything, for as long as the
counter does not wrap: fewer than 2^32 packets. -/
def anyPeer (file : List UInt8) (B W : UInt32) : System Server Event where
  start := DataStart file B W
  may s e := s.pushes e → s.mvSequence.toNat + 1 < 2 ^ 32
  next s e := (s.step e).map Prod.fst

/-- What holds of it wherever it reads. -/
structure AnyInv (file : List UInt8) (B W : UInt32) (s : Server) : Prop where
  phase : s.mvState = .error ∨ s.inData ∧ s.Numbered
  contents : s.mvFrom.contents = file
  bufferSize : s.mvBufferSize = B
  windowSize : s.mvWindowSize = W

/-- No turn changes what is in the file. -/
theorem Turn.contents {s t : Server} {e : Event} {out : Option Packet} (h : Turn s e t out) :
    t.mvFrom.contents = s.mvFrom.contents := by
  cases h <;> rfl

theorem anyPeer_inv {file : List UInt8} {B W : UInt32} {s : Server}
    (h : (anyPeer file B W).Reach s) : AnyInv file B W s := by
  refine h.invariant (I := AnyInv file B W) ?_ ?_
  · intro s h0
    exact ⟨.inr ⟨.inl h0.state, h0.numbered⟩, by rw [h0.file], h0.bufferSize, h0.windowSize⟩
  · intro s e t _ hi hm hn
    obtain ⟨⟨t', out⟩, hst, rfl⟩ := Option.map_eq_some_iff.mp hn
    rcases hi.phase with he | ⟨hd, hnum⟩
    · rw [step_error he] at hst
      exact absurd hst (by simp)
    · have ht := step_cases hd hst
      exact ⟨ht.numbered hnum hm, ht.contents.trans hi.contents, ht.sizes.1.trans hi.bufferSize,
        ht.sizes.2.trans hi.windowSize⟩

/-! ## 3. The refilled window -/

/-- `n` turns of the loop in `fillWindow`, in which every `read` succeeds. -/
def refill (n : ℕ) (s : Server) : Server := (fun v => v.fillWindow true)^[n] s

/-- The packet numbered `k + j` as it is read `j` blocks behind offset `q`. -/
def readAt (file : List UInt8) (B q k j : ℕ) : Packet :=
  datpkt (UInt32.ofNat (k + j)) ((file.drop (q + j * B)).take B)

/-- **What the loop reads.**  From an empty window, the counter at `k` and the file at offset
`q`, it puts in the blocks from `q` on, numbered from `k` on. -/
theorem refill_window {s : Server} {q k : ℕ} (hs : s.mvState = .fillWindow)
    (hw : s.mvWindow = []) (hk : s.mvSequence.toNat = k) (hf : StandsAt s.mvFrom q) {n : ℕ}
    (hn : n ≤ s.mvWindowSize.toNat) :
    (s.refill n).mvWindow =
      (List.range n).map (readAt s.mvFrom.contents s.mvBufferSize.toNat q k) := by
  -- what else the turns keep up
  suffices h : (s.refill n).mvState = .fillWindow ∧
      (s.refill n).mvWindow
        = (List.range n).map (readAt s.mvFrom.contents s.mvBufferSize.toNat q k) ∧
      (s.refill n).mvSequence = UInt32.ofNat (k + n) ∧
      StandsAt (s.refill n).mvFrom (q + n * s.mvBufferSize.toNat) ∧
      (s.refill n).mvFrom.contents = s.mvFrom.contents ∧
      (s.refill n).mvBufferSize = s.mvBufferSize ∧
      (s.refill n).mvWindowSize = s.mvWindowSize from h.2.1
  induction n with
  | zero =>
    refine ⟨hs, by simpa [refill] using hw, ?_, by simpa [refill] using hf, rfl, rfl, rfl⟩
    simp [refill, ← hk]
  | succ n ih =>
    obtain ⟨h1, h2, h3, h4, h5, h6, h7⟩ := ih (Nat.le_of_succ_le hn)
    have hstep : s.refill (n + 1) = (s.refill n).fillWindow true :=
      Function.iterate_succ_apply' ..
    have hlt : (s.refill n).mvWindow.length < (s.refill n).mvWindowSize.toNat := by
      rw [h2, h7, List.length_map, List.length_range]
      exact hn
    have hnext : (s.refill n).nextPacket
        = readAt s.mvFrom.contents s.mvBufferSize.toNat q k n := by
      rw [nextPacket, h3, h6, h4.ahead, h5, readAt]
    rw [hstep, fillWindow, if_pos hlt, if_pos rfl]
    refine ⟨h1, ?_, ?_, ?_, h5, h6, h7⟩
    · rw [h2, hnext, List.range_succ, List.map_append, List.map_singleton]
    · rw [h3, ← Nat.add_assoc]
      simp
    · rw [h6, Nat.succ_mul, ← Nat.add_assoc]
      exact h4.advance _

/-- **The window holds the packets `k`, `k + 1`, ..**, each with the bytes the file has from its
number times `B` on.  These are the bytes of the first sending too, unless the window was refilled
at a wrapped offset before that. -/
structure Rereads (file : List UInt8) (B W k : ℕ) (w : List Packet) : Prop where
  length : w.length = W
  packets : ∀ j p, w[j]? = some p →
    p.sequence.toNat = k + j ∧ p.size.toNat = (slice file B (k + j)).length ∧
      p.data.toList.take p.size.toNat = slice file B (k + j)

/-- A packet carries exactly the block it was built from. -/
theorem carries_iff {n : UInt32} {l m : List UInt8} (hl : l.length ≤ pktDMax) :
    ((datpkt n l).size.toNat = m.length ∧
      (datpkt n l).data.toList.take (datpkt n l).size.toNat = m) ↔ l = m := by
  have hsz : (datpkt n l).size.toNat = l.length :=
    toNat_datpkt_size n (lt_of_le_of_lt hl (by decide))
  have hdata : (datpkt n l).data.toList.take l.length = l := take_dataOf hl
  rw [hsz, hdata]
  constructor
  · exact And.right
  · rintro rfl
    exact ⟨rfl, rfl⟩

/-- Blocks from offset `q` on are the packets from number `k` on exactly if the bytes there are
those of the packets. -/
theorem rereads_iff {file : List UInt8} {B W q k : ℕ} (hD : B ≤ pktDMax) (hk : k + W ≤ 2 ^ 32) :
    Rereads file B W k ((List.range W).map (readAt file B q k)) ↔
      (file.drop q).take (W * B) = (file.drop (k * B)).take (W * B) := by
  rw [take_mul_eq_iff]
  have hget {j : ℕ} (hj : j < W) :
      ((List.range W).map (readAt file B q k))[j]? = some (readAt file B q k j) := by
    simp [hj]
  have hseq {j : ℕ} (hj : j < W) : (readAt file B q k j).sequence.toNat = k + j := by
    simp only [readAt, datpkt_sequence, UInt32.toNat_ofNat']
    exact Nat.mod_eq_of_lt (by omega)
  have hslice (j : ℕ) : slice file B (k + j) = ((file.drop (k * B)).drop (j * B)).take B := by
    rw [slice, List.drop_drop, Nat.add_mul]
  have hblock (j : ℕ) : (file.drop (q + j * B)).take B = ((file.drop q).drop (j * B)).take B := by
    rw [List.drop_drop]
  have hlen (j : ℕ) : ((file.drop (q + j * B)).take B).length ≤ pktDMax :=
    (List.length_take_le _ _).trans hD
  constructor
  · intro h j hj
    rw [← hslice, ← hblock]
    exact (carries_iff (hlen j)).mp (h.packets j _ (hget hj)).2
  · intro h
    refine ⟨by simp, ?_⟩
    intro j p hp
    have hj : j < W := by
      have := (List.getElem?_eq_some_iff.mp hp).1
      simpa using this
    obtain rfl := Option.some.inj (hp.symm.trans (hget hj))
    refine ⟨hseq hj, (carries_iff (hlen j)).mpr ?_⟩
    rw [hslice, hblock]
    exact h j hj

/-- The window behind a rewind and a refill. -/
theorem rewind_window {file : List UInt8} {B W : UInt32} {s : Server}
    (h : (anyPeer file B W).Reach s) {src : Addr} {buf : Packet} (hok : buf.ok = true)
    (ht : buf.type = pktTypeREJ) (hlt : buf.sequence < s.front.sequence) :
    (refill W.toNat (s.waitRR (.datagram src buf) true)).mvWindow =
      (List.range W.toNat).map
        (readAt file B.toNat (buf.sequence.toNat * B.toNat % 2 ^ 32) buf.sequence.toNat) := by
  have hi := anyPeer_inv h
  have hle : ¬ (s.mvWindow.headD Host.stale).sequence ≤ buf.sequence := UInt32.not_le.mpr hlt
  have hwait : s.waitRR (.datagram src buf) true =
      { s with
        mvRetries := pktTrnsMax, mvAddr := src, mvAddrLen := sizeofIn, mvSequence := buf.sequence
        mvFrom := s.mvFrom.lseek (s.mvBufferSize * buf.sequence)
        mvOutBuf := [], mvWindow := [], mvState := .fillWindow } := by
    simp only [waitRR, recvPacket, hok, waitPacket, front, ht, rej_ne_rr, hle, if_true, if_false]
  rw [hwait]
  have hpos : (s.mvFrom.lseek (s.mvBufferSize * buf.sequence)).pos
      = buf.sequence.toNat * B.toNat % 2 ^ 32 := by
    rw [File.lseek, hi.bufferSize, UInt32.toNat_mul, Nat.mul_comm]
  refine (refill_window rfl rfl rfl (.inl hpos) (hi.windowSize ▸ Nat.le_refl _)).trans ?_
  simp only [File.lseek, hi.contents, hi.bufferSize]

/-- The numbers of the refilled window stay below those of the old one. -/
theorem add_lt_of_waiting {file : List UInt8} {B W : UInt32} {s : Server}
    (h : (anyPeer file B W).Reach s) (hW : 0 < W.toNat) (hs : s.mvState = .waitRR) {q : UInt32}
    (hlt : q < s.front.sequence) : q.toNat + W.toNat ≤ 2 ^ 32 := by
  have hi := anyPeer_inv h
  rcases hi.phase with he | ⟨-, hn⟩
  · simp [hs] at he
  have hf := hn.front_eq (by rwa [hi.windowSize]) hs
  rw [hi.windowSize] at hf
  have hmax := s.mvSequence.toNat_lt
  rw [UInt32.lt_iff_toNat_lt] at hlt
  omega

/-! ## 4. When the two ways meet -/

omit [Host] in
/-- Below 2^32 the product is exact. -/
theorem same_bytes_of_lt {file : List UInt8} {B W k : ℕ} (h : k * B < 2 ^ 32) :
    (file.drop (k * B % 2 ^ 32)).take (W * B) = (file.drop (k * B)).take (W * B) := by
  rw [Nat.mod_eq_of_lt h]

/-- **What is first read is right**, and stays so in a run whose rewinds all seek to an offset that
32 bits hold. -/
theorem carries_of_reach {file : List UInt8} {B W : UInt32} {s : Server}
    (h : ((anyPeer file B W).under SeeksBelow).Reach s) {p : Packet}
    (hp : p ∈ s.mvWindow ∨ p ∈ s.mvOutBuf) : Carries file B.toNat p := by
  have hi : InPlace file B s := by
    refine h.invariant (I := InPlace file B) (fun _ h0 => (DataStart.loaded h0).toInPlace) ?_
    intro s e t hr hi hm hn
    obtain ⟨⟨t', out⟩, hst, rfl⟩ := Option.map_eq_some_iff.mp hn
    rcases (anyPeer_inv hr.of_under).phase with he | ⟨hd, -⟩
    · rw [step_error he] at hst
      exact absurd hst (by simp)
    · exact (step_cases hd hst).inPlace hi hm.1 hm.2
  exact hp.elim (hi.window p) (hi.outBuf p)

/-- **What is read again is the file from `k * B` on** exactly if the file holds the same bytes at
that offset and at what 32 bits leave of it, for the length of a window.  So it does whenever the
offset is below 2^32, and in a run in which it always is, every packet the child holds carries
the bytes of its number. -/
theorem reread_iff (file : List UInt8) (B W : UInt32) (hD : B.toNat ≤ pktDMax)
    (hW : 0 < W.toNat) :
    (∀ s, (anyPeer file B W).Reach s → s.mvState = .waitRR → ∀ src buf, buf.ok = true →
      buf.type = pktTypeREJ → buf.sequence < s.front.sequence →
        (Rereads file B.toNat W.toNat buf.sequence.toNat
          (refill W.toNat (s.waitRR (.datagram src buf) true)).mvWindow ↔
            (file.drop (buf.sequence.toNat * B.toNat % 2 ^ 32)).take (W.toNat * B.toNat)
              = (file.drop (buf.sequence.toNat * B.toNat)).take (W.toNat * B.toNat)) ∧
        (buf.sequence.toNat * B.toNat < 2 ^ 32 →
          Rereads file B.toNat W.toNat buf.sequence.toNat
            (refill W.toNat (s.waitRR (.datagram src buf) true)).mvWindow)) ∧
    (∀ s, ((anyPeer file B W).under SeeksBelow).Reach s → ∀ p, p ∈ s.mvWindow ∨ p ∈ s.mvOutBuf →
      p.size.toNat = (slice file B.toNat p.sequence.toNat).length ∧
        p.data.toList.take p.size.toNat = slice file B.toNat p.sequence.toNat) := by
  refine ⟨?_, ?_⟩
  · intro s h hs src buf hok ht hlt
    rw [rewind_window h hok ht hlt, rereads_iff hD (add_lt_of_waiting h hW hs hlt)]
    exact ⟨Iff.rfl, same_bytes_of_lt⟩
  · intro s h p hp
    have hc := carries_of_reach h hp
    exact ⟨hc.size hD, hc.data hD⟩

/-! ## 5. How far a child gets -/

/-- A child with a window of one packet, between two packets. -/
def between (file : List UInt8) (B : UInt32) (f : File) (q : UInt32) : Server :=
  { atStart file B 1 with mvFrom := f, mvSequence := q }

/-- The same child waiting for the reply to its packet. -/
def waiting (file : List UInt8) (B : UInt32) (f : File) (q : UInt32) : Server :=
  { between file B (f.advance B.toNat) (q + 1) with
    mvWindow := [(between file B f q).nextPacket], mvState := .waitRR }

theorem reach_waiting_of_between {file : List UInt8} {B : UInt32} {f : File} {q : UInt32}
    (hq : q.toNat + 1 < 2 ^ 32) (h : (anyPeer file B 1).Reach (between file B f q)) :
    (anyPeer file B 1).Reach (waiting file B f q) := by
  have hno {s : Server} (hs : s.mvState ≠ .fillWindow ∨ s.mvWindowSize.toNat ≤ s.mvWindow.length) :
      (anyPeer file B 1).may s (.act true) := by
    rintro ⟨-, h1, h2⟩
    rcases hs with hs | hs
    · exact absurd h1 hs
    · omega
  have h1 := h.step (e := .act true) (fun _ => hq) rfl
  have h2 := h1.step (e := .act true) (hno (.inr (Nat.le_refl _))) rfl
  have hsend : State.sendWindow ≠ .fillWindow := by decide
  have h3 := h2.step (e := .act true) (hno (.inl hsend)) rfl
  exact h3.step (e := .act true) (hno (.inl hsend)) rfl

/-- **Every number short of the wrap is waited for in some run.** -/
theorem reach_waiting (file : List UInt8) (B : UInt32) (n : ℕ) (hn : n + 1 < 2 ^ 32) :
    ∃ s, (anyPeer file B 1).Reach s ∧ s.mvState = .waitRR ∧ s.front.sequence.toNat = n := by
  suffices h : ∃ f q, (anyPeer file B 1).Reach (between file B f q) ∧ q.toNat = n by
    obtain ⟨f, q, hr, hq⟩ := h
    exact ⟨waiting file B f q, reach_waiting_of_between (by omega) hr, rfl, hq⟩
  induction n with
  | zero => exact ⟨⟨file, 0⟩, 0, .start (atStart_dataStart file B 1), rfl⟩
  | succ n ih =>
    obtain ⟨f, q, hr, hq⟩ := ih (by omega)
    refine ⟨f.advance B.toNat, q + 1, ?_, ?_⟩
    · refine (reach_waiting_of_between (by omega) hr).step
        (e := .hear (.datagram ⟨2, 9⟩ (rrpkt q)) true) (fun hp => absurd hp.1 (by simp)) ?_
      simp [anyPeer, step, waiting, between, atStart, running, receives, hear, waitRR, recvPacket,
        waitPacket, front, nextPacket, shift, pktTrnsMax]
    · rw [UInt32.toNat_add, UInt32.toNat_one, hq]
      exact Nat.mod_eq_of_lt (by omega)

end Server

end Fileserver

namespace Fileserver.Server

open Proto

local instance rereadHost : Host := refHost []

/-- A file of `n` zeros and a one: what stands at its start and what at offset `n`. -/
theorem zeros_drop (n : ℕ) :
    ((List.replicate n 0 ++ [1] : List UInt8).drop n).take 2 = [1] := by
  rw [List.drop_left' List.length_replicate]
  rfl

theorem zeros_take {n : ℕ} (hn : 2 ≤ n) :
    ((List.replicate n 0 ++ [1] : List UInt8).drop 0).take 2 = [0, 0] := by
  rw [List.drop_zero, List.take_append_of_le_length (by simpa using hn), List.take_replicate,
    Nat.min_eq_left hn]
  rfl

/-- **Behind the first four gigabytes** the child reads the start of the file again: in packets of
two bytes, a `REJ` for packet 2^31 sends it to offset 0. -/
theorem not_reread :
    ¬ ∀ (file : List UInt8) (B W : UInt32), 1 ≤ B.toNat → B.toNat ≤ pktDMax → 1 ≤ W.toNat →
      ∀ s, (anyPeer file B W).Reach s → s.mvState = .waitRR → ∀ src buf, buf.ok = true →
        buf.type = pktTypeREJ → buf.sequence < s.front.sequence →
          Rereads file B.toNat W.toNat buf.sequence.toNat
            (refill W.toNat (s.waitRR (.datagram src buf) true)).mvWindow := by
  intro hall
  let file : List UInt8 := List.replicate (2 ^ 32) 0 ++ [1]
  obtain ⟨s, h, hs, hf⟩ := reach_waiting file 2 (2 ^ 31 + 1) (by decide)
  have hk : (rejpkt 0x80000000).sequence.toNat = 2 ^ 31 := rfl
  have hlt : (rejpkt 0x80000000).sequence < s.front.sequence := by
    rw [UInt32.lt_iff_toNat_lt, hf, hk]
    decide
  have hr := hall file 2 1 (by decide) (by decide) (by decide) s h hs ⟨2, 9⟩ (rejpkt 0x80000000)
    (rejpkt_ok _) (rejpkt_type _) hlt
  rw [rewind_window h (rejpkt_ok _) (rejpkt_type _) hlt, rereads_iff (by decide)
    (add_lt_of_waiting h (by decide) hs hlt), hk] at hr
  have h0 : 2 ^ 31 * (2 : UInt32).toNat % 2 ^ 32 = 0 := by decide
  have h32 : 2 ^ 31 * (2 : UInt32).toNat = 2 ^ 32 := by decide
  have hB : (1 : UInt32).toNat * (2 : UInt32).toNat = 2 := by decide
  rw [h0, h32, hB, zeros_take (by decide), zeros_drop] at hr
  exact absurd hr (by decide)

/-- One packet back, far below 2^32. -/
theorem reread_back :
    ∃ s, (anyPeer [1, 2, 3] 2 1).Reach s ∧ s.mvState = .waitRR ∧
      Rereads [1, 2, 3] 2 1 0
        (refill 1 (s.waitRR (.datagram ⟨2, 9⟩ (rejpkt 0)) true)).mvWindow := by
  obtain ⟨s, h, hs, hf⟩ := reach_waiting [1, 2, 3] 2 1 (by decide)
  have hlt : (rejpkt 0).sequence < s.front.sequence := by
    rw [UInt32.lt_iff_toNat_lt, hf]
    decide
  exact ⟨s, h, hs, ((reread_iff [1, 2, 3] 2 1 (by decide) (by decide)).1 s h hs ⟨2, 9⟩ (rejpkt 0)
    (rejpkt_ok _) (rejpkt_type _) hlt).2 (by decide)⟩

end Fileserver.Server
