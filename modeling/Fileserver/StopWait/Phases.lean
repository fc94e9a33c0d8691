/-
# The phases of `client_comm`

Before the first packet the server has nothing to send (`Asking`); with the file name it sends
one acknowledgement and opens the file (`Opening`); from then on it holds the data packet of its
current number (`Sending`), in `outpkt` or, while a retransmission request of its own is out, in
`tpkt`.

A `PKT_TYPE_RET` for another number is where this can fail.  The file is read at the place of
the number requested, but the packet is given the current one (`Misnumbers`).
-/
import Fileserver.StopWait.Comm

namespace Fileserver.StopWait

/-- The `n`-th packet of a file: its number, in 32 bits, and its bytes. -/
structure Carries [Host] (contents : List UInt8) (B : UInt32) (n : ℕ) (p : Packet) : Prop where
  type : p.type = pktTypeDAT
  number : ntohl p.sequence = UInt32.ofNat n
  bytes : p.bytes p.size.toNat = slice contents B.toNat n

theorem fileToPacket_bytes [Host] {f : File} {s B : UInt32} {buf : Packet}
    (hB : B.toNat ≤ pktDMax) :
    (fileToPacket f s B buf).bytes (fileToPacket f s B buf).size.toNat = f.ahead B.toNat := by
  have hl : (f.ahead B.toNat).length ≤ pktDMax := by
    rw [f.length_ahead]
    exact (Nat.min_le_left _ _).trans hB
  have hsz : (fileToPacket f s B buf).size.toNat = (f.ahead B.toNat).length := by
    simp only [fileToPacket, Packet.sealed_size, UInt16.toNat_ofNat']
    exact Nat.mod_eq_of_lt (lt_of_le_of_lt hl (by decide))
  rw [hsz, Packet.bytes_of_le _ hl]
  exact take_readInto hl

theorem fileToPacket_carries [Host] {contents : List UInt8} {f : File} {B : UInt32} {n : ℕ}
    {buf : Packet} (hB : B.toNat ≤ pktDMax)
    (hf : f.ahead B.toNat = slice contents B.toNat n) :
    Carries contents B n (fileToPacket f (UInt32.ofNat n) B buf) where
  type := rfl
  number := by simp [fileToPacket]
  bytes := (fileToPacket_bytes hB).trans hf

/-- The counted bytes of the packets up to this one. -/
theorem min_add_length_slice {contents : List UInt8} {B s : ℕ}
    (h : slice contents B s ≠ []) :
    min (s * B) contents.length + (slice contents B s).length =
      min ((s + 1) * B) contents.length := by
  have hl := length_slice contents B s
  have hpos := List.length_pos_iff.mpr h
  rw [Nat.succ_mul] at hl ⊢
  omega

namespace Comm

/-! ## 1. The packet that is out -/

/-- The packet the peer is to answer: `outpkt`, or the one parked behind a request. -/
def outstanding (c : Comm) : Packet :=
  if c.outpkt.type = pktTypeRET then c.tpkt else c.outpkt

theorem outstanding_of_ne {c : Comm} (h : c.outpkt.type ≠ pktTypeRET) : c.outstanding = c.outpkt :=
  if_neg h

theorem outstanding_of_data {c : Comm} (h : c.outpkt.type = pktTypeDAT) :
    c.outstanding = c.outpkt := by
  refine outstanding_of_ne ?_
  rw [h]
  decide

/-- Sending touches three bits. -/
theorem transmit_eq (c : Comm) : ∃ r a, c.transmit.1 =
    { c with status := { c.status with transmit := false, receive := r, expectAck := a } } := by
  unfold transmit
  by_cases ht : c.status.transmit = true
  · split_ifs
    · exact ⟨true, true, rfl⟩
    · exact ⟨true, c.status.expectAck, rfl⟩
    · exact ⟨false, c.status.expectAck, rfl⟩
  · refine ⟨c.status.receive, c.status.expectAck, ?_⟩
    rw [if_neg ht]
    have : c.status.transmit = false := by simpa using ht
    rw [← this]

@[simp] theorem transmit_sequence (c : Comm) : c.transmit.1.sequence = c.sequence := by
  obtain ⟨r, a, h⟩ := c.transmit_eq
  rw [h]

@[simp] theorem transmit_bufsz (c : Comm) : c.transmit.1.bufsz = c.bufsz := by
  obtain ⟨r, a, h⟩ := c.transmit_eq
  rw [h]

/-- What is sent is `outpkt`. -/
theorem transmit_out {c : Comm} {p : Packet} (h : c.transmit.2 = some p) :
    c.status.transmit = true ∧ p = c.outpkt := by
  unfold transmit at h
  split_ifs at h with ht
  all_goals exact ⟨ht, (Option.some.inj h).symm⟩

/-! ## 2. The phases -/

/-- Nothing but requests for the file name can be sent. -/
structure Asking (c : Comm) : Prop where
  info : c.status.expectInfo = true
  fd : c.fromfd = none
  retransmit : c.status.retransmit = false
  sequence : c.sequence = 0
  offset : c.offset = 0
  held : c.outstanding.type = 0

/-- The file name has come, and its acknowledgement is prepared. -/
structure Opening (c : Comm) : Prop where
  info : c.status.expectInfo = false
  init : c.status.infoInit = true
  retransmit : c.status.retransmit = false
  sequence : c.sequence = 0
  offset : c.offset = 0
  size : 1 ≤ c.bufsz.toNat ∧ c.bufsz.toNat ≤ pktDMax
  held : c.outpkt.type = pktTypeACK

variable [Host]

/-- The file is open, with these contents. -/
structure Opened (contents : List UInt8) (f : File) (c : Comm) : Prop where
  info : c.status.expectInfo = false
  init : c.status.infoInit = false
  named : Host.file c.fromname = some contents
  fd : c.fromfd = some f
  holds : f.contents = contents
  size : 1 ≤ c.bufsz.toNat ∧ c.bufsz.toNat ≤ pktDMax

/-- The `n`-th data packet is out.  Short of a retransmission the file stands behind it;
`offset` always does. -/
structure Sending (contents : List UInt8) (f : File) (n : ℕ) (c : Comm) : Prop extends
    Opened contents f c where
  number : c.sequence = UInt32.ofNat n
  still : c.status.nextdata = false
  held : Carries contents c.bufsz n c.outstanding
  offset : c.offset = UInt32.ofNat (min ((n + 1) * c.bufsz.toNat) contents.length)
  stands : c.status.retransmit = false → AtNumber f c.bufsz.toNat (n + 1)

/-- The file is about to be read for the `n`-th packet. -/
structure Reading (contents : List UInt8) (f : File) (n : ℕ) (c : Comm) : Prop extends
    Opened contents f c where
  number : c.sequence = UInt32.ofNat n
  wants : c.status.nextdata = true
  bytes : f.ahead c.bufsz.toNat ≠ [] →
    f.ahead c.bufsz.toNat = slice contents c.bufsz.toNat n
  first : c.status.retransmit = false → AtNumber f c.bufsz.toNat n ∧
    c.offset = UInt32.ofNat (min (n * c.bufsz.toNat) contents.length)
  again : c.status.retransmit = true →
    c.offset = UInt32.ofNat (min ((n + 1) * c.bufsz.toNat) contents.length)

/-- Where the server is, as long as its counter does not wrap. -/
inductive Phase (c : Comm) : Prop
  | asking (h : Asking c)
  | opening (h : Opening c) (ht : c.status.transmit = true)
  | sending {contents : List UInt8} {f : File} {n : ℕ} (hn : n < 2 ^ 32)
      (h : Sending contents f n c)
  | finished (h : c.status.quit = true ∨ c.returned ≠ none)

omit [Host] in
/-- A finished server takes no more iterations before it returns. -/
theorem leaves_of_finished {c : Comm} (h : c.status.quit = true ∨ c.returned ≠ none)
    (hret : c.returned = none) : c.leaves = true := by
  have hq : c.status.quit = true := h.resolve_right fun hne => hne hret
  simp [leaves, hq]

theorem fails_finished {c : Comm} : Phase c.fails := .finished (.inr (by simp [fails]))

/-- What handling the files leaves alone, and what it puts out. -/
structure Kept (c d : Comm) : Prop where
  expectAck : d.status.expectAck = c.status.expectAck
  tpkt : d.tpkt = c.tpkt
  outpkt : d.outpkt = c.outpkt ∨ d.outpkt.type = pktTypeDAT

theorem nextData_kept (c : Comm) (io : Calls) : Kept c (c.nextData io) := by
  unfold nextData
  split
  · cases c.fromfd with
    | none => exact ⟨rfl, rfl, .inl rfl⟩
    | some f =>
      dsimp only
      split
      · exact ⟨rfl, rfl, .inr rfl⟩
      · exact ⟨rfl, rfl, .inl rfl⟩
  · exact ⟨rfl, rfl, .inl rfl⟩

theorem files_kept (c : Comm) (io : Calls) : Kept c (c.files io) := by
  unfold files
  split
  · exact ⟨rfl, rfl, .inl rfl⟩
  · split
    · cases Host.file c.fromname with
      | none => exact ⟨rfl, rfl, .inl rfl⟩
      | some contents =>
        dsimp only
        split
        · exact { nextData_kept _ io with }
        · exact ⟨rfl, rfl, .inl rfl⟩
    · exact nextData_kept c io

/-! ## 3. What each part of an iteration does to them -/

section Parts

variable {contents : List UInt8} {f : File} {n : ℕ} {c : Comm} {io : Calls}

omit [Host] in
theorem Asking.transmit (h : Asking c) : Asking c.transmit.1 := by
  obtain ⟨r, a, ht⟩ := c.transmit_eq
  rw [ht]
  exact { h with }

theorem Sending.transmit (h : Sending contents f n c) : Sending contents f n c.transmit.1 := by
  obtain ⟨r, a, ht⟩ := c.transmit_eq
  rw [ht]
  exact { h with }

theorem Asking.files (h : Asking c) : c.files io = c := by
  rw [Comm.files, if_pos h.info]

theorem Opened.files (h : Opened contents f c) : c.files io = c.nextData io := by
  simp [Comm.files, h.info, h.init]

theorem Sending.files (h : Sending contents f n c) : c.files io = c := by
  rw [h.toOpened.files, nextData, if_neg (by simp [h.still])]

/-- **The read**, short of the end of the file, prepares the packet of the current number. -/
theorem Reading.read (h : Reading contents f n c) (hr : io.reads = true)
    (hnil : f.ahead c.bufsz.toNat ≠ []) :
    Sending contents (f.advance c.bufsz.toNat) n (c.nextData io) := by
  have hb := h.bytes hnil
  have hsl : slice contents c.bufsz.toNat n ≠ [] := hb ▸ hnil
  simp only [Comm.nextData, h.wants, if_true, h.fd, hr]
  refine
    { info := h.info, init := h.init, named := h.named, fd := rfl, holds := h.holds
      size := h.size, number := h.number, still := rfl, held := ?_, offset := ?_, stands := ?_ }
  · rw [outstanding_of_data rfl, h.number]
    exact fileToPacket_carries h.size.2 hb
  · cases hre : c.status.retransmit with
    | true => exact h.again hre
    | false =>
      have hoff := (h.first hre).2
      simp only [Bool.false_eq_true, if_false]
      rw [hoff, hb, ← UInt32.ofNat_add, min_add_length_slice hsl]
  · intro hre
    exact (h.first hre).1.advance

/-- At the end it ends the loop. -/
theorem Reading.nextData (h : Reading contents f n c) (hn : n < 2 ^ 32) :
    Phase (c.nextData io) := by
  by_cases hr : io.reads = true
  · by_cases hnil : f.ahead c.bufsz.toNat = []
    · simp only [Comm.nextData, h.wants, if_true, h.fd, hr]
      exact .finished (.inl (by simp [hnil]))
    · exact .sending hn (h.read hr hnil)
  · simp only [Comm.nextData, h.wants, if_true, h.fd, if_neg hr]
    exact fails_finished

/-- A file just opened stands at its first packet. -/
theorem Opening.reading (h : Opening c) (hf : Host.file c.fromname = some contents) :
    Reading contents ⟨contents, 0⟩ 0 { c with
      fromfd := some ⟨contents, 0⟩
      status := { c.status with infoInit := false, nextdata := true } } := by
  have hat : AtNumber ⟨contents, 0⟩ c.bufsz.toNat 0 := .inl (Nat.zero_mul _).symm
  refine
    { info := h.info, init := rfl, named := hf, fd := rfl, holds := rfl
      size := h.size, number := h.sequence, wants := rfl, bytes := fun _ => hat.ahead
      first := ?_, again := ?_ }
  · intro _
    exact ⟨hat, by simp [h.offset]⟩
  · simp [h.retransmit]

theorem Opening.files_eq (h : Opening c) (hf : Host.file c.fromname = some contents)
    (hst : io.stats = true) :
    c.files io = ({ c with
      fromfd := some ⟨contents, 0⟩
      status := { c.status with infoInit := false, nextdata := true } } : Comm).nextData io := by
  rw [Comm.files, if_neg (by simp [h.info]), if_pos h.init]
  simp only [hf, hst, if_true]

/-- The file is opened and read for the first time. -/
theorem Opening.files (h : Opening c) : Phase (c.files io) := by
  cases hf : Host.file c.fromname with
  | none =>
    rw [Comm.files, if_neg (by simp [h.info]), if_pos h.init]
    simp only [hf]
    exact fails_finished
  | some contents =>
    by_cases hst : io.stats = true
    · rw [h.files_eq hf hst]
      exact (h.reading hf).nextData (by decide)
    · rw [Comm.files, if_neg (by simp [h.info]), if_pos h.init]
      simp only [hf, if_neg hst]
      exact fails_finished

/-- An accepted acknowledgement leaves the file where it stands for the next number. -/
theorem Sending.next (h : Sending contents f n c) (hout : c.outpkt.type = pktTypeDAT)
    (hre : c.status.retransmit = false) (io : Calls) :
    (c.acknowledged io).2 = true ∧ Reading contents f (n + 1) (c.acknowledged io).1 := by
  have hat := h.stands hre
  simp only [Comm.acknowledged, hre, Bool.false_eq_true, if_false, hout, if_true, true_and]
  refine
    { info := h.info, init := h.init, named := h.named, fd := h.fd, holds := h.holds
      size := h.size, number := ?_, wants := rfl, bytes := ?_, first := ?_, again := ?_ }
  · rw [h.number, UInt32.ofNat_add]
    rfl
  · intro _
    rw [hat.ahead, h.holds]
  · intro _
    exact ⟨hat, h.offset⟩
  · simp

/-- Behind a retransmission, it takes the file back to there, if `offset` has not wrapped. -/
theorem Sending.back (h : Sending contents f n c) (hout : c.outpkt.type = pktTypeDAT)
    (hfit : c.bufsz.toNat * (n + 1) < 2 ^ 32) (hre : c.status.retransmit = true)
    (hio : io.seeks = true) :
    (c.acknowledged io).2 = true ∧
      Reading contents (f.lseek c.offset) (n + 1) (c.acknowledged io).1 := by
  have hoff : c.offset.toNat = min ((n + 1) * c.bufsz.toNat) contents.length := by
    rw [h.offset, UInt32.toNat_ofNat']
    refine Nat.mod_eq_of_lt (lt_of_le_of_lt (Nat.min_le_left _ _) ?_)
    rwa [Nat.mul_comm]
  have hat : AtNumber (f.lseek c.offset) c.bufsz.toNat (n + 1) := by
    simp only [AtNumber, StandsAt, File.lseek, hoff, h.holds]
    omega
  simp only [Comm.acknowledged, hre, if_true, hout, hio, true_and]
  refine
    { info := h.info, init := h.init, named := h.named, fd := by simp [lseek, h.fd]
      holds := h.holds, size := h.size, number := ?_, wants := rfl, bytes := ?_, first := ?_
      again := ?_ }
  · rw [lseek, h.number, UInt32.ofNat_add]
    rfl
  · intro _
    change (f.lseek c.offset).ahead c.bufsz.toNat = _
    rw [hat.ahead, lseek]
    exact congrArg (slice · _ _) h.holds
  · intro _
    exact ⟨hat, h.offset⟩
  · simp [lseek]

/-- A request for another number takes the file there, for a packet of the current one. -/
theorem Sending.elsewhere (h : Sending contents f n c) {number : UInt32}
    (hne : number ≠ c.sequence) (hio : io.seeks = true)
    (hsame : (f.lseek (c.bufsz * number)).ahead c.bufsz.toNat ≠ [] →
      (f.lseek (c.bufsz * number)).ahead c.bufsz.toNat = slice contents c.bufsz.toNat n) :
    (c.requested number io).2 = true ∧
      Reading contents (f.lseek (c.bufsz * number)) n (c.requested number io).1 := by
  have hinit : ¬ c.status.infoInit = true := by simp [h.init]
  simp only [Comm.requested, if_neg hne, if_neg hinit, hio, if_true, true_and]
  refine
    { info := h.info, init := h.init, named := h.named, fd := by simp [lseek, h.fd]
      holds := h.holds, size := h.size, number := h.number, wants := rfl, bytes := hsame
      first := ?_, again := ?_ }
  · simp [lseek]
  · intro _
    exact h.offset

end Parts

/-! ## 4. The iteration -/

/-- The iteration gives the current number to other bytes: a `PKT_TYPE_RET` for another number
is taken before the file is open, or where the file has other bytes for it. -/
def Misnumbers (c : Comm) : Event → Prop
  | .act _ => False
  | .hear none _ => False
  | .hear (some p) _ =>
    p.ok = true ∧ p.type = pktTypeRET ∧ ntohl p.sequence ≠ c.sequence ∧
      ∀ f ∈ c.fromfd,
        (f.lseek (c.bufsz * ntohl p.sequence)).ahead c.bufsz.toNat ≠ [] ∧
        (f.lseek (c.bufsz * ntohl p.sequence)).ahead c.bufsz.toNat ≠
          slice f.contents c.bufsz.toNat c.sequence.toNat

/-- The sizes the program is made for: a buffer size between 1 and `PKT_DMAX`, and products of
buffer size and number that fit an `unsigned`. -/
def InRange (c : Comm) : Event → Prop
  | .act _ => True
  | .hear none _ => True
  | .hear (some p) _ => p.ok = true →
    (p.type = pktTypeFLN → c.status.expectInfo = true →
      1 ≤ p.size.toNat ∧ p.size.toNat ≤ pktDMax) ∧
    (p.type = pktTypeACK → c.bufsz.toNat * (c.sequence.toNat + 1) < 2 ^ 32)

section Iteration

variable {contents : List UInt8} {f : File} {n : ℕ} {c : Comm} {io : Calls} {p : Packet}

theorem hear_ok (hok : p.ok = true) :
    c.hear (some p) io = ({ c with outpkt := c.outstanding } : Comm).received p io := by
  rw [hear, if_pos hok]
  rfl

/-- A damaged packet parks the one that is out. -/
theorem hear_damaged (hok : p.ok = false) :
    c.hear (some p) io = { c with
      tpkt := c.outstanding
      outpkt := retransmitpkt c.sequence
      status := { c.status with transmit := true } } := by
  rw [hear, if_neg (by simp [hok])]
  by_cases ht : c.outpkt.type = pktTypeRET
  · simp [outstanding, ht]
  · simp [outstanding, ht]

/-- What a valid packet leads to. -/
inductive Received (c : Comm) (p : Packet) (io : Calls) : Comm → Prop
  | ignored : Received c p io (c.files io)
  | unexpected : Received c p io c.fails
  | accepted (ht : p.type = pktTypeACK) (he : c.status.expectAck = true)
      (hd : c.outpkt.data.toList = p.data.toList) :
      Received c p io (if (c.acknowledged io).2 then (c.acknowledged io).1.files io
        else (c.acknowledged io).1)
  | requested (ht : p.type = pktTypeRET) :
      Received c p io (if (c.requested (ntohl p.sequence) io).2 then
        (c.requested (ntohl p.sequence) io).1.files io
        else (c.requested (ntohl p.sequence) io).1)
  | informed (ht : p.type = pktTypeFLN) (he : c.status.expectInfo = true) :
      Received c p io (c.informed p)

theorem received_cases (c : Comm) (p : Packet) (io : Calls) :
    Received c p io (c.received p io) := by
  unfold received evaluate
  by_cases hack : p.type = pktTypeACK
  · rw [if_pos hack]
    by_cases he : c.status.expectAck = true
    · rw [if_pos he]
      by_cases hd : c.outpkt.data.toList = p.data.toList
      · rw [if_pos hd]
        exact .accepted hack he hd
      · rw [if_neg hd]
        exact .ignored
    · rw [if_neg he]
      exact .unexpected
  · rw [if_neg hack]
    by_cases hret : p.type = pktTypeRET
    · rw [if_pos hret]
      exact .requested hret
    · rw [if_neg hret]
      by_cases hfln : p.type = pktTypeFLN
      · rw [if_pos hfln]
        by_cases he : c.status.expectInfo = true
        · rw [if_pos he]
          exact .informed hfln he
        · rw [if_neg he]
          exact .ignored
      · rw [if_neg hfln]
        exact .ignored

/-- Before the file name has come, nothing that is received starts a transfer. -/
theorem Asking.received {d : Comm} (h : Asking c) (hr : Received c p io d)
    (hout : c.outpkt.type = 0)
    (hsize : p.type = pktTypeFLN → 1 ≤ p.size.toNat ∧ p.size.toNat ≤ pktDMax)
    (hnum : p.type = pktTypeRET → ntohl p.sequence = c.sequence) : Phase d := by
  cases hr with
  | ignored =>
    rw [h.files]
    exact .asking h
  | unexpected => exact fails_finished
  | accepted ht he hd =>
    have hdat : c.outpkt.type ≠ pktTypeDAT := by
      rw [hout]
      decide
    have ha : Asking (c.acknowledged io).1 := by
      simp only [acknowledged, h.retransmit, Bool.false_eq_true, if_false, if_neg hdat]
      exact { h with retransmit := rfl }
    split_ifs
    · rw [ha.files]
      exact .asking ha
    · exact .asking ha
  | requested ht =>
    simp only [Comm.requested, hnum ht, if_true, Bool.false_eq_true, if_false]
    exact .asking { h with }
  | informed ht he =>
    refine .opening ?_ rfl
    exact
      { info := rfl, init := rfl, retransmit := h.retransmit, sequence := h.sequence
        offset := h.offset, size := hsize ht, held := rfl }

/-- Behind it, every packet received leaves the right one out. -/
theorem Sending.received {d : Comm} (h : Sending contents f n c) (hr : Received c p io d)
    (hn : n < 2 ^ 32) (hout : c.outpkt.type = pktTypeDAT)
    (hfit : p.type = pktTypeACK → c.bufsz.toNat * (n + 1) < 2 ^ 32)
    (hnum : p.type = pktTypeRET → ntohl p.sequence ≠ c.sequence →
      (f.lseek (c.bufsz * ntohl p.sequence)).ahead c.bufsz.toNat ≠ [] →
      (f.lseek (c.bufsz * ntohl p.sequence)).ahead c.bufsz.toNat =
        slice contents c.bufsz.toNat n) : Phase d := by
  cases hr with
  | ignored =>
    rw [h.files]
    exact .sending hn h
  | unexpected => exact fails_finished
  | accepted ht he hd =>
    have hsucc : n + 1 < 2 ^ 32 :=
      lt_of_le_of_lt (Nat.le_mul_of_pos_left (n + 1) h.size.1) (hfit ht)
    cases hre : c.status.retransmit with
    | false =>
      obtain ⟨hgo, hread⟩ := h.next hout hre io
      rw [if_pos hgo, hread.toOpened.files]
      exact hread.nextData hsucc
    | true =>
      by_cases hio : io.seeks = true
      · obtain ⟨hgo, hread⟩ := h.back hout (hfit ht) hre hio
        rw [if_pos hgo, hread.toOpened.files]
        exact hread.nextData hsucc
      · simp only [acknowledged, hre, if_true, if_neg hio, Bool.false_eq_true, if_false]
        exact fails_finished
  | requested ht =>
    by_cases hq : ntohl p.sequence = c.sequence
    · simp only [Comm.requested, hq, if_true, Bool.false_eq_true, if_false]
      exact .sending hn { h with }
    · by_cases hio : io.seeks = true
      · obtain ⟨hgo, hread⟩ := h.elsewhere hq hio (hnum ht hq)
        rw [if_pos hgo, hread.toOpened.files]
        exact hread.nextData hn
      · have hinit : ¬ c.status.infoInit = true := by simp [h.init]
        simp only [Comm.requested, if_neg hq, if_neg hinit, if_neg hio, Bool.false_eq_true,
          if_false]
        exact fails_finished
  | informed ht he => simp [h.info] at he

omit [Host] in
theorem outstanding_restored (hne : c.outstanding.type ≠ pktTypeRET) :
    ({ c with outpkt := c.outstanding } : Comm).outstanding = c.outstanding :=
  if_neg hne

omit [Host] in
theorem Asking.restored (h : Asking c) : Asking { c with outpkt := c.outstanding } := by
  have hne : c.outstanding.type ≠ pktTypeRET := by
    rw [h.held]
    decide
  refine { h with held := ?_ }
  rw [outstanding_restored hne]
  exact h.held

theorem Sending.restored (h : Sending contents f n c) :
    Sending contents f n { c with outpkt := c.outstanding } := by
  have hne : c.outstanding.type ≠ pktTypeRET := by
    rw [h.held.type]
    decide
  refine { h with held := ?_ }
  rw [outstanding_restored hne]
  exact h.held

/-- A damaged packet leaves everything where it was, behind a request. -/
theorem Asking.damaged (h : Asking c) (hok : p.ok = false) : Asking (c.hear (some p) io) := by
  rw [hear_damaged hok]
  exact { h with held := h.held }

theorem Sending.damaged (h : Sending contents f n c) (hok : p.ok = false) :
    Sending contents f n (c.hear (some p) io) := by
  rw [hear_damaged hok]
  exact { h with held := h.held }

/-- An iteration without a `recv`. -/
theorem step_act {c' : Comm} {out : Option Packet} (h : c.step (.act io) = some (c', out)) :
    c.returned = none ∧ (c.leaves = true ∧ c' = { c with returned := some 0 } ∧ out = none ∨
      c.leaves = false ∧ c.transmit.1.status.receive = false ∧ c' = c.transmit.1.files io ∧
        out = c.transmit.2) := by
  simp only [step] at h
  split_ifs at h with h1 h2 h3
  · obtain ⟨rfl, rfl⟩ := Prod.mk.inj (Option.some.inj h)
    exact ⟨by simpa using h1, .inl ⟨h2, rfl, rfl⟩⟩
  · obtain ⟨rfl, rfl⟩ := Prod.mk.inj (Option.some.inj h)
    exact ⟨by simpa using h1, .inr ⟨by simpa using h2, by simpa using h3, rfl, rfl⟩⟩

/-- An iteration with one. -/
theorem step_hear {c' : Comm} {r : Option Packet} {out : Option Packet}
    (h : c.step (.hear r io) = some (c', out)) :
    c.returned = none ∧ c.leaves = false ∧ c.transmit.1.status.receive = true ∧
      c' = c.transmit.1.hear r io ∧ out = c.transmit.2 := by
  simp only [step] at h
  split_ifs at h with h1 h2
  obtain ⟨rfl, rfl⟩ := Prod.mk.inj (Option.some.inj h)
  simp only [Bool.or_eq_true, not_or, Option.isSome_iff_ne_none, ne_eq, not_not,
    Bool.not_eq_true] at h1
  exact ⟨h1.1, h1.2, h2, rfl, rfl⟩

omit [Host] in
/-- Behind the acknowledgement of the file name nothing is received. -/
theorem Opening.sent (h : Opening c) (ht : c.status.transmit = true) :
    Opening c.transmit.1 ∧ c.transmit.1.status.receive = false := by
  rw [transmit, if_pos ht, if_neg (by simp [h.held])]
  exact ⟨{ h with }, rfl⟩

/-- **Every iteration keeps the phases**, unless it misnumbers. -/
theorem Phase.step {c' : Comm} {e : Event} {out : Option Packet} (h : Phase c)
    (hr : InRange c e) (hm : ¬ c.Misnumbers e) (hst : c.step e = some (c', out)) : Phase c' := by
  cases h with
  | finished h =>
    cases e with
    | act io =>
      obtain ⟨hret, ⟨-, rfl, -⟩ | ⟨hl, -⟩⟩ := step_act hst
      · exact .finished (.inr (by simp))
      · simp [leaves_of_finished h hret] at hl
    | hear r io =>
      obtain ⟨hret, hl, -⟩ := step_hear hst
      simp [leaves_of_finished h hret] at hl
  | asking h =>
    cases e with
    | act io =>
      obtain ⟨-, ⟨-, rfl, -⟩ | ⟨-, -, rfl, -⟩⟩ := step_act hst
      · exact .finished (.inr (by simp))
      · rw [h.transmit.files]
        exact .asking h.transmit
    | hear r io =>
      obtain ⟨-, -, -, rfl, -⟩ := step_hear hst
      cases r with
      | none => exact fails_finished
      | some p =>
        by_cases hok : p.ok = true
        · rw [hear_ok hok]
          refine h.transmit.restored.received (received_cases _ p io) h.transmit.held ?_ ?_
          · exact fun ht => (hr hok).1 ht h.info
          · intro ht
            by_contra hne
            refine hm ⟨hok, ht, by simpa using hne, ?_⟩
            simp [h.fd]
        · exact .asking (h.transmit.damaged (by simpa using hok))
  | opening h ht =>
    obtain ⟨hsent, hrec⟩ := h.sent ht
    cases e with
    | act io =>
      obtain ⟨-, ⟨-, rfl, -⟩ | ⟨-, -, rfl, -⟩⟩ := step_act hst
      · exact .finished (.inr (by simp))
      · exact hsent.files
    | hear r io =>
      obtain ⟨-, -, hrec', -⟩ := step_hear hst
      simp [hrec] at hrec'
  | @sending contents f n hn h =>
    have hseq : c.sequence.toNat = n := by
      rw [h.number, UInt32.toNat_ofNat']
      exact Nat.mod_eq_of_lt hn
    cases e with
    | act io =>
      obtain ⟨-, ⟨-, rfl, -⟩ | ⟨-, -, rfl, -⟩⟩ := step_act hst
      · exact .finished (.inr (by simp))
      · rw [h.transmit.files]
        exact .sending hn h.transmit
    | hear r io =>
      obtain ⟨-, -, -, rfl, -⟩ := step_hear hst
      cases r with
      | none => exact fails_finished
      | some p =>
        by_cases hok : p.ok = true
        · rw [hear_ok hok]
          refine h.transmit.restored.received (received_cases _ p io) hn h.transmit.held.type ?_ ?_
          · intro ht
            rw [transmit_bufsz, ← hseq]
            exact (hr hok).2 ht
          · intro ht hne hnil
            simp only [transmit_sequence, transmit_bufsz] at hne hnil ⊢
            by_contra hother
            refine hm ⟨hok, ht, hne, ?_⟩
            intro f' hf'
            obtain rfl : f = f' := Option.some.inj (h.fd.symm.trans hf')
            rw [h.holds, hseq]
            exact ⟨hnil, hother⟩
        · exact .sending hn (h.transmit.damaged (by simpa using hok))

end Iteration

end Comm

end Fileserver.StopWait
