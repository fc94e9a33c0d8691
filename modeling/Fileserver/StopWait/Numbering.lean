/-
# Which bytes a number stands for

In a run in which no request makes it misnumber, every data packet `client_comm` sends carries
the bytes of its number, whatever else is received and however often packets are damaged, asked
for again or answered twice.  A request that does lets the next data packet carry the bytes of
one number under another.
-/
import Fileserver.StopWait.Phases
import Fileserver.Cksum
import Fileserver.Lib.System

namespace Fileserver.StopWait.Comm

open Proto

variable [Host]

/-! ## 1. Runs -/

/-- One connection, with a peer that may send anything. -/
def conn : System Comm Event where
  start c := c = start
  may _ _ := True
  next c e := (c.step e).map Prod.fst

instance (c : Comm) (e : Event) : Decidable (conn.may c e) := inferInstanceAs (Decidable True)

/-- What the iteration sends. -/
def output (c : Comm) (e : Event) : Option Packet := (c.step e).bind Prod.snd

/-- One in which the sizes are those the program is made for. -/
def system : System Comm Event := conn.under InRange

instance (c : Comm) : (e : Event) → Decidable (c.InRange e)
  | .act _ => inferInstanceAs (Decidable True)
  | .hear none _ => inferInstanceAs (Decidable True)
  | .hear (some p) _ => inferInstanceAs (Decidable (p.ok = true →
    (p.type = pktTypeFLN → c.status.expectInfo = true →
      1 ≤ p.size.toNat ∧ p.size.toNat ≤ pktDMax) ∧
    (p.type = pktTypeACK → c.bufsz.toNat * (c.sequence.toNat + 1) < 2 ^ 32)))

instance (c : Comm) (e : Event) : Decidable (system.may c e) :=
  inferInstanceAs (Decidable (True ∧ c.InRange e))

instance (c : Comm) : (e : Event) → Decidable (c.Misnumbers e)
  | .act _ => inferInstanceAs (Decidable False)
  | .hear none _ => inferInstanceAs (Decidable False)
  | .hear (some p) _ => inferInstanceAs (Decidable
    (p.ok = true ∧ p.type = pktTypeRET ∧ ntohl p.sequence ≠ c.sequence ∧
      ∀ f ∈ c.fromfd,
        (f.lseek (c.bufsz * ntohl p.sequence)).ahead c.bufsz.toNat ≠ [] ∧
        (f.lseek (c.bufsz * ntohl p.sequence)).ahead c.bufsz.toNat ≠
          slice f.contents c.bufsz.toNat c.sequence.toNat))

omit [Host] in
theorem start_asking : Asking start where
  info := rfl
  fd := rfl
  retransmit := rfl
  sequence := rfl
  offset := rfl
  held := rfl

theorem phase_of_reach {c : Comm} (h : (system.under fun c e => ¬ c.Misnumbers e).Reach c) :
    Phase c := by
  refine h.invariant (I := Phase) ?_ ?_
  · rintro c rfl
    exact .asking start_asking
  · intro c e c' _ hi hm hn
    obtain ⟨⟨c', out⟩, hst, rfl⟩ := Option.map_eq_some_iff.mp hn
    exact hi.step hm.1.2 hm.2 hst

/-! ## 2. What is sent -/

/-- The packet carries the bytes of the file that its number stands for. -/
def Numbered (c : Comm) (p : Packet) : Prop :=
  ∃ contents, Host.file c.fromname = some contents ∧
    p.bytes p.size.toNat = slice contents c.bufsz.toNat (ntohl p.sequence).toNat

theorem step_out {c c' : Comm} {e : Event} {p : Packet} (h : c.step e = some (c', some p)) :
    c.returned = none ∧ c.leaves = false ∧ p = c.outpkt := by
  cases e with
  | act io =>
    obtain ⟨hret, ⟨-, -, hout⟩ | ⟨hl, -, -, hout⟩⟩ := step_act h
    · simp at hout
    · exact ⟨hret, hl, (transmit_out hout.symm).2⟩
  | hear r io =>
    obtain ⟨hret, hl, -, -, hout⟩ := step_hear h
    exact ⟨hret, hl, (transmit_out hout.symm).2⟩

/-- In every phase, a data packet that is sent is that of the current number. -/
theorem Phase.sent {c c' : Comm} {e : Event} {p : Packet} (h : Phase c)
    (hst : c.step e = some (c', some p)) (ht : p.type = pktTypeDAT) :
    ∃ contents f n, n < 2 ^ 32 ∧ Sending contents f n c ∧ Carries contents c.bufsz n p := by
  obtain ⟨hret, hl, rfl⟩ := step_out hst
  have hout : c.outstanding = c.outpkt := outstanding_of_data ht
  cases h with
  | finished h => simp [leaves_of_finished h hret] at hl
  | asking h =>
    have hheld := h.held
    rw [hout, ht] at hheld
    exact absurd hheld (by decide)
  | opening h =>
    have hheld := h.held
    rw [ht] at hheld
    exact absurd hheld (by decide)
  | @sending contents f n hn h =>
    have hheld := h.held
    rw [hout] at hheld
    exact ⟨contents, f, n, hn, h, hheld⟩

theorem Phase.numbered {c c' : Comm} {e : Event} {p : Packet} (h : Phase c)
    (hst : c.step e = some (c', some p)) (ht : p.type = pktTypeDAT) : Numbered c p := by
  obtain ⟨contents, f, n, hn, hs, hp⟩ := h.sent hst ht
  refine ⟨contents, hs.named, ?_⟩
  rw [hp.number, UInt32.toNat_ofNat', Nat.mod_eq_of_lt hn]
  exact hp.bytes

/-! ## 3. A request that misnumbers -/

/-- What such a request makes of the packet that is out. -/
theorem Sending.refilled {contents : List UInt8} {f : File} {n : ℕ} {c : Comm} {p : Packet}
    {io : Calls} (h : Sending contents f n c) (ht : p.type = pktTypeRET)
    (hne : ntohl p.sequence ≠ c.sequence)
    (hseek : io.seeks = true) (hread : io.reads = true)
    (hnil : (f.lseek (c.bufsz * ntohl p.sequence)).ahead c.bufsz.toNat ≠ []) :
    (c.received p io).outpkt =
        fileToPacket (f.lseek (c.bufsz * ntohl p.sequence)) c.sequence c.bufsz c.outpkt ∧
      (c.received p io).status.transmit = true ∧
      (c.received p io).status.quit = c.status.quit ∧
      (c.received p io).retries = c.retries + 1 ∧ (c.received p io).returned = c.returned ∧
      (c.received p io).fromname = c.fromname ∧ (c.received p io).bufsz = c.bufsz := by
  have hrr : p.type ≠ pktTypeACK := by
    rw [ht]
    decide
  have hinit : ¬ c.status.infoInit = true := by simp [h.init]
  have hinfo : ¬ c.status.expectInfo = true := by simp [h.info]
  simp only [Comm.received, evaluate, if_neg hrr, if_pos ht, requested, if_neg hne, if_neg hinit,
    hseek, if_true, Comm.files, if_neg hinfo, lseek, nextData, h.fd, Option.map_some, hread]
  simp [hnil]

/-- Behind such a request the next iteration sends the wrong bytes. -/
theorem Sending.misnumbered {contents : List UInt8} {f : File} {n : ℕ} {c c' : Comm}
    {p : Packet} {io : Calls} {out : Option Packet} (h : Sending contents f n c)
    (hm : c.Misnumbers (.hear (some p) io)) (hseek : io.seeks = true) (hread : io.reads = true)
    (hk : c.retries + 1 < 10) (hst : c.step (.hear (some p) io) = some (c', out))
    (r : Option Packet) (io' : Calls) :
    ∃ c'' q, c'.step (.hear r io') = some (c'', some q) ∧ q.type = pktTypeDAT ∧
      ¬ Numbered c' q := by
  obtain ⟨hok, ht, hne, hother⟩ := hm
  obtain ⟨hret, hl, -, rfl, -⟩ := step_hear hst
  obtain ⟨hnil, hdiff⟩ := hother f h.fd
  have hd := h.transmit.restored
  rw [hear_ok hok]
  obtain ⟨hout, hsend, hquit, hretries, hreturned, hname, hsize⟩ :=
    hd.refilled ht (by simpa using hne) hseek hread (by simpa using hnil)
  generalize ({ c.transmit.1 with outpkt := c.transmit.1.outstanding } : Comm).received p io = d
    at hout hsend hquit hretries hreturned hname hsize ⊢
  obtain ⟨b, a, htr⟩ := c.transmit_eq
  rw [transmit_bufsz, transmit_sequence] at hout
  rw [transmit_bufsz] at hsize
  rw [htr] at hquit hretries hreturned hname
  have hdat : d.outpkt.type = pktTypeDAT := by
    rw [hout]
    rfl
  have hq : c.status.quit = false := by
    by_contra hq
    simp [leaves, hq] at hl
  have hleaves : d.leaves = false := by
    simp only [leaves, hquit, hq, hretries, Bool.false_or, decide_eq_false_iff_not]
    exact UInt32.not_le.mpr hk
  have hrec : d.transmit.1.status.receive = true ∧ d.transmit.2 = some d.outpkt := by
    simp [Comm.transmit, hsend, hdat]
  refine ⟨d.transmit.1.hear r io', d.outpkt, ?_, hdat, ?_⟩
  · simp [Comm.step, hreturned, hret, hleaves, hrec]
  · rintro ⟨contents', hf', hbytes⟩
    rw [hname, h.named] at hf'
    obtain rfl := Option.some.inj hf'
    rw [hout, fileToPacket_bytes h.size.2] at hbytes
    refine hdiff ?_
    rw [hbytes, h.holds, hsize]
    simp [fileToPacket]

/-! ## 4. The numbering -/

/-- **The numbering of `client_comm`.**  As long as no request misnumbers, every data packet that
is sent carries the bytes its number stands for; and behind a request that does, with the file
open and a retry left, the next packet sent does not. -/
theorem numbering :
    (∀ c, (system.under fun c e => ¬ c.Misnumbers e).Reach c → ∀ e c' p,
      c.step e = some (c', some p) → p.type = pktTypeDAT → Numbered c p) ∧
    (∀ c, (system.under fun c e => ¬ c.Misnumbers e).Reach c → ∀ p io c' out,
      c.Misnumbers (.hear (some p) io) → c.fromfd.isSome = true → io.seeks = true →
      io.reads = true → c.retries + 1 < 10 → c.step (.hear (some p) io) = some (c', out) →
      ∀ r io', ∃ c'' q, c'.step (.hear r io') = some (c'', some q) ∧ q.type = pktTypeDAT ∧
        ¬ Numbered c' q) := by
  refine ⟨?_, ?_⟩
  · intro c h e c' p hst ht
    exact (phase_of_reach h).numbered hst ht
  · intro c h p io c' out hm hopen hseek hread hk hst r io'
    obtain ⟨hret, hl, hrec, -⟩ := step_hear hst
    cases phase_of_reach h with
    | finished h => simp [leaves_of_finished h hret] at hl
    | asking h => simp [h.fd] at hopen
    | opening h ht => simp [(h.sent ht).2] at hrec
    | sending hn h => exact h.misnumbered hm hseek hread hk hst r io'

end Fileserver.StopWait.Comm

namespace Fileserver.StopWait.Comm

open Proto

local instance numberingHost : Host := refHost [1, 2]

/-- Every system call succeeds. -/
def calm : Calls := { seeks := true, stats := true, reads := true }

/-- The first packet, for the file `f` and a buffer size of 1. -/
def fln : Packet :=
  Packet.sealed { memset pktTypeFLN with size := 1, data := strcpy pktTypeFLN [0x66] }

/-- The packet of this number with this byte is what the next iteration sends. -/
def sends (number : UInt32) (b : UInt8) (c : Comm) : Bool :=
  (c.step (.hear none calm)).any fun x => x.2.any fun p =>
    decide (p.type = pktTypeDAT ∧ ntohl p.sequence = number ∧ p.bytes p.size.toNat = [b] ∧
      c.fromname = [0x66] ∧ c.bufsz = 1)

/-- **A request for packet 1 while packet 0 is out**: the second byte goes out as number 0. -/
theorem not_numbering :
    ¬ ∀ c, (system : System Comm Event).Reach c → ∀ e c' p,
      c.step e = some (c', some p) → p.type = pktTypeDAT → Numbered c p := by
  intro hall
  obtain ⟨c, h, hs⟩ := (System.Reach.start (M := system) (s := start) rfl).run_any
    [.hear (some fln) calm, .act calm, .hear (some (retransmitpkt 1)) calm] (sends 0 2)
    (by decide +kernel)
  obtain ⟨⟨c', out⟩, hst, hs⟩ := (Option.any_eq_true _ _).mp hs
  obtain ⟨p, rfl, hp⟩ := (Option.any_eq_true _ _).mp hs
  obtain ⟨ht, hn, hb, hname, hsize⟩ := of_decide_eq_true hp
  obtain ⟨contents, hf, hbytes⟩ := hall c h _ c' p hst ht
  rw [hname] at hf
  obtain rfl : [1, 2] = contents := Option.some.inj hf
  rw [hb, hn, hsize] at hbytes
  exact absurd hbytes (by decide)

/-- A damaged packet, and an acknowledgement behind it: the second byte goes out as number 1. -/
theorem numbering_next :
    ∃ c p, ntohl p.sequence = 1 ∧ (∃ e c', c.step e = some (c', some p)) ∧ Numbered c p := by
  have h0 : (system.under fun c e => ¬ c.Misnumbers e).Reach start := .start rfl
  obtain ⟨c, h, hs⟩ := h0.run_any
    [.hear (some fln) calm, .act calm, .hear (some (memset 0)) calm,
      .hear (some (Packet.sealed
        { memset pktTypeACK with data := copied pktTypeACK [1] })) calm] (sends 1 2)
    (by decide +kernel)
  obtain ⟨⟨c', out⟩, hst, hs⟩ := (Option.any_eq_true _ _).mp hs
  obtain ⟨p, rfl, hp⟩ := (Option.any_eq_true _ _).mp hs
  obtain ⟨ht, hn, -⟩ := of_decide_eq_true hp
  exact ⟨c, p, hn, ⟨_, c', hst⟩, numbering.1 c h _ c' p hst ht⟩

end Fileserver.StopWait.Comm
