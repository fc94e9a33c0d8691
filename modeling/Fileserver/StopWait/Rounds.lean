/-
# Stop and wait

`client_comm` has one data packet out at a time.  Against a peer that may send anything, in any
order, damaged or not, the data packets it sends come in rounds: a round is the packet of one
number, sent once and then again for each request, at most `PKT_TRNSMAX` times; and the next round
begins only when an acknowledgement with the data of this one has been accepted.  So what the peer
hears is the file from its start, packet by packet, and the number of accepted acknowledgements is
the number of the packet that is out.

As everywhere, a request that makes the server misnumber is left out, and so are sizes and numbers
out of range (`InRange`).
-/
import Fileserver.StopWait.Corruption
import Fileserver.StopWait.Delivery

namespace Fileserver.StopWait

open Proto

/-! ## 1. Rounds -/

section Rounds

variable [Host] {contents : List UInt8} {B : UInt32} {n : ℕ} {last l : List Packet} {p : Packet}

/-- The packet of one number, as often as it was sent. -/
structure Round (contents : List UInt8) (B : UInt32) (n : ℕ) (b : List Packet) : Prop where
  sent : b ≠ []
  few : b.length ≤ 10
  carries : ∀ p ∈ b, Carries contents B n p

/-- `n` rounds, and what has been sent of the next one. -/
structure Rounds (contents : List UInt8) (B : UInt32) (n : ℕ) (last l : List Packet) : Prop where
  before : ∃ full : List (List Packet), l = full.flatten ++ last ∧ full.length = n ∧
    ∀ k b, full[k]? = some b → Round contents B k b
  few : last.length ≤ 10
  current : ∀ p ∈ last, Carries contents B n p

theorem rounds_nil (contents : List UInt8) (B : UInt32) : Rounds contents B 0 [] [] where
  before := ⟨[], rfl, rfl, by simp⟩
  few := Nat.zero_le _
  current := by simp

/-- The packet is sent once more. -/
theorem Rounds.again (h : Rounds contents B n last l) (hp : Carries contents B n p)
    (hk : last.length < 10) : Rounds contents B n (last ++ [p]) (l ++ [p]) where
  before := by
    obtain ⟨full, hl, hn, hr⟩ := h.before
    exact ⟨full, by rw [hl, List.append_assoc], hn, hr⟩
  few := by
    rw [List.length_append]
    exact hk
  current := by
    intro q hq
    rcases List.mem_append.mp hq with hq | hq
    · exact h.current q hq
    · rw [List.mem_singleton.mp hq]
      exact hp

/-- The round is over. -/
theorem Rounds.next (h : Rounds contents B n last l) (hne : last ≠ []) :
    Rounds contents B (n + 1) [] l where
  before := by
    obtain ⟨full, hl, hn, hr⟩ := h.before
    refine ⟨full ++ [last], by simp [hl], by simp [hn], ?_⟩
    intro k b hb
    rcases Nat.lt_or_ge k full.length with hk | hk
    · rw [List.getElem?_append_left hk] at hb
      exact hr k b hb
    · rw [List.getElem?_append_right hk, List.getElem?_singleton] at hb
      split_ifs at hb with h0
      obtain rfl := Option.some.inj hb
      obtain rfl : k = n := by omega
      exact ⟨hne, h.few, h.current⟩
  few := Nat.zero_le _
  current := by simp

/-- What has been sent, cut into rounds. -/
theorem Rounds.cut (h : Rounds contents B n last l) :
    ∃ rounds : List (List Packet), l = rounds.flatten ∧
      n ≤ rounds.length ∧ rounds.length ≤ n + 1 ∧
      ∀ k b, rounds[k]? = some b → Round contents B k b := by
  by_cases hne : last = []
  · obtain ⟨full, hl, hn, hr⟩ := h.before
    exact ⟨full, by simpa [hne] using hl, hn.ge, by omega, hr⟩
  · obtain ⟨full, hl, hn, hr⟩ := (h.next hne).before
    exact ⟨full, by simpa using hl, by omega, hn.le, hr⟩

end Rounds

namespace Comm

/-! ## 2. What is counted -/

/-- This acknowledgement is accepted, if it is intact. -/
def accepts (c : Comm) (p : Packet) : Bool :=
  p.type == pktTypeACK && c.status.expectAck && c.outpkt.data.toList == p.data.toList

/-- A data packet is about to be sent. -/
def pending (c : Comm) : Prop := c.status.transmit = true ∧ c.outpkt.type = pktTypeDAT

variable [Host]

/-- The acknowledgement of a data packet is accepted. -/
def acked (c : Comm) : Event → Bool
  | .act _ => false
  | .hear none _ => false
  | .hear (some p) _ =>
    p.ok && c.evaluating.outpkt.type == pktTypeDAT && c.evaluating.accepts p

/-- One connection, next to the data packets sent and the number of their acknowledgements. -/
@[reducible] def answered : System (Comm × List Packet × ℕ) Event :=
  (system.under fun c e => ¬ c.Misnumbers e).recorded ([], 0) fun c e x =>
    (x.1 ++ dats (c.output e).toList, x.2 + if c.acked e then 1 else 0)

/-- How many of these packets the server has sent of the number that is out. -/
structure Copies (k : ℕ) (c : Comm) : Prop where
  next : c.pending → k ≤ c.retries.toNat
  behind : ¬ c.pending → 1 ≤ k ∧ k ≤ c.retries.toNat + 1

/-- Where the connection is. -/
inductive InRound : Comm × List Packet × ℕ → Prop
  | before {c : Comm} (h : Asking c ∨ Opening c ∧ c.status.transmit = true) : InRound (c, [], 0)
  | out {contents : List UInt8} {f : File} {n : ℕ} {last l : List Packet} {c : Comm}
      (hn : n < 2 ^ 32) (h : Sending contents f n c) (hk : Copies last.length c)
      (hr : Rounds contents c.bufsz n last l) : InRound (c, l, n)
  | ended {contents : List UInt8} {n : ℕ} {last l : List Packet} {c : Comm}
      (h : c.status.quit = true ∨ c.returned ≠ none)
      (hname : l ≠ [] → Host.file c.fromname = some contents)
      (hr : Rounds contents c.bufsz n last l) : InRound (c, l, n)

/-! ## 3. What an iteration does to the rounds -/

section Iteration

variable {contents : List UInt8} {f : File} {n : ℕ} {c d : Comm} {io : Calls} {p : Packet}
  {last l : List Packet}

/-- What is left alone once the file name has come. -/
structure Fixed (c d : Comm) : Prop where
  bufsz : d.bufsz = c.bufsz
  fromname : d.fromname = c.fromname

theorem nextData_fixed (c : Comm) (io : Calls) :
    Fixed c (c.nextData io) ∧ (c.nextData io).retries = c.retries := by
  unfold nextData
  split
  · cases c.fromfd with
    | none => exact ⟨⟨rfl, rfl⟩, rfl⟩
    | some f =>
      dsimp only
      split
      · exact ⟨⟨rfl, rfl⟩, rfl⟩
      · exact ⟨⟨rfl, rfl⟩, rfl⟩
  · exact ⟨⟨rfl, rfl⟩, rfl⟩

/-- A read prepares the packet of the current number, or is the last. -/
theorem Reading.lands (h : Reading contents f n c) :
    ((c.nextData io).status.quit = true ∨ (c.nextData io).returned ≠ none) ∨
      ∃ f', Sending contents f' n (c.nextData io) ∧ (c.nextData io).pending := by
  by_cases hr : io.reads = true
  · by_cases hnil : f.ahead c.bufsz.toNat = []
    · refine .inl (.inl ?_)
      simp [Comm.nextData, h.wants, h.fd, hr, hnil]
    · refine .inr ⟨_, h.read hr hnil, ?_⟩
      simp only [Comm.nextData, h.wants, if_true, h.fd, hr]
      exact ⟨rfl, rfl⟩
  · refine .inl (.inr ?_)
    simp [Comm.nextData, h.wants, h.fd, hr, fails]

/-- What a valid packet does with the packet that is out: it is not sent again, it is sent again, or
the next one is. -/
inductive Turned (contents : List UInt8) (n : ℕ) (c d : Comm) (acked : Bool) : Prop
  | stays {f : File} (ha : acked = false) (h : Sending contents f n d) (hp : ¬ d.pending)
      (hk : d.retries = c.retries)
  | again {f : File} (ha : acked = false) (h : Sending contents f n d) (hp : d.pending)
      (hk : d.retries = c.retries + 1)
  | next {f : File} (ha : acked = true) (hn : n + 1 < 2 ^ 32) (h : Sending contents f (n + 1) d)
      (hp : d.pending)
  | ended (h : d.status.quit = true ∨ d.returned ≠ none)

theorem Sending.acknowledged (h : Sending contents f n c) (hout : c.outpkt.type = pktTypeDAT)
    (hfit : c.bufsz.toNat * (n + 1) < 2 ^ 32) :
    Turned contents n c (if (c.acknowledged io).2 then (c.acknowledged io).1.files io
      else (c.acknowledged io).1) true ∧
    Fixed c (if (c.acknowledged io).2 then (c.acknowledged io).1.files io
      else (c.acknowledged io).1) := by
  have hsucc : n + 1 < 2 ^ 32 := lt_of_le_of_lt (Nat.le_mul_of_pos_left (n + 1) h.size.1) hfit
  have hread {g : File} {d : Comm} (hd : Fixed c d) (hg : Reading contents g (n + 1) d) :
      Turned contents n c (d.files io) true ∧ Fixed c (d.files io) := by
    obtain ⟨hfix, -⟩ := nextData_fixed d io
    rw [hg.toOpened.files]
    refine ⟨?_, hfix.bufsz.trans hd.bufsz, hfix.fromname.trans hd.fromname⟩
    rcases hg.lands with hov | ⟨g', hs, hp⟩
    · exact .ended hov
    · exact .next rfl hsucc hs hp
  have hfixed : Fixed c (c.acknowledged io).1 := by
    unfold Comm.acknowledged
    dsimp only
    split_ifs <;> exact ⟨rfl, rfl⟩
  cases hre : c.status.retransmit with
  | false =>
    obtain ⟨hgo, hg⟩ := h.next hout hre io
    rw [if_pos hgo]
    exact hread hfixed hg
  | true =>
    by_cases hio : io.seeks = true
    · obtain ⟨hgo, hg⟩ := h.back hout hfit hre hio
      rw [if_pos hgo]
      exact hread hfixed hg
    · simp only [Comm.acknowledged, hre, if_true, if_neg hio, Bool.false_eq_true, if_false]
      exact ⟨.ended (.inr (by simp [fails])), rfl, rfl⟩

theorem Sending.requested (h : Sending contents f n c) (hout : c.outpkt.type = pktTypeDAT)
    {number : UInt32}
    (hnum : number ≠ c.sequence →
      (f.lseek (c.bufsz * number)).ahead c.bufsz.toNat ≠ [] →
      (f.lseek (c.bufsz * number)).ahead c.bufsz.toNat = slice contents c.bufsz.toNat n) :
    Turned contents n c (if (c.requested number io).2 then (c.requested number io).1.files io
      else (c.requested number io).1) false ∧
    Fixed c (if (c.requested number io).2 then (c.requested number io).1.files io
      else (c.requested number io).1) := by
  have hinit : ¬ c.status.infoInit = true := by simp [h.init]
  by_cases hq : number = c.sequence
  · simp only [Comm.requested, hq, if_true, Bool.false_eq_true, if_false]
    exact ⟨.again rfl { h with } ⟨rfl, hout⟩ rfl, rfl, rfl⟩
  · by_cases hio : io.seeks = true
    · obtain ⟨hgo, hread⟩ := h.elsewhere hq hio (hnum hq)
      obtain ⟨hfix, hk⟩ := nextData_fixed (c.requested number io).1 io
      have hfixed : Fixed c (c.requested number io).1 ∧
          (c.requested number io).1.retries = c.retries + 1 := by
        simp only [Comm.requested, if_neg hq, if_neg hinit, if_pos hio]
        exact ⟨⟨rfl, rfl⟩, rfl⟩
      rw [if_pos hgo, hread.toOpened.files]
      refine ⟨?_, hfix.bufsz.trans hfixed.1.bufsz, hfix.fromname.trans hfixed.1.fromname⟩
      rcases hread.lands with hov | ⟨f', hs, hp⟩
      · exact .ended hov
      · exact .again rfl hs hp (hk.trans hfixed.2)
    · simp only [Comm.requested, if_neg hq, if_neg hinit, if_neg hio, Bool.false_eq_true, if_false]
      exact ⟨.ended (.inr (by simp [fails])), rfl, rfl⟩

/-- **A valid packet** turns to the next number if and only if it is an acknowledgement that is
accepted. -/
theorem Sending.turned (h : Sending contents f n c) (hout : c.outpkt.type = pktTypeDAT)
    (htr : c.status.transmit = false)
    (hfit : p.type = pktTypeACK → c.bufsz.toNat * (n + 1) < 2 ^ 32)
    (hnum : p.type = pktTypeRET → ntohl p.sequence ≠ c.sequence →
      (f.lseek (c.bufsz * ntohl p.sequence)).ahead c.bufsz.toNat ≠ [] →
      (f.lseek (c.bufsz * ntohl p.sequence)).ahead c.bufsz.toNat =
        slice contents c.bufsz.toNat n) :
    Turned contents n c (c.received p io) (c.accepts p) ∧ Fixed c (c.received p io) := by
  cases hacc : c.accepts p with
  | true =>
    simp only [accepts, Bool.and_eq_true, beq_iff_eq] at hacc
    obtain ⟨⟨ht, he⟩, hd⟩ := hacc
    rw [Comm.received, evaluate, if_pos ht, if_pos he, if_pos hd]
    exact h.acknowledged hout (hfit ht)
  | false =>
    have hstill : ¬ c.pending := fun hp => by simpa [htr] using hp.1
    generalize hd : c.received p io = d
    have hr : Received c p io d := hd ▸ received_cases c p io
    cases hr with
    | ignored =>
      rw [h.files]
      exact ⟨.stays rfl h hstill rfl, rfl, rfl⟩
    | unexpected => exact ⟨.ended (.inr (by simp [fails])), rfl, rfl⟩
    | accepted ht he hdata => simp [accepts, ht, he, hdata] at hacc
    | requested ht => exact h.requested hout (hnum ht)
    | informed ht he => simp [h.info] at he

/-- Behind the packet, the copies counted are those sent. -/
theorem Copies.transmit (h : Sending contents f n c) (hk : Copies last.length c)
    (hr : Rounds contents c.bufsz n last l) (hten : c.retries.toNat < 10) :
    ∃ last', Rounds contents c.bufsz n last' (l ++ dats c.transmit.2.toList) ∧
      1 ≤ last'.length ∧ last'.length ≤ c.retries.toNat + 1 := by
  by_cases hp : c.pending
  · have hout : c.transmit.2 = some c.outpkt := by
      unfold Comm.transmit
      rw [if_pos hp.1]
      split_ifs <;> rfl
    have hd : dats c.transmit.2.toList = [c.outpkt] := by simp [hout, dats, hp.2]
    have hcar := h.held
    rw [outstanding_of_data hp.2] at hcar
    have hle := hk.next hp
    rw [hd]
    exact ⟨last ++ [c.outpkt], hr.again hcar (by omega), by simp, by simpa using hle⟩
  · have hd : dats c.transmit.2.toList = [] := by
      cases hout : c.transmit.2 with
      | none => rfl
      | some p =>
        obtain ⟨ht, rfl⟩ := transmit_out hout
        have hne : c.outpkt.type ≠ pktTypeDAT := fun he => hp ⟨ht, he⟩
        simp [dats, hne]
    rw [hd, List.append_nil]
    exact ⟨last, hr, hk.behind hp⟩

/-! ## 4. Before the file is open -/

omit [Host] in
theorem requested_info (c : Comm) (number : UInt32) (io : Calls) :
    (c.requested number io).1.status.expectInfo = c.status.expectInfo := by
  unfold Comm.requested
  dsimp only
  split_ifs <;> rfl

/-- A server that asks for the file name opens no file. -/
theorem Asking.received_info (h : Asking c) (p : Packet) (io : Calls) :
    (c.received p io).returned ≠ none ∨ (c.received p io).status.expectInfo = true ∨
      (c.received p io).status.infoInit = true := by
  have hfiles {d : Comm} (hd : d.status.expectInfo = true) : d.files io = d := by
    rw [Comm.files, if_pos hd]
  generalize hd : c.received p io = d
  have hr : Received c p io d := hd ▸ received_cases c p io
  cases hr with
  | ignored =>
    rw [hfiles h.info]
    exact .inr (.inl h.info)
  | unexpected => exact .inl (by simp [fails])
  | accepted ht he hdata =>
    have hi : (c.acknowledged io).1.status.expectInfo = true := by
      simp only [Comm.acknowledged, h.retransmit, Bool.false_eq_true, if_false]
      exact h.info
    split
    · rw [hfiles hi]
      exact .inr (.inl hi)
    · exact .inr (.inl hi)
  | requested ht =>
    have hi := (c.requested_info (ntohl p.sequence) io).trans h.info
    split
    · rw [hfiles hi]
      exact .inr (.inl hi)
    · exact .inr (.inl hi)
  | informed ht he => exact .inr (.inr rfl)

theorem Asking.step_info {c' : Comm} {e : Event} {out : Option Packet} (h : Asking c)
    (hst : c.step e = some (c', out)) :
    c'.returned ≠ none ∨ c'.status.expectInfo = true ∨ c'.status.infoInit = true := by
  cases e with
  | act io =>
    obtain ⟨-, ⟨-, rfl, -⟩ | ⟨-, -, rfl, -⟩⟩ := step_act hst
    · exact .inl (by simp)
    · rw [h.transmit.files]
      exact .inr (.inl h.transmit.info)
  | hear r io =>
    obtain ⟨-, -, -, rfl, -⟩ := step_hear hst
    match r with
    | none => exact .inl (by simp [hear, fails])
    | some p =>
      by_cases hok : p.ok = true
      · rw [hear_ok hok]
        exact h.transmit.restored.received_info p io
      · exact .inr (.inl (h.transmit.damaged (by simpa using hok)).info)

/-- Nothing it sends is data, and nothing it accepts is an acknowledgement of data. -/
theorem Asking.no_data {c' : Comm} {e : Event} {out : Option Packet} (h : Asking c)
    (hst : c.step e = some (c', out)) : dats out.toList = [] ∧ c.acked e = false := by
  have hne {d : Comm} (hd : Asking d) : d.outpkt.type ≠ pktTypeDAT := by
    intro ht
    have hheld := hd.held
    rw [outstanding_of_data ht, ht] at hheld
    exact absurd hheld (by decide)
  refine ⟨?_, ?_⟩
  · cases out with
    | none => rfl
    | some p =>
      obtain ⟨-, -, rfl⟩ := step_out hst
      simp [dats, hne h]
  · have he : c.evaluating.outpkt.type ≠ pktTypeDAT := hne h.transmit.restored
    cases e with
    | act io => rfl
    | hear r io =>
      cases r with
      | none => rfl
      | some p => simp [acked, he]

/-- The file is opened and its first packet prepared. -/
theorem Opening.lands (h : Opening c) : ((c.files io).status.quit = true ∨
    (c.files io).returned ≠ none) ∨
      ∃ contents f, Sending contents f 0 (c.files io) ∧ (c.files io).pending := by
  cases hf : Host.file c.fromname with
  | none =>
    rw [Comm.files, if_neg (by simp [h.info]), if_pos h.init]
    simp [hf, fails]
  | some contents =>
    by_cases hst : io.stats = true
    · rw [h.files_eq hf hst]
      rcases (h.reading hf).lands with hend | ⟨f, hs⟩
      · exact .inl hend
      · exact .inr ⟨contents, f, hs⟩
    · rw [Comm.files, if_neg (by simp [h.info]), if_pos h.init]
      simp [hf, hst, fails]

/-! ## 5. Runs -/

/-- Before the file is open nothing is counted. -/
theorem InRound.step_before {c' : Comm} {e : Event} {out : Option Packet}
    (h : Asking c ∨ Opening c ∧ c.status.transmit = true) (hr : InRange c e)
    (hm : ¬ c.Misnumbers e) (hst : c.step e = some (c', out)) :
    InRound (c', [] ++ dats out.toList, 0 + if c.acked e then 1 else 0) := by
  have hover {d : Comm} (hd : d.status.quit = true ∨ d.returned ≠ none) : InRound (d, [], 0) :=
    .ended hd (fun hne => absurd rfl hne) (rounds_nil [] d.bufsz)
  rcases h with h | ⟨h, ht⟩
  · obtain ⟨hd, hacked⟩ := h.no_data hst
    rw [hd, hacked]
    change InRound (c', [], 0)
    cases (Phase.asking h).step hr hm hst with
    | asking h' => exact .before (.inl h')
    | opening h' ht' => exact .before (.inr ⟨h', ht'⟩)
    | finished h' => exact hover h'
    | sending hn h' =>
      rcases h.step_info hst with hret | hi | hi
      · exact hover (.inr hret)
      · simp [h'.info] at hi
      · simp [h'.init] at hi
  · obtain ⟨hsent, hrec⟩ := h.sent ht
    cases e with
    | act io =>
      obtain ⟨-, ⟨-, rfl, rfl⟩ | ⟨-, -, rfl, rfl⟩⟩ := step_act hst
      · exact hover (.inr (by simp))
      · have hd : dats c.transmit.2.toList = [] := by
          cases hout : c.transmit.2 with
          | none => rfl
          | some p =>
            obtain ⟨-, rfl⟩ := transmit_out hout
            simp [dats, h.held]
        rw [hd]
        change InRound (c.transmit.1.files io, [], 0)
        rcases @Opening.lands _ _ io hsent with hov | ⟨contents, f, hs, hp⟩
        · exact hover hov
        · have hk : Copies ([] : List Packet).length (c.transmit.1.files io) :=
            ⟨fun _ => Nat.zero_le _, fun hnp => absurd hp hnp⟩
          exact .out (by decide) hs hk (rounds_nil contents _)
    | hear r io =>
      obtain ⟨-, -, hrec', -⟩ := step_hear hst
      simp [hrec] at hrec'

theorem Sending.sequence_eq (h : Sending contents f n c) (hn : n < 2 ^ 32) :
    c.sequence.toNat = n := by
  rw [h.number, UInt32.toNat_ofNat']
  exact Nat.mod_eq_of_lt hn

omit [Host] in
/-- Sending leaves alone what a packet is evaluated with. -/
theorem evaluating_fixed (c : Comm) : Fixed c c.evaluating ∧
    c.evaluating.sequence = c.sequence ∧ c.evaluating.retries = c.retries := by
  obtain ⟨r, a, ht⟩ := c.transmit_eq
  rw [evaluating, ht]
  exact ⟨⟨rfl, rfl⟩, rfl, rfl⟩

/-- **A valid packet**, in a run that stays in range and does not misnumber. -/
theorem Sending.heard (h : Sending contents f n c) (hn : n < 2 ^ 32) (hok : p.ok = true)
    (hr : InRange c (.hear (some p) io)) (hm : ¬ c.Misnumbers (.hear (some p) io)) :
    Turned contents n c (c.evaluating.received p io) (c.acked (.hear (some p) io)) ∧
      Fixed c (c.evaluating.received p io) := by
  have hs : Sending contents f n c.evaluating := h.transmit.restored
  have hdat : c.evaluating.outpkt.type = pktTypeDAT := h.transmit.held.type
  obtain ⟨⟨hB, hname⟩, hseq, hretries⟩ := c.evaluating_fixed
  have hfit : p.type = pktTypeACK → c.evaluating.bufsz.toNat * (n + 1) < 2 ^ 32 := by
    intro ht
    rw [hB, ← h.sequence_eq hn]
    exact (hr hok).2 ht
  have hnum : p.type = pktTypeRET → ntohl p.sequence ≠ c.evaluating.sequence →
      (f.lseek (c.evaluating.bufsz * ntohl p.sequence)).ahead c.evaluating.bufsz.toNat ≠ [] →
      (f.lseek (c.evaluating.bufsz * ntohl p.sequence)).ahead c.evaluating.bufsz.toNat =
        slice contents c.evaluating.bufsz.toNat n := by
    rw [hB, hseq]
    intro ht hne hnil
    by_contra hother
    refine hm ⟨hok, ht, hne, ?_⟩
    intro g hg
    obtain rfl : f = g := Option.some.inj (h.fd.symm.trans hg)
    rw [h.holds, h.sequence_eq hn]
    exact ⟨hnil, hother⟩
  obtain ⟨hd, hfix⟩ := @Sending.turned _ _ _ _ _ io _ hs hdat (transmit_cleared c) hfit hnum
  have hacked : c.acked (.hear (some p) io) = c.evaluating.accepts p := by
    simp [acked, hok, hdat]
  rw [hacked]
  refine ⟨?_, hfix.bufsz.trans hB, hfix.fromname.trans hname⟩
  cases hd with
  | stays ha h hp hk => exact .stays ha h hp (hk.trans hretries)
  | again ha h hp hk => exact .again ha h hp (hk.trans (by rw [hretries]))
  | next ha hn h hp => exact .next ha hn h hp
  | ended h => exact .ended h

/-- From the packet that is out to the same one or the next. -/
theorem InRound.step_out {c' : Comm} {e : Event} {out : Option Packet} (hn : n < 2 ^ 32)
    (h : Sending contents f n c) (hk : Copies last.length c)
    (hrs : Rounds contents c.bufsz n last l) (hr : InRange c e) (hm : ¬ c.Misnumbers e)
    (hst : c.step e = some (c', out)) :
    InRound (c', l ++ dats out.toList, n + if c.acked e then 1 else 0) := by
  have hten (hl : c.leaves = false) : c.retries.toNat < 10 := by
    simp only [leaves, Bool.or_eq_false_iff, decide_eq_false_iff_not] at hl
    exact UInt32.not_le.mp hl.2
  have htr : Fixed c c.transmit.1 ∧ c.transmit.1.retries = c.retries := by
    obtain ⟨r, a, ht⟩ := c.transmit_eq
    rw [ht]
    exact ⟨⟨rfl, rfl⟩, rfl⟩
  obtain ⟨⟨hB, -⟩, hretries⟩ := htr
  cases e with
  | act io =>
    obtain ⟨-, ⟨-, rfl, rfl⟩ | ⟨hl, -, rfl, rfl⟩⟩ := step_act hst
    · rw [Option.toList_none]
      change InRound (_, l ++ [], n)
      rw [List.append_nil]
      exact .ended (.inr (by simp)) (fun _ => h.named) hrs
    · obtain ⟨last', hrs', hb⟩ := hk.transmit h hrs (hten hl)
      rw [h.transmit.files]
      rw [← hB] at hrs'
      rw [← hretries] at hb
      exact .out hn h.transmit ⟨fun hp => by simpa [transmit_cleared] using hp.1, fun _ => hb⟩ hrs'
  | hear r io =>
    obtain ⟨-, hl, -, rfl, rfl⟩ := step_hear hst
    obtain ⟨last', hrs', hb⟩ := hk.transmit h hrs (hten hl)
    cases r with
    | none =>
      rw [← hB] at hrs'
      exact .ended (.inr (by simp [hear, fails])) (fun _ => h.transmit.named) hrs'
    | some p =>
      by_cases hok : p.ok = true
      · obtain ⟨hd, hfix⟩ := h.heard hn hok hr hm
        rw [← hfix.bufsz] at hrs'
        rw [hear_ok hok]
        change InRound (c.evaluating.received p io, _)
        have hne : last' ≠ [] := List.length_pos_iff.mp hb.1
        cases hd with
        | stays ha hs hp hk =>
          rw [ha]
          exact .out hn hs ⟨fun hp' => absurd hp' hp, fun _ => by rwa [hk]⟩ hrs'
        | again ha hs hp hk =>
          rw [ha]
          refine .out hn hs ⟨fun _ => ?_, fun hp' => absurd hp hp'⟩ hrs'
          have hlt := hten hl
          have hone : (1 : UInt32).toNat = 1 := rfl
          rw [hk, UInt32.toNat_add, hone, Nat.mod_eq_of_lt (by omega)]
          exact hb.2
        | next ha hn' hs hp =>
          rw [ha]
          have hk' : Copies ([] : List Packet).length (c.evaluating.received p io) :=
            ⟨fun _ => Nat.zero_le _, fun hp' => absurd hp hp'⟩
          exact .out hn' hs hk' (hrs'.next hne)
        | ended hov =>
          have hname : Host.file (c.evaluating.received p io).fromname = some contents := by
            rw [hfix.fromname]
            exact h.named
          cases c.acked (.hear (some p) io) with
          | false => exact .ended hov (fun _ => hname) hrs'
          | true => exact .ended hov (fun _ => hname) (hrs'.next hne)
      · have hbad : p.ok = false := by simpa using hok
        have hacked : c.acked (.hear (some p) io) = false := by simp [acked, hbad]
        rw [hacked, hear_damaged hbad]
        rw [← hB] at hrs'
        rw [← hretries] at hb
        have hs : Sending contents f n c.transmit.1.requesting := by
          have hs := @Sending.damaged _ _ _ _ _ io _ h.transmit hbad
          rwa [hear_damaged hbad] at hs
        refine .out hn hs ⟨?_, fun _ => hb⟩ hrs'
        exact fun hp => absurd hp.2 (by simp [retransmitpkt])

end Iteration

theorem inRound_of_reach {c : Comm} {l : List Packet} {n : ℕ} (h : answered.Reach (c, l, n)) :
    InRound (c, l, n) := by
  refine h.recorded (I := fun c x => InRound (c, x)) ?_ ?_
  · rintro c rfl
    exact .before (.inl start_asking)
  · rintro c e t ⟨l, n⟩ hi ⟨⟨-, hr⟩, hm⟩ hn
    obtain ⟨⟨c', out⟩, hst, rfl⟩ := Option.map_eq_some_iff.mp hn
    have hout : c.output e = out := by simp [output, hst]
    rw [hout]
    cases hi with
    | before h => exact InRound.step_before h hr hm hst
    | out hn h hk hrs => exact InRound.step_out hn h hk hrs hr hm hst
    | ended h hname hrs =>
      cases e with
      | act io =>
        obtain ⟨hret, ⟨-, rfl, rfl⟩ | ⟨hl, -⟩⟩ := step_act hst
        · rw [Option.toList_none]
          change InRound (_, l ++ [], n)
          rw [List.append_nil]
          exact .ended (.inr (by simp)) hname hrs
        · simp [leaves_of_finished h hret] at hl
      | hear r io =>
        obtain ⟨hret, hl, -⟩ := step_hear hst
        simp [leaves_of_finished h hret] at hl

/-- **Stop and wait.**  In every run in which no request misnumbers, the data packets sent so far
come in rounds, the `k`-th of which is the `k`-th packet of the file, sent between once and ten
times; and there are as many rounds as acknowledgements of data packets have been accepted, and at
most one more. -/
theorem stop_and_wait (c : Comm) (l : List Packet) (n : ℕ) (h : answered.Reach (c, l, n)) :
    ∃ contents, (l ≠ [] → Host.file c.fromname = some contents) ∧
      ∃ rounds : List (List Packet), l = rounds.flatten ∧ n ≤ rounds.length ∧
        rounds.length ≤ n + 1 ∧ ∀ k b, rounds[k]? = some b → Round contents c.bufsz k b := by
  cases inRound_of_reach h with
  | before h => exact ⟨[], fun hne => absurd rfl hne, (rounds_nil [] c.bufsz).cut⟩
  | out hn h hk hr => exact ⟨_, fun _ => h.named, hr.cut⟩
  | ended h hname hr => exact ⟨_, hname, hr.cut⟩

end Comm

end Fileserver.StopWait

namespace Fileserver.StopWait.Comm

open Proto

local instance roundsHost : Host := refHost [1, 2]

/-- Packet 0 is asked for again, acknowledged, and packet 1 is sent: two rounds, of two packets and
one. -/
theorem stop_and_wait_two :
    ∃ c l, answered.Reach (c, l, 1) ∧ l.length = 3 ∧
      ∃ contents, (l ≠ [] → Host.file c.fromname = some contents) ∧
        ∃ rounds : List (List Packet), l = rounds.flatten ∧ 1 ≤ rounds.length ∧
          rounds.length ≤ 2 ∧ ∀ k b, rounds[k]? = some b → Round contents c.bufsz k b := by
  have h0 : answered.Reach (start, [], 0) := .start ⟨rfl, rfl⟩
  obtain ⟨⟨c, l, n⟩, h, hs⟩ := h0.run_any
    [.hear (some fln) calm, .act calm, .hear (some (retransmitpkt 0)) calm,
      .hear (some (Packet.sealed { memset pktTypeACK with data := copied pktTypeACK [1] })) calm,
      .hear none calm] (fun x => decide (x.2.1.length = 3 ∧ x.2.2 = 1)) (by decide +kernel)
  obtain ⟨hl, rfl⟩ := of_decide_eq_true hs
  exact ⟨c, l, h, hl, stop_and_wait c l 1 h⟩

end Fileserver.StopWait.Comm
