/-
# The end of the file

In a run without errors `client_comm` sends the packets of the file in order, and each of them
once.  It learns that the file has ended when a read gives nothing, and then it has prepared an
empty packet; but the loop tests its `QUIT` bit before that packet is sent.  So the last packet
sent is short exactly if the file does not end on a packet boundary, and only a short packet
tells the client in `rcopy.c` to stop.
-/
import Fileserver.StopWait.Numbering

namespace Fileserver.StopWait

open Proto

/-! ## 1. The packets of a file -/

/-- The number of packets a file takes. -/
def packets (len B : ℕ) : ℕ := (len + B - 1) / B

theorem lt_packets_iff {len B k : ℕ} (hB : 0 < B) : k < packets len B ↔ k * B < len := by
  rw [packets, Nat.lt_iff_add_one_le, Nat.le_div_iff_mul_le hB, Nat.succ_mul]
  omega

theorem slice_eq_nil_iff {file : List UInt8} {B n : ℕ} (hB : 0 < B) :
    slice file B n = [] ↔ ¬ n < packets file.length B := by
  rw [← List.length_eq_zero_iff, length_slice, lt_packets_iff hB, Nat.succ_mul]
  omega

variable [Host]

theorem length_bytes (p : Packet) (n : ℕ) : (p.bytes n).length = n := by
  simp only [Packet.bytes, List.length_append, List.length_take, Vector.length_toList,
    List.length_map, List.length_range]
  omega

/-- The first `n` packets of a file. -/
structure Log (contents : List UInt8) (B : UInt32) (n : ℕ) (l : List Packet) : Prop where
  length : l.length = n
  carries : ∀ k p, l[k]? = some p → Carries contents B k p
  data : l.flatMap (fun p => p.bytes p.size.toNat) = contents.take (n * B.toNat)

theorem log_nil (contents : List UInt8) (B : UInt32) : Log contents B 0 [] where
  length := rfl
  carries := by simp
  data := by simp

theorem Log.snoc {contents : List UInt8} {B : UInt32} {n : ℕ} {l : List Packet} {p : Packet}
    (h : Log contents B n l) (hp : Carries contents B n p) :
    Log contents B (n + 1) (l ++ [p]) where
  length := by simp [h.length]
  carries := by
    intro k q hq
    rcases Nat.lt_or_ge k l.length with hk | hk
    · rw [List.getElem?_append_left hk] at hq
      exact h.carries k q hq
    · rw [List.getElem?_append_right hk, List.getElem?_singleton] at hq
      split_ifs at hq with h0
      obtain rfl := Option.some.inj hq
      obtain rfl : k = n := by have := h.length; omega
      exact hp
  data := by
    rw [List.flatMap_append, h.data, List.flatMap_singleton, hp.bytes, take_slice]

/-- What the client needs: the packets numbered from 0, the whole file in them, and a last packet
that is short, by which `rcopy` knows the end. -/
structure Complete (contents : List UInt8) (B : ℕ) (l : List Packet) : Prop where
  numbered : ∀ k p, l[k]? = some p → (ntohl p.sequence).toNat = k
  data : l.flatMap (fun p => p.bytes p.size.toNat) = contents
  last : ∃ p, l.getLast? = some p ∧ p.size.toNat < B

theorem Log.size {contents : List UInt8} {B : UInt32} {n k : ℕ} {l : List Packet} {p : Packet}
    (h : Log contents B n l) (hp : l[k]? = some p) :
    p.size.toNat = min ((k + 1) * B.toNat) contents.length - k * B.toNat := by
  have hb := congrArg List.length (h.carries k p hp).bytes
  rwa [length_bytes, length_slice] at hb

omit [Host] in
/-- A length that ends in its `m`-th block ends it exactly if it is a multiple of the block. -/
theorem mod_ne_zero_iff {len B m : ℕ} (h1 : m * B < len) (h2 : len ≤ (m + 1) * B) :
    len % B ≠ 0 ↔ len < (m + 1) * B := by
  rw [Nat.succ_mul] at h2 ⊢
  obtain ⟨r, rfl⟩ := Nat.exists_eq_add_of_le h1.le
  rw [Nat.mul_comm m B, Nat.mul_add_mod]
  rw [Nat.mul_comm m B] at h1 h2
  constructor
  · intro hr
    have hne : r ≠ B := by
      rintro rfl
      exact hr (Nat.mod_self _)
    omega
  · intro hlt
    rw [Nat.mod_eq_of_lt (by omega)]
    omega

/-- **All packets of a file are complete** unless it ends on a packet boundary or has more packets
than there are numbers. -/
theorem Log.complete_iff {contents : List UInt8} {B : UInt32} {l : List Packet}
    (hB : 1 ≤ B.toNat) (h : Log contents B (packets contents.length B.toNat) l) :
    Complete contents B.toNat l ↔
      contents.length % B.toNat ≠ 0 ∧ contents.length < 2 ^ 32 * B.toNat := by
  have hall (k : ℕ) : k < packets contents.length B.toNat ↔ k * B.toNat < contents.length :=
    lt_packets_iff hB
  cases hN : packets contents.length B.toNat with
  | zero =>
    have hlen : contents.length = 0 := by
      have := hall 0
      omega
    have hnil : l = [] := List.length_eq_zero_iff.mp (h.length.trans hN)
    constructor
    · rintro ⟨-, -, p, hp, -⟩
      simp [hnil] at hp
    · simp [hlen]
  | succ m =>
    have hm1 : m * B.toNat < contents.length := (hall m).mp (by omega)
    have hm2 : contents.length ≤ (m + 1) * B.toNat := by
      have := (hall (m + 1)).not.mp (by omega)
      omega
    have hlen : l.length = m + 1 := h.length.trans hN
    obtain ⟨p, hp⟩ : ∃ p, l[m]? = some p := ⟨_, List.getElem?_eq_getElem (by omega)⟩
    have hlast : l.getLast? = some p := by
      rw [List.getLast?_eq_getElem?, hlen]
      exact hp
    have hsize := h.size hp
    have hdata : l.flatMap (fun p => p.bytes p.size.toNat) = contents := by
      rw [h.data, hN]
      exact List.take_of_length_le hm2
    rw [mod_ne_zero_iff hm1 hm2]
    rw [Nat.succ_mul] at hm2 hsize ⊢
    constructor
    · rintro ⟨hnum, -, q, hq, hshort⟩
      obtain rfl : p = q := Option.some.inj (hlast.symm.trans hq)
      have hm := hnum m p hp
      rw [(h.carries m p hp).number, UInt32.toNat_ofNat'] at hm
      have hm32 : m < 2 ^ 32 := hm ▸ Nat.mod_lt _ (by decide)
      have := Nat.mul_le_mul_right B.toNat (Nat.succ_le_of_lt hm32)
      rw [Nat.succ_mul] at this
      omega
    · rintro ⟨hlt, h32⟩
      refine ⟨?_, hdata, p, hlast, by omega⟩
      intro k q hq
      have hk : k < l.length := (List.getElem?_eq_some_iff.mp hq).1
      have hkm := Nat.mul_le_mul_right B.toNat (show k ≤ m by omega)
      have hk32 : k < 2 ^ 32 := Nat.lt_of_mul_lt_mul_right (a := B.toNat) (by omega)
      rw [(h.carries k q hq).number, UInt32.toNat_ofNat']
      exact Nat.mod_eq_of_lt hk32

/-! ## 2. The error-free run -/

/-- Every system call of the iteration succeeds. -/
def Calls.Succeed (io : Calls) : Prop := io.seeks = true ∧ io.stats = true ∧ io.reads = true

namespace Comm

/-- The peer's side: the file request first, and to every data packet an acknowledgement with the
same data. -/
def Answers (fln : Packet) (c : Comm) (p : Packet) : Prop :=
  if c.status.expectInfo then p = fln
  else p.ok = true ∧ p.type = pktTypeACK ∧ p.data.toList = c.outpkt.data.toList

/-- `client_comm` with such a peer, next to what it has sent. -/
def errorFree (fln : Packet) : System (Comm × List Packet) Event where
  start x := x = (start, [])
  may x e :=
    match e with
    | .act io => io.Succeed
    | .hear none _ => False
    | .hear (some p) io => io.Succeed ∧ Answers fln x.1 p
  next x e := (x.1.step e).map fun t => (t.1, x.2 ++ t.2.toList)

/-- The data packets among them. -/
def dats (l : List Packet) : List Packet := l.filter fun p => p.type = pktTypeDAT

/-- A valid request for a file with these contents. -/
structure Request (fln : Packet) (contents : List UInt8) : Prop where
  ok : fln.ok = true
  type : fln.type = pktTypeFLN
  named : Host.file (cstr fln.data) = some contents
  size : 1 ≤ fln.size.toNat ∧ fln.size.toNat ≤ pktDMax

/-- The `n`-th packet is about to be sent for the first time. -/
structure Prepared (contents : List UInt8) (f : File) (n : ℕ) (c : Comm) : Prop extends
    Sending contents f n c where
  ready : c.status.transmit = true
  plain : c.status.retransmit = false
  goes : c.status.quit = false
  fresh : c.retries = 0
  runs : c.returned = none
  data : c.outpkt.type = pktTypeDAT

/-- The packets of the file, as the request cuts it. -/
def total (fln : Packet) (contents : List UInt8) : ℕ :=
  packets contents.length fln.size.toNat

/-- Where the run is, with the iterations that are left. -/
inductive Stage (fln : Packet) (contents : List UInt8) : ℕ → Comm × List Packet → Prop
  | asked : Stage fln contents (total fln contents + 3) (start, [])
  | named {c : Comm} (h : Opening c) (ht : c.status.transmit = true)
      (hq : c.status.quit = false) (hk : c.retries = 0) (hr : c.returned = none)
      (hname : c.fromname = cstr fln.data) (hB : c.bufsz = fln.size.toUInt32) :
      Stage fln contents (total fln contents + 2) (c, [])
  | out {n k : ℕ} {f : File} {c : Comm} {l : List Packet} (h : Prepared contents f n c)
      (hB : c.bufsz = fln.size.toUInt32) (hn : n + k = total fln contents) (hk : 0 < k)
      (hl : Log contents fln.size.toUInt32 n (dats l)) : Stage fln contents (k + 1) (c, l)
  | told {c : Comm} {l : List Packet} (hq : c.status.quit = true) (hr : c.returned = none)
      (hl : Log contents fln.size.toUInt32 (total fln contents) (dats l)) :
      Stage fln contents 1 (c, l)

/-- It has returned, and sent what it sends. -/
def Ended (fln : Packet) (contents : List UInt8) (x : Comm × List Packet) : Prop :=
  x.1.returned.isSome = true ∧
    Log contents fln.size.toUInt32 (total fln contents) (dats x.2)

section Run

variable {fln : Packet} {contents : List UInt8} {f : File} {n : ℕ} {c : Comm} {io : Calls}

/-- A read that is not the last prepares the next packet, and one at the end tells the loop to
end. -/
theorem Reading.prepares (h : Reading contents f n c) (hr : io.reads = true)
    (hre : c.status.retransmit = false) (hq : c.status.quit = false) (hk : c.retries = 0)
    (hret : c.returned = none) (hB : c.bufsz = fln.size.toUInt32) :
    (n < total fln contents → Prepared contents (f.advance c.bufsz.toNat) n (c.nextData io)) ∧
    (¬ n < total fln contents →
      (c.nextData io).status.quit = true ∧ (c.nextData io).returned = none) := by
  have hb : c.bufsz.toNat = fln.size.toNat := by rw [hB, UInt16.toNat_toUInt32]
  have hf : f.ahead c.bufsz.toNat = [] ↔ ¬ n < total fln contents := by
    rw [(h.first hre).1.ahead, h.holds, total, ← hb]
    exact slice_eq_nil_iff h.size.1
  refine ⟨?_, ?_⟩
  · intro hn
    have hnil : f.ahead c.bufsz.toNat ≠ [] := fun he => hf.mp he hn
    have hs := h.read hr hnil
    simp only [Comm.nextData, h.wants, if_true, h.fd, hr] at hs ⊢
    exact
      { hs with
        ready := rfl, plain := hre, goes := by simp [hq, hnil], fresh := hk, runs := hret
        data := rfl }
  · intro hn
    simp only [Comm.nextData, h.wants, if_true, h.fd, hr]
    exact ⟨by simp [hf.mpr hn], hret⟩

omit [Host] in
theorem dats_append (l : List Packet) (p : Packet) (h : p.type = pktTypeDAT) :
    dats (l ++ [p]) = dats l ++ [p] := by
  simp [dats, h]

/-- Sending the packet, and what is then waited for. -/
theorem Prepared.sends (h : Prepared contents f n c) :
    c.transmit = ({ c with
      status := { c.status with transmit := false, receive := true, expectAck := true } },
      some c.outpkt) := by
  have hack : c.outpkt.type ≠ pktTypeACK := by
    rw [h.data]
    decide
  have hret : c.outpkt.type ≠ pktTypeRET := by
    rw [h.data]
    decide
  rw [Comm.transmit, if_pos h.ready, if_pos hack, if_pos hret]

/-- **The answer to the packet that is out** makes the server read on. -/
theorem Prepared.answered {p : Packet} (h : Prepared contents f n c) (hp : Answers fln c p)
    (io : Calls) :
    ∃ d, (c.transmit.1.hear (some p) io) = d.nextData io ∧ Reading contents f (n + 1) d ∧
      d.status.retransmit = false ∧ d.status.quit = false ∧ d.retries = 0 ∧
      d.returned = none ∧ d.bufsz = c.bufsz := by
  rw [Answers, if_neg (by simp [h.info])] at hp
  obtain ⟨hok, ht, hdata⟩ := hp
  have hs := h.toSending.transmit.restored
  have hout : c.transmit.1.outstanding = c.outpkt := by
    rw [h.sends]
    exact outstanding_of_data h.data
  rw [hear_ok hok, hout]
  rw [hout, h.sends] at hs
  rw [h.sends]
  obtain ⟨hgo, hread⟩ := hs.next h.data h.plain io
  refine ⟨_, ?_, hread, ?_⟩
  · rw [← hread.toOpened.files]
    simp only [Comm.received, evaluate, if_pos ht, if_true, hdata, hgo]
  · simp [acknowledged, h.plain, h.goes, h.runs]

variable (fln) in
/-- Where a read leads the run that has sent `n` packets. -/
theorem Reading.stage {l : List Packet} (h : Reading contents f n c) (hr : io.reads = true)
    (hre : c.status.retransmit = false) (hq : c.status.quit = false) (hk : c.retries = 0)
    (hret : c.returned = none) (hB : c.bufsz = fln.size.toUInt32)
    (hn : n ≤ total fln contents) (hl : Log contents fln.size.toUInt32 n (dats l)) :
    ∃ m ≤ total fln contents - n + 1, Stage fln contents m (c.nextData io, l) := by
  obtain ⟨hmore, hlast⟩ := h.prepares hr hre hq hk hret hB
  have hsize : (c.nextData io).bufsz = fln.size.toUInt32 := by
    simp only [Comm.nextData, h.wants, if_true, h.fd, hr]
    exact hB
  by_cases hlt : n < total fln contents
  · exact ⟨_, le_refl _, .out (hmore hlt) hsize (by omega) (by omega) hl⟩
  · obtain ⟨hquit, hreturned⟩ := hlast hlt
    obtain rfl : n = total fln contents := by omega
    exact ⟨1, by omega, .told hquit hreturned hl⟩

/-- The request is taken and will be acknowledged. -/
theorem Request.asked (h : Request fln contents) :
    start.step (.hear (some fln) io) = some ({ start with
      bufsz := fln.size.toUInt32
      fromname := cstr fln.data
      outpkt := ackpkt fln
      status := { start.status with expectInfo := false, infoInit := true, transmit := true } },
      none) := by
  have hack : pktTypeFLN ≠ pktTypeACK := by decide
  have hret : pktTypeFLN ≠ pktTypeRET := by decide
  have hout : start.outstanding = start.outpkt := outstanding_of_ne (by decide)
  have htr : start.transmit = (start, none) := rfl
  simp only [Comm.step, htr, hear_ok h.ok, hout]
  simp [Comm.received, evaluate, informed, h.type, hack, hret, start, leaves]

/-- **Every iteration brings the run closer to its end.** -/
theorem Stage.step {k : ℕ} {x y : Comm × List Packet} {e : Event} (h : Stage fln contents k x)
    (hfln : Request fln contents) (hm : (errorFree fln).may x e)
    (hn : (errorFree fln).next x e = some y) :
    Ended fln contents y ∨ ∃ m < k, Stage fln contents m y := by
  obtain ⟨⟨c', out⟩, hst, rfl⟩ := Option.map_eq_some_iff.mp hn
  cases h with
  | asked =>
    cases e with
    | act io =>
      obtain ⟨-, ⟨hl, -⟩ | ⟨-, hrec, -⟩⟩ := step_act hst
      · simp [leaves, start] at hl
      · simp [Comm.transmit, start] at hrec
    | hear r io =>
      cases r with
      | none => exact hm.elim
      | some p =>
        obtain ⟨-, hp⟩ := hm
        obtain rfl : p = fln := by simpa [Answers, start] using hp
        rw [hfln.asked] at hst
        obtain ⟨rfl, rfl⟩ := Prod.mk.inj (Option.some.inj hst)
        refine .inr ⟨_, Nat.lt_succ_self _, .named ?_ rfl rfl rfl rfl rfl rfl⟩
        exact
          { info := rfl, init := rfl, retransmit := rfl, sequence := rfl, offset := rfl
            size := by simpa using hfln.size, held := rfl }
  | @named c h ht hq hk hr hname hB =>
    obtain ⟨hsent, hrec⟩ := h.sent ht
    cases e with
    | hear r io =>
      obtain ⟨-, -, hrec', -⟩ := step_hear hst
      simp [hrec] at hrec'
    | act io =>
      obtain ⟨-, ⟨hl, -⟩ | ⟨-, -, rfl, rfl⟩⟩ := step_act hst
      · simp [leaves, hq, hk] at hl
      · obtain ⟨b, a, htr⟩ := c.transmit_eq
        have hfile : Host.file c.transmit.1.fromname = some contents := by
          rw [htr]
          exact hname ▸ hfln.named
        have hdats : dats ([] ++ c.transmit.2.toList) = [] := by
          simp [Comm.transmit, ht, dats, h.held]
        rw [hsent.files_eq hfile hm.2.1]
        obtain ⟨m, hm', hstage⟩ := (hsent.reading hfile).stage fln
          (l := [] ++ c.transmit.2.toList) hm.2.2 hsent.retransmit (by rw [htr]; exact hq)
          (by rw [htr]; exact hk) (by rw [htr]; exact hr) (by rw [htr]; exact hB)
          (Nat.zero_le _) (hdats ▸ log_nil contents _)
        exact .inr ⟨m, by omega, hstage⟩
  | @out n k f c l h hB hn hk hl =>
    cases e with
    | act io =>
      obtain ⟨-, ⟨hlv, -⟩ | ⟨-, hrec, -⟩⟩ := step_act hst
      · simp [leaves, h.goes, h.fresh] at hlv
      · simp [h.sends] at hrec
    | hear r io =>
      cases r with
      | none => exact hm.elim
      | some p =>
        obtain ⟨hio, hp⟩ := hm
        obtain ⟨-, -, -, rfl, rfl⟩ := step_hear hst
        obtain ⟨d, heq, hread, hre, hq, hk', hret, hBd⟩ := h.answered hp io
        have hcar : Carries contents fln.size.toUInt32 n c.outpkt := by
          rw [← hB, ← outstanding_of_data h.data]
          exact h.held
        have hlog : Log contents fln.size.toUInt32 (n + 1) (dats (l ++ [c.outpkt])) := by
          rw [dats_append _ _ h.data]
          exact hl.snoc hcar
        obtain ⟨m, hm', hstage⟩ := hread.stage fln hio.2.2 hre hq hk' hret
          (hBd.trans hB) (by omega) hlog
        rw [heq, h.sends]
        exact .inr ⟨m, by omega, hstage⟩
  | @told c l hq hr hl =>
    cases e with
    | act io =>
      obtain ⟨-, ⟨-, rfl, rfl⟩ | ⟨hlv, -⟩⟩ := step_act hst
      · exact .inl ⟨rfl, by simpa using hl⟩
      · simp [leaves, hq] at hlv
    | hear r io =>
      obtain ⟨-, hlv, -⟩ := step_hear hst
      simp [leaves, hq] at hlv

/-- Short of its end the run can go on. -/
theorem Stage.move {k : ℕ} {x : Comm × List Packet} (h : Stage fln contents k x)
    (hfln : Request fln contents) : ∃ y, (errorFree fln).Move x y := by
  have hcalm : Calls.Succeed ⟨true, true, true⟩ := ⟨rfl, rfl, rfl⟩
  cases h with
  | asked =>
    refine System.exists_move (.hear (some fln) ⟨true, true, true⟩) ⟨hcalm, ?_⟩ ?_
    · simp [Answers, start]
    · simp [errorFree, hfln.asked]
  | @named c h ht hq hk hr hname hB =>
    obtain ⟨-, hrec⟩ := h.sent ht
    refine System.exists_move (.act ⟨true, true, true⟩) hcalm ?_
    simp [errorFree, Comm.step, hr, leaves, hq, hk, hrec]
  | @out n k f c l h hB hn hk hl =>
    refine System.exists_move (.hear (some (Packet.sealed { c.outpkt with type := pktTypeACK }))
      ⟨true, true, true⟩) ⟨hcalm, ?_⟩ ?_
    · simp [Answers, h.info]
    · simp [errorFree, Comm.step, h.runs, leaves, h.goes, h.fresh, h.sends]
  | @told c l hq hr hl =>
    refine System.exists_move (.act ⟨true, true, true⟩) hcalm ?_
    simp [errorFree, Comm.step, hr, leaves, hq]

theorem Stage.returned {k : ℕ} {x : Comm × List Packet} (h : Stage fln contents k x) :
    x.1.returned = none := by
  cases h with
  | asked => rfl
  | named h ht hq hk hr => exact hr
  | out h => exact h.runs
  | told hq hr => exact hr

/-! ## 3. What is delivered -/

/-- What holds in every state of the run. -/
theorem stage_of_reach (hfln : Request fln contents) {x : Comm × List Packet}
    (h : (errorFree fln).Reach x) : Ended fln contents x ∨ ∃ k, Stage fln contents k x := by
  refine h.invariant (I := fun x => Ended fln contents x ∨ ∃ k, Stage fln contents k x) ?_ ?_
  · rintro x rfl
    exact .inr ⟨_, .asked⟩
  · intro x e y _ hi hm hn
    rcases hi with ⟨hret, -⟩ | ⟨k, hk⟩
    · obtain ⟨⟨c', out⟩, hst, -⟩ := Option.map_eq_some_iff.mp hn
      cases e <;> simp [Comm.step, hret] at hst
    · rcases hk.step hfln hm hn with he | ⟨m, -, hm⟩
      · exact .inl he
      · exact .inr ⟨m, hm⟩

/-- **The error-free run ends**, whatever the file. -/
theorem Request.ends (hfln : Request fln contents) :
    (errorFree fln).Inevitable (fun x => x.1.returned.isSome = true) (start, []) := by
  refine System.Inevitable.of_rank (Stage fln contents) (fun k x hk => hk.move hfln) ?_ .asked
  rintro k x y hk ⟨e, hm, hn⟩
  exact (hk.step hfln hm hn).imp_left And.left

/-- Once it has ended, the packets of the file have been sent. -/
theorem Request.sent (hfln : Request fln contents) {x : Comm × List Packet}
    (h : (errorFree fln).Reach x) (hret : x.1.returned.isSome = true) :
    Log contents fln.size.toUInt32 (packets contents.length fln.size.toUInt32.toNat)
      (dats x.2) := by
  rcases stage_of_reach hfln h with ⟨-, hl⟩ | ⟨k, hk⟩
  · rwa [total, ← UInt16.toNat_toUInt32] at hl
  · simp [hk.returned] at hret

/-- **Delivery.**  The error-free run always ends; and then the data packets sent are all the
client needs exactly if the file does not end on a packet boundary, and has no more packets than
there are numbers. -/
theorem delivery_iff (hfln : Request fln contents) :
    (errorFree fln).Inevitable (fun x => x.1.returned.isSome = true) (start, []) ∧
    ∀ x, (errorFree fln).Reach x → x.1.returned.isSome = true →
      (Complete contents fln.size.toNat (dats x.2) ↔
        contents.length % fln.size.toNat ≠ 0 ∧
          contents.length < 2 ^ 32 * fln.size.toNat) := by
  refine ⟨hfln.ends, ?_⟩
  intro x h hret
  have hl := hfln.sent h hret
  have hsize := UInt16.toNat_toUInt32 fln.size
  rw [← hsize]
  exact hl.complete_iff (hsize ▸ hfln.size.1)

end Run

end Comm

end Fileserver.StopWait

namespace Fileserver.StopWait.Comm

open Proto

/-- A request for the file `f` with this buffer size. -/
def request [Host] (bufsz : UInt16) : Packet :=
  Packet.sealed { memset pktTypeFLN with size := bufsz, data := strcpy pktTypeFLN [0x66] }

local instance deliveryHost : Host := refHost [1, 2, 3]

theorem request_of_size (bufsz : UInt16) (h : 1 ≤ bufsz.toNat ∧ bufsz.toNat ≤ pktDMax) :
    Request (request bufsz) [1, 2, 3] where
  ok := Packet.sealed_ok _
  type := rfl
  named := by
    change Host.file (cstr (strcpy pktTypeFLN [0x66])) = some [1, 2, 3]
    decide +kernel
  size := h

/-- **A file of three packets of one byte each**: no packet is short. -/
theorem not_delivery :
    ¬ ∀ (fln : Packet) (contents : List UInt8), Request fln contents →
      ∀ x, (errorFree fln).Reach x → x.1.returned.isSome = true →
        Complete contents fln.size.toNat (dats x.2) := by
  intro hall
  have hreq := request_of_size 1 (by decide)
  obtain ⟨x, h, hret⟩ := hreq.ends.reached (.start rfl)
  have hc := ((hreq.sent h hret).complete_iff (by decide)).mp (hall _ _ hreq x h hret)
  exact hc.1 (by decide)

/-- The same file in packets of two bytes: the last one is short. -/
theorem delivery_short :
    ∃ x, (errorFree (request 2)).Reach x ∧ Complete [1, 2, 3] 2 (dats x.2) := by
  have hreq := request_of_size 2 (by decide)
  obtain ⟨x, h, hret⟩ := hreq.ends.reached (.start rfl)
  exact ⟨x, h, ((delivery_iff hreq).2 x h hret).mpr ⟨by decide, by decide⟩⟩

end Fileserver.StopWait.Comm
