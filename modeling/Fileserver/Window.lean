/-
# The sliding window of the child

What the four state functions of the data phase do to the window, the out-buffer, the counter
and the file position, against a peer that may send anything.

* `Turn` lists every turn the child can take in the data phase with the state it leads to;
  `step_cases` proves the list complete.  Everything below is a case analysis over it.
* `Consec` is the numbering: a run of consecutive numbers ending below the counter.
* `Numbered` and `Loaded` are the two halves of the invariant: the numbers, which need only that
  the counter does not wrap, and the bytes, which need the 32-bit product of `lseek`.
* `window_invariant` puts them together for whole runs.
-/
import Fileserver.Cksum
import Fileserver.Lib.System
import Fileserver.Server
import Mathlib.Data.List.Infix
import Mathlib.Data.List.Range

namespace Fileserver

open Proto

/-! ## 1. Every turn of the data phase -/

namespace Server

variable [Host]

/-- The child has left `init` and not ended. -/
def inData (s : Server) : Prop :=
  s.mvState = .fillWindow ∨ s.mvState = .sendWindow ∨ s.mvState = .waitRR

/-- A system call of the turn returns -1. -/
def Event.fails : Event → Bool
  | .act io => !io
  | .hear .failed _ => true
  | .hear _ io => !io

/-- The packet is a `REJ` for a number below the window. -/
def Rewinds (s : Server) : Recv → Prop
  | .datagram _ buf =>
    buf.ok = true ∧ buf.type = pktTypeREJ ∧ buf.sequence < s.front.sequence
  | _ => False

instance (s : Server) : DecidablePred s.Rewinds
  | .datagram _ _ => inferInstanceAs (Decidable (_ ∧ _ ∧ _))
  | .timeout | .failed => inferInstanceAs (Decidable False)

/-- The turns of the data phase, each with its guard, the state it leads to and what it sends.
Receiving touches the peer address and the retries in passing. -/
inductive Turn (s : Server) : Event → Server → Option Packet → Prop
  | push (hs : s.mvState = .fillWindow) (hl : s.mvWindow.length < s.mvWindowSize.toNat) :
      Turn s (.act true)
        { s with
          mvFrom := s.mvFrom.advance s.mvBufferSize.toNat
          mvSequence := s.mvSequence + 1
          mvWindow := s.mvWindow ++ [s.nextPacket]
          mvOutBuf := s.mvOutBuf ++ [s.nextPacket] } none
  | full {io : Bool} (hs : s.mvState = .fillWindow)
      (hl : s.mvWindowSize.toNat ≤ s.mvWindow.length) :
      Turn s (.act io) { s with mvState := .sendWindow } none
  | sendOne {p : Packet} {rest : List Packet} (hs : s.mvState = .sendWindow)
      (ho : s.mvOutBuf = p :: rest) :
      Turn s (.act true) { s with mvOutBuf := rest } (some p)
  | sent {io : Bool} (hs : s.mvState = .sendWindow) (ho : s.mvOutBuf = []) :
      Turn s (.act io) { s with mvState := .waitRR } none
  | again {r : Recv} {io : Bool} {k : Int} {a : Addr} {m : UInt32} (hs : s.mvState = .waitRR)
      (hr : r.bad = true) :
      Turn s (.hear r io)
        { s with mvRetries := k, mvAddr := a, mvAddrLen := m, mvState := .fillWindow } none
  | shiftTo {src : Addr} {buf : Packet} {io : Bool} (hs : s.mvState = .waitRR)
      (hok : buf.ok = true) (ht : buf.type = pktTypeRR)
      (hle : s.front.sequence ≤ buf.sequence) :
      Turn s (.hear (.datagram src buf) io)
        { s with
          mvRetries := pktTrnsMax, mvAddr := src, mvAddrLen := sizeofIn
          mvWindow := shift buf.sequence s.front.sequence s.mvWindow
          mvState := .fillWindow } none
  | oldRR {src : Addr} {buf : Packet} {io : Bool} (hs : s.mvState = .waitRR)
      (hok : buf.ok = true) (ht : buf.type = pktTypeRR)
      (hlt : buf.sequence < s.front.sequence) :
      Turn s (.hear (.datagram src buf) io)
        { s with mvRetries := pktTrnsMax, mvAddr := src, mvAddrLen := sizeofIn } none
  | resend {src : Addr} {buf : Packet} {io : Bool} (hs : s.mvState = .waitRR)
      (hok : buf.ok = true) (ht : buf.type = pktTypeREJ)
      (hle : s.front.sequence ≤ buf.sequence) :
      Turn s (.hear (.datagram src buf) io)
        { s with
          mvRetries := pktTrnsMax, mvAddr := src, mvAddrLen := sizeofIn
          mvOutBuf := s.mvWindow, mvState := .fillWindow } none
  | rewind {src : Addr} {buf : Packet} (hs : s.mvState = .waitRR)
      (hok : buf.ok = true) (ht : buf.type = pktTypeREJ)
      (hlt : buf.sequence < s.front.sequence) :
      Turn s (.hear (.datagram src buf) true)
        { s with
          mvRetries := pktTrnsMax, mvAddr := src, mvAddrLen := sizeofIn
          mvSequence := buf.sequence
          mvFrom := s.mvFrom.lseek (s.mvBufferSize * buf.sequence)
          mvOutBuf := [], mvWindow := [], mvState := .fillWindow } none
  | ignore {src : Addr} {buf : Packet} {io : Bool} (hs : s.mvState = .waitRR)
      (hok : buf.ok = true) (hr : buf.type ≠ pktTypeRR) (hj : buf.type ≠ pktTypeREJ) :
      Turn s (.hear (.datagram src buf) io)
        { s with mvRetries := pktTrnsMax, mvAddr := src, mvAddrLen := sizeofIn } none
  | fail {e : Event} {k : Int} {a : Addr} {m : UInt32} {q : UInt32}
      (hq : q = s.mvSequence ∨ s.mvState = .waitRR) (he : e.fails = true) :
      Turn s e
        { s with mvRetries := k, mvAddr := a, mvAddrLen := m, mvSequence := q, mvState := .error }
        none

/-- The turns of `waitRR`. -/
theorem waitRR_cases {s : Server} (hs : s.mvState = .waitRR) (r : Recv) (io : Bool) :
    Turn s (.hear r io) (s.waitRR r io) none := by
  cases r with
  | timeout =>
    simp only [waitRR, recvPacket]
    exact .again (a := s.mvAddr) hs rfl
  | failed =>
    simp only [waitRR, recvPacket]
    exact .fail (a := s.mvAddr) (.inl rfl) rfl
  | datagram src buf =>
    simp only [waitRR, recvPacket]
    by_cases hok : buf.ok = true
    · simp only [hok, if_true, waitPacket, front]
      by_cases ht : buf.type = pktTypeRR
      · simp only [ht, if_true]
        by_cases hle : (s.mvWindow.headD Host.stale).sequence ≤ buf.sequence
        · simp only [hle, if_true]
          exact .shiftTo hs hok ht hle
        · simp only [hle, if_false]
          exact .oldRR hs hok ht (UInt32.not_le.mp hle)
      · by_cases hj : buf.type = pktTypeREJ
        · simp only [hj, rej_ne_rr, if_true, if_false]
          by_cases hle : (s.mvWindow.headD Host.stale).sequence ≤ buf.sequence
          · simp only [hle, if_true]
            exact .resend hs hok hj hle
          · simp only [hle, if_false]
            cases io with
            | true => exact .rewind hs hok hj (UInt32.not_le.mp hle)
            | false => exact .fail (.inr hs) rfl
        · simp only [ht, hj, if_false]
          exact .ignore hs hok ht hj
    · simp only [hok, Bool.false_eq_true, if_false]
      exact .again hs (by simpa [Recv.bad] using hok)

/-- **The list of turns is complete.** -/
theorem step_cases {s t : Server} {e : Event} {out : Option Packet} (hd : s.inData)
    (h : s.step e = some (t, out)) : Turn s e t out := by
  cases e with
  | act io =>
    simp only [step, Option.ite_none_right_eq_some, Option.some.injEq] at h
    obtain ⟨hg, hact⟩ := h
    rcases hd with hs | hs | hs
    · simp only [act, hs, fillWindow] at hact
      split at hact
      · rename_i hl
        cases io with
        | true =>
          obtain ⟨rfl, rfl⟩ := Prod.mk.inj hact
          exact hs ▸ .push hs hl
        | false =>
          obtain ⟨rfl, rfl⟩ := Prod.mk.inj hact
          exact .fail (.inl rfl) rfl
      · rename_i hl
        obtain ⟨rfl, rfl⟩ := Prod.mk.inj hact
        exact .full hs (Nat.le_of_not_lt hl)
    · simp only [act, hs, sendWindow] at hact
      split at hact
      · rename_i ho
        obtain ⟨rfl, rfl⟩ := Prod.mk.inj hact
        exact .sent hs ho
      · rename_i p rest ho
        cases io with
        | true =>
          obtain ⟨rfl, rfl⟩ := Prod.mk.inj hact
          exact hs ▸ .sendOne hs ho
        | false =>
          obtain ⟨rfl, rfl⟩ := Prod.mk.inj hact
          exact .fail (.inl rfl) rfl
    · simp [receives, hs] at hg
  | hear r io =>
    simp only [step, Option.ite_none_right_eq_some, Option.some.injEq] at h
    obtain ⟨hg, hhear⟩ := h
    rcases hd with hs | hs | hs
    · simp [receives, hs] at hg
    · simp [receives, hs] at hg
    · simp only [hear, hs] at hhear
      obtain ⟨rfl, rfl⟩ := Prod.mk.inj hhear
      exact waitRR_cases hs r io

end Server

/-! ## 2. Consecutive numbers -/

/-- The packets of `w` carry consecutive numbers, the last one `n - 1`. -/
structure Consec (n : ℕ) (w : List Packet) : Prop where
  le : w.length ≤ n
  nums : w.map (fun p => p.sequence.toNat) = List.range' (n - w.length) w.length

/-- The number at the front of a window, or `n` if it is empty. -/
def lowestOf (n : ℕ) : List Packet → ℕ
  | [] => n
  | p :: _ => p.sequence.toNat

namespace Consec

variable {n : ℕ} {w : List Packet} {p : Packet}

theorem nil (n : ℕ) : Consec n [] := ⟨Nat.zero_le _, rfl⟩

theorem snoc (h : Consec n w) (hp : p.sequence.toNat = n) : Consec (n + 1) (w ++ [p]) := by
  refine ⟨by simpa using h.le, ?_⟩
  have hle := h.le
  have hs : n + 1 - (w.length + 1) = n - w.length := by omega
  rw [List.map_append, h.nums, List.length_append, List.length_singleton, List.range'_1_concat,
    hs, Nat.sub_add_cancel hle, List.map_singleton, hp]

/-- What is left after packets went from the front is still numbered up to the counter. -/
theorem suffix (h : Consec n w) {v : List Packet} (hv : v <:+ w) : Consec n v := by
  obtain ⟨u, rfl⟩ := hv
  have hle := h.le
  have hn := h.nums
  rw [List.length_append] at hle hn
  rw [List.map_append, ← List.range'_append_1] at hn
  refine ⟨by omega, ?_⟩
  rw [(List.append_inj hn (by simp)).2]
  congr 1
  omega

theorem mem (h : Consec n w) (hp : p ∈ w) :
    n - w.length ≤ p.sequence.toNat ∧ p.sequence.toNat < n := by
  have hle := h.le
  have hm : p.sequence.toNat ∈ w.map (fun p => p.sequence.toNat) := List.mem_map_of_mem hp
  rw [h.nums, List.mem_range'_1] at hm
  omega

/-- A packet that went from the front has a number below all that are left. -/
theorem removed (h : Consec n w) {v : List Packet} (hv : v <:+ w) (hp : p ∈ w) (hpv : p ∉ v) :
    p.sequence.toNat < n - v.length := by
  obtain ⟨u, rfl⟩ := hv
  have hle := h.le
  have hn := h.nums
  rw [List.length_append] at hle hn
  rw [List.map_append, ← List.range'_append_1] at hn
  have hu := (List.append_inj hn (by simp)).1
  have hpu : p ∈ u := (List.mem_append.mp hp).resolve_right hpv
  have hm : p.sequence.toNat ∈ u.map (fun p => p.sequence.toNat) := List.mem_map_of_mem hpu
  rw [hu, List.mem_range'_1] at hm
  omega

theorem head (h : Consec n (p :: w)) : p.sequence.toNat + (w.length + 1) = n := by
  have hle := h.le
  have hn := h.nums
  rw [List.length_cons] at hle hn
  rw [List.map_cons, List.range'_succ] at hn
  have := (List.cons.inj hn).1
  omega

theorem lowestOf (h : Consec n w) : lowestOf n w = n - w.length := by
  cases w with
  | nil => rfl
  | cons p w =>
    have := h.head
    rw [Fileserver.lowestOf, List.length_cons]
    omega

end Consec

namespace Server

/-! ## 3. The loop that shifts the window -/

theorem shift_suffix (seq i : UInt32) (w : List Packet) : shift seq i w <:+ w := by
  induction w generalizing i with
  | nil => simp [shift]
  | cons p w ih =>
    simp only [shift]
    split
    · exact (ih (i + 1)).trans (List.suffix_cons p w)
    · exact List.suffix_refl _

/-- **The loop removes one packet for each number from the front to the one received**, as
long as there are that many and the index does not wrap. -/
theorem length_shift (seq i : UInt32) (w : List Packet) (hw : i.toNat + w.length ≤ 2 ^ 32) :
    (shift seq i w).length = w.length - (seq.toNat + 1 - i.toNat) := by
  induction w generalizing i with
  | nil => simp [shift]
  | cons p w ih =>
    rw [List.length_cons] at hw
    simp only [shift]
    by_cases hi : i ≤ seq
    · rw [if_pos hi]
      rw [UInt32.le_iff_toNat_le] at hi
      cases w with
      | nil =>
        simp only [shift, List.length_nil, List.length_cons]
        omega
      | cons q w =>
        rw [List.length_cons] at hw
        have hi1 : (i + 1).toNat = i.toNat + 1 := by
          rw [UInt32.toNat_add, UInt32.toNat_one]
          exact Nat.mod_eq_of_lt (by omega)
        rw [ih (i + 1) (by rw [hi1, List.length_cons]; omega), hi1]
        simp only [List.length_cons]
        omega
    · rw [if_neg hi]
      rw [UInt32.le_iff_toNat_le] at hi
      omega

/-! ## 4. The numbers -/

/-- The lowest number the child still holds or would read next. -/
def lowest (s : Server) : ℕ := lowestOf s.mvSequence.toNat s.mvWindow

/-- **The numbers of the data phase.**  The window is consecutive up to the counter, what waits
to be sent is its end, and outside `fillWindow` it is full. -/
structure Numbered (s : Server) : Prop where
  consec : Consec s.mvSequence.toNat s.mvWindow
  suffix : s.mvOutBuf <:+ s.mvWindow
  le : s.mvWindow.length ≤ s.mvWindowSize.toNat
  full : s.mvState ≠ .fillWindow → s.mvWindow.length = s.mvWindowSize.toNat
  sent : s.mvState = .waitRR → s.mvOutBuf = []

theorem Numbered.lowest_eq {s : Server} (h : s.Numbered) :
    s.lowest = s.mvSequence.toNat - s.mvWindow.length := h.consec.lowestOf

/-- The child as it enters the data phase. -/
structure DataStart (file : List UInt8) (B W : UInt32) (s : Server) : Prop where
  state : s.mvState = .fillWindow
  sequence : s.mvSequence = 0
  window : s.mvWindow = []
  outBuf : s.mvOutBuf = []
  file : s.mvFrom = ⟨file, 0⟩
  bufferSize : s.mvBufferSize = B
  windowSize : s.mvWindowSize = W

/-- Such a child, at address 1 with a client at address 2. -/
def atStart (file : List UInt8) (B W : UInt32) : Server where
  mvSocket := ⟨1, 7⟩
  mvAddr := ⟨2, 9⟩
  mvAddrLen := sizeofIn
  mvFromName := [0x66]
  mvBufferSize := B
  mvWindowSize := W
  mvFrom := ⟨file, 0⟩
  mvWindow := []
  mvOutBuf := []
  mvSequence := 0
  mvRetries := pktTrnsMax
  mvState := .fillWindow
  winszSet := true
  bufszSet := true
  fnSet := true

theorem atStart_dataStart (file : List UInt8) (B W : UInt32) :
    DataStart file B W (atStart file B W) := ⟨rfl, rfl, rfl, rfl, rfl, rfl, rfl⟩

theorem DataStart.numbered {file : List UInt8} {B W : UInt32} {s : Server}
    (h : DataStart file B W s) : s.Numbered where
  consec := by
    rw [h.window]
    exact Consec.nil _
  suffix := by simp [h.window, h.outBuf]
  le := by simp [h.window]
  full := by simp [h.state]
  sent := by simp [h.state]

/-- The child builds a packet in this turn. -/
def pushes (s : Server) (e : Event) : Prop :=
  e = .act true ∧ s.mvState = .fillWindow ∧ s.mvWindow.length < s.mvWindowSize.toNat

instance (s : Server) (e : Event) : Decidable (s.pushes e) :=
  inferInstanceAs (Decidable (_ ∧ _ ∧ _))

variable [Host]

/-- With room in the window there is a front packet, and its number is the lowest. -/
theorem Numbered.front_eq {s : Server} (h : s.Numbered) (hW : 0 < s.mvWindowSize.toNat)
    (hs : s.mvState = .waitRR) :
    s.front.sequence.toNat = s.lowest ∧ s.lowest + s.mvWindowSize.toNat = s.mvSequence.toNat := by
  have hlen := h.full (by simp [hs])
  have hle := h.consec.le
  rw [h.lowest_eq]
  cases hw : s.mvWindow with
  | nil => rw [hw] at hlen; simp at hlen; omega
  | cons p w =>
    have hc := h.consec
    rw [hw] at hc hlen hle
    have := hc.head
    simp only [front, hw, List.headD_cons]
    rw [List.length_cons] at *
    omega

/-- **Every turn keeps the numbers in order**, unless it ends the child, as long as the counter
does not wrap. -/
theorem Turn.numbered {s t : Server} {e : Event} {out : Option Packet} (h : Turn s e t out)
    (hn : s.Numbered) (hr : s.pushes e → s.mvSequence.toNat + 1 < 2 ^ 32) :
    t.mvState = .error ∨ t.inData ∧ t.Numbered := by
  cases h with
  | push hs hl =>
    have hseq : (s.mvSequence + 1).toNat = s.mvSequence.toNat + 1 := by
      have := hr ⟨rfl, hs, hl⟩
      rw [UInt32.toNat_add, UInt32.toNat_one]
      exact Nat.mod_eq_of_lt this
    refine .inr ⟨.inl hs, ?_, ?_, ?_, ?_, ?_⟩
    · rw [hseq]
      exact hn.consec.snoc rfl
    · obtain ⟨u, hu⟩ := hn.suffix
      exact ⟨u, by simp [← hu]⟩
    · simpa using Nat.succ_le_of_lt hl
    · simp [hs]
    · simp [hs]
  | full hs hl =>
    exact .inr ⟨.inr (.inl rfl), hn.consec, hn.suffix, hn.le, fun _ => Nat.le_antisymm hn.le hl,
      by simp⟩
  | sendOne hs ho =>
    refine .inr ⟨.inr (.inl hs), hn.consec, ?_, hn.le, hn.full, by simp [hs]⟩
    have hsuf := hn.suffix
    rw [ho] at hsuf
    exact (List.suffix_cons _ _).trans hsuf
  | sent hs ho =>
    exact .inr ⟨.inr (.inr rfl), hn.consec, hn.suffix, hn.le, fun _ => hn.full (by simp [hs]),
      fun _ => ho⟩
  | again hs hb => exact .inr ⟨.inl rfl, hn.consec, hn.suffix, hn.le, by simp, by simp⟩
  | @shiftTo src buf io hs hok ht hle =>
    have hsuf := shift_suffix buf.sequence s.front.sequence s.mvWindow
    refine .inr ⟨.inl rfl, hn.consec.suffix hsuf, ?_, hsuf.length_le.trans hn.le, by simp, by simp⟩
    simp [hn.sent hs]
  | oldRR hs hok ht hlt =>
    exact .inr ⟨.inr (.inr hs), hn.consec, hn.suffix, hn.le, hn.full, hn.sent⟩
  | resend hs hok ht hle =>
    exact .inr ⟨.inl rfl, hn.consec, List.suffix_refl _, hn.le, by simp, by simp⟩
  | rewind hs hok ht hlt =>
    exact .inr ⟨.inl rfl, Consec.nil _, List.suffix_refl _, Nat.zero_le _, by simp, by simp⟩
  | ignore hs hok hr hj =>
    exact .inr ⟨.inr (.inr hs), hn.consec, hn.suffix, hn.le, hn.full, hn.sent⟩
  | fail hq he => exact .inl rfl

/-- What a child holds behind a turn it held before, or it has just built it. -/
theorem Turn.held {v v' : Server} {e : Event} {out : Option Packet} (h : Turn v e v' out)
    {p : Packet} (hp : p ∈ v'.mvWindow ∨ p ∈ v'.mvOutBuf) :
    (p ∈ v.mvWindow ∨ p ∈ v.mvOutBuf) ∨ v.pushes e ∧ p = v.nextPacket := by
  cases h with
  | push hs hl =>
    rcases hp with hp | hp
    · rcases List.mem_append.mp hp with hp | hp
      · exact .inl (.inl hp)
      · exact .inr ⟨⟨rfl, hs, hl⟩, List.mem_singleton.mp hp⟩
    · rcases List.mem_append.mp hp with hp | hp
      · exact .inl (.inr hp)
      · exact .inr ⟨⟨rfl, hs, hl⟩, List.mem_singleton.mp hp⟩
  | sendOne hs hq => exact .inl (hp.imp_right fun hp => hq ▸ List.mem_cons_of_mem _ hp)
  | shiftTo hs hok ht hle => exact .inl (hp.imp_left fun hp => (shift_suffix _ _ _).subset hp)
  | resend hs hok ht hle => exact .inl (.inl (hp.elim id id))
  | rewind hs hok ht hlt => simp at hp
  | full | sent | again | oldRR | ignore | fail => exact .inl hp

/-- Window and out-buffer keep holding data packets. -/
theorem Turn.isData {v v' : Server} {e : Event} {out : Option Packet}
    (h : Turn v e v' out) (hw : ∀ p ∈ v.mvWindow, IsData p) (ho : ∀ p ∈ v.mvOutBuf, IsData p) :
    (∀ p ∈ v'.mvWindow, IsData p) ∧ (∀ p ∈ v'.mvOutBuf, IsData p) := by
  have hall {p : Packet} (hp : p ∈ v'.mvWindow ∨ p ∈ v'.mvOutBuf) : IsData p := by
    rcases h.held hp with (hp | hp) | ⟨-, rfl⟩
    · exact hw p hp
    · exact ho p hp
    · exact datpkt_isData _ _
  exact ⟨fun p hp => hall (.inl hp), fun p hp => hall (.inr hp)⟩

/-- What a turn sends comes from the out-buffer. -/
theorem Turn.out_mem {v v' : Server} {e : Event} {p : Packet}
    (h : Turn v e v' (some p)) : p ∈ v.mvOutBuf := by
  cases h with
  | sendOne hs ho => exact ho ▸ List.mem_cons_self

theorem Turn.socket {s t : Server} {e : Event} {out : Option Packet} (h : Turn s e t out) :
    t.mvSocket = s.mvSocket := by
  cases h <;> rfl

/-- A child behind `init` does not come back to it. -/
theorem Turn.ne_init {s t : Server} {e : Event} {out : Option Packet}
    (h : Turn s e t out) (hd : s.inData) : t.mvState ≠ .init := by
  have hs : s.mvState ≠ .init := by rcases hd with hd | hd | hd <;> simp [hd]
  cases h <;> simp_all

/-! ## 5. The bytes -/

/-- `p` is the data packet of its number. -/
def Carries (file : List UInt8) (B : ℕ) (p : Packet) : Prop :=
  p = datpkt p.sequence (slice file B p.sequence.toNat)

theorem Carries.size {file : List UInt8} {B : ℕ} {p : Packet} (h : Carries file B p)
    (hB : B ≤ pktDMax) : p.size.toNat = (slice file B p.sequence.toNat).length := by
  have hsz : (slice file B p.sequence.toNat).length < 2 ^ 16 := by
    refine lt_of_le_of_lt (List.length_take_le _ _) (lt_of_le_of_lt hB (by decide))
  rw [h, toNat_datpkt_size _ hsz, datpkt_sequence]

theorem Carries.data {file : List UInt8} {B : ℕ} {p : Packet} (h : Carries file B p)
    (hB : B ≤ pktDMax) :
    p.data.toList.take p.size.toNat = slice file B p.sequence.toNat := by
  have hl : (slice file B p.sequence.toNat).length ≤ pktDMax :=
    (List.length_take_le _ _).trans hB
  rw [h.size hB]
  conv_lhs => rw [h]
  exact take_dataOf hl

/-- Written to a file, it is the bytes of its number. -/
theorem Carries.bytes {file : List UInt8} {B : ℕ} {p : Packet} (h : Carries file B p)
    (hB : B ≤ pktDMax) : p.bytes p.size.toNat = slice file B p.sequence.toNat := by
  have hl : (slice file B p.sequence.toNat).length ≤ pktDMax :=
    (List.length_take_le _ _).trans hB
  conv_lhs => rw [h]
  exact datpkt_bytes _ hl

/-- **The bytes of the data phase.**  Every packet in the window or the out-buffer is the data
packet of its number, and the file stands at the bytes of the next one. -/
structure InPlace (file : List UInt8) (B : UInt32) (s : Server) : Prop where
  contents : s.mvFrom.contents = file
  size : s.mvBufferSize = B
  window : ∀ p ∈ s.mvWindow, Carries file B.toNat p
  outBuf : ∀ p ∈ s.mvOutBuf, Carries file B.toNat p
  pos : s.mvState ≠ .error → AtNumber s.mvFrom B.toNat s.mvSequence.toNat

/-- Besides, the offset of the next one fits 32 bits. -/
structure Loaded (file : List UInt8) (B : UInt32) (s : Server) : Prop extends
    InPlace file B s where
  fits : s.mvState ≠ .error → s.mvSequence.toNat * B.toNat < 2 ^ 32

theorem InPlace.nextPacket {file : List UInt8} {B : UInt32} {s : Server} (h : InPlace file B s)
    (hs : s.mvState ≠ .error) :
    s.nextPacket = datpkt s.mvSequence (slice file B.toNat s.mvSequence.toNat) := by
  rw [Server.nextPacket, h.size, (h.pos hs).ahead, h.contents]

/-- A rewind in this turn seeks to an offset that 32 bits hold. -/
def SeeksBelow (s : Server) : Event → Prop
  | .hear (.datagram src buf) _ =>
    s.mvState = .waitRR → s.Rewinds (.datagram src buf) →
      buf.sequence.toNat * s.mvBufferSize.toNat < 2 ^ 32
  | _ => True

/-- **Every turn keeps the bytes right**, as long as the counter does not wrap and a rewind seeks
to an offset that 32 bits hold. -/
theorem Turn.inPlace {file : List UInt8} {B : UInt32} {s t : Server} {e : Event}
    {out : Option Packet} (h : Turn s e t out) (hl : InPlace file B s)
    (hq : s.pushes e → s.mvSequence.toNat + 1 < 2 ^ 32) (hr : s.SeeksBelow e) :
    InPlace file B t := by
  cases h with
  | push hs hlt =>
    have hne : s.mvState ≠ .error := by simp [hs]
    have hseq : (s.mvSequence + 1).toNat = s.mvSequence.toNat + 1 := by
      rw [UInt32.toNat_add, UInt32.toNat_one]
      exact Nat.mod_eq_of_lt (hq ⟨rfl, hs, hlt⟩)
    have hnext : Carries file B.toNat s.nextPacket := hl.nextPacket hne
    refine ⟨?_, hl.size, ?_, ?_, ?_⟩
    · simpa [File.advance] using hl.contents
    · intro p hp
      rcases List.mem_append.mp hp with hp | hp
      · exact hl.window p hp
      · exact List.mem_singleton.mp hp ▸ hnext
    · intro p hp
      rcases List.mem_append.mp hp with hp | hp
      · exact hl.outBuf p hp
      · exact List.mem_singleton.mp hp ▸ hnext
    · intro _
      rw [hseq, hl.size]
      exact (hl.pos hne).advance
  | full hs hlt => exact { hl with pos := fun _ => hl.pos (by simp [hs]) }
  | sendOne hs ho =>
    exact { hl with outBuf := fun p hp => hl.outBuf p (ho ▸ List.mem_cons_of_mem _ hp) }
  | sent hs ho => exact { hl with pos := fun _ => hl.pos (by simp [hs]) }
  | again hs hb => exact { hl with pos := fun _ => hl.pos (by simp [hs]) }
  | @shiftTo src buf io hs hok ht hle =>
    have hsub := (shift_suffix buf.sequence s.front.sequence s.mvWindow).subset
    exact { hl with
      window := fun p hp => hl.window p (hsub hp)
      pos := fun _ => hl.pos (by simp [hs]) }
  | oldRR hs hok ht hlt => exact { hl with }
  | resend hs hok ht hle =>
    exact { hl with
      outBuf := hl.window
      pos := fun _ => hl.pos (by simp [hs]) }
  | @rewind src buf hs hok ht hlt =>
    have hfits := hr hs ⟨hok, ht, hlt⟩
    refine ⟨hl.contents, hl.size, by simp, by simp, fun _ => .inl ?_⟩
    rw [hl.size] at hfits
    rw [File.lseek, hl.size, UInt32.toNat_mul, Nat.mul_comm]
    exact Nat.mod_eq_of_lt hfits
  | ignore hs hok ht hj => exact { hl with }
  | fail hq he => exact { hl with pos := by simp }

/-- The same with the bound, as long as the offset of the next packet fits the 32-bit product.
The rewind only ever seeks to a number below the window. -/
theorem Turn.loaded {file : List UInt8} {B : UInt32} {s t : Server} {e : Event}
    {out : Option Packet} (h : Turn s e t out) (hl : Loaded file B s) (hn : s.Numbered)
    (hW : 0 < s.mvWindowSize.toNat) (hB : 0 < B.toNat)
    (hr : s.pushes e → (s.mvSequence.toNat + 1) * B.toNat < 2 ^ 32) : Loaded file B t := by
  have hseq (hp : s.pushes e) : s.mvSequence.toNat + 1 < 2 ^ 32 :=
    lt_of_le_of_lt (Nat.le_mul_of_pos_right _ hB) (hr hp)
  -- below the window the offset is below that of the next packet
  have hback {q : UInt32} (hs : s.mvState = .waitRR) (hlt : q < s.front.sequence) :
      q.toNat * B.toNat < 2 ^ 32 := by
    have hf := hn.front_eq hW hs
    rw [UInt32.lt_iff_toNat_lt] at hlt
    exact lt_of_le_of_lt (Nat.mul_le_mul_right _ (by omega)) (hl.fits (by simp [hs]))
  have hi : InPlace file B t := by
    refine h.inPlace hl.toInPlace hseq ?_
    cases e with
    | act io => trivial
    | hear r io =>
      cases r with
      | timeout | failed => trivial
      | datagram src buf => exact fun hs hrew => hl.size ▸ hback hs hrew.2.2
  refine ⟨hi, ?_⟩
  intro hne
  cases h with
  | push hs hlt =>
    have hp : s.pushes (.act true) := ⟨rfl, hs, hlt⟩
    rw [UInt32.toNat_add, UInt32.toNat_one, Nat.mod_eq_of_lt (hseq hp)]
    exact hr hp
  | rewind hs hok ht hlt => exact hback hs hlt
  | full hs | sent hs | again hs | shiftTo hs | resend hs => exact hl.fits (by simp [hs])
  | sendOne | oldRR | ignore => exact hl.fits hne
  | fail => simp at hne

/-! ## 6. Whole runs against any peer -/

theorem DataStart.loaded {file : List UInt8} {B W : UInt32} {s : Server}
    (h : DataStart file B W s) : Loaded file B s where
  contents := by rw [h.file]
  size := h.bufferSize
  window := by simp [h.window]
  outBuf := by simp [h.outBuf]
  pos := fun _ => .inl (by simp [h.file, h.sequence])
  fits := fun _ => by simp [h.sequence]

/-- No turn changes the negotiated sizes. -/
theorem Turn.sizes {s t : Server} {e : Event} {out : Option Packet} (h : Turn s e t out) :
    t.mvBufferSize = s.mvBufferSize ∧ t.mvWindowSize = s.mvWindowSize := by
  cases h <;> exact ⟨rfl, rfl⟩

/-- The data phase of one child against a peer that may send anything, for as long as the
offset of the next packet, in exact arithmetic, stays below 2^32. -/
def peer (file : List UInt8) (B W : UInt32) : System Server Event where
  start := DataStart file B W
  may s e := s.pushes e → (s.mvSequence.toNat + 1) * B.toNat < 2 ^ 32
  next s e := (s.step e).map Prod.fst

instance (file : List UInt8) (B W : UInt32) (s : Server) (e : Event) :
    Decidable ((peer file B W).may s e) :=
  inferInstanceAs (Decidable (s.pushes e → _ < 2 ^ 32))

/-- What holds between any two turns of the data phase. -/
structure DataInv (file : List UInt8) (B W : UInt32) (s : Server) : Prop where
  phase : s.mvState = .error ∨ s.inData ∧ s.Numbered
  loaded : Loaded file B s
  windowSize : s.mvWindowSize = W

theorem Turn.dataInv {file : List UInt8} {B W : UInt32} {s t : Server} {e : Event}
    {out : Option Packet} (h : Turn s e t out) (hi : DataInv file B W s) (hn : s.Numbered)
    (hW : 0 < W.toNat) (hB : 0 < B.toNat)
    (hr : s.pushes e → (s.mvSequence.toNat + 1) * B.toNat < 2 ^ 32) : DataInv file B W t where
  phase := h.numbered hn fun hp =>
    lt_of_le_of_lt (Nat.le_mul_of_pos_right _ hB) (hr hp)
  loaded := h.loaded hi.loaded hn (by rwa [hi.windowSize]) hB hr
  windowSize := by rw [h.sizes.2, hi.windowSize]

/-- A child that has ended takes no turn. -/
theorem step_error {s : Server} {e : Event} (hs : s.mvState = .error) : s.step e = none := by
  cases e <;> simp [step, running, hs]

theorem peer_inv {file : List UInt8} {B W : UInt32} (hB : 0 < B.toNat) (hW : 0 < W.toNat)
    {s : Server} (h : (peer file B W).Reach s) : DataInv file B W s := by
  refine h.invariant (I := DataInv file B W) ?_ ?_
  · intro s h0
    exact ⟨.inr ⟨.inl h0.state, h0.numbered⟩, h0.loaded, h0.windowSize⟩
  · intro s e t _ hi hm hn
    obtain ⟨⟨t', out⟩, hst, rfl⟩ := Option.map_eq_some_iff.mp hn
    rcases hi.phase with he | ⟨hd, hnum⟩
    · rw [step_error he] at hst
      exact absurd hst (by simp)
    · exact (step_cases hd hst).dataInv hi hnum hW hB hm

/-- **The window of the child, against any peer.**  Waiting for replies, the child holds exactly
`W` packets with consecutive numbers up to the counter, has nothing left to send and reads next
at the offset of the counter, or at or past the end of the file.  Every packet it holds carries
exactly the bytes of the file that belong to its number, and while it sends, what is left to
send is the end of the window. -/
theorem window_invariant (file : List UInt8) (B W : UInt32) (hB : 0 < B.toNat)
    (hD : B.toNat ≤ pktDMax) (hW : 0 < W.toNat) (s : Server)
    (h : (peer file B W).Reach s) :
    (s.mvState = .waitRR →
      s.mvWindow.length = W.toNat ∧ W.toNat ≤ s.mvSequence.toNat ∧
      s.mvWindow.map (fun p => p.sequence.toNat)
        = List.range' (s.mvSequence.toNat - W.toNat) W.toNat ∧
      s.mvOutBuf = [] ∧
      (s.mvFrom.pos = s.mvSequence.toNat * B.toNat ∨
        file.length ≤ s.mvFrom.pos ∧ file.length ≤ s.mvSequence.toNat * B.toNat)) ∧
    (∀ p, p ∈ s.mvWindow ∨ p ∈ s.mvOutBuf →
      p.type = pktTypeDAT ∧
      p.size.toNat = min ((p.sequence.toNat + 1) * B.toNat) file.length
        - p.sequence.toNat * B.toNat ∧
      p.data.toList.take p.size.toNat
        = (file.drop (p.sequence.toNat * B.toNat)).take p.size.toNat) ∧
    (s.mvState = .sendWindow → s.mvOutBuf <:+ s.mvWindow) := by
  have hi := peer_inv hB hW h
  refine ⟨?_, ?_, ?_⟩
  · intro hs
    rcases hi.phase with he | ⟨-, hn⟩
    · simp [hs] at he
    have hlen : s.mvWindow.length = W.toNat := by
      rw [hn.full (by simp [hs]), hi.windowSize]
    have hpos := hi.loaded.pos (by simp [hs])
    rw [AtNumber, StandsAt, hi.loaded.contents] at hpos
    exact ⟨hlen, hlen ▸ hn.consec.le, hlen ▸ hn.consec.nums, hn.sent hs, hpos⟩
  · intro p hp
    have hc : Carries file B.toNat p := by
      rcases hp with hp | hp
      · exact hi.loaded.window p hp
      · exact hi.loaded.outBuf p hp
    refine ⟨by rw [hc]; rfl, by rw [hc.size hD, length_slice], ?_⟩
    rw [hc.data hD, hc.size hD, slice, List.length_take]
    exact List.take_eq_take_min
  · intro hs
    rcases hi.phase with he | ⟨-, hn⟩
    · simp [hs] at he
    · exact hn.suffix

end Server

namespace Server

local instance : Host := refHost [1, 2, 3]

/-- A three-byte file in packets of two, behind its first window. -/
theorem window_invariant_three :
    ∃ s, (peer [1, 2, 3] 2 2).Reach s ∧ s.mvState = .waitRR ∧
      s.mvWindow.map (fun p => p.sequence.toNat) = [0, 1] ∧ s.mvOutBuf = [] := by
  have h0 : (peer [1, 2, 3] 2 2).Reach (atStart [1, 2, 3] 2 2) :=
    .start (atStart_dataStart [1, 2, 3] 2 2)
  obtain ⟨s, h, ht⟩ := h0.run_any (List.replicate 6 (.act true))
    (fun s => decide (s.mvState = .waitRR ∧ s.mvSequence = 2)) (by decide +kernel)
  obtain ⟨hs, hq⟩ := of_decide_eq_true ht
  have hw := (window_invariant [1, 2, 3] 2 2 (by decide) (by decide) (by decide) s h).1 hs
  exact ⟨s, h, hs, by rw [hw.2.2.1, hq]; rfl, hw.2.2.2.1⟩

end Server

end Fileserver
