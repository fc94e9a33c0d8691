/-
# The locals of `Client::init`

`Client::init` opens its new socket in the turn that takes the announcement, into `sk` and
`addr`, and assigns it in the turn that takes the reply to the second packet.  Its `switch` goes
on to the next packet for anything it does not look for, so a packet of another type, or a `REJ`
for a later number, takes the client past the announcement.  The second turn then assigns a
socket nobody has opened.

Two clients that differ in what `sk` and `addr` held at the start say what was read: as long as
their sockets agree nothing unset has been used.
-/
import Fileserver.Retries

namespace Fileserver.Client

open Proto Proto.System

/-! ## 1. Turns that go past the announcement -/

/-- What the client sends to and receives on. -/
def sockets (c : Client) : Addr × Addr := (c.mvSocket, c.mvAddr)

/-- The turn takes the client past its first packet, and no announcement has come: a valid packet
that is neither an `RR` nor a `REJ` for number 0. -/
def Skips [Host] (c : Client) : Event → Prop
  | .act _ => False
  | .hear .timeout _ _ _ => False
  | .hear .failed _ _ _ => False
  | .hear (.datagram _ buf) _ _ _ =>
    c.mvState = .init ∧ c.i = 0 ∧ c.skSet = false ∧ buf.ok = true ∧ buf.type ≠ pktTypeRR ∧
      ¬ (buf.type = pktTypeREJ ∧ buf.sequence = 0)

instance [Host] (c : Client) : (e : Event) → Decidable (c.Skips e)
  | .act _ => inferInstanceAs (Decidable False)
  | .hear .timeout _ _ _ => inferInstanceAs (Decidable False)
  | .hear .failed _ _ _ => inferInstanceAs (Decidable False)
  | .hear (.datagram _ buf) _ _ _ =>
    inferInstanceAs (Decidable (c.mvState = .init ∧ c.i = 0 ∧ c.skSet = false ∧ buf.ok = true ∧
      buf.type ≠ pktTypeRR ∧ ¬ (buf.type = pktTypeREJ ∧ buf.sequence = 0)))

variable [Host]

omit [Host] in
/-- At the first packet, these are the ones that take it onward. -/
theorem onward_iff {c : Client} {buf : Packet} (hi : c.i = 0) :
    c.Onward buf ↔ buf.type ≠ pktTypeRR ∧ ¬ (buf.type = pktTypeREJ ∧ buf.sequence = 0) := by
  have hne : pktTypeREJ ≠ pktTypeRR := by decide
  have hpos : (0 : Int) < buf.sequence.toNat ↔ buf.sequence ≠ 0 := by
    rw [← UInt32.toNat_inj.ne]
    change _ ↔ buf.sequence.toNat ≠ 0
    omega
  simp only [Onward, hi, hpos]
  constructor
  · rintro (⟨-, -, h2⟩ | ⟨ht, hq⟩ | ⟨hr, hj⟩)
    · omega
    · exact ⟨ht ▸ hne, fun h => hq h.2⟩
    · exact ⟨hr, fun h => hj h.1⟩
  · rintro ⟨hr, hj⟩
    by_cases ht : buf.type = pktTypeREJ
    · exact .inr (.inl ⟨ht, fun hq => hj ⟨ht, hq⟩⟩)
    · exact .inr (.inr ⟨hr, ht⟩)

/-- Without an announcement the client has not got past its first packet, and its locals are as
they were at the start. -/
structure Waits (sk addr : Addr) (c : Client) : Prop where
  first : c.skSet = false → c.mvState = .init ∧ c.i = 0 ∨ c.mvState = .error
  unset : c.skSet = false → c.sk = sk ∧ c.addr = addr

/-! ## 2. Two clients -/

/-- Clients that differ at most in locals that nobody has set. -/
inductive Alike : Client → Client → Prop
  | same (c : Client) : Alike c c
  | unset {c : Client} (sk addr : Addr) (h : c.skSet = false) :
      Alike c { c with sk := sk, addr := addr }

omit [Host] in
theorem Alike.sockets_eq {c d : Client} (h : Alike c d) : d.sockets = c.sockets := by
  cases h <;> rfl

omit [Host] in
theorem Alike.again {c d : Client} (h : Alike c d) (i : Int) : Alike (c.again i) (d.again i) := by
  cases h with
  | same => exact .same _
  | unset sk addr h =>
    simp only [Client.again, initEnd, initLoop]
    split_ifs <;> exact .unset sk addr h

theorem initPacket_alike {c : Client} {p : Packet} {sock : Addr} {io : Bool} (sk addr : Addr)
    (hi : c.i = 0) (hk : c.skSet = false) :
    Alike (c.initPacket p sock io)
      (({ c with sk := sk, addr := addr } : Client).initPacket p sock io) := by
  have hpkt (i : Int) : ({ c with sk := sk, addr := addr } : Client).pkt i = c.pkt i := rfl
  have hne : (c.pkt c.i).type ≠ pktTypeCXN2 := by
    rw [ne_eq, pkt_type_cxn2 (by omega) (by omega)]
    omega
  -- the only branch that reads the locals is that of the second packet
  simp only [initPacket, hpkt, hne, and_false, if_false]
  split_ifs
  · exact .same _
  all_goals first | exact .unset sk addr hk | exact (Alike.unset sk addr hk).again _

theorem init_alike {c : Client} {r : Recv} {sock : Addr} {io : Bool} (sk addr : Addr)
    (hi : c.i = 0) (hk : c.skSet = false) :
    Alike (c.init r sock io) (({ c with sk := sk, addr := addr } : Client).init r sock io) := by
  cases r with
  | timeout =>
    exact Alike.again (c := { c with mvRetries := c.mvRetries - 1 }) (.unset sk addr hk) _
  | failed => exact .unset sk addr hk
  | datagram src buf =>
    by_cases hok : buf.ok = true
    · simp only [init, recvPacket, hok, if_true]
      exact initPacket_alike sk addr hi hk
    · simp only [init, recvPacket, hok, Bool.false_eq_true, if_false]
      exact Alike.again
        (c := { c with mvRetries := pktTrnsMax - 1, mvAddr := src, mvAddrLen := sizeofIn })
        (.unset sk addr hk) _

/-- What is received inside `init`. -/
theorem step_init (c : Client) {r : Recv} {sock : Addr} {wr io : Bool} (hs : c.mvState = .init) :
    c.step (.hear r sock wr io) = if c.sent then some (c.init r sock io, none) else none := by
  simp [step, running, receives, hs]

/-- **Alike clients take the same turns**, as long as the one waits where the other does. -/
theorem step_alike {sk addr : Addr} {c c' d : Client} {e : Event} {out : Option Packet}
    (hw : Waits sk addr c) (h : Alike c d) (hs : c.step e = some (c', out)) :
    ∃ d', d.step e = some (d', out) ∧ Alike c' d' := by
  cases h with
  | same => exact ⟨c', hs, .same c'⟩
  | unset sk' addr' hk =>
    have hi : c.mvState = .init ∧ c.i = 0 := by
      refine (hw.first hk).resolve_right ?_
      intro he
      cases e <;> simp [step, running, he] at hs
    cases e with
    | act io =>
      simp only [step, Option.ite_none_right_eq_some, Option.some.injEq] at hs ⊢
      obtain ⟨hg, hs⟩ := hs
      obtain ⟨rfl, rfl⟩ := Prod.mk.inj hs
      cases io with
      | true => exact ⟨_, ⟨hg, rfl⟩, .unset sk' addr' hk⟩
      | false => exact ⟨_, ⟨hg, rfl⟩, .unset sk' addr' hk⟩
    | hear r sock wr io =>
      rw [step_init c hi.1, Option.ite_none_right_eq_some] at hs
      obtain ⟨hg, hs⟩ := hs
      obtain ⟨rfl, rfl⟩ := Prod.mk.inj (Option.some.inj hs)
      exact ⟨_, (step_init { c with sk := sk', addr := addr' } hi.1).trans (if_pos hg),
        init_alike sk' addr' hi.2 hk⟩

/-! ## 3. Runs without a turn that skips -/

/-- A turn inside `init` that skips nothing. -/
theorem InitTurn.waits {sk addr sock : Addr} {c d : Client} {r : Recv} {wr io : Bool}
    (h : InitTurn c sock r io d) (hs : c.mvState = .init)
    (hne : ¬ c.Skips (.hear r sock wr io)) (hw : Waits sk addr c) : Waits sk addr d := by
  have hi (hk : c.skSet = false) : c.i = 0 := by simpa [hs] using hw.first hk
  cases h with
  | again hk ha hr => exact { hw with first := hw.first }
  | opens hok ht hq hi => exact { first := by simp, unset := by simp }
  | switches hok ht hq hi' =>
    have hk : c.skSet ≠ false := fun hk => by simp [hi hk] at hi'
    exact { first := fun h => absurd h hk, unset := fun h => absurd h hk }
  | back hok ht hq =>
    refine { first := fun hk => .inl ⟨hs, ?_⟩, unset := hw.unset }
    have := hi hk
    dsimp only
    omega
  | onward hok ho hi' | leaves hok ho hi' =>
    have hk : c.skSet ≠ false := by
      intro hk
      exact hne ⟨hs, hi hk, hk, hok, (onward_iff (hi hk)).mp ho⟩
    exact { first := fun h => absurd h hk, unset := fun h => absurd h hk }
  | fail hf => exact { first := fun _ => .inr rfl, unset := hw.unset }

/-- What a client inside `init` keeps in every turn, and what it keeps if the turn skips
nothing. -/
theorem step_waits {sk addr : Addr} {c d : Client} {e : Event} {out : Option Packet}
    (hc : c.Loops) (hw : Waits sk addr c) (hne : ¬ c.Skips e) (h : c.step e = some (d, out)) :
    Waits sk addr d := by
  cases e with
  | act io =>
    simp only [step, Option.ite_none_right_eq_some, Option.some.injEq] at h
    obtain ⟨-, h⟩ := h
    obtain rfl : (c.initTop io).1 = d := by rw [h]
    cases io with
    | true => exact { first := hw.first, unset := hw.unset }
    | false => exact { first := fun _ => .inr rfl, unset := hw.unset }
  | hear r sock wr io =>
    by_cases hs : c.mvState = .init
    · obtain ⟨h0, h5, -⟩ := hc hs
      exact (initTurn_of_step hs ⟨h0, h5⟩ h).2.2.waits hs hne hw
    · obtain ⟨hr, ht⟩ := step_cases hs h
      have hk : c.skSet ≠ false := fun hk => by simpa [hr] using hw.first hk
      have hd : d.skSet = c.skSet := by cases ht <;> rfl
      exact { first := fun h => absurd (hd ▸ h) hk, unset := fun h => absurd (hd ▸ h) hk }

section Started

variable {from_ : List UInt8} {bufsz winsz : Int32} {machine : UInt32} {port : UInt16}
  {sock sk addr : Addr}

omit [Host] in
theorem rcopy_loops : (rcopy from_ bufsz winsz machine port sock sk addr).Loops :=
  fun _ => ⟨le_refl _, by simp [rcopy], by simp [rcopy, pktTrnsMax]⟩

omit [Host] in
theorem rcopy_waits : Waits sk addr (rcopy from_ bufsz winsz machine port sock sk addr) where
  first _ := .inl ⟨rfl, rfl⟩
  unset _ := ⟨rfl, rfl⟩

/-- **In a run in which nothing skips the announcement**, the client waits for it. -/
theorem run_waits {es : List Event} {c : Client}
    (hr : (alone.under fun c e => ¬ c.Skips e).run
      (rcopy from_ bufsz winsz machine port sock sk addr) es = some c) :
    c.Loops ∧ Waits sk addr c := by
  refine run_keeps (I := fun c => c.Loops ∧ Waits sk addr c) ?_ ⟨rcopy_loops, rcopy_waits⟩ hr
  rintro c e d ⟨hc, hw⟩ hm hn
  obtain ⟨⟨d, out⟩, hst, rfl⟩ := Option.map_eq_some_iff.mp hn
  exact ⟨step_loops hc hst, step_waits hc hw hm.2 hst⟩

/-- What it does is the same for any two values the locals held. -/
theorem run_alike {es : List Event} {c : Client}
    (hr : (alone.under fun c e => ¬ c.Skips e).run
      (rcopy from_ bufsz winsz machine port sock sk addr) es = some c) (sk' addr' : Addr) :
    ∃ d, alone.run (rcopy from_ bufsz winsz machine port sock sk' addr') es = some d ∧
      Alike c d := by
  have hsim (c : Client) (e : Event) (c' d : Client)
      (h : c.Loops ∧ Waits sk addr c ∧ Alike c d)
      (hm : (alone.under fun c e => ¬ c.Skips e).may c e) (hn : alone.next c e = some c') :
      alone.may d e ∧
        ∃ d', alone.next d e = some d' ∧ c'.Loops ∧ Waits sk addr c' ∧ Alike c' d' := by
    obtain ⟨hc, hw, ha⟩ := h
    obtain ⟨⟨c', out⟩, hst, rfl⟩ := Option.map_eq_some_iff.mp hn
    obtain ⟨d', hst', ha'⟩ := step_alike hw ha hst
    have hn' : alone.next d e = some d' := Option.map_eq_some_iff.mpr ⟨_, hst', rfl⟩
    exact ⟨trivial, d', hn', step_loops hc hst, step_waits hc hw hm.2 hst, ha'⟩
  obtain ⟨d, hd, -, -, ha⟩ :=
    run_sim hsim ⟨rcopy_loops, rcopy_waits, .unset sk' addr' rfl⟩ hr
  exact ⟨d, hd, ha⟩

end Started

/-! ## 4. A run with one -/

/-- The turn that skips, as the code computes it. -/
theorem init_skip {c : Client} {src sock : Addr} {buf : Packet} {io : Bool} (hi : c.i = 0)
    (hok : buf.ok = true) (hr : buf.type ≠ pktTypeRR)
    (hj : ¬ (buf.type = pktTypeREJ ∧ buf.sequence = 0)) :
    c.init (.datagram src buf) sock io =
      { c with
        mvRetries := pktTrnsMax, mvAddr := src, mvAddrLen := sizeofIn, i := 1, sent := false } := by
  have h10 : 0 < pktTrnsMax := by decide
  have hle : buf.sequence ≤ UInt32.ofInt 0 ↔ buf.sequence = 0 := by
    rw [UInt32.le_iff_toNat_le, ← UInt32.toNat_inj]
    exact Nat.le_zero
  simp only [init, recvPacket, hok, if_true, initPacket, hr, if_false, hi, hle]
  by_cases ht : buf.type = pktTypeREJ
  · rw [if_pos ht, if_neg fun hq => hj ⟨ht, hq⟩, again_of_lt (by decide) (by exact h10)]
    rfl
  · rw [if_neg ht, again_of_lt (by decide) (by exact h10)]
    rfl

/-- Where a turn that skips leads: to the second packet, with the locals as they were. -/
theorem Waits.skip {sk addr : Addr} {c d : Client} {e : Event} {out : Option Packet}
    (hw : Waits sk addr c) (he : c.Skips e) (h : c.step e = some (d, out)) :
    d.mvState = .init ∧ d.i = 1 ∧ d.sent = false ∧ d.sk = sk ∧ d.addr = addr := by
  cases e with
  | act io => exact he.elim
  | hear r sock wr io =>
    cases r with
    | timeout => exact he.elim
    | failed => exact he.elim
    | datagram src buf =>
      obtain ⟨hs, hi, hk, hok, hp⟩ := he
      obtain ⟨hsk, haddr⟩ := hw.unset hk
      rcases step_hear h with ⟨-, rfl⟩ | ⟨hs', -⟩
      · rw [init_skip hi hok hp.1 hp.2]
        exact ⟨hs, rfl, rfl, hsk, haddr⟩
      · exact absurd hs hs'

/-- Past its first packet without an announcement, the client takes what the locals held at the
start for its socket as soon as the second packet is answered. -/
theorem run_unset {c : Client} (hs : c.mvState = .init) (hi : c.i = 1) (hsent : c.sent = false) :
    ∃ es d, alone.run c es = some d ∧ d.mvState = .init ∧ d.sockets = (c.sk, c.addr) := by
  have hsend : c.step (.act true) = some ({ c with sent := true }, some (c.pkt c.i)) := by
    simp [step, running, receives, hs, hsent, initTop]
  have hpkt (d : Client) : (d.pkt 1).type = pktTypeCXN2 := rfl
  have hhear : ({ c with sent := true } : Client).step
      (.hear (.datagram c.mvAddr (rrpkt 1)) c.mvSocket true true) = some
        ({ c with
          mvRetries := pktTrnsMax, mvSocket := c.sk, mvAddr := c.addr, mvAddrLen := sizeofIn
          i := 2, sent := false },
        none) := by
    have h10 : 0 < pktTrnsMax := by decide
    have hone : UInt32.ofInt 1 = 1 := rfl
    have hne : pktTypeCXN2 ≠ pktTypeCXN := by decide
    refine (step_init { c with sent := true } hs).trans ?_
    simp only [init, recvPacket, rrpkt_ok, if_true, initPacket, rrpkt_type, rrpkt_sequence, hi,
      hone, hpkt, hne, and_false, and_self, if_false]
    rw [again_of_lt (by decide) (by exact h10)]
    rfl
  refine ⟨[.act true, .hear (.datagram c.mvAddr (rrpkt 1)) c.mvSocket true true],
    { c with
      mvRetries := pktTrnsMax, mvSocket := c.sk, mvAddr := c.addr, mvAddrLen := sizeofIn
      i := 2, sent := false },
    ?_, hs, rfl⟩
  simp [run, alone, hsend, hhear]

/-! ## 5. The two locals -/

/-- **The locals of `Client::init`.**  Its index stays inside `pkt`, whatever comes.  In a run
without a turn that skips the announcement, nothing the client does depends on what `sk` and
`addr` held at the start; and behind any turn that does skip it, the run can go on so that the
client takes them for its socket. -/
theorem init_sockets (from_ : List UInt8) (bufsz winsz : Int32) (machine : UInt32)
    (port : UInt16) (sock sk addr : Addr) :
    (∀ es c, alone.run (rcopy from_ bufsz winsz machine port sock sk addr) es = some c →
      c.mvState = .init → 0 ≤ c.i ∧ c.i < 5) ∧
    (∀ es c, (alone.under fun c e => ¬ c.Skips e).run
        (rcopy from_ bufsz winsz machine port sock sk addr) es = some c →
      (c.mvState = .init → c.i ≠ 0 → c.skSet = true) ∧
      ∀ sk' addr', ∃ d,
        alone.run (rcopy from_ bufsz winsz machine port sock sk' addr') es = some d ∧
          d.sockets = c.sockets) ∧
    (∀ es c e d, (alone.under fun c e => ¬ c.Skips e).run
        (rcopy from_ bufsz winsz machine port sock sk addr) es = some c →
      c.Skips e → alone.next c e = some d →
        ∃ es' t, alone.run d es' = some t ∧ t.mvState = .init ∧ t.sockets = (sk, addr)) := by
  have hstart : (alone : System Client Event).start
      (rcopy from_ bufsz winsz machine port sock sk addr) :=
    ⟨rfl, .inl ⟨rfl, by simp [rcopy], by simp [rcopy]⟩⟩
  refine ⟨?_, ?_, ?_⟩
  · intro es c hr hs
    obtain ⟨h0, h5, -⟩ := loops_of_reach ((Reach.start hstart).run hr) hs
    exact ⟨h0, h5⟩
  · intro es c hr
    obtain ⟨-, hw⟩ := run_waits hr
    refine ⟨?_, ?_⟩
    · intro hs hi
      rw [← Bool.not_eq_false]
      exact fun hk => hi (by simpa [hs] using hw.first hk)
    · intro sk' addr'
      obtain ⟨d, hd, ha⟩ := run_alike hr sk' addr'
      exact ⟨d, hd, ha.sockets_eq⟩
  · intro es c e d hr he hn
    obtain ⟨-, hw⟩ := run_waits hr
    obtain ⟨⟨d, out⟩, hst, rfl⟩ := Option.map_eq_some_iff.mp hn
    obtain ⟨hs, hi, hsent, hsk, haddr⟩ := hw.skip he hst
    obtain ⟨es', t, ht, hst', heq⟩ := run_unset hs hi hsent
    exact ⟨es', t, ht, hst', by rw [heq, hsk, haddr]⟩

end Fileserver.Client

namespace Fileserver.Client

open Proto Proto.System

local instance unsetHost : Host := refHost []

/-- A client whose locals hold `sk` and `addr` at the start. -/
def holding (sk addr : Addr) : Client := rcopy [102] 2 3 1 7 ⟨9, 5⟩ sk addr

/-- What the client hears of the server. -/
def heard (p : Packet) : List Event := [.act true, .hear (.datagram ⟨1, 21⟩ p) ⟨9, 6⟩ true true]

/-- **A data packet first**, then a reply to everything that is sent: the client enters its data
phase with a socket nobody has opened. -/
theorem not_init_sockets :
    ¬ ∀ (sk addr sk' addr' : Addr) (es : List Event) (c d : Client),
      alone.run (holding sk addr) es = some c → alone.run (holding sk' addr') es = some d →
      c.mvState = .recvPackets → c.mvSocket = d.mvSocket := by
  intro hall
  have hrun : (alone.run (holding ⟨0, 0⟩ ⟨0, 0⟩) (heard (datpkt 0 [1]) ++ heard (rrpkt 1) ++
      heard (rrpkt 2) ++ heard (rrpkt 3) ++ heard (rrpkt 4))).any
        (fun c => decide (c.mvState = .recvPackets ∧ c.mvSocket = ⟨0, 0⟩)) = true := by
    decide +kernel
  have hrun' : (alone.run (holding ⟨0, 1⟩ ⟨0, 0⟩) (heard (datpkt 0 [1]) ++ heard (rrpkt 1) ++
      heard (rrpkt 2) ++ heard (rrpkt 3) ++ heard (rrpkt 4))).any
        (fun c => decide (c.mvSocket = ⟨0, 1⟩)) = true := by
    decide +kernel
  obtain ⟨c, hc, hs⟩ := (Option.any_eq_true _ _).mp hrun
  obtain ⟨d, hd, hs'⟩ := (Option.any_eq_true _ _).mp hrun'
  obtain ⟨hst, hsk⟩ := of_decide_eq_true hs
  have h := hall _ _ _ _ _ c d hc hd hst
  rw [hsk, of_decide_eq_true hs'] at h
  exact absurd h (by decide)

/-- The announcement, and the reply to the second packet: the same socket, whatever the locals
held. -/
theorem init_sockets_announced (sk' addr' : Addr) :
    ∃ d, alone.run (holding sk' addr') (heard (rrpkt 0) ++ heard (rrpkt 1)) = some d ∧
      d.mvSocket = ⟨9, 6⟩ := by
  have hrun : ((alone.under fun c e => ¬ c.Skips e).run (holding ⟨0, 0⟩ ⟨0, 0⟩)
      (heard (rrpkt 0) ++ heard (rrpkt 1))).any (fun c => decide (c.mvSocket = ⟨9, 6⟩))
        = true := by
    decide +kernel
  obtain ⟨c, hc, hs⟩ := (Option.any_eq_true _ _).mp hrun
  obtain ⟨d, hd, heq⟩ := ((init_sockets [102] 2 3 1 7 ⟨9, 5⟩ ⟨0, 0⟩ ⟨0, 0⟩).2.1 _ c hc).2 sk' addr'
  refine ⟨d, hd, ?_⟩
  rw [← of_decide_eq_true hs]
  exact congrArg Prod.fst heq

end Fileserver.Client
