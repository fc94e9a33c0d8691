/-
# The retry budget

`mvRetries` bounds every loop of both processes.  `recvPacket` takes a retry for a timeout and
for a damaged packet, but fills the counter as soon as a datagram is there, before the checksum
is looked at.  So a damaged packet undoes the failures before it, and ten of them in a row leave
nine retries.

Both processes are instances of the counter in `Lib/Retry.lean`: the child in `init` and in the
data phase, the client in `init` and in `recvPackets`.
-/
import Fileserver.Handshake
import Fileserver.Lib.Retry
import Fileserver.Steps

namespace Fileserver

open Proto Proto.Retry

/-- How a reception counts.  A call that fails ends the process, with a full counter nobody
looks at any more. -/
def Recv.outcome [Host] : Recv → Outcome
  | .timeout => .silent
  | .failed => .heard
  | .datagram _ buf => if buf.ok then .heard else .damaged

/-! ## 1. The child -/

namespace Server

/-- What the turn brings the child. -/
def Event.hears [Host] : Event → Option Outcome
  | .act _ => none
  | .hear r _ => some r.outcome

variable [Host]

/-- One child with a full counter, in the loop of `init` or at the start of the data phase, against
a peer that may send anything. -/
def alone : System Server Event where
  start s := s.mvRetries = pktTrnsMax ∧
    (s.mvState = .init ∧ s.initLoop = true ∨ s.mvState = .fillWindow)
  may _ _ := True
  next s e := (s.step e).map Prod.fst

instance (s : Server) (e : Event) : Decidable (alone.may s e) :=
  inferInstanceAs (Decidable True)

/-- A turn of `init` leaves the child inside its loop or behind it. -/
theorem step_loop {s t : Server} {e : Event} {out : Option Packet}
    (hl : s.mvState = .init → s.initLoop = true) (h : s.step e = some (t, out)) :
    t.mvState = .init → t.initLoop = true := by
  by_cases hs : s.mvState = .init
  · cases e with
    | act io => simp [step, receives, hs] at h
    | hear r io => exact ((initTurn_of_step hs (hl hs) h).stays (hl hs)).1
  · have hd := inData_of_step h hs
    exact fun ht => absurd ht ((step_cases hd h).ne_init hd)

theorem loop_of_reach {s : Server} (h : alone.Reach s) :
    s.mvState = .init → s.initLoop = true := by
  refine h.invariant (I := fun s => s.mvState = .init → s.initLoop = true) ?_ ?_
  · rintro s ⟨-, ⟨-, hl⟩ | hs⟩
    · exact fun _ => hl
    · simp [hs]
  · intro s e t _ hi _ hn
    obtain ⟨⟨t, out⟩, hst, rfl⟩ := Option.map_eq_some_iff.mp hn
    exact step_loop hi hst

theorem initSend_retries_le {s : Server} {p : Packet} {io : Bool}
    (h : s.mvRetries ≤ pktTrnsMax) : (s.initSend p io).1.mvRetries ≤ pktTrnsMax := by
  unfold initSend initEnd
  split_ifs
  · exact h
  · exact h
  · split
    · exact h
    · exact le_refl _
  · exact h

theorem initPacket_retries_le (s : Server) (p : Packet) (h : s.mvRetries = pktTrnsMax) :
    (s.initPacket p).1.mvRetries ≤ pktTrnsMax := by
  simp only [initPacket]
  split_ifs
  · exact le_of_eq (initTake_retries _ _)
  · exact le_refl _
  · change s.mvRetries - 1 ≤ pktTrnsMax
    omega

theorem waitPacket_retries (s : Server) (p : Packet) (io : Bool) (h : s.mvRetries = pktTrnsMax) :
    (s.waitPacket p io).mvRetries = pktTrnsMax := by
  unfold waitPacket
  split_ifs <;> simp [h]

/-- **What a reception leaves the child of its retries**, in either loop. -/
theorem step_leaves {s t : Server} {r : Recv} {io : Bool} {out : Option Packet}
    (hl : s.mvState = .init → s.initLoop = true) (h : s.step (.hear r io) = some (t, out)) :
    Leaves pktTrnsMax s.mvRetries r.outcome t.mvRetries := by
  rcases step_hear h with ⟨hs, rfl⟩ | ⟨-, rfl⟩
  · cases r with
    | timeout =>
      cases io with
      | true =>
        rw [init_timeout (hl hs)]
        exact .silent
      | false => exact .silent
    | failed => exact .heard (le_refl _)
    | datagram src buf =>
      by_cases hok : buf.ok = true
      · simp only [init, recvPacket, Recv.outcome, hok, if_true]
        exact .heard (initSend_retries_le (initPacket_retries_le _ _ rfl))
      · rw [Recv.outcome, if_neg hok]
        cases io with
        | true =>
          rw [init_damaged (hl hs) src (by simpa using hok)]
          exact .damaged
        | false =>
          simp only [init, recvPacket, hok, initSend]
          exact .damaged
  · cases r with
    | timeout => exact .silent
    | failed => exact .heard (le_refl _)
    | datagram src buf =>
      by_cases hok : buf.ok = true
      · simp only [waitRR, recvPacket, Recv.outcome, hok, if_true]
        exact .heard (le_of_eq (waitPacket_retries _ _ _ rfl))
      · simp only [waitRR, recvPacket, Recv.outcome, hok]
        exact .damaged

omit [Host] in
/-- A child that goes on has a retry left. -/
theorem retries_pos {s : Server} (hl : s.mvState = .init → s.initLoop = true)
    (h : s.running = true) : 0 < s.mvRetries := by
  unfold running at h
  cases hs : s.mvState with
  | init =>
    have hloop := hl hs
    simp only [initLoop, Bool.and_eq_true, decide_eq_true_eq] at hloop
    exact hloop.2
  | error | done => simp [hs] at h
  | fillWindow | sendWindow | waitRR => simpa [hs] using h

theorem act_retries (s : Server) (io : Bool) : (s.act io).1.mvRetries = s.mvRetries := by
  unfold act fillWindow sendWindow
  split
  · split_ifs <;> rfl
  · split
    · rfl
    · split_ifs <;> rfl
  · rfl

theorem counts_retries : Counts (alone : System Server Event) pktTrnsMax mvRetries Event.hears where
  start s h := le_of_eq h.1
  quiet := by
    intro s e t _ hn he
    cases e with
    | act io =>
      obtain ⟨⟨t, out⟩, hst, rfl⟩ := Option.map_eq_some_iff.mp hn
      simp only [step, Option.ite_none_right_eq_some, Option.some.injEq] at hst
      have ha := act_retries s io
      rwa [hst.2] at ha
    | hear r io => simp [Event.hears] at he
  hear := by
    intro s e t o hr hn he
    cases e with
    | act io => simp [Event.hears] at he
    | hear r io =>
      obtain ⟨⟨t, out⟩, hst, rfl⟩ := Option.map_eq_some_iff.mp hn
      obtain rfl : r.outcome = o := by simpa [Event.hears] using he
      exact step_leaves (loop_of_reach hr) hst

end Server

/-! ## 2. The client -/

namespace Client

/-- What the turn brings the client. -/
def Event.hears [Host] : Event → Option Outcome
  | .act _ => none
  | .hear r _ _ _ => some r.outcome

variable [Host]

/-- One client with a full counter, in the loop of `init` or in `recvPackets`, against a peer that
may send anything. -/
def alone : System Client Event where
  start c := c.mvRetries = pktTrnsMax ∧
    (c.mvState = .init ∧ 0 ≤ c.i ∧ c.i < 5 ∨ c.mvState = .recvPackets)
  may _ _ := True
  next c e := (c.step e).map Prod.fst

instance (c : Client) (e : Event) : Decidable (alone.may c e) :=
  inferInstanceAs (Decidable True)

/-- Inside `init` the client is inside its loop. -/
def Loops (c : Client) : Prop := c.mvState = .init → 0 ≤ c.i ∧ c.i < 5 ∧ 0 < c.mvRetries

theorem step_loops {c c' : Client} {e : Event} {out : Option Packet} (hc : c.Loops)
    (h : c.step e = some (c', out)) : c'.Loops := by
  cases e with
  | act io =>
    simp only [step, Option.ite_none_right_eq_some, Option.some.injEq] at h
    obtain ⟨hg, h⟩ := h
    obtain rfl : (c.initTop io).1 = c' := by rw [h]
    cases io with
    | true => exact hc
    | false => exact fun hs => by simp [initTop] at hs
  | hear r sock wr io =>
    by_cases hs : c.mvState = .init
    · obtain ⟨h0, h5, -⟩ := hc hs
      exact ((initTurn_of_step hs ⟨h0, h5⟩ h).2.2.stays h0 h5).1
    · obtain ⟨hr, ht⟩ := step_cases hs h
      intro hs'
      cases ht <;> simp [accepted, hr] at hs'

theorem loops_of_reach {c : Client} (h : alone.Reach c) : c.Loops := by
  refine h.invariant (I := Loops) ?_ ?_
  · rintro c ⟨hk, ⟨-, h0, h5⟩ | hs⟩
    · exact fun _ => ⟨h0, h5, hk ▸ by decide⟩
    · exact fun hi => by simp [hs] at hi
  · intro c e t _ hi _ hn
    obtain ⟨⟨t, out⟩, hst, rfl⟩ := Option.map_eq_some_iff.mp hn
    exact step_loops hi hst

omit [Host] in
theorem again_retries_le {c : Client} {i : Int} (h : c.mvRetries ≤ pktTrnsMax) :
    (c.again i).mvRetries ≤ pktTrnsMax := by
  simp only [again, initEnd]
  split_ifs
  · exact h
  · exact h
  · exact le_refl _

theorem initPacket_retries_le {c : Client} {p : Packet} {sock : Addr} {io : Bool}
    (h : c.mvRetries ≤ pktTrnsMax) : (c.initPacket p sock io).mvRetries ≤ pktTrnsMax := by
  simp only [initPacket]
  split_ifs <;> first | exact again_retries_le h | exact h

theorem dataPacket_retries {c : Client} {p : Packet} {wr io : Bool}
    (h : c.mvRetries = pktTrnsMax) : (c.dataPacket p wr io).1.mvRetries = pktTrnsMax := by
  simp only [dataPacket, respond]
  split_ifs <;> first | rfl | exact h

omit [Host] in
/-- Short of its last index the loop leaves the counter as it is. -/
theorem again_retries {c : Client} {i : Int} (hi : i < 5) :
    (c.again i).mvRetries = c.mvRetries := by
  simp only [again, initEnd]
  split_ifs with hl hk
  · rfl
  · rfl
  · simp [initLoop, hi, Int.not_le.mp hk] at hl

/-- **What a reception leaves the client of its retries**, in either loop. -/
theorem step_leaves {c c' : Client} {r : Recv} {sock : Addr} {wr io : Bool}
    {out : Option Packet} (hc : c.Loops) (h : c.step (.hear r sock wr io) = some (c', out)) :
    Leaves pktTrnsMax c.mvRetries r.outcome c'.mvRetries := by
  rcases step_hear h with ⟨hs, rfl⟩ | ⟨-, rfl⟩
  · have hi : c.i - 1 + 1 < 5 := by
      have := (hc hs).2.1
      omega
    cases r with
    | timeout =>
      simp only [init, recvPacket, again_retries hi]
      exact .silent
    | failed => exact .heard (le_refl _)
    | datagram src buf =>
      by_cases hok : buf.ok = true
      · simp only [init, recvPacket, Recv.outcome, hok, if_true]
        exact .heard (initPacket_retries_le (le_refl _))
      · simp only [init, recvPacket, Recv.outcome, hok, Bool.false_eq_true, if_false,
          again_retries hi]
        exact .damaged
  · cases r with
    | timeout => cases io <;> exact .silent
    | failed => exact .heard (le_refl _)
    | datagram src buf =>
      by_cases hok : buf.ok = true
      · simp only [recvPackets, recvPacket, Recv.outcome, hok, if_true]
        exact .heard (le_of_eq (dataPacket_retries rfl))
      · simp only [recvPackets, recvPacket, Recv.outcome, hok]
        cases io <;> exact .damaged

omit [Host] in
/-- A client that goes on has a retry left. -/
theorem retries_pos {c : Client} (hc : c.Loops) (h : c.running = true) : 0 < c.mvRetries := by
  unfold running at h
  cases hs : c.mvState with
  | init => exact (hc hs).2.2
  | error | done => simp [hs] at h
  | recvPackets => simpa [hs] using h

theorem counts_retries : Counts (alone : System Client Event) pktTrnsMax mvRetries Event.hears where
  start c h := le_of_eq h.1
  quiet := by
    intro c e t _ hn he
    cases e with
    | act io =>
      obtain ⟨⟨t, out⟩, hst, rfl⟩ := Option.map_eq_some_iff.mp hn
      simp only [step, Option.ite_none_right_eq_some, Option.some.injEq] at hst
      obtain rfl : (c.initTop io).1 = t := by rw [hst.2]
      cases io <;> rfl
    | hear r sock wr io => simp [Event.hears] at he
  hear := by
    intro c e t o hr hn he
    cases e with
    | act io => simp [Event.hears] at he
    | hear r sock wr io =>
      obtain ⟨⟨t, out⟩, hst, rfl⟩ := Option.map_eq_some_iff.mp hn
      obtain rfl : r.outcome = o := by simpa [Event.hears] using he
      exact step_leaves (loops_of_reach hr) hst

end Client

/-! ## 3. The budget -/

section Budget

variable [Host]

/-- **The retry budget.**  In a run in which a damaged packet only ever comes as the first failure
in a row, both processes have at most `PKT_TRNSMAX` retries less one for each failure in a row,
and after `PKT_TRNSMAX` failures they have left their loops.  A damaged packet that comes behind
another failure takes the counter over that budget. -/
theorem retry_budget_iff :
    ((∀ x, ((counted (Server.alone : System Server Server.Event) Server.Event.hears).under
        (Fresh Server.Event.hears)).Reach x →
      x.1.mvRetries ≤ pktTrnsMax - x.2 ∧ (pktTrnsMax ≤ x.2 → x.1.running = false)) ∧
    (∀ x e y, (counted (Server.alone : System Server Server.Event) Server.Event.hears).Reach x →
      (counted Server.alone Server.Event.hears).next x e = some y →
        ¬ Fresh Server.Event.hears x e → ¬ y.1.mvRetries ≤ pktTrnsMax - y.2)) ∧
    ((∀ x, ((counted (Client.alone : System Client Client.Event) Client.Event.hears).under
        (Fresh Client.Event.hears)).Reach x →
      x.1.mvRetries ≤ pktTrnsMax - x.2 ∧ (pktTrnsMax ≤ x.2 → x.1.running = false)) ∧
    (∀ x e y, (counted (Client.alone : System Client Client.Event) Client.Event.hears).Reach x →
      (counted Client.alone Client.Event.hears).next x e = some y →
        ¬ Fresh Client.Event.hears x e → ¬ y.1.mvRetries ≤ pktTrnsMax - y.2)) := by
  refine ⟨⟨?_, fun x e y => Server.counts_retries.exceeds⟩,
    ⟨?_, fun x e y => Client.counts_retries.exceeds⟩⟩
  · intro x h
    have hk := Server.counts_retries.within h
    refine ⟨hk, ?_⟩
    intro hn
    rw [← Bool.not_eq_true]
    intro hr
    have := Server.retries_pos (Server.loop_of_reach (reach_fst h.of_under)) hr
    omega
  · intro x h
    have hk := Client.counts_retries.within h
    refine ⟨hk, ?_⟩
    intro hn
    rw [← Bool.not_eq_true]
    intro hr
    have := Client.retries_pos (Client.loops_of_reach (reach_fst h.of_under)) hr
    omega

end Budget

end Fileserver

namespace Fileserver

open Proto Proto.Retry

local instance retriesHost : Host := refHost []

/-- A child in `init`, as the parent forks it. -/
def Server.newborn : Server := (Parent.atStart ⟨1, 7⟩).server.forked ⟨1, 21⟩ ⟨2, 9⟩

theorem Server.newborn_start : (counted Server.alone Server.Event.hears).Reach (newborn, 0) :=
  .start ⟨⟨rfl, .inl ⟨rfl, rfl⟩⟩, rfl⟩

/-- **Ten damaged packets in a row** leave the child nine retries. -/
theorem not_retry_budget :
    ¬ ∀ x, (counted (Server.alone : System Server Server.Event) Server.Event.hears).Reach x →
      x.1.mvRetries ≤ pktTrnsMax - x.2 ∧ (pktTrnsMax ≤ x.2 → x.1.running = false) := by
  intro hall
  obtain ⟨x, h, hx⟩ := Server.newborn_start.run_any
    (List.replicate 10 (.hear (.datagram ⟨2, 9⟩ (memset 0)) true))
    (fun x => decide (x.2 = 10 ∧ x.1.running = true)) (by decide +kernel)
  obtain ⟨hn, hr⟩ := of_decide_eq_true hx
  have hf := (hall x h).2 (by rw [hn]; decide)
  simp [hr] at hf

/-- One damaged packet and nine timeouts behind it: the child has left its loop. -/
theorem retry_budget_silence :
    ∃ x : Server × ℕ, (counted (Server.alone : System Server Server.Event)
      Server.Event.hears).Reach x ∧ x.2 = 10 ∧ x.1.running = false := by
  have h0 : ((counted (Server.alone : System Server Server.Event) Server.Event.hears).under
      (Fresh Server.Event.hears)).Reach (Server.newborn, 0) :=
    .start ⟨⟨rfl, .inl ⟨rfl, rfl⟩⟩, rfl⟩
  obtain ⟨x, h, hx⟩ := h0.run_any
    (.hear (.datagram ⟨2, 9⟩ (memset 0)) true :: List.replicate 9 (.hear .timeout true))
    (fun x => decide (x.2 = 10)) (by decide +kernel)
  have hn := of_decide_eq_true hx
  exact ⟨x, h.of_under, hn, (retry_budget_iff.1.1 x h).2 (by rw [hn]; decide)⟩

end Fileserver
