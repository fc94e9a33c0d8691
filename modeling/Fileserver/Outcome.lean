/-
# How the two processes end

Each process ends in its own way, and the client's last step tells the server nothing: on the
short packet it returns `DONE` without a reply.  None of the child's state functions returns
`DONE` at all.  So a child can only end with exit status 1, and a transfer in which both
processes have ended is one on which they do not agree.

* `Server.Last` and `Client.Finishes` say, of the state before a turn and what happens in it,
  that the turn ends the process; `Server.last_iff` and `Client.finishes_iff` prove them exact.
* `agreement_iff` puts the two together for the whole program.
-/
import Fileserver.OnlyData

namespace Fileserver

open Proto

/-! ## 1. The last turn of a child -/

namespace Server

variable [Host]

/-- The packet is the last parameter `init` waits for, and the file does not exist. -/
def Unopened (s : Server) : Recv → Prop
  | .datagram src buf =>
    buf.ok = true ∧ buf.sequence = s.mvSequence ∧ (s.taken src buf).initLoop = false ∧
      Host.file (s.taken src buf).mvFromName = none
  | _ => False

instance (s : Server) : DecidablePred s.Unopened
  | .datagram _ _ => inferInstanceAs (Decidable (_ ∧ _ ∧ _ ∧ _))
  | .timeout | .failed => inferInstanceAs (Decidable False)

/-- **The turn is the child's last.**  A system call of the turn fails, or a timeout takes the
last retry.  A call fails only where one is made. -/
def Last (s : Server) : Event → Prop
  | .act io =>
    io = false ∧ (s.mvState = .fillWindow ∧ s.mvWindow.length < s.mvWindowSize.toNat ∨
      s.mvState = .sendWindow ∧ s.mvOutBuf ≠ [])
  | .hear r io =>
    r = .failed ∨ r = .timeout ∧ s.mvRetries ≤ 1 ∨
      s.mvState = .init ∧ (io = false ∨ s.Unopened r) ∨
      s.mvState = .waitRR ∧ io = false ∧ s.Rewinds r

instance (s : Server) : DecidablePred s.Last
  | .act _ => inferInstanceAs (Decidable (_ ∧ (_ ∧ _ ∨ _ ∧ _)))
  | .hear _ _ => inferInstanceAs (Decidable (_ ∨ _ ∧ _ ∨ _ ∧ (_ ∨ _) ∨ _ ∧ _ ∧ _))

theorem last_init {s : Server} (hs : s.mvState = .init) (hl : s.initLoop = true) (r : Recv)
    (io : Bool) : (s.init r io).1.running = false ↔ s.Last (.hear r io) := by
  obtain ⟨hflags, hk⟩ : (!s.winszSet || !s.bufszSet || !s.fnSet) = true ∧ 0 < s.mvRetries := by
    simpa [initLoop] using hl
  have hmax : 0 < pktTrnsMax := by decide
  cases io with
  | false =>
    refine iff_of_true ?_ (.inr (.inr (.inl ⟨hs, .inl rfl⟩)))
    cases r with
    | timeout => rfl
    | failed => rfl
    | datagram src buf =>
      simp only [init, recvPacket]
      by_cases hok : buf.ok = true
      · simp [hok, initSend, running]
      · simp [hok, initSend, running]
  | true =>
    cases r with
    | failed => exact iff_of_true rfl (.inl rfl)
    | timeout =>
      rw [init_timeout hl]
      by_cases hk1 : s.mvRetries ≤ 1
      · exact iff_of_true (by simp [hk1, running]) (.inr (.inl ⟨rfl, hk1⟩))
      · exact iff_of_false (by simp [hk1, running, hs]) (by simp [Last, hk1, hs, Unopened])
    | datagram src buf =>
      by_cases hok : buf.ok = true
      · have ht := init_cases hl (.datagram src buf) true
        generalize hx : s.init (.datagram src buf) true = x at ht ⊢
        obtain ⟨t, out⟩ := x
        dsimp only at ht ⊢
        have hlast : s.Last (.hear (.datagram src buf) true) ↔
            buf.sequence = s.mvSequence ∧ (s.taken src buf).initLoop = false ∧
              Host.file (s.taken src buf).mvFromName = none := by
          simp [Last, hs, Unopened, hok]
        rw [hlast]
        cases ht with
        | nag hb | gaveUp hb => simp [Recv.bad, hok] at hb
        | old _ hq | high _ hq =>
          have hne : buf.sequence ≠ s.mvSequence := by
            rintro he
            simp [he] at hq
          refine iff_of_false ?_ fun h => hne h.1
          simp [running, hs]
        | take _ hq hloop =>
          refine iff_of_false ?_ (by simp [hloop])
          simp [running, hs]
        | opened _ hq hloop hf =>
          refine iff_of_false ?_ (by simp [hf])
          simp [running, pktTrnsMax]
        | unopened _ hq hloop hf => exact iff_of_true rfl ⟨hq, hloop, hf⟩
        | fail hf => simp at hf
      · refine iff_of_false ?_ ?_
        · rw [init_damaged hl src (by simpa using hok)]
          simp [running, hs]
        · simp [Last, hs, Unopened, hok]

theorem last_waitRR {s : Server} (hs : s.mvState = .waitRR) (r : Recv) (io : Bool) :
    (s.waitRR r io).running = false ↔ s.Last (.hear r io) := by
  cases r with
  | timeout =>
    have hlast : s.Last (.hear .timeout io) ↔ ¬ 0 < s.mvRetries - 1 := by
      simp [Last, hs, Rewinds]
    rw [hlast]
    exact decide_eq_false_iff_not
  | failed => exact iff_of_true rfl (.inl rfl)
  | datagram src buf =>
    have hlast : s.Last (.hear (.datagram src buf) io) ↔
        io = false ∧ buf.ok = true ∧ buf.type = pktTypeREJ ∧ buf.sequence < s.front.sequence := by
      simp [Last, hs, Rewinds]
    rw [hlast]
    by_cases hok : buf.ok = true
    · simp only [waitRR, recvPacket, hok, if_true, waitPacket, front]
      by_cases ht : buf.type = pktTypeRR
      · refine iff_of_false ?_ (by simp [ht])
        by_cases hle : (s.mvWindow.headD Host.stale).sequence ≤ buf.sequence
        · simp only [ht, hle, if_true]
          simp [running, pktTrnsMax]
        · simp only [ht, hle, if_true, if_false]
          simp [running, hs, pktTrnsMax]
      · by_cases hj : buf.type = pktTypeREJ
        · by_cases hle : (s.mvWindow.headD Host.stale).sequence ≤ buf.sequence
          · refine iff_of_false ?_ fun h => absurd h.2.2.2 (UInt32.not_lt.mpr hle)
            simp only [hj, hle, rej_ne_rr, if_true, if_false]
            simp [running, pktTrnsMax]
          · have hlt := UInt32.not_le.mp hle
            simp only [hj, hle, rej_ne_rr, if_true, if_false]
            cases io with
            | true => exact iff_of_false (by simp [running, pktTrnsMax]) (by simp)
            | false => exact iff_of_true rfl ⟨rfl, trivial, trivial, hlt⟩
        · refine iff_of_false ?_ fun h => hj h.2.2.1
          simp only [ht, hj, if_false]
          simp [running, hs, pktTrnsMax]
    · refine iff_of_false ?_ fun h => hok h.2.1
      simp only [waitRR, recvPacket, hok, Bool.false_eq_true, if_false]
      simp [running, pktTrnsMax]

omit [Host] in
theorem mvState_of_acts {s : Server} (h : (s.running && !s.receives) = true) :
    0 < s.mvRetries ∧ (s.mvState = .fillWindow ∨ s.mvState = .sendWindow) := by
  unfold running receives at h
  cases hs : s.mvState <;> simp_all

/-- **The last turn is the one a process exits behind**, in any state of its loop. -/
theorem last_iff {s t : Server} {e : Event} {out : Option Packet}
    (hl : s.mvState = .init → s.initLoop = true) (h : s.step e = some (t, out)) :
    t.running = false ↔ s.Last e := by
  cases e with
  | act io =>
    simp only [step, Option.ite_none_right_eq_some, Option.some.injEq] at h
    obtain ⟨hg, hact⟩ := h
    obtain ⟨hk, hs | hs⟩ := mvState_of_acts hg
    · have ht : t = s.fillWindow io := by
        simp only [act, hs, Prod.mk.injEq] at hact
        exact hact.1.symm
      rw [ht, fillWindow]
      by_cases hlt : s.mvWindow.length < s.mvWindowSize.toNat
      · cases io <;> simp [hlt, Last, hs, running, hk]
      · simp [hlt, Last, hs, running, hk]
    · have ht : t = (s.sendWindow io).1 := by
        simp only [act, hs] at hact
        rw [hact]
      rw [ht, sendWindow]
      cases ho : s.mvOutBuf with
      | nil => simp [Last, hs, ho, running, hk]
      | cons p rest => cases io <;> simp [Last, hs, ho, running, hk]
  | hear r io =>
    simp only [step, Option.ite_none_right_eq_some, Option.some.injEq] at h
    obtain ⟨hg, hhear⟩ := h
    rw [Bool.and_eq_true] at hg
    have hr := hg.2
    unfold receives at hr
    cases hs : s.mvState with
    | init =>
      simp only [hear, hs] at hhear
      rw [← last_init hs (hl hs) r io, hhear]
    | waitRR =>
      simp only [hear, hs, Prod.mk.injEq] at hhear
      rw [← last_waitRR hs r io, hhear.1]
    | error | done | fillWindow | sendWindow => simp [hs] at hr

/-- **No state function of the child returns `DONE`.** -/
theorem step_ne_done {s t : Server} {e : Event} {out : Option Packet}
    (hl : s.mvState = .init → s.initLoop = true) (h : s.step e = some (t, out)) :
    t.mvState ≠ .done := by
  by_cases hs : s.mvState = .init
  · cases e with
    | act io => simp [step, receives, hs] at h
    | hear r io =>
      cases initTurn_of_step hs (hl hs) h with
      | nag | old | high => simp [hs]
      | take => simp [hs]
      | gaveUp | opened | unopened => simp
      | fail hf he => simp [he]
  · have hd := inData_of_step h hs
    have hne : s.mvState ≠ .done := by rcases hd with hd | hd | hd <;> simp [hd]
    cases step_cases hd h with
    | push | sendOne | oldRR | ignore => exact hne
    | full | sent | again | shiftTo | resend | rewind | fail => simp

omit [Host] in
/-- So a child that has ended exits with status 1. -/
theorem exitStatus_eq_one {s : Server} (hd : s.mvState ≠ .done) (h : s.running = false) :
    s.exitStatus = 1 := by
  unfold running at h
  unfold exitStatus
  cases hs : s.mvState <;> simp_all

end Server

/-! ## 2. The last packet of the client -/

namespace Client

variable [Host]

/-- **The turn makes the client `DONE`.**  The packet is the one it waits for, it is short, and
the client can write it. -/
def Finishes (c : Client) : Recv → Bool → Prop
  | .datagram _ buf, wr =>
    c.mvState = .recvPackets ∧ wr = true ∧ buf.ok = true ∧ buf.sequence = c.mvSequence ∧
      c.short buf
  | _, _ => False

instance (c : Client) (wr : Bool) : (r : Recv) → Decidable (c.Finishes r wr)
  | .datagram _ _ => inferInstanceAs (Decidable (_ ∧ _ ∧ _ ∧ _ ∧ (_ ∧ _)))
  | .timeout | .failed => inferInstanceAs (Decidable False)

theorem Turn.finishes {c c' : Client} {r : Recv} {wr io : Bool} {out : Option Packet}
    (h : c.Turn r wr io c' out) (hs : c.mvState = .recvPackets) (hd : c'.mvState = .done) :
    c.Finishes r wr := by
  cases h with
  | finish hok hq hsh => exact ⟨hs, rfl, hok, hq, hsh⟩
  | nag | accept | old | gap => simp [accepted, hs] at hd
  | unsent | unwritten | fail => simp at hd

theorem Finishes.state {c : Client} {r : Recv} {wr : Bool} (h : c.Finishes r wr) :
    c.mvState = .recvPackets := by
  cases r with
  | timeout | failed => exact h.elim
  | datagram src buf => exact h.1

theorem Finishes.done {c : Client} {r : Recv} {wr : Bool} (h : c.Finishes r wr) (io : Bool) :
    (c.recvPackets r wr io).1.mvState = .done := by
  cases r with
  | timeout | failed => exact h.elim
  | datagram src buf =>
    obtain ⟨-, rfl, hok, hq, hsh⟩ := h
    simp only [short] at hsh
    simp only [recvPackets, recvPacket, hok, dataPacket, hq, UInt32.le_refl, writeTo, hsh, and_self,
      if_true]

theorem InitTurn.ne_done {c c' : Client} {sock : Addr} {r : Recv} {io : Bool}
    (h : c.InitTurn sock r io c') (hs : c.mvState = .init) : c'.mvState ≠ .done := by
  cases h with
  | again | opens | switches | back | onward => simp [hs]
  | leaves | fail => simp

end Client

/-! ## 3. The two together -/

namespace World

variable [Host] {from_ : List UInt8} {bufsz winsz : Int32} {n : Link} {w t : World} {e : Event}
  {k : ℕ}

/-- **The two agree on the outcome.**  If the client ends in `DONE` and child `k` has ended, the
child has ended in `DONE` with status 0; and it ends so only if the client has the whole file. -/
def Agree (k : ℕ) (w : World) : Prop :=
  ∀ v, w.children[k]? = some v →
    (w.client.mvState = .done → v.running = false → v.mvState = .done ∧ v.exitStatus = 0) ∧
    (v.mvState = .done ∧ v.exitStatus = 0 → w.client.mvTo = v.mvFrom.contents)

/-- The step does not end the second of the two: no turn of child `k` is its last once the client
is `DONE`, and the client does not take its last packet once child `k` has ended. -/
def OneGoes (k : ℕ) (w : World) : Event → Prop
  | .childAct j io =>
    j = k → w.client.mvState = .done → ∀ v ∈ w.children[k]?, ¬ v.Last (.act io)
  | .childHear j a io =>
    j = k → w.client.mvState = .done → ∀ v ∈ w.children[k]?, ∀ x ∈ a.recv (w.up v.mvSocket),
      ¬ v.Last (.hear x.1 io)
  | .clientHear a _ wr _ =>
    ∀ v ∈ w.children[k]?, v.running = false → ∀ x ∈ a.recv (w.down w.client.mvSocket),
      ¬ w.client.Finishes x.1 wr
  | _ => True

instance (k : ℕ) (w : World) : DecidablePred (OneGoes k w)
  | .childAct .. => inferInstanceAs (Decidable (_ → _ → ∀ v ∈ _, ¬ _))
  | .childHear .. => inferInstanceAs (Decidable (_ → _ → ∀ v ∈ _, ∀ x ∈ _, ¬ _))
  | .clientHear .. => inferInstanceAs (Decidable (∀ v ∈ _, _ → ∀ x ∈ _, ¬ _))
  | .parentHear .. | .clientAct .. | .loseUp .. | .dupUp .. | .loseDown .. | .dupDown .. =>
    inferInstanceAs (Decidable True)

/-- No child is ever `DONE`. -/
theorem child_ne_done (h : (system from_ bufsz winsz n).Reach w) :
    ∀ v ∈ w.children, v.mvState ≠ .done := by
  refine h.invariant (I := fun w => ∀ v ∈ w.children, v.mvState ≠ .done) ?_ ?_
  · intro w h0
    simp [Start.children h0]
  · intro w e t hr hi hm hn
    have hw := wf_of_reach hr
    cases next_cases hw hm hn with
    | parentDrops => simpa [afterParent] using hi
    | parent => exact forall_fork hi (by simp [Server.forked])
    | childAct hk hd ht hst | childInit hk hd hal ha ht hst | childHear hk hd hal ha ht hst =>
      exact forall_set hi (Server.step_ne_done (hw.loop _ (List.mem_of_getElem? hk)) hst)
    | parentStops | clientSends | clientStops | clientInit | clientHear | noiseUp | noiseDown =>
      exact hi

/-- The client is not `DONE`, or child `k` still goes. -/
def Apart (k : ℕ) (w : World) : Prop :=
  ∀ v, w.children[k]? = some v → w.client.mvState = .done → v.running = true

omit [Host] in
theorem Apart.agree (ha : Apart k w) (hd : ∀ v ∈ w.children, v.mvState ≠ .done) : Agree k w := by
  intro v hv
  refine ⟨?_, ?_⟩
  · intro hc hr
    simp [ha v hv hc] at hr
  · intro h
    exact absurd h.1 (hd v (List.mem_of_getElem? hv))

omit [Host] in
/-- A turn of a child, its last one only if the client is not `DONE`. -/
theorem Apart.afterChild (hi : Apart k w) {j : ℕ} {up : Addr → List Datagram} {b : List Packet}
    {v' : Server} {out : Option Packet}
    (h : j = k → w.client.mvState = .done → v'.running = true) :
    Apart k (w.afterChild j up b (v', out)) := by
  intro u hu hc
  simp only [World.afterChild] at hu hc
  by_cases hj : j = k
  · subst hj
    obtain ⟨-, rfl⟩ : _ ∧ v' = u := by simpa [List.getElem?_set] using hu
    exact h rfl hc
  · rw [List.getElem?_set_ne hj] at hu
    exact hi u hu hc

/-- **A step that does not end the second of the two** leaves one of them going. -/
theorem Turn.apart (h : Turn n w e t) (hw : w.Wf) (hi : Apart k w) (ho : OneGoes k w e) :
    Apart k t := by
  -- a child whose turn is not its last goes on
  have hgoes {v v' : Server} {e : Server.Event} {out : Option Packet} (hv : v ∈ w.children)
      (hst : v.step e = some (v', out)) (hlast : ¬ v.Last e) : v'.running = true := by
    rw [← Bool.not_eq_false, Server.last_iff (hw.loop v hv) hst]
    exact hlast
  cases h with
  | parentStops => exact hi
  | parentDrops => simpa [Apart, World.afterParent] using hi
  | @parent a sock src forks io buf l hn hok ha ht =>
    intro v hv hc
    simp only [World.afterParent, List.getElem?_append] at hv
    split at hv
    · exact hi v hv hc
    · obtain ⟨-, -, rfl⟩ := Parent.run_child (Option.mem_toList.mp (List.mem_of_getElem? hv))
      rfl
  | childAct hk hd ht hst =>
    refine hi.afterChild ?_
    rintro rfl hc
    exact hgoes (List.mem_of_getElem? hk) hst (ho rfl hc _ hk)
  | childInit hk hs hal ha ht hst | childHear hk hs hal ha ht hst =>
    refine hi.afterChild ?_
    rintro rfl hc
    exact hgoes (List.mem_of_getElem? hk) hst (ho rfl hc _ hk _ ha)
  | clientSends hs => exact fun v hv hc => absurd hc (by simp [World.afterClient, hs])
  | clientStops hs => exact fun v hv hc => absurd hc (by simp [World.afterClient])
  | clientInit hn hs hsent hal ha ht => exact fun v hv hc => absurd hc (ht.ne_done hs)
  | clientHear hs hal ha ht =>
    intro v hv hc
    rw [← Bool.not_eq_false]
    intro hr
    exact ho v hv hr _ ha (ht.finishes hs hc)
  | noiseUp | noiseDown => exact hi

/-- **A step that ends the second of the two** leaves both ended, and the child not in `DONE`. -/
theorem not_agree_of_not_oneGoes (hw : w.Wf) (hd : ∀ v ∈ w.children, v.mvState ≠ .done)
    (hn : w.next e = some t) (ho : ¬ OneGoes k w e) : ¬ Agree k t := by
  -- both have ended
  have hboth {v : Server} (hv : t.children[k]? = some v) (hc : t.client.mvState = .done)
      (hr : v.running = false) (hne : v.mvState ≠ .done) : ¬ Agree k t :=
    fun h => hne ((h v hv).1 hc hr).1
  have hset {v v' : Server} (hv : w.children[k]? = some v) :
      (w.children.set k v')[k]? = some v' := by
    obtain ⟨hlt, -⟩ := List.getElem?_eq_some_iff.mp hv
    simp [hlt]
  cases e with
  | childAct j io =>
    simp only [OneGoes, not_forall, not_not] at ho
    obtain ⟨rfl, hc, v, hv, hlast⟩ := ho
    obtain ⟨v₁, hv₁, hn⟩ := Option.bind_eq_some_iff.mp hn
    obtain ⟨⟨v', out⟩, hst, rfl⟩ := Option.map_eq_some_iff.mp hn
    obtain rfl := Option.some.inj (hv₁.symm.trans hv)
    have hl := hw.loop v₁ (List.mem_of_getElem? hv)
    exact hboth (hset hv) hc ((Server.last_iff hl hst).mpr hlast) (Server.step_ne_done hl hst)
  | childHear j a io =>
    simp only [OneGoes, not_forall, not_not] at ho
    obtain ⟨rfl, hc, v, hv, x, ha, hlast⟩ := ho
    obtain ⟨v₁, hv₁, hn⟩ := Option.bind_eq_some_iff.mp hn
    obtain rfl := Option.some.inj (hv₁.symm.trans hv)
    obtain ⟨x₁, ha₁, hn⟩ := Option.bind_eq_some_iff.mp hn
    obtain rfl := Option.some.inj (ha₁.symm.trans ha)
    obtain ⟨⟨v', out⟩, hst, rfl⟩ := Option.map_eq_some_iff.mp hn
    have hl := hw.loop v₁ (List.mem_of_getElem? hv)
    exact hboth (hset hv) hc ((Server.last_iff hl hst).mpr hlast) (Server.step_ne_done hl hst)
  | clientHear a sock wr io =>
    simp only [OneGoes, not_forall, not_not] at ho
    obtain ⟨v, hv, hr, x, ha, hf⟩ := ho
    obtain ⟨x₁, ha₁, hn⟩ := Option.bind_eq_some_iff.mp hn
    obtain rfl := Option.some.inj (ha₁.symm.trans ha)
    obtain ⟨⟨c, out⟩, hst, rfl⟩ := Option.map_eq_some_iff.mp hn
    have hdone : c.mvState = .done := by
      have hc := hf.done io
      have hs : w.client.mvState = .recvPackets := hf.state
      simp only [Client.step, hs, Option.ite_none_right_eq_some, Option.some.injEq] at hst
      rwa [hst.2] at hc
    exact hboth hv hdone hr (hd v (List.mem_of_getElem? hv))
  | parentHear | clientAct | loseUp | dupUp | loseDown | dupDown => exact absurd trivial ho

/-- **The two processes never agree that the transfer is over.**  A child that has ended has
exited with status 1.  In every run in which no step ends the second of the two after the other,
they agree in every state reached; and a step that does leaves a client in `DONE` and a child
that has failed. -/
theorem agreement_iff (from_ : List UInt8) (bufsz winsz : Int32) (n : Link) (k : ℕ) :
    (∀ w, (system from_ bufsz winsz n).Reach w →
      ∀ v ∈ w.children, v.running = false → v.exitStatus = 1) ∧
    (∀ w, ((system from_ bufsz winsz n).under (OneGoes k)).Reach w → Agree k w) ∧
    (∀ w e t, (system from_ bufsz winsz n).Reach w → w.next e = some t → ¬ OneGoes k w e →
      ¬ Agree k t) := by
  refine ⟨?_, ?_, ?_⟩
  · intro w h v hv hr
    exact Server.exitStatus_eq_one (child_ne_done h v hv) hr
  · intro w h
    have hi : Apart k w := by
      refine h.invariant (I := Apart k) ?_ ?_
      · intro w h0 v hv
        simp [Start.children h0] at hv
      · intro w e t hr hi hm hn
        have hw := wf_of_reach hr.of_under
        exact (next_cases hw hm.1 hn).apart hw hi hm.2
    exact hi.agree (child_ne_done h.of_under)
  · intro w e t h hn ho
    exact not_agree_of_not_oneGoes (wf_of_reach h) (child_ne_done h) hn ho

end World

end Fileserver

namespace Fileserver

open Proto

namespace World

local instance outcomeHost : Host := refHost [1, 2, 3]

/-- The child hears one `RR` for the file it has sent, refills its window and then hears nothing
for ten seconds. -/
def finale : List Event :=
  .childHear 0 (.take 0) true :: List.replicate 4 (.childAct 0 true) ++
    (List.replicate 9 [.childHear 0 .timeout true, .childAct 0 true, .childAct 0 true]).flatten ++
    [.childHear 0 .timeout true]

/-- **The client is `DONE` and has the file, its child has given up.** -/
theorem not_agreement :
    ¬ ∀ w, (system [0x66] 2 3 .lossy).Reach w → Agree 0 w := by
  intro hall
  have h0 : (system [0x66] 2 3 .lossy).Reach (atStart [0x66] 2 3) := .start (atStart_start _ _ _)
  obtain ⟨w, h, hw⟩ := h0.run_any (greeting ++ delivery ++ finale)
    (fun w => decide (w.client.mvState = .done ∧ w.client.mvTo = [1, 2, 3] ∧
      (w.children[0]?.any fun v : Server =>
        decide (v.running = false ∧ v.mvState ≠ .done)) = true))
    (by decide +kernel)
  obtain ⟨hc, -, hv⟩ := of_decide_eq_true hw
  obtain ⟨v, hv, hd⟩ := (Option.any_eq_true _ _).mp hv
  obtain ⟨hr, hne⟩ := of_decide_eq_true hd
  exact hne ((hall w h v hv).1 hc hr).1

/-- Behind the transfer the child still goes, and nothing contradicts the client. -/
theorem agreement_delivered :
    ∃ w, (system [0x66] 2 3 .lossy).Reach w ∧ w.client.mvState = .done ∧ Agree 0 w := by
  have h0 : ((system [0x66] 2 3 .lossy).under (OneGoes 0)).Reach (atStart [0x66] 2 3) :=
    .start (atStart_start _ _ _)
  obtain ⟨w, h, hw⟩ := h0.run_any (greeting ++ delivery)
    (fun w => decide (w.client.mvState = .done)) (by decide +kernel)
  exact ⟨w, h.of_under, of_decide_eq_true hw, (agreement_iff [0x66] 2 3 .lossy 0).2.1 w h⟩

end World

end Fileserver
