/-
# No process spins

How many turns the program takes is bounded by the number of datagrams that arrive, over any links
and in any run (`turns_le`).  Between two arrivals a child fills, sends and waits, and a timeout
costs it a retry; the client and the parent do less.

Every process has `fuel` for the turns it can take without another arrival, and an arrival brings
in no more than the longest stretch there is: two turns for each packet of the window, three for
each of the ten retries, and a few for going from one state to the next.
-/
import Fileserver.Completion
import Fileserver.Delivered
import Fileserver.Retries

namespace Fileserver

open Proto

/-! ## 1. The child -/

/-- The call got a datagram, if only a damaged one. -/
def Recv.arrives : Recv → Bool
  | .datagram .. => true
  | _ => false

namespace Server

/-- The buffers of a child, whatever numbers it has been sent: they never take more than the window
has room for, and they are where each state leaves them. -/
structure Slim (v : Server) : Prop where
  fresh : v.mvState = .init → v.mvWindow = [] ∧ v.mvOutBuf = []
  room : v.inData → v.mvWindow.length ≤ v.mvWindowSize.toNat
  out : v.mvOutBuf.length ≤ v.mvWindow.length
  full : v.inData → v.mvState ≠ .fillWindow → v.mvWindow.length = v.mvWindowSize.toNat
  sent : v.mvState = .waitRR → v.mvOutBuf = []
  retries : v.mvRetries ≤ pktTrnsMax

/-- What is left of the turns of a child that hears nothing. -/
def fuel (v : Server) : ℕ :=
  match v.mvState with
  | .error | .done => 0
  | _ => v.work + 3 * v.mvRetries.toNat

theorem Slim.fuel_le {v : Server} (h : v.Slim) {W : ℕ}
    (hW : v.inData → v.mvWindowSize.toNat ≤ W) : v.fuel ≤ 2 * W + 32 := by
  have hret := h.retries
  have hout := h.out
  have hmax : pktTrnsMax = 10 := rfl
  unfold fuel work
  cases hs : v.mvState with
  | init =>
    dsimp only
    omega
  | error | done => simp
  | fillWindow | sendWindow | waitRR =>
    have hd : v.inData := by simp [inData, hs]
    have hroom := h.room hd
    have hsize := hW hd
    dsimp only
    omega

variable [Host]

/-- **A turn of the data phase keeps the buffers within the window**, whatever the peer sends. -/
theorem Turn.slim {v v' : Server} {e : Event} {out : Option Packet} (h : v.Turn e v' out)
    (hd : v.inData) (hv : v.Slim) (hk : v'.mvRetries ≤ pktTrnsMax) : v'.Slim := by
  have hroom := hv.room hd
  have hout := hv.out
  have hfull := hv.full hd
  have hne := h.ne_init hd
  cases h with
  | push hs hl =>
    refine ⟨fun hi => absurd hi hne, fun _ => ?_, ?_, by simp [hs], by simp [hs], hk⟩
    · simpa using Nat.succ_le_of_lt hl
    · simpa using hout
  | full hs hl =>
    exact ⟨by simp, fun _ => hroom, hout, fun _ _ => Nat.le_antisymm hroom hl, by simp, hk⟩
  | sendOne hs ho =>
    refine ⟨fun hi => absurd hi hne, fun _ => hroom, ?_, fun _ => hfull, by simp [hs], hk⟩
    rw [ho, List.length_cons] at hout
    exact (Nat.le_succ _).trans hout
  | sent hs ho =>
    exact ⟨by simp, fun _ => hroom, hout, fun _ _ => hfull (by simp [hs]), fun _ => ho, hk⟩
  | again hs hr => exact ⟨by simp, fun _ => hroom, hout, by simp, by simp, hk⟩
  | @shiftTo src buf io hs hok ht hle =>
    have hlen := (shift_suffix buf.sequence v.front.sequence v.mvWindow).length_le
    refine ⟨by simp, fun _ => hlen.trans hroom, ?_, by simp, by simp, hk⟩
    simp [hv.sent hs]
  | oldRR hs | ignore hs =>
    exact ⟨fun hi => absurd hi hne, fun _ => hroom, hout, fun _ => hfull, hv.sent, hk⟩
  | resend hs hok ht hle => exact ⟨by simp, fun _ => hroom, le_rfl, by simp, by simp, hk⟩
  | rewind hs hok ht hlt => exact ⟨by simp, fun _ => Nat.zero_le _, le_rfl, by simp, by simp, hk⟩
  | fail hq he => exact ⟨by simp, by simp [inData], hout, by simp [inData], by simp, hk⟩

/-- So does a turn of `init`. -/
theorem InitTurn.slim {v v' : Server} {r : Recv} {io : Bool} {out : Option Packet}
    (h : v.InitTurn r io v' out) (hl : v.initLoop = true) (hs : v.mvState = .init) (hv : v.Slim)
    (hk : v'.mvRetries ≤ pktTrnsMax) : v'.Slim := by
  obtain ⟨hw, ho⟩ := hv.fresh hs
  obtain ⟨-, hw', ho', -⟩ := h.stays hl
  have hne : v'.inData → v'.mvState = .fillWindow := by
    intro hd
    exact (h.dataStart hs hw ho hd).state
  refine ⟨fun _ => ⟨hw'.trans hw, ho'.trans ho⟩, fun _ => by simp [hw', hw], by simp [ho', ho],
    fun hd hf => absurd (hne hd) hf, fun _ => ho'.trans ho, hk⟩

/-- **Every turn of a child keeps its buffers within the window.** -/
theorem Slim.step {v v' : Server} {e : Event} {out : Option Packet} (hv : v.Slim)
    (hl : v.mvState = .init → v.initLoop = true) (h : v.step e = some (v', out)) : v'.Slim := by
  cases e with
  | act io =>
    have hs : v.mvState ≠ .init := by
      intro hs
      simp [Server.step, receives, hs] at h
    have hd := inData_of_step h hs
    refine (step_cases hd h).slim hd hv ?_
    simp only [Server.step, Option.ite_none_right_eq_some, Option.some.injEq] at h
    have ha := act_retries v io
    rw [h.2] at ha
    exact ha.trans_le hv.retries
  | hear r io =>
    have hk := (step_leaves hl h).le hv.retries
    by_cases hs : v.mvState = .init
    · exact (initTurn_of_step hs (hl hs) h).slim (hl hs) hs hv hk
    · have hd := inData_of_step h hs
      exact (step_cases hd h).slim hd hv hk

/-- **A turn pays for itself** unless a datagram comes. -/
theorem Slim.pays {v v' : Server} {e : Event} {out : Option Packet} (hv : v.Slim)
    (hl : v.mvState = .init → v.initLoop = true) (h : v.step e = some (v', out))
    (hn : ∀ r io, e = .hear r io → r.arrives = false) : v'.fuel + 1 ≤ v.fuel := by
  have hrun : v.running = true := by
    cases e <;> simp [Server.step] at h <;> exact h.1.1
  have hpos := retries_pos hl hrun
  have hnat : 1 ≤ v.mvRetries.toNat := by omega
  -- a turn that ends the child
  have hends (hs : v.mvState = .init ∨ v.inData) (he : v'.mvState = .error) :
      v'.fuel + 1 ≤ v.fuel := by
    rcases hs with hs | hs | hs | hs <;> simp only [fuel, hs, he] <;> omega
  cases e with
  | act io =>
    have hs : v.mvState ≠ .init := by
      intro hs
      simp [Server.step, receives, hs] at h
    have hd := inData_of_step h hs
    cases step_cases hd h with
    | push hs hl =>
      simp only [fuel, work, hs, List.length_append, List.length_singleton]
      omega
    | full hs hl =>
      simp only [fuel, work, hs]
      omega
    | sendOne hs ho =>
      simp only [fuel, work, hs, ho, List.length_cons]
      omega
    | sent hs ho =>
      simp only [fuel, work, hs, ho]
      omega
    | fail => exact hends (.inr hd) rfl
  | hear r io =>
    have hleft := step_leaves hl h
    have hno := hn r io rfl
    cases r with
    | datagram => simp [Recv.arrives] at hno
    | failed =>
      by_cases hs : v.mvState = .init
      · cases initTurn_of_step hs (hl hs) h with
        | nag hb | gaveUp hb => simp [Recv.bad] at hb
        | fail _ he => exact hends (.inl hs) he
      · have hd := inData_of_step h hs
        cases step_cases hd h with
        | again _ hb => simp [Recv.bad] at hb
        | fail => exact hends (.inr hd) rfl
    | timeout =>
      have hk : v'.mvRetries = v.mvRetries - 1 := hleft.silent_eq
      by_cases hs : v.mvState = .init
      · cases initTurn_of_step hs (hl hs) h with
        | nag =>
          simp only [fuel, work, hs] at hk ⊢
          omega
        | gaveUp => exact hends (.inl hs) rfl
        | fail _ he => exact hends (.inl hs) he
      · have hd := inData_of_step h hs
        have hfull := hv.full hd
        cases step_cases hd h with
        | again hw =>
          have hlen := hfull (by simp [hw])
          have hout := hv.sent hw
          simp only [fuel, work, hw, hout, hlen, List.length_nil]
          dsimp only at hk
          omega
        | fail => exact hends (.inr hd) rfl

end Server

/-! ## 2. The client -/

namespace Client

/-- What is left of the turns of a client that hears nothing: in `init` a turn that sends goes with
each that receives. -/
def fuel (c : Client) : ℕ :=
  match c.mvState with
  | .error | .done => 0
  | .init => 2 * c.mvRetries.toNat + if c.sent then 0 else 1
  | .recvPackets => c.mvRetries.toNat

theorem fuel_le {c : Client} (hk : c.mvRetries ≤ pktTrnsMax) : c.fuel ≤ 21 := by
  have hmax : pktTrnsMax = 10 := rfl
  unfold fuel
  split
  · omega
  · omega
  · split_ifs <;> omega
  · omega

variable [Host]

/-- **A turn pays for itself** unless a datagram comes. -/
theorem pays {c c' : Client} {e : Event} {out : Option Packet} (hc : c.Loops)
    (h : c.step e = some (c', out))
    (hn : ∀ r sock wr io, e = .hear r sock wr io → r.arrives = false) :
    c'.fuel + 1 ≤ c.fuel := by
  have hrun : c.running = true := by
    cases e <;> simp [step] at h <;> exact h.1.1
  have hpos := retries_pos hc hrun
  have hnat : 1 ≤ c.mvRetries.toNat := by omega
  have hends (he : c'.mvState = .error) : c'.fuel + 1 ≤ c.fuel := by
    have hl : 1 ≤ c.fuel := by
      cases hs : c.mvState <;> simp [running, hs] at hrun <;> simp only [fuel, hs] <;> omega
    simpa [fuel, he] using hl
  cases e with
  | act io =>
    simp only [step, Option.ite_none_right_eq_some, Option.some.injEq] at h
    obtain ⟨hg, h⟩ := h
    obtain ⟨hs, hsent⟩ : c.mvState = .init ∧ c.sent = false := by
      cases hs : c.mvState <;> simp [running, receives, hs] at hg ⊢
      exact hg
    cases io with
    | false =>
      obtain ⟨rfl, -⟩ := Prod.mk.inj h
      exact hends rfl
    | true =>
      obtain ⟨rfl, -⟩ := Prod.mk.inj h
      simp [fuel, hs, hsent]
  | hear r sock wr io =>
    have hleft := step_leaves hc h
    have hno := hn r sock wr io rfl
    cases r with
    | datagram => simp [Recv.arrives] at hno
    | failed =>
      by_cases hs : c.mvState = .init
      · obtain ⟨h0, h5, -⟩ := hc hs
        cases (initTurn_of_step hs ⟨h0, h5⟩ h).2.2 with
        | again hk ha hr => simp [Recv.bad] at hr
        | fail => exact hends rfl
      · cases (step_cases hs h).2 with
        | nag hb => simp [Recv.bad] at hb
        | fail => exact hends rfl
    | timeout =>
      have hk : c'.mvRetries = c.mvRetries - 1 := hleft.silent_eq
      by_cases hs : c.mvState = .init
      · obtain ⟨h0, h5, -⟩ := hc hs
        obtain ⟨hsent, -, ht⟩ := initTurn_of_step hs ⟨h0, h5⟩ h
        cases ht with
        | again =>
          simp only [fuel, hs, hsent, Bool.false_eq_true, if_false, if_true] at hk ⊢
          omega
        | fail => exact hends rfl
      · obtain ⟨hr, ht⟩ := step_cases hs h
        cases ht with
        | nag =>
          simp only [fuel, hr] at hk ⊢
          omega
        | fail => exact hends rfl

/-- The retries stay within their maximum. -/
theorem step_retries_le {c c' : Client} {e : Event} {out : Option Packet} (hc : c.Loops)
    (hk : c.mvRetries ≤ pktTrnsMax) (h : c.step e = some (c', out)) :
    c'.mvRetries ≤ pktTrnsMax := by
  cases e with
  | act io =>
    simp only [step, Option.ite_none_right_eq_some, Option.some.injEq] at h
    obtain rfl : (c.initTop io).1 = c' := by rw [h.2]
    cases io <;> exact hk
  | hear r sock wr io => exact (step_leaves hc h).le hk

end Client

/-- The call gets a datagram. -/
def Arrival.arrives : Arrival → Bool
  | .take _ | .garble .. => true
  | _ => false

theorem Arrival.recv_arrives [Host] {a : Arrival} {l l' : List Datagram} {r : Recv}
    (h : a.recv l = some (r, l')) : r.arrives = a.arrives := by
  cases a with
  | timeout | failed =>
    obtain ⟨rfl, -⟩ := Prod.mk.inj (Option.some.inj h)
    rfl
  | take i =>
    obtain ⟨d, -, he⟩ := Option.map_eq_some_iff.mp h
    obtain ⟨rfl, -⟩ := Prod.mk.inj he
    rfl
  | garble i q =>
    simp only [recv, Option.ite_none_left_eq_some] at h
    obtain ⟨d, -, he⟩ := Option.map_eq_some_iff.mp h.2
    obtain ⟨rfl, -⟩ := Prod.mk.inj he
    rfl

/-- A parent that hears nothing takes no turn but the one by which it ends. -/
def Parent.fuel (p : Parent) : ℕ := if p.returned then 0 else 1

theorem Parent.fuel_le (p : Parent) : p.fuel ≤ 1 := by
  unfold fuel
  split_ifs <;> simp

namespace World

/-! ## 3. The program -/

/-- A process takes a turn. -/
def Event.turn : Event → Bool
  | .parentHear .. | .childAct .. | .childHear .. | .clientAct _ | .clientHear .. => true
  | _ => false

/-- A datagram arrives at a process. -/
def Event.arrives : Event → Bool
  | .parentHear a .. | .childHear _ a _ | .clientHear a .. => a.arrives
  | _ => false

/-- The turns that are left without another arrival. -/
def fuel (w : World) : ℕ :=
  w.parent.fuel + w.client.fuel + (w.children.map Server.fuel).sum

theorem sum_set (f : Server → ℕ) {l : List Server} {k : ℕ} {v : Server} (v' : Server)
    (hk : l[k]? = some v) : ((l.set k v').map f).sum + f v = (l.map f).sum + f v' := by
  induction l generalizing k with
  | nil => simp at hk
  | cons u l ih =>
    cases k with
    | zero =>
      obtain rfl : u = v := by simpa using hk
      simp only [List.set_cons_zero, List.map_cons, List.sum_cons]
      omega
    | succ k =>
      have h := ih (k := k) (by simpa using hk)
      simp only [List.set_cons_succ, List.map_cons, List.sum_cons]
      omega

variable [Host] {from_ : List UInt8} {bufsz winsz : Int32} {n : Link} {w t : World} {e : Event}

/-- Every process keeps to its buffers and its retries. -/
structure Thrifty (w : World) : Prop where
  kids : ∀ v ∈ w.children, v.Slim
  client : w.client.mvRetries ≤ pktTrnsMax

/-- What an arrival brings in, for windows of `W` packets. -/
def income (W : ℕ) (e : Event) : ℕ := if e.arrives then 2 * W + 33 else 0

/-- The window size as it travels, 16 bits of it. -/
def winszSent (winsz : Int32) : ℕ := winsz.toUInt32.toUInt16.toNat

/-- The window of a child in the data phase has the size the client has sent. -/
theorem windowSize_of_reach (hr : (system from_ bufsz winsz n).Reach w) {v : Server}
    (hv : v ∈ w.children) (hd : v.inData) : v.mvWindowSize.toNat = winszSent winsz := by
  rw [((told_of_reach hr).data v hv hd).windowSize, (pkt_of_reach hr).2.1]
  exact UInt16.toNat_toUInt32 _

/-- A turn of child `k`. -/
theorem Thrifty.child (hr : (system from_ bufsz winsz n).Reach w)
    (hrt : (system from_ bufsz winsz n).Reach t) (hi : w.Thrifty) {k : ℕ} {v v' : Server}
    {ev : Server.Event} {out : Option Packet} {up : Addr → List Datagram} {b : List Packet}
    (hk : w.children[k]? = some v) (hst : v.step ev = some (v', out))
    (ht : t = w.afterChild k up b (v', out))
    (hn : e.arrives = false → ∀ r io, ev = .hear r io → r.arrives = false) :
    t.Thrifty ∧ t.fuel + 1 ≤ w.fuel + income (winszSent winsz) e := by
  have hv := List.mem_of_getElem? hk
  have hl := (wf_of_reach hr).loop v hv
  have hs' := (hi.kids v hv).step hl hst
  have hsum := sum_set Server.fuel v' hk
  have hchildren : t.children = w.children.set k v' := by rw [ht]; rfl
  have hmem : v' ∈ t.children := by
    rw [hchildren]
    exact mem_set_self hk
  refine ⟨⟨?_, by rw [ht]; exact hi.client⟩, ?_⟩
  · rw [hchildren]
    exact forall_set hi.kids hs'
  · have hfuel : v'.fuel + 1 ≤ v.fuel + income (winszSent winsz) e := by
      by_cases he : e.arrives = true
      · have := hs'.fuel_le fun hd => (windowSize_of_reach hrt hmem hd).le
        simp only [income, he, if_true]
        omega
      · have := (hi.kids v hv).pays hl hst (hn (by simpa using he))
        omega
    subst ht
    simp only [fuel, afterChild]
    omega

/-- A turn of the client. -/
theorem Thrifty.clientTurn (hw : w.Wf) (hi : w.Thrifty) {c : Client} {ev : Client.Event}
    {out : Option Packet} {down : Addr → List Datagram} {b : List Addr}
    (hst : w.client.step ev = some (c, out)) (W : ℕ)
    (hn : e.arrives = false → ∀ r sock wr io, ev = .hear r sock wr io → r.arrives = false) :
    (w.afterClient down b (c, out)).Thrifty ∧
      (w.afterClient down b (c, out)).fuel + 1 ≤ w.fuel + income W e := by
  have hk := Client.step_retries_le hw.client hi.client hst
  refine ⟨⟨hi.kids, hk⟩, ?_⟩
  have hfuel : c.fuel + 1 ≤ w.client.fuel + income W e := by
    by_cases he : e.arrives = true
    · have := Client.fuel_le hk
      simp only [income, he, if_true]
      omega
    · have := Client.pays hw.client hst (hn (by simpa using he))
      omega
  simp only [fuel, afterClient]
  omega

/-- A turn of the parent, which may fork. -/
theorem Thrifty.parent (hw : w.Wf) (hi : w.Thrifty) {src sock : Addr} {buf : Packet}
    {forks io : Bool} {l : List Datagram} {b : List Addr} (W : ℕ) (he : e.arrives = true) :
    (w.afterParent src l b (w.parent.run src buf sock forks io)).Thrifty ∧
      (w.afterParent src l b (w.parent.run src buf sock forks io)).fuel + 1
        ≤ w.fuel + income W e := by
  have hmax : pktTrnsMax = 10 := rfl
  have hret := hw.parent.retries
  refine ⟨⟨forall_fork hi.kids ?_, hi.client⟩, ?_⟩
  · constructor <;>
      simp [Server.forked, Server.inData, hw.parent.window, hw.parent.outBuf, hret]
  · have hfork : (((w.parent.run src buf sock forks io).2.2.toList).map Server.fuel).sum ≤ 30 := by
      cases hv : (w.parent.run src buf sock forks io).2.2 with
      | none => simp
      | some v =>
        obtain ⟨-, -, rfl⟩ := Parent.run_child (Option.mem_def.mpr hv)
        simp [Server.fuel, Server.work, Server.forked, hret, hmax]
    have := Parent.fuel_le (w.parent.run src buf sock forks io).1
    simp only [fuel, afterParent, List.map_append, List.sum_append, income, he, if_true]
    omega

/-- **A turn of the program pays for itself** unless a datagram arrives. -/
theorem Thrifty.step (hr : (system from_ bufsz winsz n).Reach w)
    (hrt : (system from_ bufsz winsz n).Reach t) (hi : w.Thrifty) (h : w.next e = some t) :
    t.Thrifty ∧ t.fuel + (if e.turn then 1 else 0) ≤ w.fuel + income (winszSent winsz) e := by
  have hw := wf_of_reach hr
  cases e with
  | parentHear a sock forks io =>
    simp only [next, Option.ite_none_left_eq_some] at h
    obtain ⟨hlive, h⟩ := h
    split at h
    · rename_i src buf l ha
      obtain rfl := Option.some.inj h
      have harr : (Event.parentHear a sock forks io).arrives = true :=
        (Arrival.recv_arrives ha).symm
      exact hi.parent hw _ harr
    · obtain rfl := Option.some.inj h
      refine ⟨⟨hi.kids, hi.client⟩, ?_⟩
      simp only [fuel, Parent.fuel, hlive, Bool.false_eq_true, if_true, if_false, Event.turn]
      omega
    · simp at h
    · simp at h
  | childAct k io =>
    obtain ⟨v, hk, h⟩ := Option.bind_eq_some_iff.mp h
    obtain ⟨⟨v', out⟩, hst, ht⟩ := Option.map_eq_some_iff.mp h
    exact hi.child hr hrt hk hst ht.symm (by simp)
  | childHear k a io =>
    obtain ⟨v, hk, h⟩ := Option.bind_eq_some_iff.mp h
    obtain ⟨⟨r, l⟩, ha, h⟩ := Option.bind_eq_some_iff.mp h
    obtain ⟨⟨v', out⟩, hst, ht⟩ := Option.map_eq_some_iff.mp h
    refine hi.child hr hrt hk hst ht.symm ?_
    rintro he r io hev
    obtain ⟨rfl, -⟩ := Server.Event.hear.inj hev
    exact (Arrival.recv_arrives ha).trans he
  | clientAct io =>
    obtain ⟨⟨c, out⟩, hst, rfl⟩ := Option.map_eq_some_iff.mp h
    exact hi.clientTurn hw hst _ (by simp)
  | clientHear a sock wr io =>
    obtain ⟨⟨r, l⟩, ha, h⟩ := Option.bind_eq_some_iff.mp h
    obtain ⟨⟨c, out⟩, hst, rfl⟩ := Option.map_eq_some_iff.mp h
    refine hi.clientTurn hw hst _ ?_
    rintro he r sock wr io hev
    obtain ⟨rfl, -⟩ := Client.Event.hear.inj hev
    exact (Arrival.recv_arrives ha).trans he
  | loseUp | dupUp | loseDown | dupDown =>
    obtain rfl := Option.some.inj h
    exact ⟨⟨hi.kids, hi.client⟩, le_rfl⟩

/-- **No process spins.**  In every run from the start of the program, over links of any kind and
with any calls failing, the turns that parent, children and client have taken together are at most
22, and for each datagram that arrived at one of them at most two for each packet of a window and
33 more. -/
theorem turns_le (from_ : List UInt8) (bufsz winsz : Int32) (n : Link) (w t : World)
    (h : Start from_ bufsz winsz w) (es : List Event)
    (hr : (system from_ bufsz winsz n).run w es = some t) :
    es.countP Event.turn ≤ 22 + (2 * winszSent winsz + 33) * es.countP Event.arrives := by
  have hbudget := System.run_countP (M := system from_ bufsz winsz n)
    (I := fun w => (system from_ bufsz winsz n).Reach w ∧ w.Thrifty) fuel Event.turn Event.arrives
    (2 * winszSent winsz + 33) ?_ ⟨.start h, ?_⟩ hr
  · have hstart : w.fuel ≤ 22 := by
      obtain ⟨sock, sk, addr, -, hc⟩ := h.client
      have hcl : w.client.fuel ≤ 21 := Client.fuel_le (by rw [hc]; rfl)
      have := w.parent.fuel_le
      simp only [fuel, h.children, List.map_nil, List.sum_nil]
      omega
    omega
  · rintro w e t ⟨hr, hi⟩ hm hn
    have hrt := hr.step hm hn
    obtain ⟨hit, hle⟩ := hi.step hr hrt hn
    exact ⟨⟨hrt, hit⟩, hle⟩
  · obtain ⟨sock, sk, addr, -, hc⟩ := h.client
    exact ⟨by simp [h.children], by rw [hc]; rfl⟩

end World

end Fileserver

namespace Fileserver

open Proto

namespace World

local instance effortHost : Host := refHost [1, 2, 3]

/-- A whole transfer of three bytes. -/
theorem turns_le_three :
    ∃ t, (system [0x66] 2 3 .free).run (atStart [0x66] 2 3) (greeting ++ delivery) = some t ∧
      t.client.mvState = .done ∧
      (greeting ++ delivery).countP Event.turn
        ≤ 22 + 39 * (greeting ++ delivery).countP Event.arrives := by
  obtain ⟨t, ht, hdone⟩ := (Option.any_eq_true _ _).mp (by decide +kernel :
    ((system [0x66] 2 3 .free).run (atStart [0x66] 2 3) (greeting ++ delivery)).any
      (fun t => decide (t.client.mvState = .done)) = true)
  exact ⟨t, ht, of_decide_eq_true hdone,
    turns_le [0x66] 2 3 .free _ t (atStart_start _ _ _) _ ht⟩

end World

end Fileserver
