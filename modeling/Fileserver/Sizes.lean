/-
# The negotiated sizes

`rcopy` makes what `atoi` returned an `unsigned`, the `BUF` and `WIN` packets carry 16 bits of
it, the child makes that an `unsigned` again, and nobody on the way looks at the value.  Both
sides have the same sizes only if they fit 16 bits.  A buffer size above `PKT_DMAX` makes the
child read past the end of a packet, and a window size of 0 makes it look at the front of an empty
window (`usable_iff`).
-/
import Fileserver.Cksum
import Fileserver.Connect
import Fileserver.Sent

namespace Fileserver

open Proto

/-! ## 1. The conversions -/

theorem toInt_eq (x : Int32) :
    x.toInt = if x.toUInt32.toNat < 2147483648 then (x.toUInt32.toNat : Int)
      else x.toUInt32.toNat - 4294967296 := by
  have hx : x.toInt = _ := BitVec.toInt_eq_toNat_cond x.toBitVec
  have hn : x.toBitVec.toNat = x.toUInt32.toNat := rfl
  rw [hx, hn]
  split_ifs <;> omega

/-- Both sides have the same number, if it fits 16 bits. -/
theorem cut_eq_iff (x : Int32) :
    x.toUInt32.toUInt16.toUInt32 = x.toUInt32 ↔ 0 ≤ x.toInt ∧ x.toInt ≤ 65535 := by
  have hx := toInt_eq x
  have hlt := x.toUInt32.toNat_lt
  rw [← UInt32.toNat_inj, UInt16.toNat_toUInt32, UInt32.toNat_toUInt16]
  split_ifs at hx <;> omega

/-- Then it is the one `atoi` returned. -/
theorem toNat_cut {x : Int32} (h0 : 0 ≤ x.toInt) (h : x.toInt ≤ 65535) :
    (x.toUInt32.toUInt16.toNat : Int) = x.toInt := by
  have hx := toInt_eq x
  have hlt := x.toUInt32.toNat_lt
  rw [UInt32.toNat_toUInt16]
  split_ifs at hx <;> omega

/-! ## 2. Accesses -/

/-- The packet makes `waitRR` look at the front of the window. -/
def Recv.acks [Host] : Recv → Bool
  | .datagram _ buf => buf.ok && (decide (buf.type = pktTypeRR) || decide (buf.type = pktTypeREJ))
  | _ => false

variable [Host]

namespace Server

/-- The accesses of the turn stay inside: `read` is asked for no more than fits `data`, and
`front` is not called on an empty window. -/
def Safe (s : Server) : Event → Prop
  | .act _ =>
    s.mvState = .fillWindow → s.mvWindow.length < s.mvWindowSize.toNat →
      s.mvBufferSize.toNat ≤ pktDMax
  | .hear r _ => s.mvState = .waitRR → r.acks = true → s.mvWindow ≠ []

instance (s : Server) : DecidablePred s.Safe
  | .act _ =>
    inferInstanceAs (Decidable (s.mvState = .fillWindow → s.mvWindow.length <
      s.mvWindowSize.toNat → s.mvBufferSize.toNat ≤ pktDMax))
  | .hear r _ =>
    inferInstanceAs (Decidable (s.mvState = .waitRR → r.acks = true → s.mvWindow ≠ []))

/-- Outside `fillWindow` the window is full. -/
def Full (s : Server) : Prop :=
  s.mvState = .sendWindow ∨ s.mvState = .waitRR → s.mvWindowSize.toNat ≤ s.mvWindow.length

theorem Full.turn {s t : Server} {e : Event} {out : Option Packet} (hf : s.Full)
    (h : Turn s e t out) : t.Full := by
  cases h with
  | push hs hl => simp [Full, hs]
  | full hs hl => exact fun _ => hl
  | sendOne hs ho => exact hf
  | sent hs ho => exact fun _ => hf (.inl hs)
  | oldRR | ignore => exact hf
  | again | shiftTo | resend | rewind | fail => simp [Full]

theorem InitTurn.full {s t : Server} {r : Recv} {io : Bool} {out : Option Packet}
    (h : s.InitTurn r io t out) (hs : s.mvState = .init) : t.Full := by
  cases h with
  | nag | old | high => simp [Full, hs]
  | take => simp [Full, hs]
  | gaveUp | opened | unopened => simp [Full]
  | fail hf he hk hw ho => simp [Full, he]

end Server

namespace Client

/-- The `write` of the turn takes a data packet's bytes from inside the packet. -/
def Safe (c : Client) : Recv → Prop
  | .datagram _ buf =>
    c.mvState = .recvPackets → buf.ok = true → buf.type = pktTypeDAT →
      buf.sequence = c.mvSequence → buf.size.toNat ≤ pktDMax
  | _ => True

instance (c : Client) : DecidablePred c.Safe
  | .datagram _ buf =>
    inferInstanceAs (Decidable (c.mvState = .recvPackets → buf.ok = true →
      buf.type = pktTypeDAT → buf.sequence = c.mvSequence → buf.size.toNat ≤ pktDMax))
  | .timeout | .failed => inferInstanceAs (Decidable True)

/-- No turn changes the client's sizes. -/
theorem InitTurn.sizes {c d : Client} {sock : Addr} {r : Recv} {io : Bool}
    (h : c.InitTurn sock r io d) :
    d.mvBufferSize = c.mvBufferSize ∧ d.mvWindowSize = c.mvWindowSize := by
  cases h <;> exact ⟨rfl, rfl⟩

theorem Turn.sizes {c d : Client} {r : Recv} {wr io : Bool} {out : Option Packet}
    (h : c.Turn r wr io d out) :
    d.mvBufferSize = c.mvBufferSize ∧ d.mvWindowSize = c.mvWindowSize := by
  cases h <;> exact ⟨rfl, rfl⟩

end Client

namespace World

variable {n : Link} {w t : World} {e : Event} {from_ : List UInt8} {bufsz winsz : Int32}

/-- The accesses of the step stay inside. -/
def Safe (w : World) : Event → Prop
  | .childAct k io => ∀ v ∈ w.children[k]?, v.Safe (.act io)
  | .childHear k a io =>
    ∀ v ∈ w.children[k]?, ∀ x ∈ a.recv (w.up v.mvSocket), v.Safe (.hear x.1 io)
  | .clientHear a _ _ _ => ∀ x ∈ a.recv (w.down w.client.mvSocket), w.client.Safe x.1
  | _ => True

/-- Between `w` and `t` the client and child `k` both are in the data phase, one of them at `w`
and one at `t`. -/
def Meet (k : ℕ) (w t : World) : Prop :=
  (w.client.mvState = .recvPackets ∧ ∃ v ∈ t.children[k]?, v.inData) ∨
  ((∃ v ∈ w.children[k]?, v.inData) ∧ t.client.mvState = .recvPackets)

/-- **Equal and usable**: whenever the client and a child both have reached the data phase, the
child has the sizes of the client, and no access of any later step of any run leaves its
container. -/
def Usable (from_ : List UInt8) (bufsz winsz : Int32) : Prop :=
  ∀ (w t : World) (k : ℕ), (system from_ bufsz winsz .free).Reach w →
    Relation.ReflTransGen (system from_ bufsz winsz .free).Move w t → Meet k w t →
    (∀ v ∈ t.children[k]?,
      v.mvBufferSize = t.client.mvBufferSize ∧ v.mvWindowSize = t.client.mvWindowSize) ∧
    ∀ u, Relation.ReflTransGen (system from_ bufsz winsz .free).Move t u →
      ∀ e x, may .free u e → u.next e = some x → u.Safe e

/-! ## 3. The sizes -/

/-- What `rcopy` passes on, the client keeps. -/
theorem sizes_of_reach (h : (system from_ bufsz winsz n).Reach w) :
    w.client.mvBufferSize = bufsz.toUInt32 ∧ w.client.mvWindowSize = winsz.toUInt32 := by
  refine h.invariant (I := fun w => w.client.mvBufferSize = bufsz.toUInt32 ∧
    w.client.mvWindowSize = winsz.toUInt32) ?_ ?_
  · intro w h0
    obtain ⟨sock, sk, addr, -, hc⟩ := h0.client
    rw [hc]
    exact ⟨rfl, rfl⟩
  · intro w e t hr hi hm hn
    cases next_cases (wf_of_reach hr) hm hn with
    | clientInit hn hs hsent hal ha ht =>
      obtain ⟨h1, h2⟩ := ht.sizes
      exact ⟨h1.trans hi.1, h2.trans hi.2⟩
    | clientHear hs hal ha ht =>
      obtain ⟨h1, h2⟩ := ht.sizes
      exact ⟨h1.trans hi.1, h2.trans hi.2⟩
    | _ => exact hi

/-- A child stays where it is in the list, and only its own turns change it. -/
theorem Turn.kid {k : ℕ} {v : Server} (h : Turn n w e t) (hk : w.children[k]? = some v) :
    ∃ v', t.children[k]? = some v' ∧ (v' = v ∨ v.Goes v') := by
  have hset {j : ℕ} {u u' : Server} {ev : Server.Event} {out : Option Packet}
      (hj : w.children[j]? = some u) (hst : u.step ev = some (u', out)) :
      ∃ v', (w.children.set j u')[k]? = some v' ∧ (v' = v ∨ v.Goes v') := by
    by_cases hjk : j = k
    · subst hjk
      obtain rfl := Option.some.inj (hj.symm.trans hk)
      obtain ⟨hlt, -⟩ := List.getElem?_eq_some_iff.mp hk
      exact ⟨u', List.getElem?_set_self hlt, .inr ⟨ev, out, hst⟩⟩
    · exact ⟨v, by rw [List.getElem?_set_ne hjk, hk], .inl rfl⟩
  have hsame : ∃ v', w.children[k]? = some v' ∧ (v' = v ∨ v.Goes v') := ⟨v, hk, .inl rfl⟩
  obtain ⟨hlt, -⟩ := List.getElem?_eq_some_iff.mp hk
  cases h with
  | parentDrops | parent =>
    exact ⟨v, by simpa [afterParent, List.getElem?_append_left hlt] using hk, .inl rfl⟩
  | childAct hj hd ht hst => exact hset hj hst
  | childInit hj hs hal ha ht hst => exact hset hj hst
  | childHear hj hd hal ha ht hst => exact hset hj hst
  | _ => exact hsame

/-- A child that is set up stays so. -/
theorem setUp_of_run {k : ℕ} {v : Server} (h : (system from_ bufsz winsz n).Reach w)
    (hk : w.children[k]? = some v) (hv : v.SetUp w.client.pkt)
    (hr : Relation.ReflTransGen (system from_ bufsz winsz n).Move w t) :
    ∃ v', t.children[k]? = some v' ∧ v'.SetUp t.client.pkt := by
  induction hr with
  | refl => exact ⟨v, hk, hv⟩
  | @tail u t hu hm ih =>
    obtain ⟨v', hk', hv'⟩ := ih
    obtain ⟨e, hm, hn⟩ := hm
    have hturn := next_cases (wf_of_reach (h.moves hu)) hm hn
    obtain ⟨v'', hk'', hg⟩ := hturn.kid hk'
    refine ⟨v'', hk'', ?_⟩
    rw [hturn.pkt_eq]
    rcases hg with rfl | ⟨ev, out, hst⟩
    · exact hv'
    · exact hv'.step hst

/-- A child that has reached the data phase has the sizes out of the client's packets. -/
theorem setUp_of_meet {k : ℕ} (h : (system from_ bufsz winsz n).Reach w)
    (hr : Relation.ReflTransGen (system from_ bufsz winsz n).Move w t) (hm : Meet k w t) :
    ∃ v, t.children[k]? = some v ∧ v.SetUp t.client.pkt := by
  rcases hm with ⟨-, v, hk, hd⟩ | ⟨⟨v, hk, hd⟩, -⟩
  · exact ⟨v, hk, (told_of_reach (h.moves hr)).data v (List.mem_of_getElem? hk) hd⟩
  · exact setUp_of_run h hk ((told_of_reach h).data v (List.mem_of_getElem? hk) hd) hr

/-- So it has opened the file. -/
theorem file_of_meet {k : ℕ} (h : (system from_ bufsz winsz n).Reach w)
    (hr : Relation.ReflTransGen (system from_ bufsz winsz n).Move w t) (hm : Meet k w t) :
    Host.file (nameSent from_) ≠ none := by
  obtain ⟨v, -, hs⟩ := setUp_of_meet h hr hm
  have hf := hs.file
  rw [hs.fromName, (pkt_of_reach (h.moves hr)).2.2] at hf
  simp [hf]

/-- **When the sizes are equal.** -/
theorem sizes_eq_iff {v : Server} (h : (system from_ bufsz winsz n).Reach w)
    (hv : v.SetUp w.client.pkt) :
    (v.mvBufferSize = w.client.mvBufferSize ∧ v.mvWindowSize = w.client.mvWindowSize) ↔
      (0 ≤ bufsz.toInt ∧ bufsz.toInt ≤ 65535) ∧ 0 ≤ winsz.toInt ∧ winsz.toInt ≤ 65535 := by
  obtain ⟨hb, hw, -⟩ := pkt_of_reach h
  obtain ⟨hcb, hcw⟩ := sizes_of_reach h
  rw [hv.bufferSize, hv.windowSize, hb, hw, hcb, hcw, cut_eq_iff, cut_eq_iff]

/-! ## 4. Safe runs -/

/-- Outside `fillWindow` every child's window is full. -/
theorem full_of_reach (h : (system from_ bufsz winsz n).Reach w) : ∀ v ∈ w.children, v.Full := by
  refine h.invariant (I := fun w => ∀ v ∈ w.children, v.Full)
    (fun w h0 => by simp [h0.children]) ?_
  intro w e t hr hi hm hn
  cases next_cases (wf_of_reach hr) hm hn with
  | parentDrops => simpa [afterParent] using hi
  | parent =>
    refine forall_fork hi ?_
    simp [Server.Full, Server.forked]
  | childAct hk hd ht => exact forall_set hi ((hi _ (List.mem_of_getElem? hk)).turn ht)
  | childInit hk hs hal ha ht => exact forall_set hi (ht.full hs)
  | childHear hk hd hal ha ht => exact forall_set hi ((hi _ (List.mem_of_getElem? hk)).turn ht)
  | _ => exact hi

/-- **No step's accesses leave their containers**, if the sizes that arrive are in range. -/
theorem safe_of_reach (h : (system from_ bufsz winsz .free).Reach w)
    (hB : bufsz.toUInt32.toUInt16.toNat ≤ pktDMax) (hW : 0 < winsz.toUInt32.toUInt16.toNat)
    {e : Event} (hm : may .free w e) : w.Safe e := by
  obtain ⟨hb, hw, -⟩ := pkt_of_reach h
  -- a child in the data phase has the sizes that arrived
  have hsizes {v : Server} (hv : v ∈ w.children) (hd : v.inData) :
      v.mvBufferSize.toNat ≤ pktDMax ∧ 0 < v.mvWindowSize.toNat := by
    have hs := (told_of_reach h).data v hv hd
    rw [hs.bufferSize, hs.windowSize, hb, hw, UInt16.toNat_toUInt32, UInt16.toNat_toUInt32]
    exact ⟨hB, hW⟩
  cases e with
  | childAct k io =>
    intro v hv hs _
    exact (hsizes (List.mem_of_getElem? hv) (.inl hs)).1
  | childHear k a io =>
    intro v hv x _ hs _ hnil
    have hmem := List.mem_of_getElem? hv
    have hfull := full_of_reach h v hmem (.inr hs)
    have := (hsizes hmem (.inr (.inr hs))).2
    rw [hnil, List.length_nil] at hfull
    omega
  | clientHear a sock wr io =>
    rintro ⟨r, l⟩ hx
    cases r with
    | timeout | failed => trivial
    | datagram src buf =>
      intro hs hok ht hq
      have hin := (Arrival.recv_ok hm.1 hx hok).mem
      have hfits : Fits from_ bufsz := fun _ _ => (Nat.min_le_left _ _).trans hB
      rcases (sent_of_reach h).down _ _ hin with hr | hbuilt
      · rcases hr with hr | hr
        · exact absurd (ht.symm.trans hr) dat_ne_rr
        · exact absurd (ht.symm.trans hr) dat_ne_rej
      · exact (built_of_reach hfits h _ hbuilt).2
  | _ => trivial

/-! ## 5. Unsafe runs -/

/-- A turn of the only child. -/
theorem only_child_acts (from_ : List UInt8) (bufsz winsz : Int32) {v v' : Server}
    {out : Option Packet} (hk : w.children = [v]) (hst : v.step (.act true) = some (v', out)) :
    ∃ t, (system from_ bufsz winsz .free).Move w t ∧ t.children = [v'] ∧ t.client = w.client ∧
      t.up = w.up := by
  have hn : w.next (.childAct 0 true) = some (w.afterChild 0 w.up
      (if v.pushes (.act true) then w.built ++ [v.nextPacket] else w.built) (v', out)) := by
    simp [next, hk, hst]
  exact ⟨_, ⟨.childAct 0 true, trivial, hn⟩, by simp [afterChild, hk], rfl, rfl⟩

/-- **The child reads into its first packet**: as many bytes as its buffer size says. -/
theorem Begun.reads {v : Server} (hb : w.Begun v) (hW : 0 < v.mvWindowSize.toNat)
    (hs : ∀ e x, may .free w e → w.next e = some x → w.Safe e) :
    v.mvBufferSize.toNat ≤ pktDMax := by
  have hroom : v.mvWindow.length < v.mvWindowSize.toNat := by
    rw [hb.window]
    exact hW
  obtain ⟨x, hx⟩ : ∃ x, w.next (.childAct 0 true) = some x := by
    simp [next, hb.children, Server.step, Server.running, Server.receives, hb.server, hb.retries]
  refine hs (.childAct 0 true) x trivial hx v ?_ hb.server hroom
  simp [hb.children]

/-- With a window of size 0 the child goes on to `waitRR` at once. -/
theorem Begun.waits (from_ : List UInt8) (bufsz winsz : Int32) {v : Server} (hb : w.Begun v)
    (hW : v.mvWindowSize.toNat = 0) :
    ∃ t, Relation.ReflTransGen (system from_ bufsz winsz .free).Move w t ∧
      t.children = [{ v with mvState := .waitRR }] ∧ t.client = w.client ∧ t.up = silent := by
  have h₁ : v.step (.act true) = some ({ v with mvState := .sendWindow }, none) := by
    simp [Server.step, Server.running, Server.receives, Server.act, Server.fillWindow, hb.server,
      hb.retries, hW]
  have h₂ : ({ v with mvState := .sendWindow } : Server).step (.act true)
      = some ({ v with mvState := .waitRR }, none) := by
    simp [Server.step, Server.running, Server.receives, Server.act, Server.sendWindow, hb.outBuf,
      hb.retries]
  obtain ⟨t₁, m₁, hk₁, hc₁, hu₁⟩ := only_child_acts from_ bufsz winsz hb.children h₁
  obtain ⟨t₂, m₂, hk₂, hc₂, hu₂⟩ := only_child_acts from_ bufsz winsz hk₁ h₂
  exact ⟨t₂, .tail (.single m₁) m₂, hk₂, hc₂.trans hc₁, (hu₂.trans hu₁).trans hb.up⟩

/-- The client, which gets nothing, complains. -/
theorem Begun.complains (from_ : List UInt8) (bufsz winsz : Int32) {v : Server} (hb : w.Begun v)
    (hW : v.mvWindowSize.toNat = 0) :
    ∃ t, Relation.ReflTransGen (system from_ bufsz winsz .free).Move w t ∧
      t.children = [{ v with mvState := .waitRR }] ∧
      t.up v.mvSocket = [⟨w.client.mvSocket, rejpkt w.client.mvSequence⟩] := by
  obtain ⟨t, hr, hk, hc, hu⟩ := hb.waits from_ bufsz winsz hW
  have hst : t.client.step (.hear .timeout ⟨0, 0⟩ true true)
      = some ({ w.client with mvRetries := w.client.mvRetries - 1 },
        some (rejpkt w.client.mvSequence)) := by
    simp [hc, Client.step, Client.running, Client.receives, hb.client, hb.left,
      Client.recvPackets, Client.recvPacket, Client.respond]
  have hmay : may .free t (.clientHear .timeout ⟨0, 0⟩ true true) := by
    refine ⟨trivial, ?_⟩
    intro x hx ho
    obtain rfl := Option.some.inj hx
    simp [Client.opensOn] at ho
  have hn : t.next (.clientHear .timeout ⟨0, 0⟩ true true)
      = some (t.afterClient t.down t.bound
        ({ w.client with mvRetries := w.client.mvRetries - 1 },
          some (rejpkt w.client.mvSequence))) := by
    simp [next, Arrival.recv, hst, Client.opensOn, bind, Function.update_eq_self]
  refine ⟨_, hr.tail ⟨Event.clientHear .timeout ⟨0, 0⟩ true true, hmay, hn⟩, hk, ?_⟩
  change post t.up w.client.mvAddr w.client.mvSocket (some (rejpkt _)) v.mvSocket = _
  rw [hu, hb.mvAddr, post_silent, if_pos rfl]

/-- **Then the child looks at the front of an empty window.** -/
theorem Begun.looks (from_ : List UInt8) (bufsz winsz : Int32) {v : Server} (hb : w.Begun v)
    (hW : v.mvWindowSize.toNat = 0) :
    ∃ t e x, Relation.ReflTransGen (system from_ bufsz winsz .free).Move w t ∧
      may .free t e ∧ t.next e = some x ∧ ¬ t.Safe e := by
  obtain ⟨t, hr, hk, hq⟩ := hb.complains from_ bufsz winsz hW
  obtain ⟨x, hx⟩ : ∃ x, t.next (.childHear 0 (.take 0) true) = some x := by
    simp [next, Arrival.recv, hk, hq, Server.step, Server.running, Server.receives, hb.retries]
  refine ⟨t, .childHear 0 (.take 0) true, x, hr, .inl rfl, hx, ?_⟩
  intro hs
  have hempty := hs { v with mvState := .waitRR } (by simp [hk])
    (.datagram w.client.mvSocket (rejpkt w.client.mvSequence), []) (by simp [Arrival.recv, hq])
  simp [Server.Safe, Recv.acks, hb.window] at hempty

/-! ## 6. When the sizes are usable -/

/-- The sizes `rcopy` was given fit the packets: neither is cut, a buffer fits `data`, and the
window is not empty. -/
def InRange (bufsz winsz : Int32) : Prop :=
  (0 ≤ bufsz.toInt ∧ bufsz.toInt ≤ pktDMax) ∧ 1 ≤ winsz.toInt ∧ winsz.toInt ≤ 65535

instance (bufsz winsz : Int32) : Decidable (InRange bufsz winsz) :=
  inferInstanceAs (Decidable (_ ∧ _))

theorem usable_of_inRange (from_ : List UInt8) {bufsz winsz : Int32} (h : InRange bufsz winsz) :
    Usable from_ bufsz winsz := by
  obtain ⟨⟨hb0, hb⟩, hw1, hw⟩ := h
  have hmax : (pktDMax : Int) ≤ 65535 := by decide
  have hb1 : bufsz.toInt ≤ 65535 := Int.le_trans hb hmax
  have hB := toNat_cut hb0 hb1
  have hW := toNat_cut (by omega) hw
  intro w t k hr hrun hm
  have ht := hr.moves hrun
  obtain ⟨v, hk, hv⟩ := setUp_of_meet hr hrun hm
  refine ⟨?_, ?_⟩
  · intro v' hv'
    obtain rfl := Option.some.inj (hk.symm.trans hv')
    exact (sizes_eq_iff ht hv).mpr ⟨⟨hb0, hb1⟩, by omega, hw⟩
  · intro u hu e x hmay _
    exact safe_of_reach (ht.moves hu) (by omega) (by omega) hmay

/-- With a file to be sent, nothing else will do. -/
theorem inRange_of_usable {from_ : List UInt8} {bufsz winsz : Int32}
    (hf : Host.file (nameSent from_) ≠ none) (h : Usable from_ bufsz winsz) :
    InRange bufsz winsz := by
  obtain ⟨w, v, hr, hb⟩ := reach_begun from_ bufsz winsz (Option.isSome_iff_ne_none.mpr hf)
  have hw : (system from_ bufsz winsz .free).Reach w := of_calm hr
  have hk : w.children[0]? = some v := by simp [hb.children]
  have hd : v.inData := .inl hb.server
  obtain ⟨heq, hsafe⟩ := h w w 0 hw .refl (.inl ⟨hb.client, v, hk, hd⟩)
  have hv := (told_of_reach hw).data v (List.mem_of_getElem? hk) hd
  obtain ⟨⟨hb0, hb1⟩, hw0, hw1⟩ := (sizes_eq_iff hw hv).mp (heq v hk)
  obtain ⟨hpb, hpw, -⟩ := pkt_of_reach hw
  have hB := toNat_cut hb0 hb1
  have hW := toNat_cut hw0 hw1
  rw [← hpb, ← UInt16.toNat_toUInt32, ← hv.bufferSize] at hB
  rw [← hpw, ← UInt16.toNat_toUInt32, ← hv.windowSize] at hW
  -- a window of size 0 has no front
  have hpos : v.mvWindowSize.toNat ≠ 0 := by
    intro h0
    obtain ⟨t, e, x, hrun, hm, hn, hno⟩ := hb.looks from_ bufsz winsz h0
    exact hno (hsafe t hrun e x hm hn)
  have hread := hb.reads (Nat.pos_of_ne_zero hpos) (hsafe w .refl)
  exact ⟨⟨hb0, by omega⟩, by omega, hw1⟩

/-- **When the negotiated sizes are equal and usable**: if the sizes are in range, or if the
server cannot open the file, so that no child ever reaches the data phase. -/
theorem usable_iff (from_ : List UInt8) (bufsz winsz : Int32) :
    Usable from_ bufsz winsz ↔ Host.file (nameSent from_) = none ∨ InRange bufsz winsz := by
  constructor
  · intro h
    by_cases hf : Host.file (nameSent from_) = none
    · exact .inl hf
    · exact .inr (inRange_of_usable hf h)
  · rintro (hf | h)
    · exact fun w t k hr hrun hm => absurd hf (file_of_meet hr hrun hm)
    · exact usable_of_inRange from_ h

end World

end Fileserver

namespace Fileserver

namespace World

local instance sizesHost : Host := refHost [1, 2, 3]

/-- **A buffer of 2000 bytes**: the child reads that many into the 1400 of a packet. -/
theorem not_usable : ¬ Usable [0x66] 2000 3 := by
  intro h
  have hf : Host.file (nameSent [0x66]) ≠ none := by decide +kernel
  exact absurd (inRange_of_usable hf h) (by decide)

end World

end Fileserver
