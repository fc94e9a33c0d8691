/-
# What the child has been told

Over any links, from the first datagram of the handshake to the end of the transfer: the three
parameter packets in flight are the client's own, and a child that has a parameter has it from
them.  So a child in the data phase works with the sizes and the file of those packets
(`SetUp`), and keeps them for as long as it runs.
-/
import Fileserver.Steps

namespace Fileserver

open Proto

/-- If it is a parameter packet, it is the one in `pkt`. -/
structure Own (pkt : Int → Packet) (p : Packet) : Prop where
  buf : p.type = pktTypeBUF → p = pkt 2
  win : p.type = pktTypeWIN → p = pkt 3
  fln : p.type = pktTypeFLN → p = pkt 4

theorem own_of_reply {pkt : Int → Packet} {p : Packet}
    (h : p.type = pktTypeRR ∨ p.type = pktTypeREJ) : Own pkt p := by
  rcases h with h | h <;> constructor <;>
    simp [h, pktTypeRR, pktTypeREJ, pktTypeBUF, pktTypeWIN, pktTypeFLN]

namespace Server

/-! ## 1. The child -/

/-- What a child in `init` has, it has from the packets in `pkt`. -/
structure Heard (pkt : Int → Packet) (v : Server) : Prop where
  bufsz : v.bufszSet = true → v.mvBufferSize = (pkt 2).size.toUInt32
  winsz : v.winszSet = true → v.mvWindowSize = (pkt 3).size.toUInt32
  fn : v.fnSet = true → v.mvFromName = cstr (pkt 4).data

theorem Heard.taken {pkt : Int → Packet} {v : Server} (src : Addr) {p : Packet}
    (h : v.Heard pkt) (hp : Own pkt p) : (v.taken src p).Heard pkt := by
  unfold Server.taken initTake
  split_ifs with h1 h2 h3
  · exact { h with bufsz := fun _ => congrArg (fun q => q.size.toUInt32) (hp.buf h1) }
  · exact { h with winsz := fun _ => congrArg (fun q => q.size.toUInt32) (hp.win h2) }
  · exact { h with fn := fun _ => congrArg (fun q => cstr q.data) (hp.fln h3) }
  · exact { h with }

/-- The loop of `init` is left behind a packet only with all parameters there. -/
theorem flags_of_taken {v : Server} {src : Addr} {p : Packet}
    (h : (v.taken src p).initLoop = false) :
    (v.taken src p).bufszSet = true ∧ (v.taken src p).winszSet = true ∧
      (v.taken src p).fnSet = true := by
  have hk : 0 < (v.taken src p).mvRetries := by
    rw [taken_retries]
    decide
  simp only [initLoop, hk, decide_true, Bool.and_true, Bool.or_eq_false_iff,
    Bool.not_eq_false'] at h
  exact ⟨h.1.2, h.1.1, h.2⟩

end Server

variable [Host]

theorem Client.own_pkt {c : Client} {j : Int} (h0 : 0 ≤ j) (h5 : j < 5) :
    Own c.pkt (c.pkt j) := by
  obtain rfl | rfl | rfl | rfl | rfl : j = 0 ∨ j = 1 ∨ j = 2 ∨ j = 3 ∨ j = 4 := by omega
  all_goals constructor <;>
    simp [pkt, memset, pktTypeCXN, pktTypeCXN2, pktTypeBUF, pktTypeWIN, pktTypeFLN]

namespace Server

/-- One turn of the child. -/
def Goes (v v' : Server) : Prop := ∃ e out, v.step e = some (v', out)

/-- The child has entered `FILL_WINDOW`, and is where its turns have taken it from there. -/
def Entered (v : Server) : Prop :=
  ∃ v₀ : Server, v₀.mvState = .fillWindow ∧ Relation.ReflTransGen Goes v₀ v

/-- The child has taken all parameters from the packets in `pkt`, has opened the file and has
gone on to the data phase. -/
structure SetUp (pkt : Int → Packet) (v : Server) : Prop where
  bufferSize : v.mvBufferSize = (pkt 2).size.toUInt32
  windowSize : v.mvWindowSize = (pkt 3).size.toUInt32
  fromName : v.mvFromName = cstr (pkt 4).data
  file : Host.file v.mvFromName = some v.mvFrom.contents
  entered : v.Entered

theorem Entered.ne_init {v : Server} (h : v.Entered) : v.mvState ≠ .init := by
  obtain ⟨v₀, h0, hr⟩ := h
  induction hr with
  | refl => simp [h0]
  | tail _ hg ih =>
    obtain ⟨e, out, hst⟩ := hg
    have hd := inData_of_step hst ih
    exact (step_cases hd hst).ne_init hd

/-- No turn changes what the child serves. -/
theorem Turn.serves {s t : Server} {e : Event} {out : Option Packet} (h : Turn s e t out) :
    t.mvFromName = s.mvFromName ∧ t.mvFrom.contents = s.mvFrom.contents := by
  cases h <;> exact ⟨rfl, rfl⟩

/-- **A child that is set up stays so.** -/
theorem SetUp.step {pkt : Int → Packet} {v v' : Server} {e : Event} {out : Option Packet}
    (h : v.SetUp pkt) (hst : v.step e = some (v', out)) : v'.SetUp pkt := by
  have ht := step_cases (inData_of_step hst h.entered.ne_init) hst
  obtain ⟨hb, hw⟩ := ht.sizes
  obtain ⟨hn, hf⟩ := ht.serves
  obtain ⟨v₀, h0, hr⟩ := h.entered
  exact
    { bufferSize := hb.trans h.bufferSize
      windowSize := hw.trans h.windowSize
      fromName := hn.trans h.fromName
      file := by rw [hn, hf]; exact h.file
      entered := ⟨v₀, h0, hr.tail ⟨e, out, hst⟩⟩ }

/-- A turn in `init`, for a child that hears the client's packets. -/
theorem InitTurn.told {pkt : Int → Packet} {v v' : Server} {r : Recv} {io : Bool}
    {out : Option Packet} (h : v.InitTurn r io v' out) (hs : v.mvState = .init)
    (hv : v.Heard pkt)
    (hr : ∀ src buf, r = .datagram src buf → buf.ok = true → Own pkt buf) :
    (v'.mvState = .init → v'.Heard pkt) ∧ (v'.inData → v'.SetUp pkt) := by
  have hinit {t : Server} (ht : t.mvState = .init) : ¬ t.inData := by simp [inData, ht]
  have herr {t : Server} (ht : t.mvState = .error) : ¬ t.inData := by simp [inData, ht]
  cases h with
  | nag | old | high => exact ⟨fun _ => { hv with }, fun hd => absurd hd (hinit hs)⟩
  | take hok hq hl =>
    exact ⟨fun _ => hv.taken _ (hr _ _ rfl hok),
      fun hd => absurd hd (hinit ((taken_state ..).trans hs))⟩
  | @opened src buf contents hok hq hl hf =>
    obtain ⟨h1, h2, h3⟩ := flags_of_taken hl
    have ht : (v.taken src buf).Heard pkt := hv.taken _ (hr _ _ rfl hok)
    refine ⟨by simp, ?_⟩
    intro _
    exact
      { bufferSize := ht.bufsz h1, windowSize := ht.winsz h2, fromName := ht.fn h3, file := hf
        entered := ⟨_, rfl, .refl⟩ }
  | gaveUp | unopened => exact ⟨by simp, fun hd => absurd hd (herr rfl)⟩
  | fail hf he hk hw ho => exact ⟨by simp [he], fun hd => absurd hd (herr he)⟩

end Server

namespace Client

/-! ## 2. The client -/

theorem InitTurn.pkt_eq {c d : Client} {sock : Addr} {r : Recv} {io : Bool}
    (h : c.InitTurn sock r io d) : d.pkt = c.pkt := by
  cases h <;> rfl

theorem Turn.pkt_eq {c d : Client} {r : Recv} {wr io : Bool} {out : Option Packet}
    (h : c.Turn r wr io d out) : d.pkt = c.pkt := by
  cases h <;> rfl

/-- Behind `init` the client sends replies only. -/
theorem Turn.out_reply {c d : Client} {r : Recv} {wr io : Bool} {p : Packet}
    (h : c.Turn r wr io d (some p)) : p.type = pktTypeRR ∨ p.type = pktTypeREJ := by
  cases h with
  | nag | gap => exact .inr rfl
  | accept | old => exact .inl rfl

end Client

namespace World

variable {n : Link} {w t : World} {e : Event}

/-! ## 3. The world -/

/-- The five packets of `Client::init` never change. -/
theorem Turn.pkt_eq (h : Turn n w e t) : t.client.pkt = w.client.pkt := by
  cases h with
  | clientInit hn hs hsent hal ha ht => exact ht.pkt_eq
  | clientHear hs hal ha ht => exact ht.pkt_eq
  | _ => rfl

/-- **The invariant.** -/
structure Told (w : World) : Prop where
  up : ∀ x, ∀ d ∈ w.up x, Own w.client.pkt d.pkt
  init : ∀ v ∈ w.children, v.mvState = .init → v.Heard w.client.pkt
  data : ∀ v ∈ w.children, v.inData → v.SetUp w.client.pkt

/-- Queues got shorter, or longer by packets of the client. -/
theorem Told.of_own (hi : w.Told) (hp : t.client.pkt = w.client.pkt)
    (hv : t.children = w.children)
    (hu : ∀ x, ∀ d ∈ t.up x, d ∈ w.up x ∨ Own w.client.pkt d.pkt) : t.Told := by
  refine ⟨?_, ?_, ?_⟩
  · intro x d h
    rw [hp]
    exact (hu x d h).elim (hi.up x d) id
  · rw [hp, hv]
    exact hi.init
  · rw [hp, hv]
    exact hi.data

/-- A turn of a child. -/
theorem Told.child (hi : w.Told) {k : ℕ} {v' : Server} {up : Addr → List Datagram}
    {b : List Packet} {out : Option Packet} (hu : ∀ x, ∀ d ∈ up x, d ∈ w.up x)
    (h1 : v'.mvState = .init → v'.Heard w.client.pkt)
    (h2 : v'.inData → v'.SetUp w.client.pkt) : (w.afterChild k up b (v', out)).Told := by
  exact ⟨fun x d hx => hi.up x d (hu x d hx), forall_set hi.init h1, forall_set hi.data h2⟩

/-- **Every step keeps it.** -/
theorem Told.step (hw : w.Wf) (hi : w.Told) (h : Turn n w e t) : t.Told := by
  cases h with
  | parentStops => exact { hi with }
  | parentDrops hok ha hs =>
    exact hi.of_own rfl (by simp [afterParent])
      fun x d h => .inl (mem_update (fun _ => hs.sub) h)
  | @parent a sock src forks io buf l hn hok ha ht =>
    refine ⟨fun x d h => hi.up x d (mem_update (fun _ => ht.sub) h), ?_, ?_⟩
    · refine forall_fork hi.init ?_
      intro _
      constructor <;> simp [Server.forked]
    · refine forall_fork hi.data ?_
      intro hd
      simp [Server.forked, Server.inData] at hd
  | @childAct k io v v' out hk hd ht hst =>
    exact hi.child (fun _ _ h => h) (fun hs => absurd hs (ht.ne_init hd))
      fun _ => (hi.data v (List.mem_of_getElem? hk) hd).step hst
  | @childInit k a io v v' r l out hk hs hal ha ht hst =>
    have hv := List.mem_of_getElem? hk
    obtain ⟨h1, h2⟩ := ht.told hs (hi.init v hv hs) fun src buf hb hok => by
      subst hb
      exact hi.up _ _ (Arrival.recv_ok hal ha hok).mem
    exact hi.child (fun _ _ h => mem_update (fun _ => (Arrival.recv_shed hal ha).sub) h) h1 h2
  | @childHear k a io v v' r l out hk hd hal ha ht hst =>
    exact hi.child (fun _ _ h => mem_update (fun _ => (Arrival.recv_shed hal ha).sub) h)
      (fun hs => absurd hs (ht.ne_init hd))
      fun _ => (hi.data v (List.mem_of_getElem? hk) hd).step hst
  | clientSends hs hsent =>
    obtain ⟨h0, h5, -⟩ := hw.client hs
    refine hi.of_own rfl rfl ?_
    intro x d h
    rcases mem_post.mp h with h | ⟨-, p, hp, rfl⟩
    · exact .inl h
    · obtain rfl := Option.some.inj hp
      exact .inr (Client.own_pkt h0 h5)
  | clientStops hs => exact hi.of_own rfl rfl fun x d h => .inl (by simpa [afterClient] using h)
  | clientInit hn hs hsent hal ha ht =>
    exact hi.of_own ht.pkt_eq rfl fun x d h => .inl (by simpa [afterClient] using h)
  | clientHear hs hal ha ht =>
    refine hi.of_own ht.pkt_eq rfl ?_
    intro x d h
    rcases mem_post.mp h with h | ⟨-, p, rfl, rfl⟩
    · exact .inl h
    · exact .inr (own_of_reply ht.out_reply)
  | noiseUp hn =>
    exact { hi with up := fun x d h => hi.up x d (mem_update (fun _ => hn.sub) h) }
  | noiseDown hn => exact { hi with }

/-- The name the child takes out of the `FLN` packet for `from_`. -/
def nameSent (from_ : List UInt8) : List UInt8 := cstr (strcpy pktTypeFLN from_)

/-- The parameters in the packets are those `rcopy` was given, the sizes cut to 16 bits. -/
theorem pkt_of_reach {from_ : List UInt8} {bufsz winsz : Int32}
    (h : (system from_ bufsz winsz n).Reach w) :
    (w.client.pkt 2).size = bufsz.toUInt32.toUInt16 ∧
      (w.client.pkt 3).size = winsz.toUInt32.toUInt16 ∧
      cstr (w.client.pkt 4).data = nameSent from_ := by
  refine h.invariant (I := fun w => (w.client.pkt 2).size = bufsz.toUInt32.toUInt16 ∧
    (w.client.pkt 3).size = winsz.toUInt32.toUInt16 ∧
    cstr (w.client.pkt 4).data = nameSent from_) ?_ ?_
  · intro w h0
    obtain ⟨sock, sk, addr, -, hc⟩ := h0.client
    rw [hc]
    exact ⟨rfl, rfl, rfl⟩
  · intro _ _ _ hr hi hm hn
    rw [(next_cases (wf_of_reach hr) hm hn).pkt_eq]
    exact hi

theorem told_of_reach {from_ : List UInt8} {bufsz winsz : Int32}
    (h : (system from_ bufsz winsz n).Reach w) : w.Told := by
  refine h.invariant (I := Told) ?_ ?_
  · intro w h0
    constructor <;> simp [h0.up, h0.children]
  · intro _ _ _ hr hi hm hn
    exact hi.step (wf_of_reach hr) (next_cases (wf_of_reach hr) hm hn)

end World

end Fileserver
