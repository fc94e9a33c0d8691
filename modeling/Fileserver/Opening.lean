/-
# While the client is in `init`

What is true of the whole world as long as `Client::init` has not returned, over links that do
not damage datagrams, whatever else they do.  Only the client's five packets travel up.  What
travels down is an `RR` of the parent with number 0 or 1, or says something about how far some
child has come (`Reply`): an `RR` or a `REJ` of a child with number `q` means that a child waits
for `q` or a later number, and data means that one is past `init`.
-/
import Fileserver.Told

namespace Fileserver

open Proto

/-- A child in `init` that has taken the packets below its counter, one by one. -/
structure Server.Counting (v : Server) : Prop where
  low : 1 ≤ v.mvSequence.toNat
  high : v.mvSequence.toNat ≤ 4
  bufszSet : 3 ≤ v.mvSequence.toNat → v.bufszSet = true
  winszSet : 4 ≤ v.mvSequence.toNat → v.winszSet = true
  fnSet : v.fnSet = false

namespace World

/-- Some child is past `init`, or waits for the packet `q` or a later one. -/
def Reached (w : World) (q : ℕ) : Prop :=
  ∃ v ∈ w.children, v.mvState ≠ .init ∨ q ≤ v.mvSequence.toNat

variable [Host]

/-- What a datagram on its way to the client in `init` says. -/
def Reply (w : World) (d : Datagram) : Prop :=
  d.pkt.ok = true ∧
    ((d.src = w.port ∧ d.pkt.type = pktTypeRR ∧ d.pkt.sequence.toNat ≤ 1) ∨
    (d.pkt.type = pktTypeRR ∧ 1 ≤ d.pkt.sequence.toNat ∧ d.pkt.sequence.toNat ≤ 4 ∧
      w.Reached (max 2 d.pkt.sequence.toNat)) ∨
    (d.pkt.type = pktTypeREJ ∧ 1 ≤ d.pkt.sequence.toNat ∧ d.pkt.sequence.toNat ≤ 4 ∧
      w.Reached d.pkt.sequence.toNat) ∨
    (d.pkt.type = pktTypeDAT ∧ ∀ q, w.Reached q))

/-- **The invariant of the opening.** -/
structure Opening (w : World) : Prop where
  up : ∀ x, ∀ d ∈ w.up x, ∃ j : Int, 0 ≤ j ∧ j < 5 ∧ d.pkt = w.client.pkt j ∧
    (j = 0 → x = w.port)
  down : ∀ x, ∀ d ∈ w.down x, w.Reply d
  first : w.client.i = 0 → w.children = [] ∧ w.client.mvAddr = w.port ∧
    ∀ x, ∀ d ∈ w.up x, d.pkt = w.client.pkt 0
  children : ∀ v ∈ w.children, v.mvSocket ≠ w.port ∧ (v.mvState = .init → v.Counting)
  pending : w.parent.cxn2 = true → w.parent.sk ≠ w.port
  addr : 2 ≤ w.client.i →
    w.client.mvAddr = w.client.addr ∨ w.client.mvAddr = w.port ∨ w.Reached 2

end World

/-! ## 1. The processes -/

variable [Host]

/-- What the parent sends in answer to a packet of the client. -/
theorem Parent.run_reply {p : Parent} {a sock : Addr} {c : Client} {j : Int} {forks io : Bool}
    (hj : 0 ≤ j ∧ j < 5) {q : Packet} (h : q ∈ (p.run a (c.pkt j) sock forks io).2.1) :
    q.ok = true ∧ q.type = pktTypeRR ∧ q.sequence.toNat ≤ 1 := by
  have hok := Client.pkt_ok (c := c) hj.1 hj.2
  have h1 : pktTypeCXN2 ≠ pktTypeCXN := by decide
  obtain ⟨h0, h5⟩ := hj
  obtain rfl | rfl | rfl | rfl | rfl : j = 0 ∨ j = 1 ∨ j = 2 ∨ j = 3 ∨ j = 4 := by omega
  · have ht : (c.pkt 0).type = pktTypeCXN := rfl
    have hs : (c.pkt 0).sequence.toNat ≤ 1 := Nat.zero_le 1
    cases io <;> simp [run, send, hok, ht] at h
    subst h
    exact ⟨announce_ok _ _, announce_type _ _, hs⟩
  · have ht : (c.pkt 1).type = pktTypeCXN2 := rfl
    have hs : (c.pkt 1).sequence.toNat ≤ 1 := Nat.le_refl 1
    cases hx : p.cxn2 <;> cases io <;> simp [run, send, hok, ht, h1, hx] at h
    subst h
    exact ⟨rrpkt_ok _, rrpkt_type _, hs⟩
  all_goals
    simp [run, Client.pkt, pktTypeCXN, pktTypeCXN2, pktTypeREJ, memset, pktTypeBUF, pktTypeWIN,
      pktTypeFLN] at h

namespace Server

/-- A reply of a child in `init`: its own number, in a `REJ`, or in an `RR` if by then it has
taken the `CXN2`. -/
def Says (v v' : Server) (p : Packet) : Prop :=
  p.ok = true ∧ p.sequence = v.mvSequence ∧
    (p.type = pktTypeREJ ∨ p.type = pktTypeRR ∧ (v'.mvState ≠ .init ∨ 2 ≤ v'.mvSequence.toNat))

/-- With the last of the four packets the loop is left. -/
theorem Counting.last {v : Server} (hv : v.Counting) (hq : v.mvSequence.toNat = 4) {src : Addr}
    {c : Client} : (v.taken src (c.pkt 4)).initLoop = false := by
  obtain ⟨hb, hw, hf⟩ := v.taken_flags src (c.pkt 4)
  have hbs := hv.bufszSet (by omega)
  have hws := hv.winszSet (by omega)
  have ht : (c.pkt 4).type = pktTypeFLN := rfl
  simp [initLoop, hb, hw, hf, hbs, hws, ht]

/-- Before it nothing does. -/
theorem Counting.not_last {v : Server} (hv : v.Counting) {src : Addr} {c : Client} {j : Int}
    (h0 : 0 ≤ j) (h4 : j < 4) : (v.taken src (c.pkt j)).initLoop = true := by
  obtain ⟨-, -, hf⟩ := v.taken_flags src (c.pkt j)
  have ht : (c.pkt j).type ≠ pktTypeFLN := by
    intro h
    have := (Client.pkt_type_fln h0 (by omega)).mp h
    omega
  simp [initLoop, hf, hv.fnSet, ht, pktTrnsMax]

/-- **A turn of a child in `init` that hears the client's packets** leaves it counting, no lower
than before, and what it says is true. -/
theorem InitTurn.counting {v v' : Server} {r : Recv} {io : Bool} {out : Option Packet}
    (h : v.InitTurn r io v' out) (hv : v.Counting) {c : Client}
    (hr : ∀ src buf, r = .datagram src buf → buf.ok = true →
      ∃ j : Int, 1 ≤ j ∧ j < 5 ∧ buf = c.pkt j) :
    (v'.mvState = .init → v'.Counting ∧ v.mvSequence.toNat ≤ v'.mvSequence.toNat) ∧
      ∀ p, out = some p → v.Says v' p := by
  have hlow := hv.low
  have hhigh := hv.high
  -- the number of a packet of the client
  have hnum {src : Addr} {buf : Packet} (hb : r = .datagram src buf) (hok : buf.ok = true) :
      ∃ j : Int, 1 ≤ j ∧ j < 5 ∧ buf = c.pkt j ∧ (buf.sequence.toNat : Int) = j := by
    obtain ⟨j, h1, h5, rfl⟩ := hr src buf hb hok
    exact ⟨j, h1, h5, rfl, Client.pkt_sequence (by omega) h5⟩
  have hsucc : (v.mvSequence + 1).toNat = v.mvSequence.toNat + 1 := by
    rw [UInt32.toNat_add, UInt32.toNat_one]
    exact Nat.mod_eq_of_lt (by omega)
  cases h with
  | nag hb hk ha =>
    refine ⟨fun hs => ⟨{ hv with }, le_refl _⟩, ?_⟩
    rintro p ⟨⟩
    exact ⟨rejpkt_ok _, rfl, .inl rfl⟩
  | gaveUp hb ha =>
    refine ⟨by simp, ?_⟩
    rintro p ⟨⟩
    exact ⟨rejpkt_ok _, rfl, .inl rfl⟩
  | @old src buf hok hq =>
    obtain ⟨j, h1, h5, rfl, hj⟩ := hnum rfl hok
    rw [UInt32.lt_iff_toNat_lt] at hq
    refine ⟨fun hs => ⟨{ hv with }, le_refl _⟩, ?_⟩
    rintro p ⟨⟩
    exact ⟨rrpkt_ok _, rfl, .inr ⟨rfl, .inr (by dsimp only; omega)⟩⟩
  | high hok hq =>
    refine ⟨fun hs => ⟨{ hv with }, le_refl _⟩, ?_⟩
    rintro p ⟨⟩
    exact ⟨rejpkt_ok _, rfl, .inl rfl⟩
  | @take src buf hok hq hl =>
    obtain ⟨j, h1, h5, rfl, hj⟩ := hnum rfl hok
    rw [hq] at hj
    refine ⟨?_, ?_⟩
    · intro hs
      obtain ⟨hb, hw, hf⟩ := v.taken_flags src (c.pkt j)
      have hseq : (v.taken src (c.pkt j)).mvSequence.toNat = v.mvSequence.toNat + 1 := by
        rw [taken_sequence, hsucc]
      have hj4 : j ≠ 4 := by
        rintro rfl
        simp [hv.last (by omega)] at hl
      refine ⟨⟨by omega, by omega, ?_, ?_, ?_⟩, by omega⟩
      · intro h
        rw [hb]
        obtain rfl | h3 : j = 2 ∨ 3 ≤ v.mvSequence.toNat := by omega
        · simp [show (c.pkt 2).type = pktTypeBUF from rfl]
        · simp [hv.bufszSet h3]
      · intro h
        rw [hw]
        obtain rfl : j = 3 := by omega
        simp [show (c.pkt 3).type = pktTypeWIN from rfl]
      · have ht : (c.pkt j).type ≠ pktTypeFLN := by
          intro h
          exact hj4 ((Client.pkt_type_fln (by omega) h5).mp h)
        simp [hf, hv.fnSet, ht]
    · rintro p ⟨⟩
      exact ⟨rrpkt_ok _, rfl, .inr ⟨rfl, .inr (by rw [taken_sequence, hsucc]; omega)⟩⟩
  | opened hok hq hl hf =>
    refine ⟨by simp, ?_⟩
    rintro p ⟨⟩
    exact ⟨rrpkt_ok _, rfl, .inr ⟨rfl, .inl (by simp)⟩⟩
  | unopened hok hq hl hf =>
    refine ⟨by simp, ?_⟩
    rintro p ⟨⟩
    exact ⟨rrpkt_ok _, rfl, .inr ⟨rfl, .inl (by simp)⟩⟩
  | fail hf he hk hw ho => exact ⟨by simp [he], by simp⟩

end Server

namespace World

variable {n : Link} {w t : World} {e : Event}

/-! ## 2. What children have reached -/

omit [Host] in
/-- A child in the list is still there when another takes a turn. -/
theorem mem_set_of_mem {k : ℕ} {l : List Server} {u v : Server} (v' : Server) (hk : l[k]? = some v)
    (hu : u ∈ l) : u = v ∨ u ∈ l.set k v' := by
  obtain ⟨i, hi⟩ := List.mem_iff_getElem?.mp hu
  by_cases hik : k = i
  · subst hik
    exact .inl (Option.some.inj (hi.symm.trans hk))
  · exact .inr (List.mem_iff_getElem?.mpr ⟨i, by rw [List.getElem?_set_ne hik, hi]⟩)

omit [Host] in
theorem mem_set_self {k : ℕ} {l : List Server} {v v' : Server} (hk : l[k]? = some v) :
    v' ∈ l.set k v' := by
  obtain ⟨h, -⟩ := List.getElem?_eq_some_iff.mp hk
  exact List.mem_set h v'

omit [Host] in
/-- A child that does not fall back takes nothing away from what has been reached. -/
theorem Reached.set {k q : ℕ} {v v' : Server} {up : Addr → List Datagram} {b : List Packet}
    {out : Option Packet} (hk : w.children[k]? = some v)
    (hm : v'.mvState = .init → v.mvState = .init ∧ v.mvSequence.toNat ≤ v'.mvSequence.toNat)
    (h : w.Reached q) : (w.afterChild k up b (v', out)).Reached q := by
  obtain ⟨u, hu, hr⟩ := h
  rcases mem_set_of_mem v' hk hu with rfl | hu'
  · refine ⟨v', mem_set_self hk, ?_⟩
    by_cases hs : v'.mvState = .init
    · obtain ⟨hs', hle⟩ := hm hs
      exact .inr ((hr.resolve_left (by simp [hs'])).trans hle)
    · exact .inl hs
  · exact ⟨u, hu', hr⟩

theorem Reply.mono {d : Datagram} (h : w.Reply d) (hp : t.port = w.port)
    (hr : ∀ q, w.Reached q → t.Reached q) : t.Reply d := by
  obtain ⟨hok, h⟩ := h
  refine ⟨hok, ?_⟩
  rcases h with ⟨hs, h⟩ | ⟨ht, h1, h4, h⟩ | ⟨ht, h1, h4, h⟩ | ⟨ht, h⟩
  · exact .inl ⟨hp ▸ hs, h⟩
  · exact .inr (.inl ⟨ht, h1, h4, hr _ h⟩)
  · exact .inr (.inr (.inl ⟨ht, h1, h4, hr _ h⟩))
  · exact .inr (.inr (.inr ⟨ht, fun q => hr q (h q)⟩))

/-- What a child in `init` says is a reply. -/
theorem reply_of_says {v v' : Server} {src : Addr} {p : Packet} (hv : v.Counting)
    (hmem : v' ∈ t.children) (hle : v'.mvState ≠ .init ∨ v.mvSequence.toNat ≤ v'.mvSequence.toNat)
    (h : v.Says v' p) : t.Reply ⟨src, p⟩ := by
  obtain ⟨hok, hq, h⟩ := h
  have hlow := hv.low
  have hhigh := hv.high
  refine ⟨hok, ?_⟩
  rcases h with ht | ⟨ht, h2⟩
  · exact .inr (.inr (.inl ⟨ht, hq ▸ hlow, hq ▸ hhigh, v', hmem, hq ▸ hle⟩))
  · refine .inr (.inl ⟨ht, hq ▸ hlow, hq ▸ hhigh, v', hmem, ?_⟩)
    rw [hq]
    rcases hle with hle | hle
    · exact .inl hle
    · rcases h2 with h2 | h2
      · exact .inl h2
      · exact .inr (Nat.max_le.mpr ⟨h2, hle⟩)

/-! ## 3. The invariant -/

/-- Nothing but queues got shorter. -/
theorem Opening.of_shed (ho : w.Opening) (hc : t.client = w.client) (hv : t.children = w.children)
    (hp : t.port = w.port) (hx : t.parent.cxn2 = w.parent.cxn2) (hk : t.parent.sk = w.parent.sk)
    (hu : ∀ x, ∀ d ∈ t.up x, d ∈ w.up x) (hd : ∀ x, ∀ d ∈ t.down x, d ∈ w.down x) :
    t.Opening := by
  have hr (q : ℕ) : w.Reached q → t.Reached q := by
    rintro ⟨v, hv', h⟩
    exact ⟨v, hv ▸ hv', h⟩
  constructor
  · intro x d h
    obtain ⟨j, h0, h5, hj, hx⟩ := ho.up x d (hu x d h)
    exact ⟨j, h0, h5, hc ▸ hj, fun hz => hp ▸ hx hz⟩
  · exact fun x d h => (ho.down x d (hd x d h)).mono hp hr
  · intro hi
    obtain ⟨h1, h2, h3⟩ := ho.first (hc ▸ hi)
    exact ⟨hv.trans h1, by rw [hc, hp, h2], fun x d h => hc ▸ h3 x d (hu x d h)⟩
  · intro v h
    rw [hp]
    exact ho.children v (hv ▸ h)
  · rw [hx, hk, hp]
    exact ho.pending
  · intro hi
    rw [hc] at hi ⊢
    rw [hp]
    exact (ho.addr hi).imp_right (Or.imp_right (hr 2))

/-- A turn of a child. -/
theorem Opening.child (ho : w.Opening) {k : ℕ} {v v' : Server} {up : Addr → List Datagram}
    {b : List Packet} {out : Option Packet} (hk : w.children[k]? = some v)
    (hm : v'.mvState = .init →
      v.mvState = .init ∧ v.mvSequence.toNat ≤ v'.mvSequence.toNat ∧ v'.Counting)
    (hs : v'.mvSocket = v.mvSocket) (hu : ∀ x, ∀ d ∈ up x, d ∈ w.up x)
    (hout : ∀ p, out = some p → (w.afterChild k up b (v', out)).Reply ⟨v'.mvSocket, p⟩) :
    (w.afterChild k up b (v', out)).Opening := by
  have hv := List.mem_of_getElem? hk
  have hr (q : ℕ) : w.Reached q → (w.afterChild k up b (v', out)).Reached q :=
    Reached.set hk fun h => ⟨(hm h).1, (hm h).2.1⟩
  constructor
  · exact fun x d h => ho.up x d (hu x d h)
  · intro x d h
    rcases mem_post.mp h with h | ⟨-, p, hp, rfl⟩
    · exact (ho.down x d h).mono rfl hr
    · exact hout p hp
  · intro hi
    have := (ho.first hi).1
    simp [this] at hk
  · exact forall_set ho.children ⟨hs ▸ (ho.children v hv).1, fun h => (hm h).2.2⟩
  · exact ho.pending
  · exact fun hi => (ho.addr hi).imp_right (Or.imp_right (hr 2))

omit [Host] in
theorem Reached.le {q q' : ℕ} (h : w.Reached q) (hq : q' ≤ q) : w.Reached q' := by
  obtain ⟨v, hv, h⟩ := h
  exact ⟨v, hv, h.imp_right hq.trans⟩

/-- An `RR` comes from the parent, or from a child that has taken the `CXN2`. -/
theorem Reply.of_rr {d : Datagram} (h : w.Reply d) (ht : d.pkt.type = pktTypeRR) :
    d.src = w.port ∧ d.pkt.sequence.toNat ≤ 1 ∨ w.Reached (max 2 d.pkt.sequence.toNat) := by
  rcases h.2 with ⟨hs, -, hq⟩ | ⟨-, -, -, hr⟩ | ⟨ht', -⟩ | ⟨ht', -⟩
  · exact .inl ⟨hs, hq⟩
  · exact .inr hr
  · simp [ht] at ht'
  · simp [ht] at ht'

theorem Reply.of_rej {d : Datagram} (h : w.Reply d) (ht : d.pkt.type = pktTypeREJ) :
    1 ≤ d.pkt.sequence.toNat ∧ d.pkt.sequence.toNat ≤ 4 ∧ w.Reached d.pkt.sequence.toNat := by
  rcases h.2 with ⟨-, ht', -⟩ | ⟨ht', -⟩ | ⟨-, h⟩ | ⟨ht', -⟩
  · simp [ht] at ht'
  · simp [ht] at ht'
  · exact h
  · simp [ht] at ht'

theorem Reply.of_other {d : Datagram} (h : w.Reply d) (h1 : d.pkt.type ≠ pktTypeRR)
    (h2 : d.pkt.type ≠ pktTypeREJ) : d.pkt.type = pktTypeDAT ∧ ∀ q, w.Reached q := by
  rcases h.2 with ⟨-, ht, -⟩ | ⟨ht, -⟩ | ⟨ht, -⟩ | h
  · exact absurd ht h1
  · exact absurd ht h1
  · exact absurd ht h2
  · exact h

/-- What takes the client onward from index 1 or above says that a child has taken the `CXN2`. -/
theorem Reply.of_onward {src : Addr} {buf : Packet} (h : w.Reply ⟨src, buf⟩)
    (ho : w.client.Onward buf) (hi : 1 ≤ w.client.i) : w.Reached 2 := by
  rcases ho with ⟨ht, hq, h2⟩ | ⟨ht, hq⟩ | ⟨h1, h2⟩
  · rcases h.of_rr ht with ⟨-, hle⟩ | hr
    · dsimp only at hle
      omega
    · exact hr.le (Nat.le_max_left _ _)
  · exact (h.of_rej ht).2.2.le (by dsimp only; omega)
  · exact (h.of_other h1 h2).2 2

/-- A turn of the client that keeps it in `init`. -/
theorem Opening.clientInit (ho : w.Opening) (h0 : 0 ≤ w.client.i) {sock : Addr} {r : Recv}
    {io : Bool} {c : Client} {down : Addr → List Datagram} {bound : List Addr}
    (h : w.client.InitTurn sock r io c)
    (hd : ∀ x, ∀ d ∈ down x, d ∈ w.down x)
    (hr : ∀ src buf, r = .datagram src buf → w.Reply ⟨src, buf⟩) (hc : c.mvState = .init) :
    (w.afterClient down bound (c, none)).Opening := by
  have hpkt := h.pkt_eq
  have hup : (w.afterClient down bound (c, none)).up = w.up := post_none _ _ _
  -- who has answered: the parent while no child exists, or a child that has taken the `CXN2`
  have hfirst {src : Addr} {buf : Packet} (hb : r = .datagram src buf)
      (hi : w.client.i = 0) : src = w.port := by
    have hnil := (ho.first hi).1
    rcases (hr src buf hb).2 with ⟨hs, -⟩ | ⟨-, -, -, v, hv, -⟩ | ⟨-, -, -, v, hv, -⟩ | ⟨-, hv⟩
    · exact hs
    · simp [hnil] at hv
    · simp [hnil] at hv
    · obtain ⟨v, hv, -⟩ := hv 0
      simp [hnil] at hv
  constructor
  · rw [hup]
    intro x d hx
    obtain ⟨j, h0, h5, hj, hz⟩ := ho.up x d hx
    exact ⟨j, h0, h5, by rw [hj]; exact (congrFun hpkt j).symm, hz⟩
  · exact fun x d hx => (ho.down x d (hd x d hx)).mono rfl fun _ h => h
  · intro hi
    have hgoal (hi' : w.client.i = 0)
        (ha : c.mvAddr = w.client.mvAddr ∨ ∃ buf, r = .datagram c.mvAddr buf) :
        w.children = [] ∧ c.mvAddr = w.port ∧
          ∀ x, ∀ d ∈ (w.afterClient down bound (c, none)).up x, d.pkt = c.pkt 0 := by
      obtain ⟨h1, h2, h3⟩ := ho.first hi'
      refine ⟨h1, ?_, ?_⟩
      · rcases ha with ha | ⟨buf, hb⟩
        · rw [ha, h2]
        · exact hfirst hb hi'
      · intro x d hx
        rw [hpkt]
        exact h3 x d (hup ▸ hx)
    cases h with
    | again hk ha hr' => exact hgoal hi (ha.imp_left And.right)
    | opens hok ht hq hi' | switches hok ht hq hi' => simp [afterClient] at hi
    | back hok ht hq =>
      have := ((hr _ _ rfl).of_rej ht).1
      simp only [afterClient] at hi this
      omega
    | onward hok ho' hi' =>
      simp only [afterClient] at hi
      omega
    | leaves | fail => simp at hc
  · exact ho.children
  · exact ho.pending
  · intro hi
    have hR (h : w.Reached 2) : (w.afterClient down bound (c, none)).Reached 2 := h
    cases h with
    | @again r io k a m hk ha hr' =>
      rcases ha with ⟨-, rfl⟩ | ⟨buf, rfl⟩
      · exact ho.addr hi
      · rcases hr' with hb | ⟨src, buf', hb, hok, ht, hq⟩
        · have := (hr a buf rfl).1
          simp [Recv.bad] at hb
          simp [hb] at this
        · obtain ⟨rfl, rfl⟩ := Recv.datagram.inj hb
          rcases (hr a buf rfl).of_rr ht with ⟨hs, -⟩ | h2
          · exact .inr (.inl hs)
          · exact .inr (.inr (h2.le (Nat.le_max_left _ _)))
    | opens hok ht hq hi' => simp [afterClient] at hi
    | switches hok ht hq hi' => exact .inl rfl
    | back hok ht hq =>
      have := ((hr _ _ rfl).of_rej ht).2.2
      simp only [afterClient] at hi this
      exact .inr (.inr (this.le (by omega)))
    | onward hok ho' hi' =>
      simp only [afterClient] at hi
      exact .inr (.inr ((hr _ _ rfl).of_onward ho' (by omega)))
    | leaves | fail => simp at hc

/-- A turn of the parent, which has taken a packet of the client. -/
theorem Opening.parent (ho : w.Opening) (hw : w.Wf) {src sock : Addr} {forks io : Bool}
    {buf : Packet} {l : List Datagram} {b : List Addr}
    (hn : buf.type = pktTypeCXN → sock ∉ w.bound)
    (hm : ⟨src, buf⟩ ∈ w.up w.port) (hl : ∀ d ∈ l, d ∈ w.up w.port) :
    (w.afterParent src l b (w.parent.run src buf sock forks io)).Opening := by
  obtain ⟨j, h0, h5, hj, -⟩ := ho.up _ _ hm
  obtain rfl : buf = w.client.pkt j := hj
  have hport := port_afterParent w src src l b sock (w.client.pkt j) forks io
  have hr (q : ℕ) : w.Reached q →
      (w.afterParent src l b (w.parent.run src (w.client.pkt j) sock forks io)).Reached q := by
    rintro ⟨v, hv, h⟩
    exact ⟨v, List.mem_append_left _ hv, h⟩
  constructor
  · intro x d h
    obtain ⟨i, h0, h5, hi, hz⟩ := ho.up x d (mem_update hl h)
    exact ⟨i, h0, h5, hi, fun h => by rw [hport]; exact hz h⟩
  · intro x d h
    rcases mem_post.mp h with h | ⟨-, p, hp, rfl⟩
    · exact (ho.down x d h).mono hport hr
    · obtain ⟨hok, ht, hq⟩ := Parent.run_reply ⟨h0, h5⟩ hp
      exact ⟨hok, .inl ⟨hport.symm, ht, hq⟩⟩
  · intro hi
    obtain ⟨h1, h2, h3⟩ := ho.first hi
    have hkid : (w.parent.run src (w.client.pkt j) sock forks io).2.2 = none := by
      rw [Option.eq_none_iff_forall_not_mem]
      intro v hv
      have hj0 : w.client.pkt j = w.client.pkt 0 := h3 _ _ hm
      have ht := (Parent.run_child hv).1
      rw [hj0] at ht
      simp [Client.pkt, memset, pktTypeCXN, pktTypeCXN2] at ht
    refine ⟨by simp [afterParent, h1, hkid], by rw [hport]; exact h2, ?_⟩
    intro x d h
    exact h3 x d (mem_update hl h)
  · intro v hv
    rw [hport]
    rcases List.mem_append.mp hv with hv | hv
    · exact ho.children v hv
    · obtain ⟨-, hx, rfl⟩ := Parent.run_child (Option.mem_toList.mp hv)
      refine ⟨ho.pending hx, fun _ => ⟨?_, ?_, ?_, ?_, ?_⟩⟩ <;> simp [Server.forked]
  · intro hx
    rw [hport]
    rcases Parent.run_pending hx with ⟨ht, hsk⟩ | ⟨hx', hsk⟩
    · intro h
      exact hn ht (hsk.symm.trans h ▸ hw.bound)
    · exact fun h => ho.pending hx' (hsk.symm.trans h)
  · intro hi
    rw [hport]
    exact (ho.addr hi).imp_right (Or.imp_right (hr 2))

/-- A turn of a child behind `init`. -/
theorem Opening.data (ho : w.Opening) (hw : w.Wf) {k : ℕ} {v v' : Server}
    {up : Addr → List Datagram} {b : List Packet} {ev : Server.Event} {out : Option Packet}
    (hk : w.children[k]? = some v) (hd : v.inData) (hu : ∀ x, ∀ d ∈ up x, d ∈ w.up x)
    (h : v.Turn ev v' out) : (w.afterChild k up b (v', out)).Opening := by
  have hne := h.ne_init hd
  refine ho.child hk (fun hs => absurd hs hne) h.socket hu ?_
  rintro p rfl
  have hp := (hw.data v (List.mem_of_getElem? hk)).2 p h.out_mem
  exact ⟨hp.1, .inr (.inr (.inr ⟨hp.2, fun q => ⟨v', mem_set_self hk, .inl hne⟩⟩))⟩

/-- **Every step keeps the invariant** as long as the client stays in `init`. -/
theorem Opening.step (hg : n.garbles = false) (hw : w.Wf) (ho : w.Opening)
    (hs : w.client.mvState = .init) (h : Turn n w e t) (ht : t.client.mvState = .init) :
    t.Opening := by
  obtain ⟨h0, h5, -⟩ := hw.client hs
  cases h with
  | parentStops => exact ho.of_shed rfl rfl rfl rfl rfl (fun _ _ h => h) fun _ _ h => h
  | parentDrops hok ha hsh =>
    refine ho.of_shed rfl (by simp [afterParent]) rfl rfl rfl
      (fun x d h => mem_update (fun d => hsh.sub) h) ?_
    intro x d h
    simpa [afterParent] using h
  | @parent a sock src forks io buf l hn hok ha htk =>
    exact ho.parent hw (fun ht => (hn ht).1) htk.mem fun d => htk.sub
  | @childAct k io v v' out hk hd htn => exact ho.data hw hk hd (fun _ _ h => h) htn
  | @childInit k a io v v' r l out hk hs' hal ha htn =>
    have hv := List.mem_of_getElem? hk
    obtain ⟨hne, hcount⟩ := ho.children v hv
    have hcv := hcount hs'
    obtain ⟨hv', hsay⟩ := htn.counting hcv (c := w.client) fun src buf hb hok => by
      subst hb
      obtain ⟨j, h0, h5, hj, hz⟩ := ho.up _ _ (Arrival.recv_clean hg hal ha).mem
      exact ⟨j, Int.lt_iff_le_and_ne.mpr ⟨h0, fun h => hne (hz h.symm)⟩, h5, hj⟩
    refine ho.child hk (fun h => ⟨hs', (hv' h).2, (hv' h).1⟩)
      (htn.stays (hw.loop v hv hs')).2.2.2
      (fun _ _ h => mem_update (fun _ => (Arrival.recv_shed hal ha).sub) h) ?_
    intro p hp
    refine reply_of_says hcv (mem_set_self hk) ?_ (hsay p hp)
    by_cases h : v'.mvState = .init
    · exact .inr (hv' h).2
    · exact .inl h
  | @childHear k a io v v' r l out hk hd hal ha htn =>
    exact ho.data hw hk hd
      (fun _ _ h => mem_update (fun _ => (Arrival.recv_shed hal ha).sub) h) htn
  | clientSends hs' hsent =>
    constructor
    · intro x d h
      rcases mem_post.mp h with h | ⟨hx, p, hp, rfl⟩
      · exact ho.up x d h
      · obtain rfl := Option.some.inj hp
        exact ⟨w.client.i, h0, h5, rfl, fun hi => hx.trans (ho.first hi).2.1⟩
    · exact fun x d h => (ho.down x d h).mono rfl fun _ h => h
    · intro hi
      obtain ⟨h1, h2, h3⟩ := ho.first hi
      refine ⟨h1, h2, ?_⟩
      intro x d h
      rcases mem_post.mp h with h | ⟨hx, p, hp, rfl⟩
      · exact h3 x d h
      · obtain rfl := Option.some.inj hp
        exact congrArg w.client.pkt hi
    · exact ho.children
    · exact ho.pending
    · exact ho.addr
  | clientStops hs' => simp [afterClient] at ht
  | clientInit hn hs' hsent hal ha htn =>
    refine ho.clientInit h0 htn
      (fun _ _ h => mem_update (fun _ => (Arrival.recv_shed hal ha).sub) h) ?_ ht
    rintro src buf rfl
    exact ho.down _ _ (Arrival.recv_clean hg hal ha).mem
  | clientHear hs' hal ha htn => simp [hs] at hs'
  | noiseUp hn =>
    exact ho.of_shed rfl rfl rfl rfl rfl (fun _ _ h => mem_update (fun _ => hn.sub) h)
      fun _ _ h => h
  | noiseDown hn =>
    exact ho.of_shed rfl rfl rfl rfl rfl (fun _ _ h => h)
      fun _ _ h => mem_update (fun _ => hn.sub) h

theorem Start.opening {from_ : List UInt8} {bufsz winsz : Int32}
    (h : Start from_ bufsz winsz w) : w.Opening := by
  obtain ⟨sock, sk, addr, -, hc⟩ := h.client
  constructor
  · simp [h.up]
  · simp [h.down]
  · intro _
    refine ⟨h.children, ?_, by simp [h.up]⟩
    rw [hc, Client.rcopy, htons_htons]
  · simp [h.children]
  · simp [h.parent.cxn2]
  · simp [hc, Client.rcopy]

/-- A client in `init` has been in `init` all along. -/
theorem Turn.init_of_init (h : Turn n w e t) (ht : t.client.mvState = .init) :
    w.client.mvState = .init := by
  cases h with
  | clientSends hs | clientStops hs | clientInit hn hs => exact hs
  | clientHear hs hal ha htn =>
    cases htn <;> simp [afterClient, Client.accepted, hs] at ht
  | _ => exact ht

theorem opening_of_reach {from_ : List UInt8} {bufsz winsz : Int32} (hg : n.garbles = false)
    (h : (system from_ bufsz winsz n).Reach w) : w.client.mvState = .init → w.Opening := by
  refine h.invariant (I := fun w => w.client.mvState = .init → w.Opening)
    (fun _ h0 _ => Start.opening h0) ?_
  intro w e t hr hi hm hn ht
  have hw := wf_of_reach hr
  have htn := next_cases hw hm hn
  have hs := htn.init_of_init ht
  exact (hi hs).step hg hw hs htn ht

end World

end Fileserver
