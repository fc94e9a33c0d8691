/-
# Datagrams in flight

What lies between a sender and a receiver, and what one call of `recvPacket` or `recvfrom` can
make of it: nothing arrives in time, the call fails, a datagram arrives, or one arrives damaged
in a way the checksum shows.
-/
import Fileserver.Lib.Link
import Fileserver.Packet

namespace Fileserver

open Proto

/-- A datagram in flight, with the address it was sent from. -/
structure Datagram where
  src : Addr
  pkt : Packet
deriving DecidableEq

/-- What the next call that receives gets. -/
inductive Arrival
  | timeout
  | failed
  | take (i : ℕ)
  | garble (i : ℕ) (q : Packet)

namespace Arrival

variable [Host]

/-- The outcome of the call and what stays in flight.  Damage that the checksum would not show
is not an arrival. -/
def recv (l : List Datagram) : Arrival → Option (Recv × List Datagram)
  | .timeout => some (.timeout, l)
  | .failed => some (.failed, l)
  | .take i => l[i]?.map fun d => (.datagram d.src d.pkt, l.eraseIdx i)
  | .garble i q =>
    if q.ok then none else l[i]?.map fun d => (.datagram d.src q, l.eraseIdx i)

/-- The link lets the arrival happen. -/
def allowed (k : Link) : Arrival → Prop
  | .timeout => True
  | .failed => True
  | .take i => k.picks i
  | .garble i _ => k.garbles = true ∧ k.picks i

instance (k : Link) : DecidablePred (allowed k)
  | .timeout => inferInstanceAs (Decidable True)
  | .failed => inferInstanceAs (Decidable True)
  | .take i => inferInstanceAs (Decidable (k.picks i))
  | .garble i _ => inferInstanceAs (Decidable (k.garbles = true ∧ k.picks i))

omit [Host] in
/-- A link that does anything lets every arrival happen. -/
theorem allowed_free (a : Arrival) : a.allowed .free := by
  cases a with
  | timeout | failed => trivial
  | take i => exact .inl rfl
  | garble i q => exact ⟨rfl, .inl rfl⟩

/-- A datagram arrives unharmed. -/
def good : Arrival → Bool
  | .take _ => true
  | _ => false

/-- What the call got, by where it came from. -/
theorem recv_cases {k : Link} {a : Arrival} {l l' : List Datagram} {r : Recv}
    (hk : a.allowed k) (h : a.recv l = some (r, l')) :
    (a.good = false ∧ r = .timeout ∧ l' = l) ∨ (a.good = false ∧ r = .failed ∧ l' = l) ∨
    (∃ d, r = .datagram d.src d.pkt ∧ k.Takes l d l') ∨
    (∃ d q, a.good = false ∧ q.ok = false ∧ r = .datagram d.src q ∧ k.Takes l d l') := by
  cases a with
  | timeout =>
    obtain ⟨rfl, rfl⟩ := Prod.mk.inj (Option.some.inj h)
    exact .inl ⟨rfl, rfl, rfl⟩
  | failed =>
    obtain ⟨rfl, rfl⟩ := Prod.mk.inj (Option.some.inj h)
    exact .inr (.inl ⟨rfl, rfl, rfl⟩)
  | take i =>
    obtain ⟨d, hd, he⟩ := Option.map_eq_some_iff.mp h
    obtain ⟨rfl, rfl⟩ := Prod.mk.inj he
    exact .inr (.inr (.inl ⟨d, rfl, i, hk, hd, rfl⟩))
  | garble i q =>
    simp only [recv, Option.ite_none_left_eq_some] at h
    obtain ⟨hq, h⟩ := h
    obtain ⟨d, hd, he⟩ := Option.map_eq_some_iff.mp h
    obtain ⟨rfl, rfl⟩ := Prod.mk.inj he
    exact .inr (.inr (.inr ⟨d, q, rfl, by simpa using hq, rfl, i, hk.2, hd, rfl⟩))

/-- What arrives unharmed was in flight. -/
theorem recv_good {a : Arrival} {l l' : List Datagram} {r : Recv} (h : a.recv l = some (r, l'))
    (hg : a.good = true) : ∃ d, r = .datagram d.src d.pkt ∧ d ∈ l := by
  cases a with
  | take i =>
    obtain ⟨d, hd, he⟩ := Option.map_eq_some_iff.mp h
    obtain ⟨rfl, -⟩ := Prod.mk.inj he
    exact ⟨d, rfl, List.mem_of_getElem? hd⟩
  | _ => simp [good] at hg

/-- Where the order is kept, an unharmed arrival is the oldest datagram in flight. -/
theorem recv_oldest {k : Link} (hk : k.reorders = false) {a : Arrival} {l l' : List Datagram}
    {r : Recv} (hal : a.allowed k) (h : a.recv l = some (r, l')) (hg : a.good = true) :
    ∃ d, r = .datagram d.src d.pkt ∧ l = d :: l' := by
  cases a with
  | take i =>
    obtain ⟨d, hd, he⟩ := Option.map_eq_some_iff.mp h
    obtain ⟨rfl, rfl⟩ := Prod.mk.inj he
    exact ⟨d, rfl, Link.Takes.head hk ⟨i, hal, hd, rfl⟩⟩
  | _ => simp [good] at hg

/-- A packet that passes the checksum test was in flight as it is. -/
theorem recv_ok {k : Link} {a : Arrival} {l l' : List Datagram} {src : Addr} {buf : Packet}
    (hk : a.allowed k) (h : a.recv l = some (.datagram src buf, l')) (hok : buf.ok = true) :
    k.Takes l ⟨src, buf⟩ l' := by
  rcases recv_cases hk h with ⟨-, hr, -⟩ | ⟨-, hr, -⟩ | ⟨d, hr, ht⟩ | ⟨d, q, -, hq, hr, -⟩
  · exact absurd hr (by simp)
  · exact absurd hr (by simp)
  · obtain ⟨rfl, rfl⟩ := Recv.datagram.inj hr
    exact ht
  · obtain ⟨rfl, rfl⟩ := Recv.datagram.inj hr
    simp [hok] at hq

/-- On a link that damages nothing, what arrives was in flight as it is. -/
theorem recv_clean {k : Link} (hg : k.garbles = false) {a : Arrival} {l l' : List Datagram}
    {src : Addr} {buf : Packet} (hk : a.allowed k)
    (h : a.recv l = some (.datagram src buf, l')) : k.Takes l ⟨src, buf⟩ l' := by
  cases a with
  | garble i q => simp [allowed, hg] at hk
  | timeout | failed => simp [recv] at h
  | take i =>
    obtain ⟨d, hd, he⟩ := Option.map_eq_some_iff.mp h
    obtain ⟨hr, rfl⟩ := Prod.mk.inj he
    obtain ⟨rfl, rfl⟩ := Recv.datagram.inj hr
    exact ⟨i, hk, hd, rfl⟩

/-- Whatever arrives, at most one datagram leaves the link. -/
theorem recv_shed {k : Link} {a : Arrival} {l l' : List Datagram} {r : Recv}
    (hk : a.allowed k) (h : a.recv l = some (r, l')) : k.Shed l l' := by
  rcases recv_cases hk h with ⟨-, -, hl⟩ | ⟨-, -, hl⟩ | ⟨d, -, ht⟩ | ⟨d, q, -, -, -, ht⟩
  · exact .inl hl
  · exact .inl hl
  · exact .inr ⟨d, ht⟩
  · exact .inr ⟨d, ht⟩

/-- Where nothing bad is in flight, an unharmed arrival is not bad. -/
theorem good_eq_false {k : Link} {a : Arrival} {l l' : List Datagram} {r : Recv}
    (hk : a.allowed k) (h : a.recv l = some (r, l')) (hl : ∀ d ∈ l, d.pkt.ok = true)
    (hr : r.bad = true ∨ r = .failed) : a.good = false := by
  rcases recv_cases hk h with ⟨hg, -⟩ | ⟨hg, -⟩ | ⟨d, rfl, ht⟩ | ⟨d, q, hg, -⟩
  · exact hg
  · exact hg
  · simp [Recv.bad, hl d ht.mem] at hr
  · exact hg

end Arrival

end Fileserver
