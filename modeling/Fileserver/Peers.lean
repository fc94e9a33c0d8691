/-
# Whom a process answers

`recvfrom` stores the source of every datagram in `mvAddr`, and what a process sends goes there.
So it answers whoever it heard last, and the address changes in no other way but one: the turn in
which the client goes over to the address it was told.
-/
import Fileserver.Steps

namespace Fileserver

open Proto

/-- Where a turn that hears `r` leaves the peer: as it was, or at the source of `r`. -/
def Recv.Leads (r : Recv) (a a' : Addr) : Prop := a' = a ∨ ∃ buf, r = .datagram a' buf

variable [Host]

/-! ## 1. The client -/

namespace Client

theorem recvPacket_peer (c : Client) (r : Recv) :
    (c.recvPacket r).1.mvSocket = c.mvSocket ∧ r.Leads c.mvAddr (c.recvPacket r).1.mvAddr ∧
      (c.recvPacket r).1.sk = c.sk ∧ (c.recvPacket r).1.addr = c.addr := by
  cases r with
  | timeout | failed => exact ⟨rfl, .inl rfl, rfl, rfl⟩
  | datagram src buf =>
    unfold recvPacket
    dsimp only
    split_ifs <;> exact ⟨rfl, .inr ⟨buf, rfl⟩, rfl, rfl⟩

omit [Host] in
theorem again_peer (c : Client) (i : Int) :
    (c.again i).mvSocket = c.mvSocket ∧ (c.again i).mvAddr = c.mvAddr := by
  unfold again initEnd
  dsimp only
  split_ifs <;> exact ⟨rfl, rfl⟩

/-- A turn of the `switch` leaves socket and address alone, or takes those of the announcement. -/
theorem initPacket_peer (c : Client) (p : Packet) (sock : Addr) (io : Bool) :
    (c.initPacket p sock io).mvSocket = c.mvSocket ∧
        (c.initPacket p sock io).mvAddr = c.mvAddr ∨
      (c.initPacket p sock io).mvSocket = c.sk ∧ (c.initPacket p sock io).mvAddr = c.addr := by
  unfold initPacket
  dsimp only
  split_ifs
  all_goals first
    | exact .inl (again_peer _ _)
    | exact .inr (again_peer _ _)
    | exact .inl ⟨rfl, rfl⟩

/-- A turn of `init` answers whoever it heard, or goes over to the announced address. -/
theorem init_peer (c : Client) (r : Recv) (sock : Addr) (io : Bool) :
    (c.init r sock io).mvSocket = c.mvSocket ∧ r.Leads c.mvAddr (c.init r sock io).mvAddr ∨
      (c.init r sock io).mvSocket = c.sk ∧ (c.init r sock io).mvAddr = c.addr := by
  obtain ⟨h1, h2, h3, h4⟩ := c.recvPacket_peer r
  unfold init
  generalize c.recvPacket r = x at h1 h2 h3 h4 ⊢
  obtain ⟨d, ret⟩ := x
  cases ret with
  | error => exact .inl ⟨h1, h2⟩
  | again =>
    obtain ⟨ha, hb⟩ := d.again_peer (d.i - 1 + 1)
    exact .inl ⟨ha.trans h1, hb.symm ▸ h2⟩
  | packet p =>
    rcases ({ d with mvRetries := pktTrnsMax } : Client).initPacket_peer p sock io with
      ⟨ha, hb⟩ | ⟨ha, hb⟩
    · exact .inl ⟨ha.trans h1, hb.symm ▸ h2⟩
    · exact .inr ⟨ha.trans h3, hb.trans h4⟩

theorem Turn.socket {c d : Client} {r : Recv} {wr io : Bool} {out : Option Packet}
    (h : c.Turn r wr io d out) : d.mvSocket = c.mvSocket := by
  cases h <;> rfl

theorem dataPacket_addr (c : Client) (p : Packet) (wr io : Bool) :
    (c.dataPacket p wr io).1.mvAddr = c.mvAddr := by
  have hrespond (d : Client) (q : Packet) : (d.respond q io).1.mvAddr = d.mvAddr := by
    cases io <;> rfl
  unfold dataPacket
  dsimp only
  split
  · split
    · split
      · split
        · rfl
        · exact hrespond ..
      · rfl
    · exact hrespond ..
  · exact hrespond ..

/-- The client answers whoever it heard last. -/
theorem recvPackets_addr (c : Client) (r : Recv) (wr io : Bool) :
    r.Leads c.mvAddr (c.recvPackets r wr io).1.mvAddr := by
  have h := (c.recvPacket_peer r).2.1
  unfold recvPackets
  generalize c.recvPacket r = x at h ⊢
  obtain ⟨d, ret⟩ := x
  cases ret with
  | error => exact h
  | again => cases io <;> exact h
  | packet p =>
    dsimp only
    rwa [dataPacket_addr]

/-- **A client answers whoever it heard last**, but for the turn in which it goes over to the
announced address. -/
theorem step_peer {c d : Client} {r : Recv} {sock : Addr} {wr io : Bool} {out : Option Packet}
    (h : c.step (.hear r sock wr io) = some (d, out)) :
    d.mvSocket = c.mvSocket ∧ r.Leads c.mvAddr d.mvAddr ∨
      c.mvState = .init ∧ d.mvSocket = c.sk ∧ d.mvAddr = c.addr := by
  rcases step_hear h with ⟨hs, rfl⟩ | ⟨-, rfl⟩
  · exact (c.init_peer r sock io).imp_right (And.intro hs)
  · exact .inl ⟨(recvPackets_cases c r wr io).socket, c.recvPackets_addr r wr io⟩

end Client

/-! ## 2. A child -/

namespace Server

theorem initSend_peer (s : Server) (p : Packet) (io : Bool) :
    (s.initSend p io).1.mvAddr = s.mvAddr := by
  unfold initSend initEnd
  cases io with
  | false => rfl
  | true =>
    simp only [if_true]
    split_ifs
    · rfl
    · rfl
    · split <;> rfl

theorem initPacket_peer (s : Server) (p : Packet) : (s.initPacket p).1.mvAddr = s.mvAddr := by
  unfold initPacket initTake
  dsimp only
  split_ifs <;> rfl

theorem recvPacket_peer (s : Server) (r : Recv) : r.Leads s.mvAddr (s.recvPacket r).1.mvAddr := by
  cases r with
  | timeout | failed => exact .inl rfl
  | datagram src buf =>
    unfold recvPacket
    dsimp only
    split_ifs <;> exact .inr ⟨buf, rfl⟩

theorem init_peer (s : Server) (r : Recv) (io : Bool) :
    r.Leads s.mvAddr (s.init r io).1.mvAddr := by
  have h := s.recvPacket_peer r
  unfold init
  generalize s.recvPacket r = x at h ⊢
  obtain ⟨d, ret⟩ := x
  cases ret with
  | error => exact h
  | again =>
    dsimp only
    rwa [initSend_peer]
  | packet p =>
    dsimp only
    rwa [initSend_peer, initPacket_peer]

theorem waitRR_peer (s : Server) (r : Recv) (io : Bool) :
    r.Leads s.mvAddr (s.waitRR r io).mvAddr := by
  have h := s.recvPacket_peer r
  unfold waitRR
  generalize s.recvPacket r = x at h ⊢
  obtain ⟨d, ret⟩ := x
  cases ret with
  | error | again => exact h
  | packet p =>
    have hp : (d.waitPacket p io).mvAddr = d.mvAddr := by
      unfold waitPacket
      split_ifs <;> rfl
    dsimp only
    rwa [hp]

theorem act_peer (s : Server) (io : Bool) : (s.act io).1.mvAddr = s.mvAddr := by
  unfold act
  split
  · unfold fillWindow
    split_ifs <;> rfl
  · unfold sendWindow
    split
    · rfl
    · split_ifs <;> rfl
  · rfl

/-- **A child answers whoever it heard last.** -/
theorem step_peer {s t : Server} {r : Recv} {io : Bool} {out : Option Packet}
    (h : s.step (.hear r io) = some (t, out)) : r.Leads s.mvAddr t.mvAddr := by
  rcases step_hear h with ⟨-, rfl⟩ | ⟨-, rfl⟩
  · exact s.init_peer r io
  · exact s.waitRR_peer r io

theorem step_act_peer {s t : Server} {io : Bool} {out : Option Packet}
    (h : s.step (.act io) = some (t, out)) : t.mvAddr = s.mvAddr := by
  simp only [step, Option.ite_none_right_eq_some, Option.some.injEq] at h
  rw [← s.act_peer io, h.2]

end Server

/-! ## 3. The world -/

/-- Unless the source is damaged too, whoever is heard is the source of a datagram on its way. -/
theorem Arrival.leads {n : Link} {a : Arrival} {q l : List Datagram} {r : Recv} {x y : Addr}
    (hg : n.garbles = false) (hal : a.allowed n) (ha : a.recv q = some (r, l))
    (h : r.Leads x y) : y = x ∨ ∃ d ∈ q, y = d.src := by
  rcases h with h | ⟨buf, rfl⟩
  · exact .inl h
  · exact .inr ⟨_, (Arrival.recv_clean hg hal ha).mem, rfl⟩

/-- Behind a turn of the client that receives. -/
theorem World.clientHear_peer {w t : World} {n : Link} {a : Arrival} {sock : Addr} {wr io : Bool}
    (hg : n.garbles = false) (hal : a.allowed n)
    (hn : w.next (.clientHear a sock wr io) = some t) :
    t.client.mvSocket = w.client.mvSocket ∧
        (t.client.mvAddr = w.client.mvAddr ∨
          ∃ d ∈ w.down w.client.mvSocket, t.client.mvAddr = d.src) ∨
      w.client.mvState = .init ∧ t.client.mvSocket = w.client.sk ∧
        t.client.mvAddr = w.client.addr := by
  obtain ⟨⟨r, l⟩, ha, hn⟩ := Option.bind_eq_some_iff.mp hn
  obtain ⟨⟨c, out⟩, hst, rfl⟩ := Option.map_eq_some_iff.mp hn
  exact (Client.step_peer hst).imp_left (And.imp_right (Arrival.leads hg hal ha))

end Fileserver
