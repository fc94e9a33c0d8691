/-
# Where replies keep their order, nothing is read again

The child goes back in the file for a `REJ` below its window.  Such a `REJ` is one an `RR` has
overtaken, or a second copy that comes late: as long as the client's replies arrive in the order
they were sent in, each once at most, the window cannot pass a `REJ` on its way.  What the links
do to the data does not matter.
-/
import Fileserver.Refinement

namespace Fileserver.Session

open Proto

variable [Host] {dn up : Link}

/-- The replies of a session stay in order. -/
theorem ordered_of_reach {file : List UInt8} {B W : UInt32} (hr : up.reorders = false)
    (hd : up.duplicates = false) (hW : 0 < W.toNat) {s : Session}
    (h : (system file B W dn up).Reach s) : GoBackN.Ordered (abs s) := by
  refine h.invariant (I := fun s => GoBackN.Ordered (abs s)) ?_ ?_
  · intro s h0
    constructor <;> simp [abs, h0.toServer]
  · intro s e t hs ho hm hn
    have hi := inv_of_reach hW hs
    obtain ⟨-, hg⟩ := refines hW hi.wf hm.1 hm.2 hn
    exact ho.step hr hd hi.numbers (hg.imp_right And.right)

/-- **No rewind without reordering.**  If the way up may lose replies but neither reorders nor
duplicates them, every `REJ` the child hears while it waits is for the front of its window or a
later packet.  The turn that hears it leaves the file position, the counter and the window as
they are. -/
theorem no_rewind (file : List UInt8) (B W : UInt32) (dn up : Link)
    (hr : up.reorders = false) (hd : up.duplicates = false) (hW : 0 < W.toNat) (s : Session)
    (h : (system file B W dn up).Reach s) (hs : s.server.mvState = .waitRR) (a : Arrival)
    (ha : a.allowed up) (src : Addr) (buf : Packet) (l : List Datagram)
    (hrecv : a.recv s.toServer = some (.datagram src buf, l)) (hok : buf.ok = true)
    (ht : buf.type = pktTypeREJ) :
    s.server.front.sequence ≤ buf.sequence ∧
    ∀ io, (s.server.waitRR (.datagram src buf) io).mvFrom = s.server.mvFrom ∧
      (s.server.waitRR (.datagram src buf) io).mvSequence = s.server.mvSequence ∧
      (s.server.waitRR (.datagram src buf) io).mvWindow = s.server.mvWindow := by
  have hi := inv_of_reach hW h
  have ho := ordered_of_reach hr hd hW h
  have hle : s.server.front.sequence ≤ buf.sequence := by
    rcases hi.wf.phase with he | ⟨-, hn⟩
    · simp [hs] at he
    have hf := (hn.front_eq (by rwa [hi.wf.windowSize]) hs).1
    have hmem : reply ⟨src, buf⟩ ∈ (abs s).up :=
      List.mem_map_of_mem (Arrival.recv_ok ha hrecv hok).mem
    have hrep : reply ⟨src, buf⟩ = .rej buf.sequence.toNat := by simp [reply, ht, num]
    rw [hrep] at hmem
    have hbase : s.server.lowest ≤ buf.sequence.toNat := ho.base_le _ hmem
    rw [UInt32.le_iff_toNat_le]
    omega
  refine ⟨hle, ?_⟩
  intro io
  have hfront : (s.server.mvWindow.headD Host.stale).sequence ≤ buf.sequence := hle
  simp only [Server.waitRR, Server.recvPacket, hok, Server.waitPacket, Server.front, ht, rej_ne_rr,
    hfront, if_true, if_false, and_self]

end Fileserver.Session

namespace Fileserver.Session

open Proto

local instance orderHost : Host := refHost [1, 2, 3]

/-- The client counts one packet and then asks for the next: its `REJ` finds the window where it
wants it. -/
theorem no_rewind_asked :
    ∃ s src buf l, (system [1, 2, 3] 2 2 .free .lossy).Reach s ∧ s.server.mvState = .waitRR ∧
      (Arrival.take 0).recv s.toServer = some (.datagram src buf, l) ∧ buf.type = pktTypeREJ ∧
      s.server.front.sequence ≤ buf.sequence := by
  have h0 : (system [1, 2, 3] 2 2 .free .lossy).Reach (atStart [1, 2, 3] 2 2) :=
    .start (atStart_start [1, 2, 3] 2 2)
  obtain ⟨s, h, ht⟩ := h0.run_any (List.replicate 6 (.serverAct true) ++
      [.clientHear (.take 0) true true, .clientHear .timeout true true,
       .serverHear (.take 0) true] ++ List.replicate 4 (.serverAct true))
    (fun s => decide (s.server.mvState = .waitRR ∧ (s.toServer[0]?.any fun d : Datagram =>
      decide (d.pkt.ok = true ∧ d.pkt.type = pktTypeREJ)) = true)) (by decide +kernel)
  obtain ⟨hs, hd⟩ := of_decide_eq_true ht
  obtain ⟨d, hd, hp⟩ := (Option.any_eq_true _ _).mp hd
  obtain ⟨hok, htype⟩ := of_decide_eq_true hp
  have hrecv : (Arrival.take 0).recv s.toServer =
      some (.datagram d.src d.pkt, s.toServer.eraseIdx 0) := by
    simp only [Arrival.recv, hd, Option.map_some]
  exact ⟨s, d.src, d.pkt, _, h, hs, hrecv, htype, (no_rewind [1, 2, 3] 2 2 .free .lossy rfl rfl
    (by decide) s h hs (.take 0) (.inr rfl) d.src d.pkt _ hrecv hok htype).1⟩

end Fileserver.Session
