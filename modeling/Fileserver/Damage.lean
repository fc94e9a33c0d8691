/-
# One damaged byte

The Internet checksum of a packet finds every packet in which one byte was changed.  A byte counts
once or 256 times in the sum of the words, so a change of it moves the sum by less than 65535 and
not by zero, and the checksum knows the sum modulo 65535.  The two bytes of the checksum itself lie
in two different words; they are zero while the sum is taken, so a change there changes what the
sum is compared with.
-/
import Fileserver.Cksum
import Fileserver.Handshake
import Fileserver.Lib.ByteOrder
import Fileserver.Parent
import Mathlib.Data.List.GetD
import Mathlib.Data.Nat.ModEq

namespace Fileserver

open Proto

/-! ## 1. The sum of the words -/

/-- The words of a little-endian host. -/
theorem little_wordSum (l : List UInt8) : ByteOrder.little.wordSum l = wordSum l := by
  fun_induction wordSum l with
  | case1 => rfl
  | case2 a => simp [ByteOrder.wordSum]
  | case3 a b l ih => rw [ByteOrder.wordSum, ih, ByteOrder.little_pair]

theorem wordSum_le (l : List UInt8) : wordSum l ≤ 65535 * l.length := by
  rw [← little_wordSum]
  exact ByteOrder.wordSum_le .little l

theorem addCarries_mod (n : ℕ) : addCarries n % 65535 = n % 65535 := by
  unfold addCarries
  omega

/-- Two rounds take in all the carries of a packet's sum. -/
theorem addCarries_le {n : ℕ} (hn : n < 2 ^ 32) : addCarries (addCarries n) ≤ 65535 := by
  unfold addCarries
  omega

/-- **Equal checksums, equal sums modulo 65535.** -/
theorem wordSum_mod_eq {l m : List UInt8} (hl : wordSum l < 2 ^ 32) (hm : wordSum m < 2 ^ 32)
    (h : internetCksum l = internetCksum m) : wordSum l % 65535 = wordSum m % 65535 := by
  have hl' := addCarries_le hl
  have hm' := addCarries_le hm
  have hfold : addCarries (addCarries (wordSum l)) = addCarries (addCarries (wordSum m)) := by
    have := congrArg UInt16.toNat h
    simp only [internetCksum, UInt16.toNat_ofNat'] at this
    omega
  rw [← addCarries_mod, ← addCarries_mod (addCarries (wordSum l)), hfold, addCarries_mod,
    addCarries_mod]

/-- A changed byte changes the checksum. -/
theorem internetCksum_set_ne {l : List UInt8} {k : ℕ} {b : UInt8} (hlen : l.length ≤ 65536)
    (hk : k < l.length) (hb : b ≠ l[k]) : internetCksum (l.set k b) ≠ internetCksum l := by
  intro h
  have hset := ByteOrder.wordSum_set .little l k hk b
  rw [little_wordSum, little_wordSum] at hset
  have h1 := wordSum_le l
  have h2 := wordSum_le (l.set k b)
  rw [List.length_set] at h2
  have hmod := wordSum_mod_eq (by omega) (by omega) h
  have hne : b.toNat ≠ l[k].toNat := fun he => hb (UInt8.toNat_inj.mp he)
  have hb' := b.toNat_lt
  have hl' := l[k].toNat_lt
  simp only [ByteOrder.weight] at hset
  split at hset <;> omega

/-! ## 2. The bytes of a packet -/

namespace Packet

/-- The bytes in front of the checksum. -/
def wireFront (p : Packet) : List UInt8 :=
  p.type :: (List.range 4).map fun k => (p.sequence.toNat / 256 ^ k).toUInt8

/-- The bytes behind it. -/
def wireBack (p : Packet) : List UInt8 :=
  ((List.range 2).map fun k => (p.size.toNat / 256 ^ k).toUInt8) ++ p.data.toList

theorem wire_eq (p : Packet) :
    p.wire = p.wireFront ++
      p.checksum.toNat.toUInt8 :: (p.checksum.toNat / 256).toUInt8 :: p.wireBack := by
  simp [wire, wireFront, wireBack, List.range_succ]

theorem length_wireFront (p : Packet) : p.wireFront.length = 5 := by simp [wireFront]

theorem length_wire (p : Packet) : p.wire.length = 1409 := by
  have hd : p.data.toList.length = 1400 := Vector.length_toList
  simp [wire_eq, length_wireFront, wireBack, hd]

theorem getElem?_five (p : Packet) : p.wire[5]? = some p.checksum.toNat.toUInt8 := by
  rw [wire_eq, List.getElem?_append_right (by rw [length_wireFront])]
  simp [length_wireFront]

theorem getElem?_six (p : Packet) : p.wire[6]? = some (p.checksum.toNat / 256).toUInt8 := by
  rw [wire_eq, List.getElem?_append_right (by rw [length_wireFront]; decide)]
  simp [length_wireFront]

/-- While the sum is taken, the two bytes of the checksum are zero. -/
theorem getElem?_zeroed (p : Packet) (j : ℕ) :
    ({ p with checksum := 0 } : Packet).wire[j]? =
      if j = 5 ∨ j = 6 then some 0 else p.wire[j]? := by
  by_cases h5 : j = 5
  · rw [h5, getElem?_five]
    simp
  by_cases h6 : j = 6
  · rw [h6, getElem?_six]
    simp
  rw [if_neg (by simp [h5, h6]), wire_eq, wire_eq]
  change (p.wireFront ++ _ :: _ :: p.wireBack)[j]? = _
  have hf := p.length_wireFront
  by_cases hlt : j < 5
  · rw [List.getElem?_append_left (by omega), List.getElem?_append_left (by omega)]
  · obtain ⟨i, rfl⟩ : ∃ i, j = 7 + i := ⟨j - 7, by omega⟩
    rw [List.getElem?_append_right (by omega), List.getElem?_append_right (by omega), hf]
    have hi : 7 + i - 5 = i + 1 + 1 := by omega
    rw [hi, List.getElem?_cons_succ, List.getElem?_cons_succ, List.getElem?_cons_succ,
      List.getElem?_cons_succ]

/-- The checksum is what its two bytes say. -/
theorem checksum_eq {p q : Packet} (h5 : q.wire[5]? = p.wire[5]?)
    (h6 : q.wire[6]? = p.wire[6]?) : q.checksum = p.checksum := by
  rw [getElem?_five, getElem?_five, Option.some_inj] at h5
  rw [getElem?_six, getElem?_six, Option.some_inj] at h6
  have h5' := congrArg UInt8.toNat h5
  have h6' := congrArg UInt8.toNat h6
  have hp := p.checksum.toNat_lt
  have hq := q.checksum.toNat_lt
  simp only [Nat.toUInt8, UInt8.toNat_ofNat'] at h5' h6'
  rw [← UInt16.toNat_inj]
  omega

/-- The packets differ in exactly one of their bytes. -/
def OneByteOff (p q : Packet) : Prop :=
  ∃ k : ℕ, q.wire[k]? ≠ p.wire[k]? ∧ ∀ j : ℕ, j ≠ k → q.wire[j]? = p.wire[j]?

/-- **A changed byte is found**, in the checksum or outside it. -/
theorem OneByteOff.cksum_ne {p q : Packet} (h : OneByteOff p q)
    (hp : internetCksum ({ p with checksum := 0 } : Packet).wire = p.checksum) :
    internetCksum ({ q with checksum := 0 } : Packet).wire ≠ q.checksum := by
  obtain ⟨k, hk, hj⟩ := h
  by_cases hck : k = 5 ∨ k = 6
  · -- the sum is the same, the value it is compared with is not
    have hsum : ({ q with checksum := 0 } : Packet).wire
        = ({ p with checksum := 0 } : Packet).wire := by
      apply List.ext_getElem?
      intro j
      rw [getElem?_zeroed, getElem?_zeroed]
      split_ifs with h56
      · rfl
      · exact hj j fun he => h56 (he ▸ hck)
    rw [hsum, hp]
    intro he
    refine hk ?_
    rcases hck with rfl | rfl
    · rw [getElem?_five, getElem?_five, he]
    · rw [getElem?_six, getElem?_six, he]
  · -- the checksum is the same, the sum is not
    have hne := not_or.mp hck
    rw [checksum_eq (hj 5 (Ne.symm hne.1)) (hj 6 (Ne.symm hne.2)), ← hp]
    have hlt : k < ({ p with checksum := 0 } : Packet).wire.length := by
      by_contra hge
      rw [length_wire] at hge
      refine hk ?_
      rw [List.getElem?_eq_none (by rw [length_wire]; omega),
        List.getElem?_eq_none (by rw [length_wire]; omega)]
    have hlt' : k < ({ q with checksum := 0 } : Packet).wire.length := by
      rw [length_wire] at hlt ⊢
      exact hlt
    have hset : ({ q with checksum := 0 } : Packet).wire
        = ({ p with checksum := 0 } : Packet).wire.set k
          ({ q with checksum := 0 } : Packet).wire[k] := by
      apply List.ext_getElem?
      intro j
      by_cases he : j = k
      · subst he
        rw [List.getElem?_set_self hlt, List.getElem?_eq_getElem hlt']
      · rw [List.getElem?_set_ne (Ne.symm he), getElem?_zeroed, getElem?_zeroed, hj j he]
    rw [hset]
    refine internetCksum_set_ne (by rw [length_wire]; decide) hlt ?_
    intro he
    refine hk ?_
    have h0 := getElem?_zeroed q k
    have h1 := getElem?_zeroed p k
    rw [if_neg hck] at h0 h1
    rw [← h0, ← h1, List.getElem?_eq_getElem hlt', List.getElem?_eq_getElem hlt, he]

/-- A packet with one byte overwritten. -/
theorem OneByteOff.of_set {p q : Packet} {k : ℕ} {b : UInt8} (hk : k < 1409)
    (h : q.wire = p.wire.set k b) (hb : p.wire[k]? ≠ some b) : OneByteOff p q := by
  refine ⟨k, ?_, ?_⟩
  · rw [h, List.getElem?_set_self (by rw [length_wire]; exact hk)]
    exact Ne.symm hb
  · intro j hj
    rw [h, List.getElem?_set_ne (Ne.symm hj)]

end Packet

/-! ## 3. The packets of the program -/

section Programs

variable [Host]

/-- The packets the processes build: the replies, the data packets of `fillWindow`, the five packets
of `Client::init` and the announcement of the parent. -/
inductive Built : Packet → Prop
  | rr (n : UInt32) : Built (rrpkt n)
  | rej (n : UInt32) : Built (rejpkt n)
  | dat (s : Server) : Built s.nextPacket
  | handshake (c : Client) {i : Int} (h0 : 0 ≤ i) (h5 : i < 5) : Built (c.pkt i)
  | announce (n : UInt32) (sock : Addr) : Built (Parent.announce n sock)

/-- They all end in `p.checksum = in_cksum(&p, sizeof(packet))`. -/
theorem Built.ok {p : Packet} (h : Built p) : p.ok = true := by
  cases h with
  | rr n => exact rrpkt_ok n
  | rej n => exact rejpkt_ok n
  | dat s => exact datpkt_ok _ _
  | handshake c h0 h5 => exact Client.pkt_ok h0 h5
  | announce n sock => exact Parent.announce_ok n sock

/-- **What is sent is accepted, and one damaged byte is not.**  With the Internet checksum
both processes take every packet the programs build as it is, and return 2 for every packet that
differs from one of them in exactly one byte. -/
theorem checksum_detects (hck : ∀ p, Host.inCksum p = internetCksum p.wire) (p : Packet)
    (hp : Built p) :
    (∀ (s : Server) (src : Addr), (s.recvPacket (.datagram src p)).2 = .packet p) ∧
    (∀ (c : Client) (src : Addr), (c.recvPacket (.datagram src p)).2 = .packet p) ∧
    ∀ q, p.OneByteOff q →
      (∀ (s : Server) (src : Addr), (s.recvPacket (.datagram src q)).2 = .again) ∧
      (∀ (c : Client) (src : Addr), (c.recvPacket (.datagram src q)).2 = .again) := by
  have hok := hp.ok
  refine ⟨?_, ?_, ?_⟩
  · intro s src
    simp [Server.recvPacket, hok]
  · intro c src
    simp [Client.recvPacket, hok]
  · intro q hq
    have hbad : q.ok = false := by
      rw [Packet.ok, beq_eq_false_iff_ne, hck]
      refine hq.cksum_ne ?_
      rw [← hck]
      exact beq_iff_eq.mp hok
    refine ⟨?_, ?_⟩
    · intro s src
      simp [Server.recvPacket, hbad]
    · intro c src
      simp [Client.recvPacket, hbad]

end Programs

end Fileserver

namespace Fileserver

local instance damageHost : Host := refHost []

/-- An `RR` whose number was changed on the way. -/
theorem checksum_detects_rr :
    ((Parent.atStart ⟨1, 7⟩).server.recvPacket
      (.datagram ⟨2, 9⟩ { rrpkt 0 with sequence := 1 })).2 = .again := by
  have hoff : (rrpkt 0).OneByteOff { rrpkt 0 with sequence := 1 } :=
    .of_set (k := 1) (b := 1) (by decide) (by decide +kernel) (by decide +kernel)
  exact ((checksum_detects (fun _ => rfl) (rrpkt 0) (.rr 0)).2.2 _ hoff).1 _ _

end Fileserver
