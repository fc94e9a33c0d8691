/-
# Two hosts, two byte orders

The Makefile builds the program for SunOS and for Linux, so the two processes may run on hosts
that do not agree on the byte order.  `struct packet` goes over the network as it stands in the
memory of its sender: `rrpkt`, `rejpkt`, `Server::fillWindow` and `Client::init` assign its
numbers as they are, where `retransmitpkt` next to them puts its own through `htonl`.

The checksum does not mind.  It is taken over native words and compared as a native number, and
the field it stands in is zero meanwhile, so the receiver finds the sum of the sender with its
bytes exchanged.  The numbers do: the other host reads them from the other end.
-/
import Fileserver.Damage
import Fileserver.StopWait.Comm

namespace Fileserver

open Proto

/-! ## 1. The bytes of a packet -/

namespace Packet

/-- A packet in the memory of a host, packed as declared. -/
def image (o : ByteOrder) (p : Packet) : List UInt8 :=
  p.type :: (o.bytes 4 p.sequence.toNat ++ (o.bytes 2 p.checksum.toNat ++
    (o.bytes 2 p.size.toNat ++ p.data.toList)))

/-- The packet a host finds in these bytes. -/
def read (o : ByteOrder) (l : List UInt8) : Packet where
  type := l.headD 0
  sequence := UInt32.ofNat (o.number ((l.drop 1).take 4))
  checksum := UInt16.ofNat (o.number ((l.drop 5).take 2))
  size := UInt16.ofNat (o.number ((l.drop 7).take 2))
  data := dataOf (l.drop 9)

theorem length_image (o : ByteOrder) (p : Packet) : (p.image o).length = 1409 := by
  have hd : p.data.toList.length = 1400 := Vector.length_toList
  simp [image, hd]

/-- What a host of order `o'` receives where one of order `o` has sent `p`. -/
def carried (o o' : ByteOrder) (p : Packet) : Packet := read o' (p.image o)

variable {o o' : ByteOrder} {p : Packet}

/-- Single bytes do not change, and numbers are read from the bytes they were written to. -/
theorem carried_eq : p.carried o o' =
    { type := p.type
      sequence := UInt32.ofNat (o'.number (o.bytes 4 p.sequence.toNat))
      checksum := UInt16.ofNat (o'.number (o.bytes 2 p.checksum.toNat))
      size := UInt16.ofNat (o'.number (o.bytes 2 p.size.toNat))
      data := p.data } := by
  have hd : p.data.toList.length = pktDMax := Vector.length_toList
  have hdata : dataOf p.data.toList = p.data := by
    have htake := take_dataOf (le_of_eq hd)
    rw [hd, List.take_of_length_le (le_of_eq Vector.length_toList)] at htake
    exact Vector.toList_inj.mp htake
  simp [carried, read, image, List.drop_append, List.drop_eq_nil_of_le, hdata]

/-- **The receiver has the sender's bytes.** -/
theorem image_carried : (p.carried o o').image o' = p.image o := by
  have hrewrite {k n m : ℕ} (hm : 256 ^ k = m) :
      o'.bytes k (o'.number (o.bytes k n) % m) = o.bytes k n := by
    rw [← hm, Nat.mod_eq_of_lt (ByteOrder.number_bytes_lt o o' k n),
      ByteOrder.bytes_number o' (ByteOrder.length_bytes ..)]
  rw [carried_eq]
  simp only [image, UInt32.toNat_ofNat', UInt16.toNat_ofNat']
  rw [hrewrite (by decide), hrewrite (by decide), hrewrite (by decide)]

/-- With the checksum zeroed on both sides, too. -/
theorem carried_zeroed : ({ p.carried o o' with checksum := 0 } : Packet)
    = ({ p with checksum := 0 } : Packet).carried o o' := by
  have h0 : o'.number (o.bytes 2 (0 : UInt16).toNat) = 0 := ByteOrder.number_bytes_zero
  rw [carried_eq, carried_eq]
  simp only [h0]
  rfl

end Packet

/-! ## 2. The checksum on two hosts -/

variable {o o' : ByteOrder}

/-- `in_cksum` over these bytes, in the words of the host. -/
def nativeCksum (o : ByteOrder) (l : List UInt8) : UInt16 :=
  UInt16.ofNat (2 ^ 16 - 1 - addCarries (addCarries (o.wordSum l)))

/-- Behind two rounds no carry is left, the sum is the same modulo 65535, and it is zero only if it
was. -/
theorem addCarries_twice {n : ℕ} (hn : n < 2 ^ 32) :
    addCarries (addCarries n) ≤ 65535 ∧ addCarries (addCarries n) % 65535 = n % 65535 ∧
      (addCarries (addCarries n) = 0 ↔ n = 0) := by
  refine ⟨addCarries_le hn, ?_, ?_⟩
  · rw [addCarries_mod, addCarries_mod]
  · unfold addCarries
    omega

/-- **The checksums of two hosts** are each other's with the bytes exchanged. -/
theorem nativeCksum_swap (h : o ≠ o') {l : List UInt8} (hlen : l.length ≤ 65536) :
    nativeCksum o' l = UInt16.ofNat (o'.number (o.bytes 2 (nativeCksum o l).toNat)) := by
  have hle := ByteOrder.wordSum_le o l
  have hle' := ByteOrder.wordSum_le o' l
  have hmod := ByteOrder.wordSum_swap h l
  have hzero : o'.wordSum l = 0 ↔ o.wordSum l = 0 := ByteOrder.wordSum_eq_zero l
  obtain ⟨hy, hym, hy0⟩ := addCarries_twice (n := o.wordSum l) (by omega)
  obtain ⟨hy', hym', hy0'⟩ := addCarries_twice (n := o'.wordSum l) (by omega)
  unfold nativeCksum
  generalize addCarries (addCarries (o.wordSum l)) = y at *
  generalize addCarries (addCarries (o'.wordSum l)) = y' at *
  rw [UInt16.toNat_ofNat', Nat.mod_eq_of_lt (by omega : 2 ^ 16 - 1 - y < 2 ^ 16),
    ByteOrder.number_bytes_two h (by omega)]
  congr 1
  omega

/-- A host of this byte order, with `in_cksum` as the Internet checksum. -/
def Host.Native (host : Host) (o : ByteOrder) : Prop :=
  ∀ p, host.inCksum p = nativeCksum o (p.image o)

/-- **The checksum test is the same on every host.** -/
theorem carried_ok {sender receiver : Host} (hs : sender.Native o) (hr : receiver.Native o')
    {p : Packet} (hok : @Packet.ok sender p = true) :
    @Packet.ok receiver (p.carried o o') = true := by
  have hck : nativeCksum o (({ p with checksum := 0 } : Packet).image o) = p.checksum := by
    rw [← hs]
    exact beq_iff_eq.mp hok
  refine beq_iff_eq.mpr ?_
  rw [hr, Packet.carried_zeroed, Packet.image_carried, Packet.carried_eq]
  dsimp only
  rw [← hck]
  by_cases h : o = o'
  · subst h
    have hlt := (nativeCksum o (({ p with checksum := 0 } : Packet).image o)).toNat_lt
    rw [ByteOrder.number_bytes o hlt, UInt16.ofNat_toNat]
  · exact nativeCksum_swap h (by rw [Packet.length_image]; decide)

/-! ## 3. What the receiver reads -/

/-- **The receiver accepts the packet and reads in it what the sender put in.** -/
structure Understood (receiver : Host) (o o' : ByteOrder) (p : Packet) : Prop where
  accepted : @Packet.ok receiver (p.carried o o') = true
  type : (p.carried o o').type = p.type
  sequence : (p.carried o o').sequence = p.sequence
  size : (p.carried o o').size = p.size

/-- Between hosts that do not agree, the numbers have to read the same from both ends. -/
theorem understood_iff {sender receiver : Host} (hs : sender.Native o) (hr : receiver.Native o')
    {p : Packet} (hok : @Packet.ok sender p = true) :
    Understood receiver o o' p ↔
      o = o' ∨ (o.bytes 4 p.sequence.toNat).Palindrome ∧ (o.bytes 2 p.size.toNat).Palindrome := by
  have hseq := p.sequence.toNat_lt
  have hsize := p.size.toNat_lt
  have hnum4 : o'.number (o.bytes 4 p.sequence.toNat) < 2 ^ 32 := ByteOrder.number_bytes_lt ..
  have hnum2 : o'.number (o.bytes 2 p.size.toNat) < 2 ^ 16 := ByteOrder.number_bytes_lt ..
  have h4 : UInt32.ofNat (o'.number (o.bytes 4 p.sequence.toNat)) = p.sequence ↔
      o'.number (o.bytes 4 p.sequence.toNat) = p.sequence.toNat := by
    rw [← UInt32.toNat_inj, UInt32.toNat_ofNat', Nat.mod_eq_of_lt hnum4]
  have h2 : UInt16.ofNat (o'.number (o.bytes 2 p.size.toNat)) = p.size ↔
      o'.number (o.bytes 2 p.size.toNat) = p.size.toNat := by
    rw [← UInt16.toNat_inj, UInt16.toNat_ofNat', Nat.mod_eq_of_lt hnum2]
  have hiff : Understood receiver o o' p ↔
      o'.number (o.bytes 4 p.sequence.toNat) = p.sequence.toNat ∧
        o'.number (o.bytes 2 p.size.toNat) = p.size.toNat := by
    rw [← h4, ← h2]
    constructor
    · rintro ⟨-, -, hn, hz⟩
      rw [Packet.carried_eq] at hn hz
      exact ⟨hn, hz⟩
    · rintro ⟨hn, hz⟩
      refine ⟨carried_ok hs hr hok, ?_, ?_, ?_⟩ <;> rw [Packet.carried_eq]
      · exact hn
      · exact hz
  rw [hiff]
  by_cases h : o = o'
  · subst h
    exact iff_of_true ⟨ByteOrder.number_bytes o hseq, ByteOrder.number_bytes o hsize⟩ (.inl rfl)
  · rw [ByteOrder.number_bytes_iff h hseq, ByteOrder.number_bytes_iff h hsize]
    exact (or_iff_right h).symm

/-- Two equal bytes read the same from both ends. -/
theorem memset_palindrome {b : UInt8} : (o.bytes 2 (memset b).size.toNat).Palindrome := by
  rw [List.Palindrome.iff_reverse_eq]
  have hb := b.toNat_lt
  have hsize : (memset b).size.toNat = b.toNat + 256 * b.toNat := by
    have hword : (0x0101 : UInt16).toNat = 257 := rfl
    simp only [memset, UInt16.toNat_mul, UInt8.toNat_toUInt16, hword]
    omega
  have h0 : (b.toNat + 256 * b.toNat).toUInt8 = b := by
    rw [← UInt8.toNat_inj]
    simp only [Nat.toUInt8, UInt8.toNat_ofNat']
    omega
  have h1 : ((b.toNat + 256 * b.toNat) / 256).toUInt8 = b := by
    rw [Nat.add_mul_div_left _ _ (by decide), Nat.div_eq_of_lt hb, Nat.zero_add]
    exact UInt8.ofNat_toNat
  rw [hsize]
  cases o <;> simp [ByteOrder.bytes, List.range_succ, h0, h1]

/-- **The numbers of a packet and the byte order.**  Between hosts of the same order every packet
is understood.  Between others the checksum test is passed, and the type and the data are right;
but a reply is understood exactly if the bytes of its number are a palindrome, a data packet if
those of its size are, too, and of the five packets of the handshake only the first is. -/
theorem byte_order_iff {sender receiver : Host} {o o' : ByteOrder} (hs : sender.Native o)
    (hr : receiver.Native o') :
    (∀ p, @Packet.ok sender p = true → @Packet.ok receiver (p.carried o o') = true ∧
      (p.carried o o').type = p.type ∧ (p.carried o o').data = p.data) ∧
    (∀ n, Understood receiver o o' (@rrpkt sender n) ↔
      o = o' ∨ (o.bytes 4 n.toNat).Palindrome) ∧
    (∀ n, Understood receiver o o' (@rejpkt sender n) ↔
      o = o' ∨ (o.bytes 4 n.toNat).Palindrome) ∧
    (∀ s : Server, Understood receiver o o' (@Server.nextPacket sender s) ↔
      o = o' ∨ (o.bytes 4 s.mvSequence.toNat).Palindrome ∧
        (o.bytes 2 (UInt16.ofNat (s.mvFrom.ahead s.mvBufferSize.toNat).length).toNat).Palindrome) ∧
    (∀ (c : Client) (i : Int), 0 ≤ i → i < 5 →
      (Understood receiver o o' (@Client.pkt sender c i) ↔ o = o' ∨ i = 0)) := by
  refine ⟨?_, ?_, ?_, ?_, ?_⟩
  · intro p hok
    refine ⟨carried_ok hs hr hok, ?_, ?_⟩ <;> rw [Packet.carried_eq]
  · intro n
    have hsize : (@rrpkt sender n).size = (memset pktTypeRR).size := rfl
    rw [understood_iff hs hr (@rrpkt_ok sender n), hsize]
    exact or_congr_right (and_iff_left memset_palindrome)
  · intro n
    have hsize : (@rejpkt sender n).size = (memset pktTypeREJ).size := rfl
    rw [understood_iff hs hr (@rejpkt_ok sender n), hsize]
    exact or_congr_right (and_iff_left memset_palindrome)
  · intro s
    exact understood_iff hs hr (@datpkt_ok sender _ _)
  · intro c i h0 h5
    rw [understood_iff hs hr (@Client.pkt_ok sender c i h0 h5)]
    refine or_congr_right ?_
    have hseq := @Client.pkt_sequence sender c i h0 h5
    constructor
    · rintro ⟨hp, -⟩
      by_contra hi
      rw [List.Palindrome.iff_reverse_eq] at hp
      generalize (@Client.pkt sender c i).sequence.toNat = n at hp hseq
      obtain rfl | rfl | rfl | rfl : n = 1 ∨ n = 2 ∨ n = 3 ∨ n = 4 := by omega
      all_goals
        revert hp
        cases o <;> decide
    · rintro rfl
      have h0 : (@Client.pkt sender c 0).sequence.toNat = 0 := by omega
      have hsize : (@Client.pkt sender c 0).size = (memset pktTypeCXN).size := rfl
      rw [h0, hsize]
      refine ⟨?_, memset_palindrome⟩
      rw [List.Palindrome.iff_reverse_eq]
      cases o <;> rfl

/-! ## 4. The builder next to them -/

/-- `htonl` on a little-endian host gives what a big-endian one reads in the same bytes. -/
theorem htonl_eq (x : UInt32) :
    StopWait.htonl x =
      UInt32.ofNat (ByteOrder.big.number (ByteOrder.little.bytes 4 x.toNat)) := by
  have hx := x.toNat_lt
  have hlt : ByteOrder.big.number (ByteOrder.little.bytes 4 x.toNat) < 2 ^ 32 :=
    ByteOrder.number_bytes_lt ..
  rw [← UInt32.toNat_inj, StopWait.toNat_htonl, UInt32.toNat_ofNat', Nat.mod_eq_of_lt hlt]
  simp only [ByteOrder.number, ByteOrder.bytes, List.range_succ, List.range_zero, List.nil_append,
    List.map_cons, List.map_nil, List.cons_append, List.reverse_cons, List.reverse_nil,
    Nat.ofDigits_cons, Nat.ofDigits_nil, Nat.toUInt8, UInt8.toNat_ofNat', Nat.reducePow,
    Nat.div_one]
  omega

/-- **The number of a `retransmitpkt`** is read right on both hosts: on the big-endian one `ntohl`
changes nothing. -/
theorem retransmitpkt_carried {sender : Host} (n : UInt32) :
    StopWait.ntohl ((@StopWait.retransmitpkt sender n).carried .little .little).sequence = n ∧
      ((@StopWait.retransmitpkt sender n).carried .little .big).sequence = n := by
  have hseq : (@StopWait.retransmitpkt sender n).sequence = StopWait.htonl n := rfl
  have hlt := (StopWait.htonl n).toNat_lt
  rw [Packet.carried_eq, Packet.carried_eq]
  dsimp only
  rw [hseq]
  refine ⟨?_, ?_⟩
  · rw [ByteOrder.number_bytes .little hlt, UInt32.ofNat_toNat, StopWait.ntohl_htonl]
  · rw [← htonl_eq]
    exact StopWait.ntohl_htonl n

end Fileserver

namespace Fileserver

open Proto

/-- A host of this byte order, and one file. -/
@[reducible] def hostOf (o : ByteOrder) : Host :=
  { refHost [] with inCksum := fun p => nativeCksum o (p.image o) }

/-- **An `RR` for packet 1** from a little-endian host is one for packet 2^24 on a big-endian
host. -/
theorem not_byte_order :
    ¬ ∀ (sender receiver : Host) (o o' : ByteOrder), sender.Native o → receiver.Native o' →
      ∀ n, Understood receiver o o' (@rrpkt sender n) := by
  intro hall
  have h := (hall (hostOf .little) (hostOf .big) .little .big (fun _ => rfl) (fun _ => rfl)
    1).sequence
  rw [Packet.carried_eq] at h
  exact absurd h (by decide)

/-- An `RR` for packet 0 is one everywhere. -/
theorem byte_order_zero : Understood (hostOf .big) .little .big (@rrpkt (hostOf .little) 0) :=
  ((byte_order_iff (fun _ => rfl) (fun _ => rfl)).2.1 0).mpr
    (.inr (List.Palindrome.iff_reverse_eq.mpr (by decide)))

end Fileserver
