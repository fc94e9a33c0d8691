/-
# Two neighbouring bytes

One damaged byte never gets past the checksum.  Two neighbours do, and not only on paper.  The
sum is known modulo 65535, in which a word of ones counts for as much as a word of zeros, so two
neighbours may both change from 0 to 255, or back.  And `struct packet` is packed, with one byte
in front of its numbers, so the checksum stands across two words: its first byte counts for as
much as the last byte of the number in front of it, its second for as much as the first byte of
the size behind it.  What is added to the one may be taken from the other.

This is all.  Whatever the byte orders of the two hosts, every other change of two neighbouring
bytes of a packet the programs build is found.
-/
import Fileserver.Endian

namespace Fileserver

open Proto

/-! ## 1. Datagrams and packets -/

namespace Packet

variable {o : ByteOrder} {l : List UInt8}

/-- A host that has read a packet has its bytes. -/
theorem image_read (h : l.length = 1409) : (read o l).image o = l := by
  have hnum (i k : ℕ) (hk : i + k ≤ 1409) {m : ℕ} (hm : 256 ^ k = m) :
      o.bytes k (o.number ((l.drop i).take k) % m) = (l.drop i).take k := by
    have hlen : ((l.drop i).take k).length = k := by
      rw [List.length_take, List.length_drop]
      omega
    have hlt := o.number_lt ((l.drop i).take k)
    rw [hlen, hm] at hlt
    rw [Nat.mod_eq_of_lt hlt, o.bytes_number hlen]
  have hdata : (dataOf (l.drop 9)).toList = l.drop 9 := by
    have hlen : (l.drop 9).length = pktDMax := by
      rw [List.length_drop, h]
      rfl
    have htake := take_dataOf hlen.le
    rwa [List.take_of_length_le (by rw [Vector.length_toList, hlen])] at htake
  obtain ⟨a, r, rfl⟩ := List.exists_cons_of_length_pos (by omega : 0 < l.length)
  simp only [image, read, UInt32.toNat_ofNat', UInt16.toNat_ofNat']
  rw [hnum 1 4 (by decide) (by decide), hnum 5 2 (by decide) (by decide),
    hnum 7 2 (by decide) (by decide), hdata]
  simp only [List.headD_cons, List.drop_succ_cons, List.drop_zero]
  rw [← List.drop_drop (i := 2) (j := 6), ← List.drop_drop (i := 2) (j := 4),
    List.take_append_drop, List.take_append_drop, List.take_append_drop]

/-- The bytes of a datagram while the sum is taken. -/
def blank (l : List UInt8) : List UInt8 := (l.set 5 0).set 6 0

theorem length_blank (l : List UInt8) : (blank l).length = l.length := by simp [blank]

theorem image_zeroed (o : ByteOrder) (p : Packet) :
    ({ p with checksum := 0 } : Packet).image o = blank (p.image o) := by
  obtain ⟨a, b, hab⟩ : ∃ a b, o.bytes 2 p.checksum.toNat = [a, b] := by
    have h := o.length_bytes 2 p.checksum.toNat
    exact List.length_eq_two.mp h
  obtain ⟨s, t, u, v, hs⟩ : ∃ s t u v, o.bytes 4 p.sequence.toNat = [s, t, u, v] := by
    have h := o.length_bytes 4 p.sequence.toNat
    match o.bytes 4 p.sequence.toNat, h with
    | [s, t, u, v], _ => exact ⟨s, t, u, v, rfl⟩
  have h0 : o.bytes 2 0 = [0, 0] := by cases o <;> rfl
  simp [image, blank, hab, hs, h0]

/-! ## 2. What the checksum compares -/

/-- The checksum in these bytes, as a number. -/
def field (o : ByteOrder) (l : List UInt8) : ℕ := o.number ((l.drop 5).take 2)

/-- What a byte counts for in the sum, or in the checksum if it is one of the two. -/
def share (o : ByteOrder) (k : ℕ) : ℕ :=
  if k = 5 then o.weight 4 else if k = 6 then o.weight 7 else o.weight k

theorem field_eq (o : ByteOrder) (h5 : 5 < l.length) (h6 : 6 < l.length) :
    field o l = o.weight 4 * l[5].toNat + o.weight 7 * l[6].toNat := by
  have hpair : (l.drop 5).take 2 = [l[5], l[6]] := by
    rw [List.drop_eq_getElem_cons h5, List.drop_eq_getElem_cons h6]
    rfl
  rw [field, hpair]
  cases o with
  | little => simp [ByteOrder.weight]
  | big =>
    simp [ByteOrder.weight]
    omega

/-- **A changed byte moves sum and checksum** together by what it counts for. -/
theorem total_set (o : ByteOrder) (hl : l.length = 1409) {k : ℕ} (hk : k < l.length) (b : UInt8) :
    o.wordSum (blank (l.set k b)) + field o (l.set k b) + share o k * l[k].toNat =
      o.wordSum (blank l) + field o l + share o k * b.toNat := by
  have h5 : 5 < (l.set k b).length := by simp [hl]
  have h6 : 6 < (l.set k b).length := by simp [hl]
  rw [field_eq o h5 h6, field_eq o (by omega : 5 < l.length) (by omega : 6 < l.length)]
  by_cases hk5 : k = 5
  · subst hk5
    have hblank : blank (l.set 5 b) = blank l := by simp [blank]
    simp [hblank, share]
    omega
  by_cases hk6 : k = 6
  · subst hk6
    have hblank : blank (l.set 6 b) = blank l := by
      rw [blank, List.set_comm _ _ (by decide), List.set_set, List.set_comm _ _ (by decide)]
      rfl
    simp [hblank, share]
    omega
  have hblank : blank (l.set k b) = (blank l).set k b := by
    rw [blank, blank, List.set_comm _ _ hk5, List.set_comm _ _ hk6]
  have hkb : k < (blank l).length := by rwa [length_blank]
  have hget : (blank l)[k] = l[k] := by
    simp [blank, List.getElem_set_ne (Ne.symm hk5), List.getElem_set_ne (Ne.symm hk6)]
  have hset := o.wordSum_set (blank l) k hkb b
  rw [hblank, share, if_neg hk5, if_neg hk6, List.getElem_set_ne hk5, List.getElem_set_ne hk6]
  rw [hget] at hset
  omega

end Packet

variable {o o' : ByteOrder} {l : List UInt8}

/-- **What a host accepts**: sum and checksum are zero together modulo 65535, and the checksum is
all ones exactly over zeros. -/
theorem ok_read_iff {host : Host} (h : host.Native o) (hl : l.length = 1409) :
    @Packet.ok host (Packet.read o l) = true ↔
      (o.wordSum (Packet.blank l) + Packet.field o l) % 65535 = 0 ∧
        (o.wordSum (Packet.blank l) = 0 ↔ Packet.field o l = 65535) := by
  have hsum := ByteOrder.wordSum_le o (Packet.blank l)
  rw [Packet.length_blank, hl] at hsum
  obtain ⟨hle, hmod, hzero⟩ := addCarries_twice (n := o.wordSum (Packet.blank l)) (by omega)
  have hfield : Packet.field o l < 2 ^ 16 := by
    have hlt := o.number_lt ((l.drop 5).take 2)
    have hlen : ((l.drop 5).take 2).length = 2 := by
      rw [List.length_take, List.length_drop]
      omega
    rwa [hlen] at hlt
  have hck : host.inCksum { Packet.read o l with checksum := 0 } =
      nativeCksum o (Packet.blank l) := by
    rw [h, Packet.image_zeroed, Packet.image_read hl]
  have hstored : (Packet.read o l).checksum = UInt16.ofNat (Packet.field o l) := rfl
  rw [Packet.ok, beq_iff_eq, hck, hstored, nativeCksum, ← UInt16.toNat_inj, UInt16.toNat_ofNat',
    UInt16.toNat_ofNat', Nat.mod_eq_of_lt (by omega : 2 ^ 16 - 1 - _ < 2 ^ 16),
    Nat.mod_eq_of_lt hfield, ← hzero]
  omega

/-! ## 3. Two neighbours -/

/-- **The changes that are not seen**, of two neighbouring bytes `x` and `y` into `a` and `b`: none
at all; away from the checksum, both from zeros to ones or back; or as much taken from a byte of the
checksum as is added to its neighbour. -/
inductive Unseen (l : List UInt8) (x y a b : UInt8) : ℕ → Prop
  | same {k : ℕ} (hx : a = x) (hy : b = y) : Unseen l x y a b k
  | ones {k : ℕ} (hk : k < 4 ∨ 6 < k) (hx : x = 0 ∧ a = 255) (hy : y = 0 ∧ b = 255) :
      Unseen l x y a b k
  | zeros {k : ℕ} (hk : k < 4 ∨ 6 < k) (hx : x = 255 ∧ a = 0) (hy : y = 255 ∧ b = 0) :
      Unseen l x y a b k
  | front (h : a.toNat + b.toNat = x.toNat + y.toNat) (hck : ¬ (b = 255 ∧ l[6]? = some 255)) :
      Unseen l x y a b 4
  | back (h : a.toNat + b.toNat = x.toNat + y.toNat) (hck : ¬ (a = 255 ∧ l[5]? = some 255)) :
      Unseen l x y a b 6

/-- A packet the programs build begins with a type, and with no number of ones. -/
theorem Built.front [Host] {p : Packet} (h : Built p) :
    p.type ≠ 0 ∧ (p.type = 255 → p.sequence = 0) := by
  have hother {q : Packet} {u : UInt8} (hq : q.type = u) (h0 : u ≠ 0) (h1 : u ≠ 255) :
      q.type ≠ 0 ∧ (q.type = 255 → q.sequence = 0) :=
    ⟨hq ▸ h0, fun h => absurd (hq.symm.trans h) h1⟩
  cases h with
  | rr n => exact hother (rrpkt_type n) (by decide) (by decide)
  | rej n => exact hother (rejpkt_type n) (by decide) (by decide)
  | dat s => exact hother (datpkt_type _ _) (by decide) (by decide)
  | announce n sock => exact hother (Parent.announce_type n sock) (by decide) (by decide)
  | handshake c h0 h5 =>
    rename_i i
    obtain rfl | rfl | rfl | rfl | rfl : i = 0 ∨ i = 1 ∨ i = 2 ∨ i = 3 ∨ i = 4 := by omega
    · exact ⟨by simp [Client.pkt, memset, pktTypeCXN], fun _ => rfl⟩
    all_goals
      simp [Client.pkt, memset, pktTypeCXN2, pktTypeBUF, pktTypeWIN, pktTypeFLN]

/-- Bytes that count for 1 and for 256: only zeros and ones may change places. -/
theorem apart_iff {w v s t : ℕ} {x y a b : UInt8} (hw : w = 1 ∧ v = 256 ∨ w = 256 ∧ v = 1)
    (hs : s % 65535 = 0)
    (ht : t + w * x.toNat + v * y.toNat = s + w * a.toNat + v * b.toNat) :
    t % 65535 = 0 ↔ a = x ∧ b = y ∨ (x = 0 ∧ a = 255) ∧ y = 0 ∧ b = 255 ∨
      (x = 255 ∧ a = 0) ∧ y = 255 ∧ b = 0 := by
  have hpart {u v u' v' : ℕ} (hu : u < 256) (hv : v < 256) (hu' : u' < 256) (hv' : v' < 256)
      (ht : t + u + 256 * v = s + u' + 256 * v') :
      t % 65535 = 0 ↔ u' = u ∧ v' = v ∨ (u = 0 ∧ u' = 255) ∧ v = 0 ∧ v' = 255 ∨
        (u = 255 ∧ u' = 0) ∧ v = 255 ∧ v' = 0 := by
    constructor
    · intro h
      obtain hq | hq | hq : t / 65535 = s / 65535 ∨ t / 65535 = s / 65535 + 1 ∨
          t / 65535 + 1 = s / 65535 := by omega
      · exact .inl (by omega)
      · exact .inr (.inl (by omega))
      · exact .inr (.inr (by omega))
    · omega
  have h255 : (255 : UInt8).toNat = 255 := rfl
  have h0 : (0 : UInt8).toNat = 0 := rfl
  simp only [← UInt8.toNat_inj, h255, h0]
  rcases hw with ⟨rfl, rfl⟩ | ⟨rfl, rfl⟩
  · exact hpart x.toNat_lt y.toNat_lt a.toNat_lt b.toNat_lt (by omega)
  · rw [hpart y.toNat_lt x.toNat_lt b.toNat_lt a.toNat_lt (by omega)]
    tauto

/-- Bytes that count for the same: what is added to the one is taken from the other. -/
theorem traded_iff {w s t : ℕ} {x y a b : UInt8} (hw : w = 1 ∨ w = 256) (hs : s % 65535 = 0)
    (ht : t + w * x.toNat + w * y.toNat = s + w * a.toNat + w * b.toNat) :
    t % 65535 = 0 ↔ a.toNat + b.toNat = x.toNat + y.toNat := by
  have hx := x.toNat_lt
  have hy := y.toNat_lt
  have ha := a.toNat_lt
  have hb := b.toNat_lt
  rcases hw with rfl | rfl <;> omega

section Changed

variable {sender receiver : Host} {p : Packet} {j k : ℕ} {x y a b : UInt8}

/-- The datagram behind the change. -/
def changed (l : List UInt8) (k : ℕ) (a b : UInt8) : List UInt8 := (l.set k a).set (k + 1) b

theorem total_changed (o : ByteOrder) (hl : l.length = 1409) (hx : l[k]? = some x)
    (hy : l[k + 1]? = some y) (a b : UInt8) :
    o.wordSum (Packet.blank (changed l k a b)) + Packet.field o (changed l k a b) +
        Packet.share o k * x.toNat + Packet.share o (k + 1) * y.toNat =
      o.wordSum (Packet.blank l) + Packet.field o l +
        Packet.share o k * a.toNat + Packet.share o (k + 1) * b.toNat := by
  obtain ⟨hk, rfl⟩ := List.getElem?_eq_some_iff.mp hx
  obtain ⟨hk1, rfl⟩ := List.getElem?_eq_some_iff.mp hy
  have h1 := Packet.total_set o hl hk a
  have h2 := Packet.total_set o (l := l.set k a) (by simpa using hl) (by simpa using hk1) b
  rw [List.getElem_set_ne (by omega)] at h2
  unfold changed
  omega

theorem length_changed (l : List UInt8) (k : ℕ) (a b : UInt8) :
    (changed l k a b).length = l.length := by simp [changed]

theorem wordSum_blank_pos (o : ByteOrder) (h : l[0]? = some x) (hx : x ≠ 0) :
    0 < o.wordSum (Packet.blank l) := by
  obtain ⟨hlen, rfl⟩ := List.getElem?_eq_some_iff.mp h
  have h0 : 0 < (Packet.blank l).length := by rwa [Packet.length_blank]
  have hget : (Packet.blank l)[0] = l[0] := by simp [Packet.blank]
  have hle := o.le_wordSum h0
  rw [hget] at hle
  have hpos : 0 < l[0].toNat := Nat.pos_of_ne_zero fun he => hx (UInt8.toNat_inj.mp he)
  rcases o.weight_cases 0 with ⟨hw, -⟩ | ⟨hw, -⟩ <;> rw [hw] at hle <;> omega

/-- The weights of the two bytes of the checksum. -/
theorem field_weights (o : ByteOrder) :
    o.weight 4 = 1 ∧ o.weight 7 = 256 ∨ o.weight 4 = 256 ∧ o.weight 7 = 1 := by
  cases o <;> simp [ByteOrder.weight]

/-- A checksum of ones. -/
theorem field_ones (o : ByteOrder) (h5 : l[5]? = some x) (h6 : l[6]? = some y) :
    Packet.field o l = 65535 ↔ x = 255 ∧ y = 255 := by
  obtain ⟨hl5, rfl⟩ := List.getElem?_eq_some_iff.mp h5
  obtain ⟨hl6, rfl⟩ := List.getElem?_eq_some_iff.mp h6
  have hx := l[5].toNat_lt
  have hy := l[6].toNat_lt
  have h255 : (255 : UInt8).toNat = 255 := rfl
  rw [Packet.field_eq o hl5 hl6, ← UInt8.toNat_inj, ← UInt8.toNat_inj, h255]
  rcases field_weights o with ⟨hw, hv⟩ | ⟨hw, hv⟩ <;> rw [hw, hv] <;> omega

/-- A packet as it was sent, in the bytes the receiver would get. -/
structure Intact (o : ByteOrder) (l : List UInt8) : Prop where
  length : l.length = 1409
  total : (o.wordSum (Packet.blank l) + Packet.field o l) % 65535 = 0
  field : Packet.field o l ≠ 65535
  type : ∃ x, l[0]? = some x ∧ x ≠ 0 ∧ (x = 255 → l[1]? = some 0)

theorem Built.intact (hs : sender.Native o) (hr : receiver.Native o') (hp : @Built sender p) :
    Intact o' (p.image o) := by
  obtain ⟨h0, h255⟩ := @Built.front sender p hp
  have hl := p.length_image o
  have htype : (p.image o)[0]? = some p.type := rfl
  obtain ⟨hT, hS⟩ := (ok_read_iff hr hl).mp (carried_ok hs hr (@Built.ok sender p hp))
  have hpos := wordSum_blank_pos o' htype h0
  refine ⟨hl, hT, fun hf => by omega, p.type, htype, h0, ?_⟩
  intro h
  have hseq := h255 h
  cases o <;> simp [Packet.image, hseq, ByteOrder.bytes, List.range_succ]

/-- What is left to compare behind a change that leaves a type. -/
theorem Intact.ok_iff (hr : receiver.Native o') (h : Intact o' l)
    (h0 : (changed l k a b)[0]? = some x) (hx : x ≠ 0) :
    @Packet.ok receiver (Packet.read o' (changed l k a b)) = true ↔
      (o'.wordSum (Packet.blank (changed l k a b)) +
          Packet.field o' (changed l k a b)) % 65535 = 0 ∧
        Packet.field o' (changed l k a b) ≠ 65535 := by
  have hpos := wordSum_blank_pos o' h0 hx
  rw [ok_read_iff hr (by rw [length_changed, h.length])]
  refine and_congr_right fun _ => ?_
  constructor
  · intro hiff hf
    omega
  · intro hf
    exact ⟨fun h => by omega, fun h => absurd h hf⟩

theorem getElem?_changed (hj : j ≠ k) (hj1 : j ≠ k + 1) (l : List UInt8) (a b : UInt8) :
    (changed l k a b)[j]? = l[j]? := by
  rw [changed, List.getElem?_set_ne (Ne.symm hj1), List.getElem?_set_ne (Ne.symm hj)]

theorem getElem?_changed_self (hl : k < l.length) : (changed l k a b)[k]? = some a := by
  rw [changed, List.getElem?_set_ne (by omega), List.getElem?_set_self hl]

theorem getElem?_changed_next (hl : k + 1 < l.length) :
    (changed l k a b)[k + 1]? = some b := by
  rw [changed, List.getElem?_set_self (by simpa using hl)]

theorem Intact.getElem? (h : Intact o l) (hj : j < 1409) : ∃ z, l[j]? = some z :=
  ⟨_, List.getElem?_eq_getElem (by rw [h.length]; exact hj)⟩

/-- Where the first byte stays, a packet still begins with a type. -/
theorem Intact.first (h : Intact o l) (hk : k ≠ 0) (a b : UInt8) :
    ∃ z, (changed l k a b)[0]? = some z ∧ z ≠ 0 := by
  obtain ⟨z, hz, hne, -⟩ := h.type
  exact ⟨z, by rw [getElem?_changed (Ne.symm hk) (by omega), hz], hne⟩

/-- Away from the checksum. -/
theorem Intact.apart (hr : receiver.Native o') (h : Intact o' l) (hk : k < 4 ∨ 6 < k)
    (hx : l[k]? = some x) (hy : l[k + 1]? = some y) :
    @Packet.ok receiver (Packet.read o' (changed l k a b)) = true ↔
      a = x ∧ b = y ∨ (x = 0 ∧ a = 255) ∧ y = 0 ∧ b = 255 ∨
        (x = 255 ∧ a = 0) ∧ y = 255 ∧ b = 0 := by
  obtain ⟨hlk, -⟩ := List.getElem?_eq_some_iff.mp hx
  have htot := total_changed o' h.length hx hy a b
  have hshare : Packet.share o' k = o'.weight k ∧
      Packet.share o' (k + 1) = o'.weight (k + 1) := by
    refine ⟨?_, ?_⟩ <;> rw [Packet.share, if_neg (by omega), if_neg (by omega)]
  rw [hshare.1, hshare.2] at htot
  have hiff := apart_iff (o'.weight_cases k) h.total htot
  constructor
  · intro hok
    exact hiff.mp ((ok_read_iff hr (by rw [length_changed, h.length])).mp hok).1
  · intro hpat
    obtain ⟨u, hu⟩ := h.getElem? (by decide : 5 < 1409)
    obtain ⟨v, hv⟩ := h.getElem? (by decide : 6 < 1409)
    have hfirst : ∃ z, (changed l k a b)[0]? = some z ∧ z ≠ 0 := by
      by_cases hk0 : k = 0
      · subst hk0
        obtain ⟨z, hz, hne, hones⟩ := h.type
        obtain rfl : z = x := Option.some.inj (hz.symm.trans hx)
        refine ⟨a, getElem?_changed_self hlk, ?_⟩
        rcases hpat with ⟨rfl, -⟩ | ⟨⟨rfl, -⟩, -⟩ | ⟨⟨rfl, -⟩, rfl, -⟩
        · exact hne
        · exact absurd rfl hne
        · exact absurd (Option.some.inj ((hones rfl).symm.trans hy)) (by decide)
      · exact h.first hk0 a b
    obtain ⟨z, hz, hne⟩ := hfirst
    rw [h.ok_iff hr hz hne]
    refine ⟨hiff.mpr hpat, ?_⟩
    rw [Ne, field_ones o' (by rw [getElem?_changed (by omega) (by omega), hu])
      (by rw [getElem?_changed (by omega) (by omega), hv]), ← field_ones o' hu hv]
    exact h.field

/-- The two bytes of the checksum. -/
theorem Intact.inside (hr : receiver.Native o') (h : Intact o' l) (hx : l[5]? = some x)
    (hy : l[6]? = some y) :
    @Packet.ok receiver (Packet.read o' (changed l 5 a b)) = true ↔ a = x ∧ b = y := by
  have htot := total_changed o' h.length hx hy a b
  have hshare : Packet.share o' 5 = o'.weight 4 ∧ Packet.share o' (5 + 1) = o'.weight 7 :=
    ⟨rfl, rfl⟩
  rw [hshare.1, hshare.2] at htot
  have hiff := apart_iff (field_weights o') h.total htot
  have hlen := h.length
  obtain ⟨z, hz, hne⟩ := h.first (by decide : 5 ≠ 0) a b
  have hfield := field_ones o' hx hy
  have hfield' : Packet.field o' (changed l 5 a b) = 65535 ↔ a = 255 ∧ b = 255 :=
    field_ones o' (getElem?_changed_self (by omega)) (getElem?_changed_next (by omega))
  rw [h.ok_iff hr hz hne, hiff, Ne, hfield']
  constructor
  · rintro ⟨hsame | ⟨⟨-, ha⟩, -, hb⟩ | ⟨⟨hx', -⟩, hy', -⟩, hones⟩
    · exact hsame
    · exact absurd ⟨ha, hb⟩ hones
    · exact absurd (hfield.mpr ⟨hx', hy'⟩) h.field
  · rintro ⟨rfl, rfl⟩
    exact ⟨.inl ⟨rfl, rfl⟩, fun hones => h.field (hfield.mpr hones)⟩

/-- The byte in front of the checksum and its first byte. -/
theorem Intact.front (hr : receiver.Native o') (h : Intact o' l) (hx : l[4]? = some x)
    (hy : l[5]? = some y) :
    @Packet.ok receiver (Packet.read o' (changed l 4 a b)) = true ↔
      a.toNat + b.toNat = x.toNat + y.toNat ∧ ¬ (b = 255 ∧ l[6]? = some 255) := by
  have htot := total_changed o' h.length hx hy a b
  have hshare : Packet.share o' 4 = o'.weight 4 ∧ Packet.share o' (4 + 1) = o'.weight 4 :=
    ⟨rfl, rfl⟩
  rw [hshare.1, hshare.2] at htot
  have hw : o'.weight 4 = 1 ∨ o'.weight 4 = 256 := (field_weights o').imp And.left And.left
  have hiff := traded_iff hw h.total htot
  have hlen := h.length
  obtain ⟨z, hz, hne⟩ := h.first (by decide : 4 ≠ 0) a b
  obtain ⟨v, hv⟩ := h.getElem? (by decide : 6 < 1409)
  have hfield : Packet.field o' (changed l 4 a b) = 65535 ↔ b = 255 ∧ v = 255 :=
    field_ones o' (getElem?_changed_next (by omega))
      (by rw [getElem?_changed (by decide) (by decide), hv])
  rw [h.ok_iff hr hz hne, hiff, Ne, hfield, hv, Option.some_inj]

/-- The second byte of the checksum and the one behind it. -/
theorem Intact.back (hr : receiver.Native o') (h : Intact o' l) (hx : l[6]? = some x)
    (hy : l[7]? = some y) :
    @Packet.ok receiver (Packet.read o' (changed l 6 a b)) = true ↔
      a.toNat + b.toNat = x.toNat + y.toNat ∧ ¬ (a = 255 ∧ l[5]? = some 255) := by
  have htot := total_changed o' h.length hx hy a b
  have hshare : Packet.share o' 6 = o'.weight 7 ∧ Packet.share o' (6 + 1) = o'.weight 7 :=
    ⟨rfl, rfl⟩
  rw [hshare.1, hshare.2] at htot
  have hw : o'.weight 7 = 1 ∨ o'.weight 7 = 256 := (field_weights o').symm.imp And.right And.right
  have hiff := traded_iff hw h.total htot
  have hlen := h.length
  obtain ⟨z, hz, hne⟩ := h.first (by decide : 6 ≠ 0) a b
  obtain ⟨u, hu⟩ := h.getElem? (by decide : 5 < 1409)
  have hfield : Packet.field o' (changed l 6 a b) = 65535 ↔ u = 255 ∧ a = 255 :=
    field_ones o' (by rw [getElem?_changed (by decide) (by decide), hu])
      (getElem?_changed_self (by omega))
  rw [h.ok_iff hr hz hne, hiff, Ne, hfield, hu, Option.some_inj, and_comm (a := u = 255)]

theorem Intact.unseen_iff (hr : receiver.Native o') (h : Intact o' l) (hx : l[k]? = some x)
    (hy : l[k + 1]? = some y) :
    @Packet.ok receiver (Packet.read o' (changed l k a b)) = true ↔ Unseen l x y a b k := by
  obtain hk | rfl | rfl | rfl : (k < 4 ∨ 6 < k) ∨ k = 4 ∨ k = 5 ∨ k = 6 := by omega
  · rw [h.apart hr hk hx hy]
    constructor
    · rintro (⟨ha, hb⟩ | ⟨ha, hb⟩ | ⟨ha, hb⟩)
      · exact .same ha hb
      · exact .ones hk ha hb
      · exact .zeros hk ha hb
    · intro hu
      cases hu with
      | same ha hb => exact .inl ⟨ha, hb⟩
      | ones _ ha hb => exact .inr (.inl ⟨ha, hb⟩)
      | zeros _ ha hb => exact .inr (.inr ⟨ha, hb⟩)
      | front => omega
      | back => omega
  · rw [h.front hr hx hy]
    constructor
    · rintro ⟨hsum, hones⟩
      exact .front hsum hones
    · intro hu
      cases hu with
      | same ha hb =>
        refine ⟨by rw [ha, hb], ?_⟩
        rintro ⟨rfl, h6⟩
        exact h.field ((field_ones o' (hb ▸ hy) h6).mpr ⟨rfl, rfl⟩)
      | ones hk => omega
      | zeros hk => omega
      | front hsum hones => exact ⟨hsum, hones⟩
  · rw [h.inside hr hx hy]
    constructor
    · rintro ⟨ha, hb⟩
      exact .same ha hb
    · intro hu
      cases hu with
      | same ha hb => exact ⟨ha, hb⟩
      | ones hk => omega
      | zeros hk => omega
  · rw [h.back hr hx hy]
    constructor
    · rintro ⟨hsum, hones⟩
      exact .back hsum hones
    · intro hu
      cases hu with
      | same ha hb =>
        refine ⟨by rw [ha, hb], ?_⟩
        rintro ⟨rfl, h5⟩
        exact h.field ((field_ones o' h5 (ha ▸ hx)).mpr ⟨rfl, rfl⟩)
      | ones hk => omega
      | zeros hk => omega
      | back hsum hones => exact ⟨hsum, hones⟩

end Changed

/-- **Two damaged neighbours.**  Two neighbouring bytes of a packet the programs build are changed
on its way between hosts of any byte orders.  Both processes return 2 for it, unless the change is
one of those that are not seen: then both take it as it is. -/
theorem neighbours_detected {sender receiver : Host} {o o' : ByteOrder} (hs : sender.Native o)
    (hr : receiver.Native o') (p : Packet) (hp : @Built sender p) (k : ℕ) (x y a b : UInt8)
    (hx : (p.image o)[k]? = some x) (hy : (p.image o)[k + 1]? = some y) :
    let q := Packet.read o' (changed (p.image o) k a b)
    (Unseen (p.image o) x y a b k →
      (∀ (s : Server) (src : Addr),
        (@Server.recvPacket receiver s (.datagram src q)).2 = .packet q) ∧
      ∀ (c : Client) (src : Addr),
        (@Client.recvPacket receiver c (.datagram src q)).2 = .packet q) ∧
    (¬ Unseen (p.image o) x y a b k →
      (∀ (s : Server) (src : Addr),
        (@Server.recvPacket receiver s (.datagram src q)).2 = .again) ∧
      ∀ (c : Client) (src : Addr),
        (@Client.recvPacket receiver c (.datagram src q)).2 = .again) := by
  have hiff := (Built.intact hs hr hp).unseen_iff (a := a) (b := b) hr hx hy
  rw [← hiff]
  refine ⟨?_, ?_⟩
  · intro hok
    exact ⟨fun s src => by simp [Server.recvPacket, hok],
      fun c src => by simp [Client.recvPacket, hok]⟩
  · intro hbad
    exact ⟨fun s src => by simp [Server.recvPacket, hbad],
      fun c src => by simp [Client.recvPacket, hbad]⟩

end Fileserver

namespace Fileserver

open Proto

/-- **A number and a checksum**: in an `RR` for packet 2 between big-endian hosts, one is taken from
the last byte of the number and added to the first of the checksum.  It arrives as one for
packet 1. -/
theorem neighbours_detected_front :
    ∃ q : Packet, q.sequence = 1 ∧ ∀ (s : Server) (src : Addr),
      (@Server.recvPacket (hostOf .big) s (.datagram src q)).2 = .packet q := by
  have hx : ((@rrpkt (hostOf .big) 2).image .big)[4]? = some 2 := by decide +kernel
  have hy : ((@rrpkt (hostOf .big) 2).image .big)[4 + 1]? = some 254 := by decide +kernel
  have h6 : ((@rrpkt (hostOf .big) 2).image .big)[6]? = some 169 := by decide +kernel
  refine ⟨Packet.read .big (changed ((@rrpkt (hostOf .big) 2).image .big) 4 1 255),
    by decide +kernel, ?_⟩
  refine ((neighbours_detected (fun _ => rfl) (fun _ => rfl) _ (@Built.rr (hostOf .big) 2) 4
    2 254 1 255 hx hy).1 (.front (by decide) ?_)).1
  simp [h6]

end Fileserver
