/-
# What a cumulative RR removes

The loop of `waitRR` counts an unsigned index from the front of the window up to the number in
the `RR`, and a packet leaves the front with each count.  Index and numbers wrap at 2^32, the two
comparisons do not know it:

* `front <= s` fails if the numbers wrap between the front and `s`, and the `RR` is ignored;
* `i <= s` never fails for `s = 2^32 - 1`, and only the empty window ends the loop.

`cumulative_iff` shows that these are the only two ways in which an `RR` for a packet of the
window does not remove exactly that packet and those before it.
-/
import Fileserver.Window

namespace Fileserver.Server

/-! ## 1. Numbers modulo 2^32 -/

/-- The numbers of the packets count up from `n` as `mvSequence++` does. -/
def CountsFrom : UInt32 → List Packet → Prop
  | _, [] => True
  | n, p :: w => p.sequence = n ∧ CountsFrom (n + 1) w

theorem ofNat_succ (k : ℕ) : UInt32.ofNat (k + 1) = UInt32.ofNat k + 1 := by
  rw [UInt32.ofNat_add]
  rfl

/-- The packet behind `u` has the number that is `u.length` further on. -/
theorem CountsFrom.sequence {n : UInt32} {u v : List Packet} {p : Packet}
    (h : CountsFrom n (u ++ p :: v)) : p.sequence = n + UInt32.ofNat u.length := by
  induction u generalizing n with
  | nil =>
    have hp : p.sequence = n := h.1
    simpa using hp
  | cons a u ih =>
    rw [ih h.2, List.length_cons, ofNat_succ, UInt32.add_assoc, UInt32.add_comm 1]

/-- The front does not come behind it in raw numbers exactly if there is no wrap in between. -/
theorem le_add_iff {n : UInt32} {k : ℕ} (hk : k < 2 ^ 32) :
    n ≤ n + UInt32.ofNat k ↔ n.toNat + k < 2 ^ 32 := by
  have hn := n.toNat_lt
  rw [UInt32.le_iff_toNat_le, UInt32.toNat_add, UInt32.toNat_ofNat', Nat.mod_eq_of_lt hk]
  omega

/-! ## 2. The loop -/

/-- The loop takes as many packets as it has counts left. -/
theorem shift_append (seq i : UInt32) (u v : List Packet)
    (h : i.toNat + u.length ≤ seq.toNat + 1) :
    shift seq i (u ++ v) = shift seq (i + UInt32.ofNat u.length) v := by
  induction u generalizing i with
  | nil => simp
  | cons a u ih =>
    rw [List.length_cons] at h
    have hi : i ≤ seq := by
      rw [UInt32.le_iff_toNat_le]
      omega
    have hseq := seq.toNat_lt
    rw [List.cons_append, shift, if_pos hi, List.length_cons, ofNat_succ,
      UInt32.add_comm (UInt32.ofNat u.length), ← UInt32.add_assoc]
    cases u with
    | nil => simp
    | cons b u =>
      rw [List.length_cons] at h
      refine ih (i + 1) ?_
      rw [UInt32.toNat_add, UInt32.toNat_one, Nat.mod_eq_of_lt (by omega), List.length_cons]
      omega

/-- Up to the highest number it takes everything. -/
theorem shift_max {seq : UInt32} (h : seq.toNat + 1 = 2 ^ 32) (i : UInt32) (w : List Packet) :
    shift seq i w = [] := by
  induction w generalizing i with
  | nil => rfl
  | cons p w ih =>
    have hi : i ≤ seq := by
      have := i.toNat_lt
      rw [UInt32.le_iff_toNat_le]
      omega
    rw [shift, if_pos hi, ih]

/-- Behind its number it takes nothing. -/
theorem shift_of_lt {seq i : UInt32} (h : seq < i) (w : List Packet) : shift seq i w = w := by
  cases w with
  | nil => rfl
  | cons p w => rw [shift, if_neg (UInt32.not_le.mpr h)]

/-- **The loop keeps what lies behind the packet**, unless its number is the highest. -/
theorem shift_eq_iff {n : UInt32} {u v : List Packet} {p : Packet}
    (h : CountsFrom n (u ++ p :: v)) (hlen : n.toNat + u.length < 2 ^ 32) :
    shift p.sequence n (u ++ p :: v) = v ↔ p.sequence.toNat + 1 < 2 ^ 32 ∨ v = [] := by
  have hseq := h.sequence
  have hnat : p.sequence.toNat = n.toNat + u.length := by
    rw [hseq, UInt32.toNat_add, UInt32.toNat_ofNat',
      Nat.mod_eq_of_lt (by omega : u.length < 2 ^ 32), Nat.mod_eq_of_lt hlen]
  have htake : shift p.sequence n (u ++ p :: v) = shift p.sequence (p.sequence + 1) v := by
    have := shift_append p.sequence n (u ++ [p]) v (by simp; omega)
    rw [List.append_assoc, List.singleton_append] at this
    rw [this, List.length_append, List.length_singleton, ofNat_succ, ← UInt32.add_assoc, ← hseq]
  rw [htake]
  by_cases hmax : p.sequence.toNat + 1 < 2 ^ 32
  · have hlt : p.sequence < p.sequence + 1 := by
      rw [UInt32.lt_iff_toNat_lt, UInt32.toNat_add, UInt32.toNat_one, Nat.mod_eq_of_lt hmax]
      exact Nat.lt_succ_self _
    exact iff_of_true (shift_of_lt hlt v) (.inl hmax)
  · have hle := p.sequence.toNat_lt
    rw [shift_max (by omega)]
    constructor
    · exact fun hv => .inr hv.symm
    · rintro (hlt | hv)
      · exact absurd hlt hmax
      · exact hv.symm

variable [Host]

/-! ## 3. The `RR` case of `waitRR` -/

/-- **A cumulative `RR` removes exactly what it acknowledges** if and only if the numbers do not
wrap between the front of the window and the packet it is for, and this packet has not the
highest of all numbers, or is the last of the window. -/
theorem cumulative_iff (s : Server) (u v : List Packet) (p : Packet)
    (hw : s.mvWindow = u ++ p :: v) (hn : CountsFrom s.front.sequence s.mvWindow)
    (hlen : s.mvWindow.length ≤ 65535) (src : Addr) (buf : Packet) (io : Bool)
    (hok : buf.ok = true) (ht : buf.type = pktTypeRR) (hq : buf.sequence = p.sequence) :
    (s.waitRR (.datagram src buf) io).mvWindow = v ↔
      s.front.sequence ≤ p.sequence ∧ (p.sequence.toNat + 1 < 2 ^ 32 ∨ v = []) := by
  have hwin : (s.waitRR (.datagram src buf) io).mvWindow =
      if s.front.sequence ≤ p.sequence then shift p.sequence s.front.sequence s.mvWindow
      else s.mvWindow := by
    simp only [waitRR, recvPacket, hok, waitPacket, front, ht, hq, if_true]
    by_cases hle : (s.mvWindow.headD Host.stale).sequence ≤ p.sequence
    · simp only [hle, if_true]
    · simp only [hle, if_false]
  rw [hw] at hn hlen
  rw [hwin, hw]
  have hu : u.length < 2 ^ 32 := by
    simp only [List.length_append, List.length_cons] at hlen
    omega
  by_cases hle : s.front.sequence ≤ p.sequence
  · rw [if_pos hle]
    have hle' := hle
    rw [hn.sequence, le_add_iff hu] at hle'
    rw [shift_eq_iff hn hle']
    simp [hle]
  · rw [if_neg hle]
    refine iff_of_false ?_ fun h => hle h.1
    intro h
    have := congrArg List.length h
    simp only [List.length_append, List.length_cons] at this
    omega

end Fileserver.Server

namespace Fileserver.Server

local instance cumulativeHost : Host := refHost []

/-- A child waiting with these packets in its window. -/
def holding (w : List Packet) : Server := { atStart [] 2 4 with mvWindow := w, mvState := .waitRR }

/-- **An `RR` for the highest number takes the packet behind it along**, and one for the number
behind the wrap is ignored. -/
theorem not_cumulative :
    ¬ ∀ (s : Server) (u v : List Packet) (p : Packet), s.mvWindow = u ++ p :: v →
      CountsFrom s.front.sequence s.mvWindow → s.mvWindow.length ≤ 65535 →
      ∀ (src : Addr) (buf : Packet) (io : Bool), buf.ok = true → buf.type = pktTypeRR →
        buf.sequence = p.sequence → (s.waitRR (.datagram src buf) io).mvWindow = v := by
  intro hall
  have h := hall (holding [datpkt 0xFFFFFFFF [1], datpkt 0 [2]]) [] [datpkt 0 [2]]
    (datpkt 0xFFFFFFFF [1]) rfl ⟨rfl, rfl, trivial⟩ (by decide) ⟨2, 9⟩ (rrpkt 0xFFFFFFFF) true
    (rrpkt_ok _) rfl rfl
  have hlen := congrArg List.length h
  simp [waitRR, recvPacket, waitPacket, front, holding, shift] at hlen

/-- The second of three packets. -/
theorem cumulative_middle :
    ((holding [datpkt 5 [1], datpkt 6 [2], datpkt 7 [3]]).waitRR
      (.datagram ⟨2, 9⟩ (rrpkt 6)) true).mvWindow = [datpkt 7 [3]] :=
  (cumulative_iff (holding [datpkt 5 [1], datpkt 6 [2], datpkt 7 [3]]) [datpkt 5 [1]]
    [datpkt 7 [3]] (datpkt 6 [2]) rfl ⟨rfl, rfl, rfl, trivial⟩ (by decide) ⟨2, 9⟩ (rrpkt 6) true
    (rrpkt_ok _) rfl rfl).mpr ⟨by decide, .inl (by decide)⟩

end Fileserver.Server
