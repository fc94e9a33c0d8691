/-
# Byte orders

A number of `k` bytes stands in memory as its digits to base 256: from the least significant end
on a little-endian host, from the other end on a big-endian one.  So what one of them writes and
the other reads is the number of the reversed bytes, and it is the number that was written
exactly if the bytes are a palindrome.

The sum of the 16-bit words of a byte string is different on the two hosts too, but only by a
factor of 256 modulo 65535: this is what makes a ones' complement checksum independent of the
byte order, whatever the fields of the string are.
-/
import Mathlib.Data.List.Palindrome
import Mathlib.Data.Nat.Digits.Lemmas

namespace Proto

/-- Which end of a number comes first in memory. -/
inductive ByteOrder
  | little
  | big
deriving DecidableEq

namespace ByteOrder

variable {o o' : ByteOrder}

/-! ## 1. Numbers in memory -/

/-- The bytes of a number of `k` bytes. -/
def bytes : ByteOrder → ℕ → ℕ → List UInt8
  | .little, k, n => (List.range k).map fun i => (n / 256 ^ i).toUInt8
  | .big, k, n => ((List.range k).map fun i => (n / 256 ^ i).toUInt8).reverse

/-- The number that stands in these bytes. -/
def number : ByteOrder → List UInt8 → ℕ
  | .little, l => Nat.ofDigits 256 (l.map UInt8.toNat)
  | .big, l => Nat.ofDigits 256 (l.reverse.map UInt8.toNat)

@[simp] theorem length_bytes (o : ByteOrder) (k n : ℕ) : (o.bytes k n).length = k := by
  cases o <;> simp [bytes]

theorem digits_lt (l : List UInt8) : ∀ x ∈ l.map UInt8.toNat, x < 256 := by
  intro x hx
  obtain ⟨a, -, rfl⟩ := List.mem_map.mp hx
  exact a.toNat_lt

theorem number_lt (o : ByteOrder) (l : List UInt8) : o.number l < 256 ^ l.length := by
  have hlt (m : List UInt8) : Nat.ofDigits 256 (m.map UInt8.toNat) < 256 ^ m.length := by
    have h := Nat.ofDigits_lt_base_pow_length (by decide) (digits_lt m)
    rwa [List.length_map] at h
  cases o with
  | little => exact hlt l
  | big =>
    have h := hlt l.reverse
    rwa [List.length_reverse] at h

theorem ofDigits_bytes {k n : ℕ} (h : n < 256 ^ k) :
    Nat.ofDigits 256 (((List.range k).map fun i => (n / 256 ^ i).toUInt8).map UInt8.toNat) = n := by
  induction k generalizing n with
  | zero =>
    have hn : n = 0 := by simpa using h
    simp [hn]
  | succ k ih =>
    have hdiv : n / 256 < 256 ^ k := by
      rw [Nat.pow_succ, Nat.mul_comm] at h
      exact Nat.div_lt_of_lt_mul h
    have htail : ((List.range k).map fun i => (n / 256 ^ (i + 1)).toUInt8)
        = (List.range k).map fun i => (n / 256 / 256 ^ i).toUInt8 := by
      refine List.map_congr_left ?_
      intro i _
      rw [Nat.pow_succ, Nat.mul_comm, Nat.div_div_eq_div_mul]
    rw [List.range_succ_eq_map, List.map_cons, List.map_map, List.map_cons, Nat.ofDigits_cons]
    change _ + 256 * Nat.ofDigits 256
      (((List.range k).map fun i => (n / 256 ^ (i + 1)).toUInt8).map UInt8.toNat) = n
    rw [htail, ih hdiv]
    simp only [Nat.pow_zero, Nat.div_one, Nat.toUInt8, UInt8.toNat_ofNat']
    omega

/-- **What a host writes it reads again.** -/
theorem number_bytes (o : ByteOrder) {k n : ℕ} (h : n < 256 ^ k) : o.number (o.bytes k n) = n := by
  cases o with
  | little => exact ofDigits_bytes h
  | big =>
    simp only [number, bytes, List.reverse_reverse]
    exact ofDigits_bytes h

/-- Different bytes are different numbers. -/
theorem number_inj {l m : List UInt8} (hl : l.length = m.length)
    (h : o.number l = o.number m) : l = m := by
  have hinj {u v : List UInt8} (hu : u.length = v.length)
      (hn : Nat.ofDigits 256 (u.map UInt8.toNat) = Nat.ofDigits 256 (v.map UInt8.toNat)) :
      u = v := by
    have hmap := Nat.ofDigits_inj_of_len_eq (by decide) (by simpa using hu) (digits_lt u)
      (digits_lt v) hn
    exact List.map_injective_iff.mpr (fun a b => UInt8.toNat_inj.mp) hmap
  cases o with
  | little => exact hinj hl h
  | big => exact List.reverse_injective (hinj (by simpa using hl) h)

/-- And what it has read it writes again. -/
theorem bytes_number (o : ByteOrder) {l : List UInt8} {k : ℕ} (hk : l.length = k) :
    o.bytes k (o.number l) = l := by
  refine number_inj (o := o) (by rw [length_bytes, hk]) ?_
  exact number_bytes o (hk ▸ number_lt o l)

/-! ## 2. Between two hosts -/

theorem number_bytes_lt (o o' : ByteOrder) (k n : ℕ) : o'.number (o.bytes k n) < 256 ^ k := by
  have h := number_lt o' (o.bytes k n)
  rwa [length_bytes] at h

/-- The other host reads the bytes from the other end. -/
theorem number_reverse (h : o ≠ o') (l : List UInt8) : o'.number l = o.number l.reverse := by
  cases o <;> cases o' <;> simp_all [number]

/-- **A number survives the change of hosts** exactly if its bytes are a palindrome. -/
theorem number_bytes_iff (h : o ≠ o') {k n : ℕ} (hn : n < 256 ^ k) :
    o'.number (o.bytes k n) = n ↔ (o.bytes k n).Palindrome := by
  rw [number_reverse h, List.Palindrome.iff_reverse_eq]
  constructor
  · intro he
    exact number_inj (List.length_reverse) (he.trans (number_bytes o hn).symm)
  · intro he
    rw [he, number_bytes o hn]

theorem number_bytes_zero {k : ℕ} : o'.number (o.bytes k 0) = 0 := by
  have hpow : 0 < 256 ^ k := Nat.pow_pos (by decide)
  by_cases h : o = o'
  · rw [h, number_bytes o' hpow]
  · rw [number_bytes_iff h hpow, List.Palindrome.iff_reverse_eq]
    cases o <;> simp [bytes]

/-- Two bytes change places. -/
theorem number_bytes_two (h : o ≠ o') {n : ℕ} (hn : n < 256 ^ 2) :
    o'.number (o.bytes 2 n) = n % 256 * 256 + n / 256 := by
  have hdig : o'.number (o.bytes 2 n)
      = Nat.ofDigits 256 [(n / 256).toUInt8.toNat, n.toUInt8.toNat] := by
    cases o <;> cases o' <;> simp_all [number, bytes, List.range_succ]
  rw [hdig]
  simp only [Nat.ofDigits_cons, Nat.ofDigits_nil, Nat.toUInt8, UInt8.toNat_ofNat']
  omega

/-! ## 3. The sum of the words -/

/-- The sum of the 16-bit words of a byte string, as a host reads them; an odd last byte is padded
with a zero behind it. -/
def wordSum (o : ByteOrder) : List UInt8 → ℕ
  | [] => 0
  | [a] => o.number [a, 0]
  | a :: b :: l => o.number [a, b] + o.wordSum l

@[simp] theorem little_pair (a b : UInt8) : little.number [a, b] = a.toNat + 256 * b.toNat := by
  simp [number, Nat.ofDigits_cons]

@[simp] theorem big_pair (a b : UInt8) : big.number [a, b] = b.toNat + 256 * a.toNat := by
  simp [number, Nat.ofDigits_cons]

theorem wordSum_le (o : ByteOrder) (l : List UInt8) : o.wordSum l ≤ 65535 * l.length := by
  fun_induction wordSum o l with
  | case1 => simp
  | case2 a =>
    have := number_lt o [a, 0]
    simp only [List.length_cons, List.length_nil] at this ⊢
    omega
  | case3 a b l ih =>
    have := number_lt o [a, b]
    simp only [List.length_cons, List.length_nil] at this ⊢
    omega

/-- What a byte at position `k` counts for in the sum. -/
def weight : ByteOrder → ℕ → ℕ
  | .little, k => if k % 2 = 0 then 1 else 256
  | .big, k => if k % 2 = 0 then 256 else 1

theorem weight_add_two (o : ByteOrder) (k : ℕ) : o.weight (k + 2) = o.weight k := by
  cases o <;> simp [weight]

/-- Neighbours count for 1 and for 256. -/
theorem weight_cases (o : ByteOrder) (k : ℕ) :
    o.weight k = 1 ∧ o.weight (k + 1) = 256 ∨ o.weight k = 256 ∧ o.weight (k + 1) = 1 := by
  cases o <;> simp only [weight] <;> split_ifs <;> omega

/-- **A changed byte moves the sum** by what it counts for. -/
theorem wordSum_set (o : ByteOrder) (l : List UInt8) (k : ℕ) (hk : k < l.length) (b : UInt8) :
    o.wordSum (l.set k b) + o.weight k * l[k].toNat = o.wordSum l + o.weight k * b.toNat := by
  fun_induction wordSum o l generalizing k with
  | case1 => simp at hk
  | case2 a =>
    obtain rfl : k = 0 := by simpa using hk
    cases o <;> simp [wordSum, weight] <;> omega
  | case3 a c l ih =>
    match k with
    | 0 => cases o <;> simp [wordSum, weight] <;> omega
    | 1 => cases o <;> simp [wordSum, weight] <;> omega
    | k + 2 =>
      have hk' : k < l.length := by simpa using hk
      have := ih k hk'
      simp only [List.set_cons_succ, wordSum, weight_add_two, List.getElem_cons_succ]
      omega

theorem le_wordSum (o : ByteOrder) {l : List UInt8} {k : ℕ} (hk : k < l.length) :
    o.weight k * l[k].toNat ≤ o.wordSum l := by
  have h := o.wordSum_set l k hk 0
  simp only [UInt8.toNat_zero, Nat.mul_zero] at h
  omega

/-- **The two sums differ by a factor of 256**, modulo 65535. -/
theorem wordSum_big (l : List UInt8) : big.wordSum l % 65535 = 256 * little.wordSum l % 65535 := by
  fun_induction wordSum big l with
  | case1 => rfl
  | case2 a =>
    simp only [wordSum, little_pair, big_pair]
    omega
  | case3 a b l ih =>
    simp only [wordSum, little_pair, big_pair]
    omega

theorem wordSum_swap (h : o ≠ o') (l : List UInt8) :
    o'.wordSum l % 65535 = 256 * o.wordSum l % 65535 := by
  have hbig := wordSum_big l
  cases o <;> cases o'
  · exact absurd rfl h
  · exact hbig
  · omega
  · exact absurd rfl h

/-- Both are zero, or neither is. -/
theorem wordSum_eq_zero (l : List UInt8) : o.wordSum l = 0 ↔ o'.wordSum l = 0 := by
  fun_induction wordSum o l with
  | case1 => simp [wordSum]
  | case2 a => cases o <;> cases o' <;> simp [wordSum]
  | case3 a b l ih => cases o <;> cases o' <;> simp [wordSum] at ih ⊢ <;> omega

end ByteOrder

end Proto
