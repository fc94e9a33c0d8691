/-
# Packets, sockets and files

`packet.h` and `packet.c` of the go-back-N program, and the few things both processes take
from outside the repository.  The checksum routine `in_cksum` comes in a binary library, so it
is a field of `Host` and nothing is assumed of it; so are the bytes that lie behind a packet in
memory, which a `write` longer than the packet sends to the file, and the server's file system.

A packet is the C struct field by field.  `rrpkt`, `rejpkt` and the client's handshake packets
start from a `memset`, so the fields nobody sets afterwards carry the type byte: an `rrpkt` has
`size` 0xAAAA, far more than `pktDMax`.
-/
import Mathlib.Algebra.Ring.Nat
import Mathlib.Data.List.TakeWhile
import Mathlib.Tactic.Common

namespace Fileserver

/-! ## 1. The struct and its constants -/

def pktTypeCXN : UInt8 := 0xFF
def pktTypeCXN2 : UInt8 := 0xEE
def pktTypeRR : UInt8 := 0xAA
def pktTypeREJ : UInt8 := 0x55
def pktTypeBUF : UInt8 := 0x99
def pktTypeFLN : UInt8 := 0x33
def pktTypeDAT : UInt8 := 0xBB
def pktTypeWIN : UInt8 := 0xCC

@[simp] theorem rej_ne_rr : pktTypeREJ ≠ pktTypeRR := by decide
@[simp] theorem rr_ne_rej : pktTypeRR ≠ pktTypeREJ := by decide
@[simp] theorem dat_ne_rr : pktTypeDAT ≠ pktTypeRR := by decide
@[simp] theorem dat_ne_rej : pktTypeDAT ≠ pktTypeREJ := by decide
@[simp] theorem rr_ne_dat : pktTypeRR ≠ pktTypeDAT := by decide
@[simp] theorem rej_ne_dat : pktTypeREJ ≠ pktTypeDAT := by decide

/-- `PKT_DMAX`: the bytes of `data`. -/
def pktDMax : ℕ := 1400

/-- `PKT_TRNSMAX`: the retries a fresh counter holds. -/
def pktTrnsMax : Int := 10

/-- `struct packet`. -/
structure Packet where
  type : UInt8
  sequence : UInt32
  checksum : UInt16
  size : UInt16
  data : Vector UInt8 pktDMax
deriving DecidableEq

/-- A `sockaddr_in`: `sinPort` is in network byte order, as in the C struct. -/
structure Addr where
  host : UInt32
  sinPort : UInt16
deriving DecidableEq

/-- `sizeof(sockaddr_storage)`, the type of `mvAddr`. -/
def sizeofStorage : UInt32 := 128

/-- `sizeof(sockaddr_in)`, the length `recvfrom` stores with an address. -/
def sizeofIn : UInt32 := 16

/-- What the program uses and the repository does not hold in source form. -/
class Host where
  /-- `in_cksum` over the 1409 bytes of a packet. -/
  inCksum : Packet → UInt16
  /-- The byte `k` places behind the end of a packet in memory. -/
  behind : ℕ → UInt8
  /-- What `front()` of an empty deque reads. -/
  stale : Packet
  /-- The server's files, by name. -/
  file : List UInt8 → Option (List UInt8)

/-- `htons` on a little-endian host: the two bytes change places. -/
def htons (x : UInt16) : UInt16 := UInt16.ofNat (x.toNat % 256 * 256 + x.toNat / 256)

theorem toNat_htons (x : UInt16) : (htons x).toNat = x.toNat % 256 * 256 + x.toNat / 256 := by
  have hx := x.toNat_lt
  rw [htons, UInt16.toNat_ofNat']
  exact Nat.mod_eq_of_lt (by omega)

/-- A port put into a packet and taken out again is the same port. -/
@[simp] theorem htons_htons (x : UInt16) : htons (htons x) = x := by
  have hx := x.toNat_lt
  rw [← UInt16.toNat_inj, toNat_htons, toNat_htons]
  omega

/-! ## 2. Raw contents -/

/-- `memset(&p, b, sizeof(packet))`. -/
def memset (b : UInt8) : Packet where
  type := b
  sequence := b.toUInt32 * 0x01010101
  checksum := b.toUInt16 * 0x0101
  size := b.toUInt16 * 0x0101
  data := Vector.replicate pktDMax b

/-- Data filled with `b`, with the bytes `l` copied over its start.  What is copied past its end
is not part of it. -/
def copied (b : UInt8) (l : List UInt8) : Vector UInt8 pktDMax :=
  ⟨((l ++ List.replicate pktDMax b).take pktDMax).toArray, by simp⟩

/-- The data of a zeroed packet after `read` put the bytes `l` at its start. -/
def dataOf (l : List UInt8) : Vector UInt8 pktDMax := copied 0 l

theorem take_dataOf {l : List UInt8} (h : l.length ≤ pktDMax) :
    (dataOf l).toList.take l.length = l := by
  simp [dataOf, copied, Vector.toList, List.take_take, Nat.min_eq_left h]

/-! ## 3. Checksums -/

section Checksum

variable [Host]

/-- `p.checksum = 0; p.checksum = in_cksum(&p, sizeof(packet))`, as every builder ends. -/
def Packet.sealed (p : Packet) : Packet :=
  { p with checksum := Host.inCksum { p with checksum := 0 } }

/-- The receivers' test: the checksum of the packet with that field zeroed is the one sent. -/
def Packet.ok (p : Packet) : Bool := Host.inCksum { p with checksum := 0 } == p.checksum

@[simp] theorem Packet.sealed_ok (p : Packet) : p.sealed.ok = true := by
  simp [Packet.sealed, Packet.ok]

@[simp] theorem Packet.sealed_type (p : Packet) : p.sealed.type = p.type := rfl
@[simp] theorem Packet.sealed_sequence (p : Packet) : p.sealed.sequence = p.sequence := rfl
@[simp] theorem Packet.sealed_size (p : Packet) : p.sealed.size = p.size := rfl
@[simp] theorem Packet.sealed_data (p : Packet) : p.sealed.data = p.data := rfl

/-! ## 4. The builders -/

/-- `rrpkt`: receive ready. -/
def rrpkt (sequence : UInt32) : Packet :=
  Packet.sealed { memset pktTypeRR with sequence := sequence }

/-- `rejpkt`: reject. -/
def rejpkt (sequence : UInt32) : Packet :=
  Packet.sealed { memset pktTypeREJ with sequence := sequence }

/-- The packet `Server::fillWindow` builds from the bytes it read. -/
def datpkt (sequence : UInt32) (l : List UInt8) : Packet :=
  Packet.sealed
    { type := pktTypeDAT, sequence := sequence, checksum := 0,
      size := UInt16.ofNat l.length, data := dataOf l }

@[simp] theorem rrpkt_type (n : UInt32) : (rrpkt n).type = pktTypeRR := rfl
@[simp] theorem rrpkt_sequence (n : UInt32) : (rrpkt n).sequence = n := rfl
@[simp] theorem rrpkt_ok (n : UInt32) : (rrpkt n).ok = true := Packet.sealed_ok _
@[simp] theorem rejpkt_type (n : UInt32) : (rejpkt n).type = pktTypeREJ := rfl
@[simp] theorem rejpkt_sequence (n : UInt32) : (rejpkt n).sequence = n := rfl
@[simp] theorem rejpkt_ok (n : UInt32) : (rejpkt n).ok = true := Packet.sealed_ok _
@[simp] theorem datpkt_type (n : UInt32) (l : List UInt8) : (datpkt n l).type = pktTypeDAT := rfl
@[simp] theorem datpkt_sequence (n : UInt32) (l : List UInt8) : (datpkt n l).sequence = n := rfl
@[simp] theorem datpkt_ok (n : UInt32) (l : List UInt8) : (datpkt n l).ok = true :=
  Packet.sealed_ok _

/-- A data packet that passes the checksum test. -/
def IsData (p : Packet) : Prop := p.ok = true ∧ p.type = pktTypeDAT

theorem datpkt_isData (n : UInt32) (l : List UInt8) : IsData (datpkt n l) :=
  ⟨datpkt_ok n l, datpkt_type n l⟩

/-- The bytes `write(fd, p.data, n)` takes: those of the packet, and behind them whatever
follows it in memory. -/
def Packet.bytes (p : Packet) (n : ℕ) : List UInt8 :=
  p.data.toList.take n ++ (List.range (n - pktDMax)).map Host.behind

theorem Packet.bytes_of_le (p : Packet) {n : ℕ} (h : n ≤ pktDMax) :
    p.bytes n = p.data.toList.take n := by
  simp [Packet.bytes, Nat.sub_eq_zero_of_le h]

theorem toNat_datpkt_size {l : List UInt8} (n : UInt32) (h : l.length < 2 ^ 16) :
    (datpkt n l).size.toNat = l.length := by
  simp only [datpkt, Packet.sealed_size, UInt16.toNat_ofNat']
  exact Nat.mod_eq_of_lt h

/-- **A data packet hands over exactly the bytes it was built from**, when they fit it. -/
theorem datpkt_bytes {l : List UInt8} (n : UInt32) (h : l.length ≤ pktDMax) :
    (datpkt n l).bytes (datpkt n l).size.toNat = l := by
  have hsz : l.length < 2 ^ 16 := lt_of_le_of_lt h (by decide)
  rw [toNat_datpkt_size n hsz, Packet.bytes_of_le _ h]
  exact take_dataOf h

end Checksum

/-! ## 5. Files and names -/

/-- An open file: its contents and the position of the next `read`. -/
structure File where
  contents : List UInt8
  pos : ℕ
deriving DecidableEq

/-- The bytes the next `read` of `n` bytes returns. -/
def File.ahead (f : File) (n : ℕ) : List UInt8 := (f.contents.drop f.pos).take n

/-- The file after that `read`. -/
def File.advance (f : File) (n : ℕ) : File := { f with pos := f.pos + (f.ahead n).length }

/-- `lseek(fd, off, SEEK_SET)`, with the offset in unsigned 32-bit arithmetic. -/
def File.lseek (f : File) (off : UInt32) : File := { f with pos := off.toNat }

theorem File.length_ahead (f : File) (n : ℕ) :
    (f.ahead n).length = min n (f.contents.length - f.pos) := by
  simp [File.ahead]

/-- The bytes of the file that packet number `n` carries. -/
def slice (file : List UInt8) (B n : ℕ) : List UInt8 := (file.drop (n * B)).take B

theorem length_slice (file : List UInt8) (B n : ℕ) :
    (slice file B n).length = min ((n + 1) * B) file.length - n * B := by
  rw [slice, List.length_take, List.length_drop, Nat.succ_mul]
  omega

theorem take_slice (file : List UInt8) (B n : ℕ) :
    file.take (n * B) ++ slice file B n = file.take ((n + 1) * B) := by
  rw [slice, Nat.succ_mul, List.take_add]

/-- The next `read` returns the bytes from offset `q` on: the file stands there, or at or past its
end where there are none left. -/
def StandsAt (f : File) (q : ℕ) : Prop :=
  f.pos = q ∨ f.contents.length ≤ f.pos ∧ f.contents.length ≤ q

theorem StandsAt.ahead {f : File} {q : ℕ} (h : StandsAt f q) (n : ℕ) :
    f.ahead n = (f.contents.drop q).take n := by
  rcases h with h | ⟨h1, h2⟩
  · rw [File.ahead, h]
  · rw [File.ahead, List.drop_eq_nil_of_le h1, List.drop_eq_nil_of_le h2]

theorem StandsAt.advance {f : File} {q : ℕ} (h : StandsAt f q) (n : ℕ) :
    StandsAt (f.advance n) (q + n) := by
  have hl := f.length_ahead n
  simp only [StandsAt, File.advance] at *
  omega

/-- The next `read` returns the bytes of packet `n`: the file stands at them, or at or past its
end where there are none left. -/
def AtNumber (f : File) (B n : ℕ) : Prop := StandsAt f (n * B)

theorem AtNumber.ahead {f : File} {B n : ℕ} (h : AtNumber f B n) :
    f.ahead B = slice f.contents B n :=
  StandsAt.ahead h B

theorem AtNumber.advance {f : File} {B n : ℕ} (h : AtNumber f B n) :
    AtNumber (f.advance B) B (n + 1) := by
  have ha := StandsAt.advance h B
  rwa [← Nat.succ_mul] at ha

/-- A C string copied with its terminator over the start of data filled with `b`. -/
def strcpy (b : UInt8) (name : List UInt8) : Vector UInt8 pktDMax := copied b (name ++ [0])

/-- The C string at the start of a packet's data. -/
def cstr (d : Vector UInt8 pktDMax) : List UInt8 := d.toList.takeWhile (· ≠ 0)

/-! ## 6. What a process receives -/

/-- What `select_call` and `recvfrom` give one call of `recvPacket`: nothing within the second,
an error, or a datagram and where it came from. -/
inductive Recv
  | timeout
  | failed
  | datagram (src : Addr) (buf : Packet)
deriving DecidableEq

/-- A timeout, or a datagram that fails the checksum test: `recvPacket` returns 2. -/
def Recv.bad [Host] : Recv → Bool
  | .timeout => true
  | .failed => false
  | .datagram _ buf => !buf.ok

/-- What `recvPacket` returns: 1, 2, or 0 with the packet. -/
inductive Ret
  | error
  | again
  | packet (buf : Packet)

end Fileserver
