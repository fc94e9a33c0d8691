/-
# A host to compute with

`in_cksum` as the Internet checksum over the bytes of a packet, on a little-endian host: the
16-bit words are added, an odd last byte is padded with zero, the carries are added back in,
and the result is complemented.  `refHost` is the host with this checksum; nothing in the
development depends on it except the runs computed on concrete packets.
-/
import Fileserver.Packet

namespace Fileserver

/-- The bytes of a packet in memory, packed as declared, least significant byte first. -/
def Packet.wire (p : Packet) : List UInt8 :=
  [p.type] ++ (List.range 4).map (fun k => (p.sequence.toNat / 256 ^ k).toUInt8) ++
    (List.range 2).map (fun k => (p.checksum.toNat / 256 ^ k).toUInt8) ++
    (List.range 2).map (fun k => (p.size.toNat / 256 ^ k).toUInt8) ++ p.data.toList

/-- The sum of the 16-bit words of a byte string. -/
def wordSum : List UInt8 → ℕ
  | [] => 0
  | [a] => a.toNat
  | a :: b :: l => a.toNat + 256 * b.toNat + wordSum l

/-- Adds the carries of a sum back in. -/
def addCarries (n : ℕ) : ℕ := n / 2 ^ 16 + n % 2 ^ 16

/-- The Internet checksum. -/
def internetCksum (l : List UInt8) : UInt16 :=
  UInt16.ofNat (2 ^ 16 - 1 - addCarries (addCarries (wordSum l)))

/-- A host with the Internet checksum, zeros behind every packet and one file, named `f`. -/
@[reducible] def refHost (contents : List UInt8) : Host where
  inCksum p := internetCksum p.wire
  behind _ := 0
  stale := memset 0
  file name := if name = [0x66] then some contents else none

end Fileserver
