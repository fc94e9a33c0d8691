/-
# The Stop-and-Wait server

`client_comm` of the TCP program, which serves one connection, with the builders it calls.  Its
loop is given one iteration at a time.  What an iteration does is decided by the bits of
`status`, in this order: a packet may be sent, one may be received and evaluated, and the file
may be opened or read.  Nothing else happens in between, except at the `recv`.

The program shares `struct packet` with the go-back-N one, but not the conventions for filling
it: numbers travel in network byte order, and an acknowledgement is known by its data.
`server.c` calls the types of replies `PKT_TYPE_ACK` and `PKT_TYPE_RET`, where `packet.h` has
`PKT_TYPE_RR` and `PKT_TYPE_REJ`.  `fromlen` is stored and never read, so it is left out.
-/
import Fileserver.Packet

namespace Fileserver.StopWait

/-! ## 1. The packets -/

/-- `PKT_TYPE_ACK`. -/
abbrev pktTypeACK : UInt8 := pktTypeRR

/-- `PKT_TYPE_RET`. -/
abbrev pktTypeRET : UInt8 := pktTypeREJ

/-- `htonl` on a little-endian host: the four bytes change places. -/
def htonl (x : UInt32) : UInt32 :=
  UInt32.ofNat (x.toNat % 256 * 256 ^ 3 + x.toNat / 256 % 256 * 256 ^ 2 +
    x.toNat / 256 ^ 2 % 256 * 256 + x.toNat / 256 ^ 3)

/-- `ntohl` moves them back the same way. -/
def ntohl (x : UInt32) : UInt32 := htonl x

/-- The four bytes of a number, the first one first. -/
theorem bytes_of_number {a b c d : ℕ} (hb : b < 256) (hc : c < 256) (hd : d < 256) :
    (a * 256 ^ 3 + b * 256 ^ 2 + c * 256 + d) % 256 = d ∧
      (a * 256 ^ 3 + b * 256 ^ 2 + c * 256 + d) / 256 % 256 = c ∧
      (a * 256 ^ 3 + b * 256 ^ 2 + c * 256 + d) / 256 ^ 2 % 256 = b ∧
      (a * 256 ^ 3 + b * 256 ^ 2 + c * 256 + d) / 256 ^ 3 = a := by
  refine ⟨?_, ?_, ?_, ?_⟩ <;> omega

theorem toNat_htonl (x : UInt32) :
    (htonl x).toNat = x.toNat % 256 * 256 ^ 3 + x.toNat / 256 % 256 * 256 ^ 2 +
      x.toNat / 256 ^ 2 % 256 * 256 + x.toNat / 256 ^ 3 := by
  have hx := x.toNat_lt
  rw [htonl, UInt32.toNat_ofNat']
  exact Nat.mod_eq_of_lt (by omega)

/-- A number put into a packet and taken out again is the same number. -/
@[simp] theorem ntohl_htonl (x : UInt32) : ntohl (htonl x) = x := by
  have hx := x.toNat_lt
  obtain ⟨h0, h1, h2, h3⟩ := bytes_of_number (a := x.toNat % 256) (b := x.toNat / 256 % 256)
    (c := x.toNat / 256 ^ 2 % 256) (d := x.toNat / 256 ^ 3) (by omega) (by omega) (by omega)
  rw [ntohl, ← UInt32.toNat_inj, toNat_htonl, toNat_htonl, h0, h1, h2, h3]
  clear h0 h1 h2 h3
  omega

/-- The data of a packet after a `read` into it put `l` at its start; what was there before stays
behind it.  What is read past its end is not part of it. -/
def readInto (d : Vector UInt8 pktDMax) (l : List UInt8) : Vector UInt8 pktDMax :=
  ⟨((l ++ d.toList.drop l.length).take pktDMax).toArray, by simp; omega⟩

theorem take_readInto {d : Vector UInt8 pktDMax} {l : List UInt8} (h : l.length ≤ pktDMax) :
    (readInto d l).toList.take l.length = l := by
  simp [readInto, Vector.toList, List.take_take, Nat.min_eq_left h]

variable [Host]

/-- `retransmitpkt`. -/
def retransmitpkt (sequence : UInt32) : Packet :=
  Packet.sealed
    { type := pktTypeRET, sequence := htonl sequence, checksum := 0, size := 0,
      data := Vector.replicate pktDMax pktTypeRET }

/-- `ackpkt`: the data are filled in behind the checksum. -/
def ackpkt (src : Packet) : Packet :=
  { Packet.sealed { src with type := pktTypeACK } with
    data := Vector.replicate pktDMax pktTypeACK }

/-- `file_to_packet`, when the `read` succeeds: the packet it leaves in `buf`. -/
def fileToPacket (f : File) (sequence bufsz : UInt32) (buf : Packet) : Packet :=
  Packet.sealed
    { type := pktTypeDAT, sequence := htonl sequence, checksum := 0
      size := UInt16.ofNat (f.ahead bufsz.toNat).length
      data := readInto buf.data (f.ahead bufsz.toNat) }

/-! ## 2. The locals -/

/-- The bits of `status`. -/
structure Status where
  quit : Bool
  expectAck : Bool
  expectInfo : Bool
  infoInit : Bool
  transmit : Bool
  receive : Bool
  nextdata : Bool
  retransmit : Bool
deriving DecidableEq

/-- The locals of `client_comm`.  `fromfd` is nothing before the `open`, `returned` the exit
status once the function has returned. -/
structure Comm where
  fromfd : Option File
  fromname : List UInt8
  bufsz : UInt32
  outpkt : Packet
  tpkt : Packet
  status : Status
  sequence : UInt32
  retries : UInt32
  offset : UInt32
  returned : Option ℕ
deriving DecidableEq

/-- The outcomes of the system calls of one iteration, where they are made. -/
structure Calls where
  seeks : Bool
  stats : Bool
  reads : Bool

namespace Comm

/-- `client_comm` before its loop. -/
def start : Comm where
  fromfd := none
  fromname := []
  bufsz := 0
  outpkt := memset 0
  tpkt := memset 0
  status :=
    { quit := false, expectAck := false, expectInfo := true, infoInit := false
      transmit := false, receive := true, nextdata := false, retransmit := false }
  sequence := 0
  retries := 0
  offset := 0
  returned := none

/-- `return EXIT_FAILURE`. -/
def fails (c : Comm) : Comm := { c with returned := some 1 }

/-- `lseek(fromfd, off, SEEK_SET)`.  On a descriptor nobody has opened it moves nothing here. -/
def lseek (c : Comm) (off : UInt32) : Comm :=
  { c with fromfd := c.fromfd.map fun f => f.lseek off }

/-! ## 3. The parts of an iteration -/

/-- "transmit a packet if needed".  A `sendErr` that fails is only reported. -/
def transmit (c : Comm) : Comm × Option Packet :=
  if c.status.transmit then
    if c.outpkt.type ≠ pktTypeACK then
      if c.outpkt.type ≠ pktTypeRET then
        ({ c with status := { c.status with
            transmit := false, receive := true, expectAck := true } }, some c.outpkt)
      else
        ({ c with status := { c.status with transmit := false, receive := true } }, some c.outpkt)
    else
      ({ c with status := { c.status with transmit := false, receive := false } }, some c.outpkt)
  else (c, none)

/-- "read data into packet". -/
def nextData (c : Comm) (io : Calls) : Comm :=
  if c.status.nextdata then
    match c.fromfd with
    | none => c.fails
    | some f =>
      if io.reads then
        let rd := (f.ahead c.bufsz.toNat).length
        { c with
          fromfd := some (f.advance c.bufsz.toNat)
          outpkt := fileToPacket f c.sequence c.bufsz c.outpkt
          offset := if c.status.retransmit then c.offset else c.offset + UInt32.ofNat rd
          status := { c.status with
            quit := c.status.quit || decide (rd = 0)
            nextdata := false, receive := false, transmit := true } }
      else c.fails
  else c

/-- "handle files". -/
def files (c : Comm) (io : Calls) : Comm :=
  if c.status.expectInfo then c
  else if c.status.infoInit then
    match Host.file c.fromname with
    | none => c.fails
    | some contents =>
      let c := { c with
        fromfd := some ⟨contents, 0⟩
        status := { c.status with infoInit := false } }
      if io.stats then { c with status := { c.status with nextdata := true } }.nextData io
      else c.fails
  else c.nextData io

/-- An acknowledgement is accepted.  The `Bool` says whether the iteration goes on to the
files; `continue` and `return` do not. -/
def acknowledged (c : Comm) (io : Calls) : Comm × Bool :=
  let c := { c with
    status := { c.status with expectAck := false, receive := false, nextdata := true }
    retries := 0
    sequence := if c.outpkt.type = pktTypeDAT then c.sequence + 1 else c.sequence }
  if c.status.retransmit then
    let c := { c with status := { c.status with retransmit := false } }
    if io.seeks then (c.lseek c.offset, true) else (c.fails, false)
  else (c, true)

/-- A packet is requested again. -/
def requested (c : Comm) (number : UInt32) (io : Calls) : Comm × Bool :=
  let c := { c with retries := c.retries + 1 }
  if number = c.sequence then ({ c with status := { c.status with transmit := true } }, false)
  else if c.status.infoInit then (c, true)
  else if io.seeks then
    ({ c.lseek (c.bufsz * number) with
      status := { c.status with transmit := true, retransmit := true, nextdata := true } }, true)
  else (c.fails, false)

/-- The first packet: the buffer size and the file name.  Its terminating zero is not copied; `open`
is taken to find one. -/
def informed (c : Comm) (inpkt : Packet) : Comm :=
  { c with
    bufsz := inpkt.size.toUInt32
    fromname := cstr inpkt.data
    outpkt := ackpkt inpkt
    status := { c.status with expectInfo := false, infoInit := true, transmit := true } }

/-- "evaluate packet". -/
def evaluate (c : Comm) (inpkt : Packet) (io : Calls) : Comm × Bool :=
  if inpkt.type = pktTypeACK then
    if c.status.expectAck then
      if c.outpkt.data.toList = inpkt.data.toList then c.acknowledged io else (c, true)
    else (c.fails, false)
  else if inpkt.type = pktTypeRET then c.requested (ntohl inpkt.sequence) io
  else if inpkt.type = pktTypeFLN then
    if c.status.expectInfo then (c.informed inpkt, false) else (c, true)
  else (c, true)

/-- A packet is evaluated, and the files are handled if the iteration gets there. -/
def received (c : Comm) (inpkt : Packet) (io : Calls) : Comm :=
  if (c.evaluate inpkt io).2 then (c.evaluate inpkt io).1.files io
  else (c.evaluate inpkt io).1

/-- The rest of an iteration behind a `recv`, which gives one whole packet or fails. -/
def hear (c : Comm) (r : Option Packet) (io : Calls) : Comm :=
  match r with
  | none => c.fails
  | some inpkt =>
    if inpkt.ok then
      -- "put our last outgoing packet back after sending a retransmit request"
      { c with outpkt := if c.outpkt.type = pktTypeRET then c.tpkt else c.outpkt }.received inpkt io
    else
      { c with
        tpkt := if c.outpkt.type ≠ pktTypeRET then c.outpkt else c.tpkt
        outpkt := retransmitpkt c.sequence
        status := { c.status with transmit := true } }

/-! ## 4. The loop -/

/-- The loop is left at the top of this iteration: it has been told to, or `retries` has reached
`PKT_TRNSMAX`. -/
def leaves (c : Comm) : Bool := c.status.quit || decide (10 ≤ c.retries)

/-- One iteration, by whether a packet is received in it. -/
inductive Event
  | act (io : Calls)
  | hear (r : Option Packet) (io : Calls)

/-- The iteration, with what it sends. -/
def step (c : Comm) : Event → Option (Comm × Option Packet)
  | .act io =>
    if c.returned.isSome then none
    else if c.leaves then some ({ c with returned := some 0 }, none)
    else if c.transmit.1.status.receive then none
    else some (c.transmit.1.files io, c.transmit.2)
  | .hear r io =>
    if c.returned.isSome || c.leaves then none
    else if c.transmit.1.status.receive then some (c.transmit.1.hear r io, c.transmit.2)
    else none

end Comm

end Fileserver.StopWait
