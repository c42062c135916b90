import LCore.Cipher
import LCore.FrameSpec

/-!
# Radio and Routing

`loraRadio.h` and `loraRouting.h`. A packet on the air is the list of its bytes. A node
transmits by `Routing.send` and, for frames of others, by `Routing.forward`; it takes a packet
from the radio with `Routing.tryReceive`, which looks at the three address bytes and the hop
counter only. Nothing here checks the content of a frame or the length of a packet.

`Device` holds what `user_params.h` fixes for one node, together with the two functions of
libraries a node calls: AES under the common key and the 8-bit CRC.
-/

open Memory

namespace LCore

/-- The configuration of one node. -/
structure Device where
  /-- `ADDRESS` -/
  address : UInt8
  /-- `NET_SIZE` -/
  netSize : ℕ
  /-- `routing_table` -/
  routingTable : UInt8 → ℤ
  aes : Aes
  /-- `CRC8::add` on a string of bytes after `reset`, then `getCRC` -/
  crc : List UInt8 → UInt8

/-- What the nodes of one network share, and their routing tables. The node with address `a`
runs the code with `ADDRESS` equal to `a`. -/
structure Config where
  netSize : ℕ
  tables : UInt8 → UInt8 → ℤ
  aes : Aes
  crc : List UInt8 → UInt8

/-- The node of a network with a given address. -/
def Config.device (cfg : Config) (address : UInt8) : Device where
  address := address
  netSize := cfg.netSize
  routingTable := cfg.tables address
  aes := cfg.aes
  crc := cfg.crc

/-- The network of `n` nodes in which everyone reaches everyone directly. -/
def Config.direct (n : ℕ) (aes : Aes) (crc : List UInt8 → UInt8) : Config :=
  ⟨n, fun _ destination => destination.toNat, aes, crc⟩

namespace Radio

/-- The loop of `try_receive_bytes`: store the bytes of the packet from `pos` on. -/
def receiveLoop : List UInt8 → ℕ → Mem UInt8 → Mem UInt8 × ℕ
  | [], pos, buf => (buf, pos)
  | b :: rest, pos, buf => receiveLoop rest (pos + 1) (write buf pos b)

/-- `try_receive_bytes`: the buffer and the number of bytes received. The packet is empty when
the radio holds none, or is busy sending. -/
def tryReceiveBytes (buf : Mem UInt8) (packet : List UInt8) : Mem UInt8 × UInt16 :=
  if UInt16.ofNat packet.length = 0 then
    (buf, 0)
  else
    let r := receiveLoop packet 0 buf
    (r.1, UInt16.ofNat r.2)

/-- `send_bytes`: the packet that goes on the air. -/
def sendBytes (buf : Mem UInt8) (bufSize : ℕ) : List UInt8 :=
  cells buf bufSize

end Radio

namespace Routing

/-- `enum Receive_result`. -/
inductive ReceiveResult
  | gotNothing
  | received
  | forwarded
  | gotBadAddress
  | ttlExpired
  deriving DecidableEq

/-- `send`: the frame with its address segment, and the packet transmitted. -/
def send (dev : Device) (destination : UInt8) (frame : Mem UInt8) (frameSize : UInt8) :
    Mem UInt8 × List UInt8 :=
  let frame := write frame framePosSendAddr dev.address
  let frame := write frame framePosDestAddr destination
  let frame := write frame framePosNextAddr (UInt8.ofInt (dev.routingTable destination))
  (frame, Radio.sendBytes frame frameSize.toNat)

/-- `_forward`: the result, the frame, and the packet transmitted. -/
def forward (dev : Device) (frame : Mem UInt8) (frameSize : UInt8) :
    ReceiveResult × Mem UInt8 × Option (List UInt8) :=
  if frame framePosTtl ≤ 0 then
    (.ttlExpired, frame, none)
  else
    let frame := write frame framePosTtl (frame framePosTtl - 1)
    let frame := write frame framePosNextAddr
      (UInt8.ofInt (dev.routingTable (frame framePosDestAddr)))
    (.forwarded, frame, some (Radio.sendBytes frame frameSize.toNat))

/-- `try_receive`: the result, the frame with its size, and the packet transmitted. -/
def tryReceive (dev : Device) (buf : Mem UInt8) (packet : List UInt8) :
    ReceiveResult × LoraFrame × Option (List UInt8) :=
  let r := Radio.tryReceiveBytes buf packet
  let buf := r.1
  let frameSize : UInt8 := r.2.toUInt8
  if frameSize > 0 ∧ buf framePosNextAddr = dev.address then
    if buf framePosDestAddr = dev.address then
      (.received, ⟨buf, frameSize⟩, none)
    else if (buf framePosDestAddr).toNat < dev.netSize then
      let f := forward dev buf frameSize
      (f.1, ⟨f.2.1, frameSize⟩, f.2.2)
    else
      (.gotBadAddress, ⟨buf, frameSize⟩, none)
  else
    (.gotNothing, ⟨buf, frameSize⟩, none)

end Routing

end LCore
