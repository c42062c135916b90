import LCore.Lib.Memory
import LCore.Lib.Machine
import LCore.FrameSpec
import LCore.Cipher
import LCore.Lib.BigEndian
import LCore.Encryption
import LCore.Resync
import LCore.Routing
import LCore.Transport
import LCore.Frame
import LCore.Lib.Crc8
import LCore.Lib.Gf256
import LCore.Lib.SpNetwork
import LCore.Lib.Rijndael
import LCore.Lib.Word32
import LCore.Lib.Pattern
import LCore.AesTables
import LCore.AesKey
import LCore.AesBlock
import LCore.CipherKey
import LCore.Lib.Lts
import LCore.Lib.Network
import LCore.Lib.Simulation
import LCore.Lib.Budget
import LCore.Bounds
import LCore.Corruption
import LCore.MultiHop
import LCore.Node
import LCore.Actions
import LCore.Copies
import LCore.Padding
import LCore.Protocol
import LCore.Provenance
import LCore.Correspondence
import LCore.Refinement
import LCore.Traces
import LCore.Integrity
import LCore.AckSoundness
import LCore.AtMostOnce
import LCore.Link
import LCore.AtMostTwice
import LCore.Queue
import LCore.Script
import LCore.Delivery
import LCore.Lifetime
import LCore.Responses
import LCore.SendSizes
import LCore.TokenCheck
import LCore.Independence
import LCore.Residue
import LCore.ReplayWindow
import LCore.Indices
import LCore.Storm
import LCore.Reboot
import LCore.Recovery
import LCore.Flattened
import LCore.Relays
import LCore.Transparency
import LCore.Quiescence
import LCore.Letters
import LCore.Travel
import LCore.Views
import LCore.Exchanges
import LCore.InOrder
import LCore.Polls
import LCore.Mail
import LCore.Awaiting
import LCore.Leftover
import LCore.TokenHeader
import LCore.Lib.WrappingClock
import LCore.Timeout
import LCore.Rejection
import LCore.Splice
import LCore.Secrecy
