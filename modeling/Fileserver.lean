import Fileserver.Lib.System
import Fileserver.Lib.Link
import Fileserver.Lib.GoBackN
import Fileserver.Lib.Retry
import Fileserver.Lib.ByteOrder
import Fileserver.Packet
import Fileserver.Cksum
import Fileserver.Server
import Fileserver.Window
import Fileserver.Client
import Fileserver.Receiver
import Fileserver.Network
import Fileserver.Session
import Fileserver.Refinement
import Fileserver.Transfer
import Fileserver.Flow
import Fileserver.Recovery
import Fileserver.Parent
import Fileserver.Isolation
import Fileserver.World
import Fileserver.Handshake
import Fileserver.Steps
import Fileserver.Told
import Fileserver.Sent
import Fileserver.Opening
import Fileserver.OnlyChild
import Fileserver.Established
import Fileserver.Peers
import Fileserver.Ports
import Fileserver.OnlyData
import Fileserver.Exchange
import Fileserver.Completion
import Fileserver.Connect
import Fileserver.Sizes
import Fileserver.Outcome
import Fileserver.Order
import Fileserver.Reread
import Fileserver.Retries
import Fileserver.Damage
import Fileserver.Cumulative
import Fileserver.Redirect
import Fileserver.Unset
import Fileserver.StopWait.Comm
import Fileserver.StopWait.Phases
import Fileserver.StopWait.Numbering
import Fileserver.StopWait.Delivery
import Fileserver.StopWait.Acknowledge
import Fileserver.StopWait.Corruption
import Fileserver.Endian
import Fileserver.Delivered
import Fileserver.InOrder
import Fileserver.EndToEnd
import Fileserver.Rescue
import Fileserver.Effort
import Fileserver.StopWait.Spinning
import Fileserver.StopWait.Transparent
import Fileserver.StopWait.Rounds
import Fileserver.Neighbours
import Fileserver.Faults
import Fileserver.Sockets
import Fileserver.Large
import Fileserver.Transcript
import Fileserver.Cost
