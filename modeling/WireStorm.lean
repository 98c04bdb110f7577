import WireStorm.Lib.Transition
import WireStorm.Lib.OnesComplement
import WireStorm.Lib.Framing
import WireStorm.Lib.Simulation
import WireStorm.Lib.Broker
import WireStorm.Lib.Mutex
import WireStorm.Lib.Heap
import WireStorm.Timestamp
import WireStorm.Bitmask
import WireStorm.Ctmp.Message
import WireStorm.Ctmp.Checksum
import WireStorm.Ctmp.Stream
import WireStorm.Ctmp.ReadMsg
import WireStorm.Ctmp.Parse
import WireStorm.Ctmp.Accept
import WireStorm.Ctmp.ByteOrder
import WireStorm.Ctmp.Memory
import WireStorm.Ctmp.Sensitive
import WireStorm.Ctmp.Corrupted
import WireStorm.Ctmp.Forward
import WireStorm.Ctmp.Versions
import WireStorm.Source
import WireStorm.Pool
import WireStorm.Traverse
import WireStorm.Order
import WireStorm.Expiry
import WireStorm.Hangup
import WireStorm.Idle
import WireStorm.Isolation
import WireStorm.Wakeup
import WireStorm.Cleanup
import WireStorm.Reclaim
import WireStorm.Locks
import WireStorm.Deadlock
import WireStorm.Dispatch
import WireStorm.Broadcast
import WireStorm.Intake
import WireStorm.Relay
import WireStorm.Gapless
import WireStorm.CatchUp
import WireStorm.Drain
import WireStorm.QueueMemory
import WireStorm.Memory
