import Mixnet.Termination
import Mixnet.HelloWave
import Mixnet.FloodStorm
import Mixnet.Reelection
import Mixnet.PortWiring
import Mixnet.MessageFraming
import Mixnet.Advertisement
import Mixnet.NodeClock
import Mixnet.MessageCodec
import Mixnet.Orchestration
import Mixnet.Requests
import Mixnet.LinkState
import Mixnet.Capture
import Mixnet.Lockstep
import Mixnet.ArrivalOrder
import Mixnet.PathLength
import Mixnet.PortNumbers
import Mixnet.PacketAccess
import Mixnet.TestcaseCalls
import Mixnet.LinkCalls
import Mixnet.MessageLength
import Mixnet.Collector
import Mixnet.QueueProgress
import Mixnet.ByteDrain
import Mixnet.LinkFailures
import Mixnet.FloodDelivery
