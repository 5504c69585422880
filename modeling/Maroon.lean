import Maroon.App.Consensus
import Maroon.Lib.Tiling
import Maroon.App.Commit
import Maroon.App.SelfOffsets
import Maroon.App.Delays
import Maroon.App.Answer
import Maroon.System.Network
import Maroon.System.Safety
import Maroon.System.Repair
import Maroon.System.Quiescence
import Maroon.Lib.Fuel
import Maroon.App.Asking
import Maroon.App.AskedPeers
import Maroon.App.Gossip
import Maroon.App.Panics
import Maroon.Common.Connections
import Maroon.Common.Protocols
import Maroon.Lib.Run
import Maroon.Network.Alive
import Maroon.Gateway.P2P
import Maroon.Common.KeySpace
import Maroon.App.Redelivery
import Maroon.Common.InvokerHandler
import Maroon.Lib.Simulation
import Maroon.Stack.Node
import Maroon.Stack.Layers
import Maroon.Stack.Requests
import Maroon.App.Progress
import Maroon.System.Progress
import Maroon.App.History
import Maroon.App.Confluence
import Maroon.System.Lossy
import Maroon.System.Convergence
import Maroon.Gateway.Core
import Maroon.Network.Causes
import Maroon.Stack.Deployment
import Maroon.Stack.Refines
import Maroon.Stack.Integrity
import Maroon.Stack.Running
import Maroon.Stack.Acknowledged
import Maroon.Stack.Mains
import Maroon.Stack.Settling
import Maroon.Stack.Durable
import Maroon.Stack.Reported
