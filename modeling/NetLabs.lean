import NetLabs.Library.Machine
import NetLabs.Library.Channel
import NetLabs.Library.ShortestPath
import NetLabs.Library.Stability
import NetLabs.Library.GreedyOrder
import NetLabs.Library.Parity
import NetLabs.Library.Loop
import NetLabs.Library.Binomial
import NetLabs.Library.Broadcast
import NetLabs.Library.Scan
import NetLabs.Model.File
import NetLabs.Model.Buffer
import NetLabs.LinkState.Costs
import NetLabs.LinkState.Router
import NetLabs.LinkState.Guard
import NetLabs.LinkState.Database
import NetLabs.LinkState.Agreement
import NetLabs.LinkState.History
import NetLabs.LinkState.Quiescence
import NetLabs.LinkState.Pass
import NetLabs.LinkState.Dijkstra
import NetLabs.LinkState.Shortest
import NetLabs.LinkState.Snapshot
import NetLabs.LinkState.Unreliable
import NetLabs.LinkState.Repair
import NetLabs.LinkState.Program
import NetLabs.LinkState.Convergence
import NetLabs.LinkState.Startup
import NetLabs.LinkState.Mutual
import NetLabs.LinkState.Staleness
import NetLabs.LinkState.Selection
import NetLabs.StopWait.Packet
import NetLabs.StopWait.Checksum
import NetLabs.StopWait.BitFlip
import NetLabs.StopWait.Client
import NetLabs.StopWait.Destination
import NetLabs.StopWait.Server
import NetLabs.StopWait.Network
import NetLabs.StopWait.Order
import NetLabs.StopWait.Delivery
import NetLabs.StopWait.Flips
import NetLabs.StopWait.Transfer
import NetLabs.StopWait.Acknowledgement
import NetLabs.StopWait.Termination
import NetLabs.StopWait.Completion
import NetLabs.UdpCopy.Programs
import NetLabs.UdpCopy.Network
import NetLabs.UdpCopy.Transfer
import NetLabs.UdpCopy.Repeats
import NetLabs.FileCopy.Copy
import NetLabs.FileCopy.Complete
import NetLabs.FileCopy.Threads
import NetLabs.FileCopy.Parallel
import NetLabs.Labs.WholeFile
import NetLabs.Labs.Datagrams
import NetLabs.Switching.Tail
import NetLabs.Switching.Values
import NetLabs.Switching.Load
