import LibSwim.Cluster.Addresses
import LibSwim.Cluster.Dissemination
import LibSwim.Cluster.Flood
import LibSwim.Cluster.Handshake
import LibSwim.Cluster.Incarnation
import LibSwim.Cluster.Quiescence
import LibSwim.Cluster.Refutation
import LibSwim.Cluster.Relays
import LibSwim.Cluster.Storage
import LibSwim.Cluster.Survival
import LibSwim.Gossip.Attached
import LibSwim.Gossip.Piggyback
import LibSwim.Run.Acknowledged
import LibSwim.Run.Death
import LibSwim.Run.Frame
import LibSwim.Run.Growth
import LibSwim.Run.IndirectProbe
import LibSwim.Run.Insertion
import LibSwim.Run.LastSeen
import LibSwim.Run.Leave
import LibSwim.Run.Probe
import LibSwim.Run.Quota
import LibSwim.Run.Recipients
import LibSwim.Run.Schedule
import LibSwim.Run.Shuffle
import LibSwim.Run.Suspicion
import LibSwim.Run.Validity
import LibSwim.Run.Witness
import LibSwim.Server.Lifecycle
import LibSwim.Server.Refinement
import LibSwim.Wire.Bounds
import LibSwim.Wire.Header
import LibSwim.Wire.Truncated
