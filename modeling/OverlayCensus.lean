import OverlayCensus.Overlay.Builder
import OverlayCensus.Overlay.File
import OverlayCensus.Overlay.Arena
import OverlayCensus.Overlay.Reachable
import OverlayCensus.SlotCache
import OverlayCensus.Engine
import OverlayCensus.Network
import OverlayCensus.Frame
import OverlayCensus.Connections
import OverlayCensus.Peer
import OverlayCensus.Registry
import OverlayCensus.Cluster
import OverlayCensus.Main
import OverlayCensus.Proofs.FloodTotals
import OverlayCensus.Proofs.FloodCoverage
import OverlayCensus.Proofs.FloodExactness
import OverlayCensus.Proofs.FloodTrees
import OverlayCensus.Proofs.AntiEntropy
import OverlayCensus.Proofs.Quiescence
import OverlayCensus.Proofs.WalkToken
import OverlayCensus.Proofs.FloodBall
import OverlayCensus.Proofs.DistanceQuiescence
import OverlayCensus.Proofs.LocationQuiescence
import OverlayCensus.Proofs.LocationChurn
import OverlayCensus.Proofs.LocationSearch
import OverlayCensus.Proofs.DistanceSearch
import OverlayCensus.Proofs.MarkHistory
import OverlayCensus.Proofs.SlotLinks
import OverlayCensus.Proofs.SlotLayout
import OverlayCensus.Proofs.SlotBounds
import OverlayCensus.Proofs.SlotRefinement
import OverlayCensus.Proofs.OverlayLinks
import OverlayCensus.Proofs.OverlayReachable
import OverlayCensus.Proofs.OverlayBuild
import OverlayCensus.Proofs.WireDelimiting
import OverlayCensus.Proofs.WireRelay
import OverlayCensus.Proofs.HopBounds
import OverlayCensus.Proofs.ClusterCheck
import OverlayCensus.Proofs.OverlayFile
import OverlayCensus.Proofs.OverlayEdges
import OverlayCensus.Proofs.OverlayArena
import OverlayCensus.Proofs.RegistryCalls
import OverlayCensus.Proofs.RegistryReports
import OverlayCensus.Proofs.OverlaySatisfiable
import OverlayCensus.Proofs.QueryIsolation
import OverlayCensus.Proofs.Framing
import OverlayCensus.Proofs.CacheInclusion
import OverlayCensus.Proofs.LocationKeys
import OverlayCensus.Proofs.GossipReplay
import OverlayCensus.Proofs.Reseeding
import OverlayCensus.Proofs.OwnEntries
import OverlayCensus.Proofs.LocationHistory
import OverlayCensus.Proofs.OverlayConnected
import OverlayCensus.Proofs.OverlayRetarget
import OverlayCensus.Proofs.DialedOnce
import OverlayCensus.Proofs.OverlayRing
import OverlayCensus.Proofs.ResultHistory
import OverlayCensus.Proofs.RegistryRefusals
import OverlayCensus.Proofs.RegistryInventories
import OverlayCensus.Proofs.DeviceStrings
import OverlayCensus.Proofs.CommandGrammar
import OverlayCensus.Proofs.SyntheticOverlays
import OverlayCensus.Proofs.RegistryAddress
import OverlayCensus.Proofs.AddressKeys
import OverlayCensus.Proofs.InventoryFilling
