import NamedData.Proofs.BackOff
import NamedData.Settings.Reading
import NamedData.Strategy.Scripted
import NamedData.ContentStore.Basic
import NamedData.Tables.Walk
import NamedData.DeadNonceList
import NamedData.Face.InProcess
import NamedData.Name.Uri
import NamedData.Packet.Digest
import NamedData.Packet.Matching
import NamedData.Policy.Region
import NamedData.Policy.Unsolicited
import NamedData.Time.Clocks
import NamedData.Timer
import NamedData.Forwarder.Basic
import NamedData.Forwarder.Expiry
import NamedData.Forwarder.IncomingData
import NamedData.Forwarder.IncomingInterest
import NamedData.Forwarder.IncomingNack
import NamedData.Forwarder.Packets
import NamedData.Proofs.Admission
import NamedData.Proofs.Answers
import NamedData.Proofs.Arena
import NamedData.Proofs.Closing
import NamedData.Proofs.Delivery
import NamedData.Proofs.Due
import NamedData.Proofs.EntryTimers
import NamedData.Proofs.Flow
import NamedData.Proofs.FlowBalance
import NamedData.Proofs.Frames
import NamedData.Proofs.Index
import NamedData.Proofs.Lookup
import NamedData.Proofs.Moves
import NamedData.Proofs.NameTree
import NamedData.Proofs.Pipelines
import NamedData.Proofs.Preservation
import NamedData.Proofs.Records
import NamedData.Proofs.Runs
import NamedData.Proofs.Satisfaction
import NamedData.Proofs.Timing
import NamedData.Proofs.Validity
import NamedData.Proofs.FullName
import NamedData.Proofs.Deeds
import NamedData.Proofs.Doings
import NamedData.Proofs.Conduct
import NamedData.Proofs.HostScope
import NamedData.Proofs.Deadlines
import NamedData.Proofs.Patience
import NamedData.Proofs.DeadNonces
import NamedData.Proofs.Sendings
import NamedData.Proofs.Entries
import NamedData.Proofs.NonceRecords
import NamedData.Proofs.LoopRejection
import NamedData.Proofs.LoopSuppression
import NamedData.Proofs.TreeOrder
import NamedData.Proofs.CacheList
import NamedData.Proofs.CacheRefinement
import NamedData.Proofs.Receptions
import NamedData.Proofs.Arrivals
import NamedData.Proofs.Routing
import NamedData.Proofs.PeerRecords
import NamedData.Proofs.NewNextHops
import NamedData.Proofs.TaggedInterests
import NamedData.Proofs.CacheLookup
import NamedData.Proofs.Tokens
import NamedData.Proofs.TableRuns
import NamedData.Proofs.DataLookup
import NamedData.Proofs.RouteMap
import NamedData.Proofs.Aggregation
import NamedData.Proofs.References
import NamedData.Proofs.DeadNoncePolicy
import NamedData.Proofs.CanonicalForm
import NamedData.Proofs.UriRoundTrip
import NamedData.Proofs.Tally
import NamedData.Proofs.Conservation
import NamedData.Proofs.LinkViews
import NamedData.Proofs.LinkPipelines
import NamedData.Proofs.IntactLinks
import NamedData.Proofs.Refusals
import NamedData.Proofs.AnyStrategy
import NamedData.Proofs.Tending
import NamedData.Proofs.Reachability
import NamedData.Proofs.Progress
import NamedData.Proofs.LoopDecision
import NamedData.Proofs.StoreAnswers
import NamedData.Proofs.NackAcceptance
import NamedData.Proofs.NackPropagation
import NamedData.Proofs.DueEntries
import NamedData.Proofs.FaceRemoval
import NamedData.Proofs.RouteOffers
import NamedData.Proofs.UriGrammar
import NamedData.Proofs.StrategyMap
import NamedData.Proofs.HopChoices
import NamedData.Proofs.BestRouteChoice
import NamedData.Proofs.MulticastFanOut
import NamedData.Proofs.KeyedLists
import NamedData.Proofs.NonceMemory
import NamedData.Proofs.Histories
import NamedData.Proofs.TimerCalls
import NamedData.Proofs.TimerIndex
import NamedData.Proofs.ArenaCalls
import NamedData.Proofs.FaceNumbers
import NamedData.Proofs.HashSeparation
import NamedData.Proofs.InProcessCalls
import NamedData.Proofs.TreeRoutines
import NamedData.Proofs.PathCalls
import NamedData.Proofs.TreeShape
