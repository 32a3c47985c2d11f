import GoIpfs.StepRun
import GoIpfs.LinkReach
import GoIpfs.GraphWalk
import GoIpfs.Collector
import GoIpfs.CollectorTransition
import GoIpfs.CollectorSafety
import GoIpfs.CollectorTermination
import GoIpfs.CollectorAbort
import GoIpfs.CollectorSweep
import GoIpfs.CollectorMarks
import GoIpfs.CollectorAsync
import GoIpfs.MfsCollection
import GoIpfs.Effects
import GoIpfs.GoPath
import GoIpfs.Mfs
import GoIpfs.MfsTree
import GoIpfs.MfsRefinement
import GoIpfs.Adder
import GoIpfs.AdderTree
import GoIpfs.AdderSafety
import GoIpfs.AdderPins
import GoIpfs.PinningApi
import GoIpfs.Peering
import GoIpfs.PeeringReconnect
import GoIpfs.PeeringStop
import GoIpfs.TwoRuns
import GoIpfs.GoJson
import GoIpfs.GoStruct
import GoIpfs.GoEqual
import GoIpfs.GoEncode
import GoIpfs.GoAlike
import GoIpfs.GoConceal
import GoIpfs.Config
import GoIpfs.RepoConfig
import GoIpfs.ConfigCommands
import GoIpfs.ConfigFilters
import GoIpfs.ConfigText
import GoIpfs.ConfigSecrets
import GoIpfs.ConfigReplace
import GoIpfs.OnlyOne
import GoIpfs.OnlyOneCalls
import GoIpfs.RepoLifecycle
import GoIpfs.RepoRelease
import GoIpfs.GoKeys
import GoIpfs.ConfigKeys
import GoIpfs.FiniteDag
import GoIpfs.Refs
import GoIpfs.RefsWalk
import GoIpfs.RefsUnique
import GoIpfs.RefsPaths
import GoIpfs.PinVerify
import GoIpfs.CidV0V1
import GoIpfs.CidV0V1Reads
import GoIpfs.CollectorCidV0V1
import GoIpfs.GoBytes
import GoIpfs.GoUrl
import GoIpfs.GoUrlEscape
import GoIpfs.GoUrlRoundTrip
import GoIpfs.GoUrlReparse
import GoIpfs.Hostname
import GoIpfs.HostnameUrl
import GoIpfs.HostnameDetails
import GoIpfs.StreamRegistry
import GoIpfs.StreamCopy
import GoIpfs.RmBlocks
import GoIpfs.CallLoop
import GoIpfs.PluginLoader
import GoIpfs.Migrations
import GoIpfs.BootstrapPeers
import GoIpfs.BootstrapRound
import GoIpfs.BootstrapRuns
import GoIpfs.ConfigEdits
import GoIpfs.SwarmFilters
import GoIpfs.TarFormat
import GoIpfs.TarRoundTrip
import GoIpfs.GoPathParts
import GoIpfs.MfsResolve
import GoIpfs.GatewayWrite
import GoIpfs.GatewayWriteOutcome
import GoIpfs.GoJsonText
import GoIpfs.DatastoreSpec
import GoIpfs.DatastoreSpecInvariance
import GoIpfs.ProvideRec
import GoIpfs.GoInt
import GoIpfs.PeeringBackoff
import GoIpfs.LazySeek
import GoIpfs.CollectorWatermark
import GoIpfs.HostnameLabel
import GoIpfs.GoUtf8
import GoIpfs.GoRegexp
import GoIpfs.HostnamePatterns
import GoIpfs.HostnameOrder
import GoIpfs.PinLs
import GoIpfs.GoReader
import GoIpfs.TarStream
import GoIpfs.Cat
import GoIpfs.Pretty404
import GoIpfs.FuseRename
import GoIpfs.RepoVerify
import GoIpfs.P2pForward
import GoIpfs.FuseMounts
import GoIpfs.ConfigScrub
import GoIpfs.WalkBlock
import GoIpfs.DatastoreSpecPanic
import GoIpfs.PathArguments
import GoIpfs.FdLimit
import GoIpfs.PeerLog
import GoIpfs.ReqLog
import GoIpfs.CollectorRepeat
