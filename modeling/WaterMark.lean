import WaterMark.Library.TaggedLog
import WaterMark.Library.CommonStream
import WaterMark.Library.ChannelNetwork
import WaterMark.Library.CheckedInt
import WaterMark.Library.SharedQueue
import WaterMark.Library.MessageLoop
import WaterMark.Images.Loading
import WaterMark.Pixels.Stamp
import WaterMark.Pixels.Stamped
import WaterMark.Pixels.Split
import WaterMark.Pixels.ChunkLoops
import WaterMark.Pixels.WholePicture
import WaterMark.Pixels.Tiling
import WaterMark.Seq.ClosedForm
import WaterMark.Pixels.IntOffsets
import WaterMark.Pixels.Sizes
import WaterMark.Queue.Blocking
import WaterMark.Gather.Pool
import WaterMark.Gather.Merge
import WaterMark.Gather.Loop
import WaterMark.Maps.Worker
import WaterMark.Maps.Sender
import WaterMark.Maps.Gather
import WaterMark.Maps.Network
import WaterMark.Maps.Flow
import WaterMark.Maps.Events
import WaterMark.Maps.Shared
import WaterMark.Maps.SharedEnd
import WaterMark.Map
import WaterMark.Map.Output
import WaterMark.FarmMap
import WaterMark.FarmMap.OnDemand
import WaterMark.Gather.Threads
import WaterMark.FarmMap.Configuration
import WaterMark.FarmMap.Routing
import WaterMark.Farm.Worker
import WaterMark.Farm.Protocol
import WaterMark.FastFlow.Collector
import WaterMark.FastFlow.Network
import WaterMark.FastFlow.Flow
import WaterMark.FastFlow.Map
import WaterMark.FastFlow.MapSaves
import WaterMark.Library.FreedReads
import WaterMark.FastFlow.Records
import WaterMark.FastFlow.FarmMap
import WaterMark.Pictures.Simulation
import WaterMark.Pictures.Maps
import WaterMark.Pictures.Versions
import WaterMark.Pictures.Farm
import WaterMark.Pictures.FastFlow
import WaterMark.Pictures.FastFlowFarm
import WaterMark.Queue.Versions
import WaterMark.Library.CircularWindow
import WaterMark.Library.OwnSteps
import WaterMark.FastFlow.SwsrBuffer
import WaterMark.FastFlow.UnboundedBuffer
import WaterMark.FastFlow.UnboundedPush
import WaterMark.FastFlow.UnboundedPop
import WaterMark.FastFlow.UnboundedFifo
import WaterMark.FastFlow.UnboundedCalls
import WaterMark.Library.Attempts
import WaterMark.Library.FairRuns
import WaterMark.Library.EndOfStream
import WaterMark.FastFlow.Channels
import WaterMark.FastFlow.ChannelRuns
import WaterMark.FastFlow.FairChannels
import WaterMark.FastFlow.RunTime
import WaterMark.FastFlow.EndOfStream
import WaterMark.FastFlow.OnChannels
import WaterMark.FastFlow.RecordsOnChannels
