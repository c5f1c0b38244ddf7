import Fcp.Aggregation.CallbackOrder
import Fcp.Aggregation.GroupingCorrectness
import Fcp.Aggregation.ReportedInputs
import Fcp.Aggregation.TensorRoundTrip
import Fcp.ArtifactBuilding.CheckpointUtils
import Fcp.Base.ClockWakeups
import Fcp.Base.FutureResolution
import Fcp.Base.PoolProgress
import Fcp.Base.WallClockStopwatch
import Fcp.Base.Worker
import Fcp.Client.Cache.Expiry
import Fcp.Client.Cache.SizeLimit
import Fcp.Client.ComputationId
import Fcp.Client.Engine.ExampleQueryPlanEngine
import Fcp.Client.Http.CurlContract
import Fcp.Client.Http.CurlHeaderBlocks
import Fcp.Client.Http.ResourceFetching
import Fcp.Client.Http.ResponseHandling
import Fcp.Client.Http.RetryWindows
import Fcp.Client.Http.UriEncoding
import Fcp.Client.OpStats.DbSize
import Fcp.Demo.PendingWaits
import Fcp.Dictionary.Dictionary
import Fcp.Protocol.GrpcChunkedBidiStream
import Fcp.SecAgg.Client.AdvertisedKeys
import Fcp.SecAgg.Client.AliveNeighbors
import Fcp.SecAgg.Server.AccumulatorCancel
import Fcp.SecAgg.Server.FailureBounds
import Fcp.SecAgg.Server.MaskedInputSums
import Fcp.SecAgg.Server.PackedSizes
import Fcp.SecAgg.Server.PrngMasks
import Fcp.SecAgg.Server.ReconstructionSafety
import Fcp.SecAgg.Server.SessionBinding
import Fcp.SecAgg.Server.ShareRouting
import Fcp.SecAgg.Shared.AesCtrPrng
import Fcp.SecAgg.Shared.LegacyKeys
import Fcp.SecAgg.Shared.MaskSeeds
import Fcp.SecAgg.Shared.MaskUniformity
import Fcp.SecAgg.Shared.PackedBytes
import Fcp.SecAgg.Shared.SampleCost
import Fcp.SecAgg.Shared.ShamirCaches
import Fcp.Tensorflow.AppendSlices
import Fcp.Tensorflow.FileDescriptorFilesystem
