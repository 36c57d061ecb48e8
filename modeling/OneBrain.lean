import OneBrain.Engine.Outcomes
import OneBrain.Engine.Speculation
import OneBrain.Models.TensorRanges
import OneBrain.Cluster.Recruit
import OneBrain.Cluster.Failed
import OneBrain.Cluster.Rejoin
import OneBrain.Cluster.Activation
import OneBrain.Scheduler.Forced
import OneBrain.Scheduler.RttOnly
import OneBrain.Scheduler.Selection
import OneBrain.Engine.Rounds
import OneBrain.Mesh.Unpair
import OneBrain.Mesh.Converge
import OneBrain.Mesh.Agreement
import OneBrain.Models.Manifest
import OneBrain.Logistics.RpcCache
import OneBrain.Logistics.ModelKeys
import OneBrain.Models.RangeFetch
import OneBrain.Scheduler.Shares
import OneBrain.Scheduler.Demand
import OneBrain.Models.RangePlans
import OneBrain.Logistics.HeaderReaders
import OneBrain.Api.Answers
import OneBrain.Api.RequestLog
import OneBrain.Models.SplitNames
