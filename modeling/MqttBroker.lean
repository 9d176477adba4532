import MqttBroker.Cluster.Recommit
import MqttBroker.Cluster.Paging
import MqttBroker.Cluster.Collection
import MqttBroker.Core.Reserved
import MqttBroker.Core.Subscriptions
import MqttBroker.Core.Shared
import MqttBroker.Hub.Backlog
import MqttBroker.Hub.RetainedFence
import MqttBroker.Hub.RetainedLog
import MqttBroker.Codec.Validation
import MqttBroker.Codec.Output
import MqttBroker.Codec.CutShort
import MqttBroker.Hub.RetainedOrder
import MqttBroker.Cluster.SwimAuth
import MqttBroker.Cluster.Replay
import MqttBroker.Cluster.Decommission
import MqttBroker.Backup.RoundTrip
import MqttBroker.Backup.Rotation
import MqttBroker.RuleState.LocalMap
import MqttBroker.RuleState.LocalExpiry
import MqttBroker.Cluster.LeaseGroup
import MqttBroker.Cluster.PlacementMemo
import MqttBroker.Cluster.SwimSync
import MqttBroker.Hub.ForwardIndex
import MqttBroker.Hub.ForwardRepeats
import MqttBroker.Hub.PacketIdBlocks
import MqttBroker.Auth.Connect
import MqttBroker.Hub.RetainedDischarge
import MqttBroker.Hub.HandoffCredit
import MqttBroker.Hub.Aliases
import MqttBroker.Rules.SketchCounts
import MqttBroker.Storage.RetainedScan
import MqttBroker.Storage.LogRuns
import MqttBroker.Storage.MemoryRuns
import MqttBroker.Rules.CrdtDeletes
import MqttBroker.Rules.CrdtGossip
import MqttBroker.Cluster.LeaseMembership
import MqttBroker.Bridge.HandoffOrder
import MqttBroker.RuleState.LocalOnce
import MqttBroker.Hub.ElisionWaits
import MqttBroker.Hub.ReplayOnce
import MqttBroker.RuleState.CopyMerges
import MqttBroker.Observability.AuditChain
import MqttBroker.Cluster.JointQuorum
import MqttBroker.Cluster.RecoveredWrites
import MqttBroker.Cluster.ReadRefines
import MqttBroker.Bridge.AckOrigin
