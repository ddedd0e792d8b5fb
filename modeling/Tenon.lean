import Tenon.Reasoning.Segments
import Tenon.Reasoning.Transition
import Tenon.Reasoning.Binary64
import Tenon.Core.Message
import Tenon.Core.Json
import Tenon.Core.MsgIr
import Tenon.Core.JsonPaths
import Tenon.Core.Protobuf
import Tenon.Core.RulePlan
import Tenon.Core.Sql
import Tenon.Core.RuleEval
import Tenon.Core.RuleCompile
import Tenon.Core.Footprint
import Tenon.Core.DecodePlans
import Tenon.Core.FastPath
import Tenon.Core.ConstantFolding
import Tenon.Core.Payload
import Tenon.Core.TopicMatch
import Tenon.Core.TopicTrie
import Tenon.Core.TopicCache
import Tenon.Core.RuleEngine
import Tenon.Core.EngineMatching
import Tenon.Core.EngineIds
import Tenon.Core.EngineOutcome
import Tenon.Core.EngineIsolation
import Tenon.Core.MqttStartup
import Tenon.Reasoning.Channel
import Tenon.Core.MqttDelivery
import Tenon.Oss.EvalPipeline
import Tenon.Oss.Acks
import Tenon.Oss.Daemon
import Tenon.Core.PredicateValue
import Tenon.Core.SharedDecode
import Tenon.Core.RuleFile
import Tenon.Core.AcceptedQueries
import Tenon.Core.SupportedPlans
import Tenon.Core.MqttTopics
import Tenon.Core.Projection
import Tenon.Core.ProtobufPlans
import Tenon.Oss.DeliveryAccount
import Tenon.Oss.Dispatcher
import Tenon.Core.TrieRemoval
import Tenon.Core.CacheRuns
import Tenon.Core.ProjectedColumns
import Tenon.Core.ComparisonLaws
import Tenon.Core.TopicLevels
import Tenon.Reasoning.Lines
import Tenon.Coordinator.ClientIds
import Tenon.Oss.ClientCount
import Tenon.Core.EvalCounters
import Tenon.Core.ImplicitPresence
import Tenon.Reasoning.Rewriting
import Tenon.Core.FromPatterns
import Tenon.Core.NormalizedSql
import Tenon.Core.RuleTexts
import Tenon.Core.MatchedSlots
import Tenon.Reasoning.Interleaving
import Tenon.Reasoning.RetryLoop
import Tenon.Core.LatencyMetrics
import Tenon.Core.RuleTable
import Tenon.Reasoning.Machine
import Tenon.Core.StageMetrics
import Tenon.Core.ParallelEval
import Tenon.Core.PlanTypes
import Tenon.Core.TypedRules
import Tenon.Core.Diagnostics
import Tenon.Core.RuleOutcome
import Tenon.Reasoning.Ends
import Tenon.Core.MqttMessage
import Tenon.Oss.Provenance
import Tenon.Oss.Shutdown
import Tenon.Oss.Config
import Tenon.Oss.SinkMetrics
import Tenon.Reasoning.Files
import Tenon.Oss.Startup
import Tenon.Oss.RunningDaemon
import Tenon.Core.Conditions
import Tenon.Reasoning.Formula
import Tenon.Oss.MetricsEndpoint
import Tenon.Reasoning.Scan
import Tenon.Oss.CleanExit
import Tenon.Reasoning.Simulation
import Tenon.Oss.Threads
import Tenon.Core.Forwarding
import Tenon.Oss.FirstStart
import Tenon.Oss.StartConditions
import Tenon.Reasoning.XorLinear
