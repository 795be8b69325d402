import AxiomDaemon.Axiom.SegmentChildrenRefinement
import AxiomDaemon.Axiom.TotalTime
import AxiomDaemon.Protocol.Framing
import AxiomDaemon.Protocol.SharedConnection
import AxiomDaemon.Daemon.RegistryInvariant
import AxiomDaemon.Daemon.MetricAging
import AxiomDaemon.Daemon.Delivery
import AxiomDaemon.Daemon.CleanExit
import AxiomDaemon.Lib.Json
import AxiomDaemon.Lib.JsonText
import AxiomDaemon.Util.JsonEscape
import AxiomDaemon.Axiom.SegmentTraces
import AxiomDaemon.Axiom.TraceJson
import AxiomDaemon.Lib.Double
import AxiomDaemon.Axiom.SpanEventJson
import AxiomDaemon.Axiom.TxnDistributedTrace
import AxiomDaemon.Lib.JsonUnescaped
import AxiomDaemon.Util.MinmaxHeapOrder
import AxiomDaemon.Axiom.PayloadRoundTrip
import AxiomDaemon.Axiom.Slowsqls
import AxiomDaemon.Daemon.SlowSqlsTop
import AxiomDaemon.Daemon.MetricRules
import AxiomDaemon.Util.MetricTable
import AxiomDaemon.Daemon.MetricRenaming
import AxiomDaemon.Daemon.EventReservoir
import AxiomDaemon.Daemon.HarvestClose
import AxiomDaemon.Daemon.AppLimit
import AxiomDaemon.Axiom.Attributes
import AxiomDaemon.Daemon.Commands
import AxiomDaemon.Util.Hashmap
import AxiomDaemon.Axiom.AppHarvest
import AxiomDaemon.Axiom.TxnNaming
import AxiomDaemon.Sdk.App
import AxiomDaemon.Axiom.SegmentCount
import AxiomDaemon.Axiom.TxnTiming
import AxiomDaemon.Sdk.Segment
import AxiomDaemon.Util.Sql
import AxiomDaemon.Axiom.SegmentDatastore
import AxiomDaemon.Axiom.DatastorePrivacy
import AxiomDaemon.Util.Reply
import AxiomDaemon.Axiom.TxnSecurity
import AxiomDaemon.Axiom.TxnData
import AxiomDaemon.Axiom.DisabledData
import AxiomDaemon.Lib.Radix64
import AxiomDaemon.Util.Base64
import AxiomDaemon.Axiom.CrossProcess
import AxiomDaemon.Axiom.HeaderRoundTrip
import AxiomDaemon.Lib.CText
import AxiomDaemon.Util.SqlObfuscate
import AxiomDaemon.Util.SqlObfuscateRuns
import AxiomDaemon.Util.SqlComments
import AxiomDaemon.Util.SqlTable
import AxiomDaemon.Util.SqlNormalize
import AxiomDaemon.Util.EscapeBounds
import AxiomDaemon.Util.ParseMemory
import AxiomDaemon.Util.ParseBounds
import AxiomDaemon.Lib.IntervalMeasure
import AxiomDaemon.Axiom.ExclusiveTimeMeasure
import AxiomDaemon.Axiom.SegmentTermsExact
import AxiomDaemon.Axiom.TxnEnd
import AxiomDaemon.Axiom.ManualTiming
import AxiomDaemon.Axiom.SegmentExternal
import AxiomDaemon.Axiom.RuleTermination
import AxiomDaemon.Axiom.RuleBuffersSafe
import AxiomDaemon.Axiom.RuleFrame
import AxiomDaemon.Axiom.SegmentIterate
import AxiomDaemon.Axiom.SegmentSampling
import AxiomDaemon.Axiom.SpanSampling
import AxiomDaemon.Axiom.TransportDuration
import AxiomDaemon.Daemon.EventSplit
import AxiomDaemon.Lib.JsonDecode
import AxiomDaemon.Util.MetricSquares
import AxiomDaemon.Daemon.EventHarvestConfig
import AxiomDaemon.Daemon.ConnectApplication
import AxiomDaemon.Axiom.AccountTrust
import AxiomDaemon.Util.ObjectArray
import AxiomDaemon.Util.Url
import AxiomDaemon.Util.UrlPrivacy
import AxiomDaemon.Util.UrlDomain
import AxiomDaemon.Util.UrlProxy
import AxiomDaemon.Axiom.ContentType
import AxiomDaemon.Axiom.AttributeList
import AxiomDaemon.Axiom.PathHashes
import AxiomDaemon.Lib.HeapTies
import AxiomDaemon.Axiom.AnalyticsEvents
import AxiomDaemon.Daemon.FirstOfEquals
import AxiomDaemon.Daemon.ConfigDecoder
import AxiomDaemon.Daemon.ConfigGrammar
import AxiomDaemon.Daemon.ConfigConformance
import AxiomDaemon.Util.VectorOps
import AxiomDaemon.Lib.CMemory
import AxiomDaemon.Util.Buffer
import AxiomDaemon.Util.BufferQueue
import AxiomDaemon.Util.BufferPeekEnd
import AxiomDaemon.Util.Base64Bounds
import AxiomDaemon.Axiom.SegmentGraph
import AxiomDaemon.Lib.FlatbuffersFormat
import AxiomDaemon.Util.Flatbuffers
import AxiomDaemon.Util.FlatbuffersBuilder
import AxiomDaemon.Util.FlatbuffersObject
import AxiomDaemon.Util.FlatbuffersReturns
import AxiomDaemon.Lib.Growth
import AxiomDaemon.Util.FlatbuffersWriting
import AxiomDaemon.Lib.FlatbuffersRuntime
import AxiomDaemon.Axiom.CommandMessage
import AxiomDaemon.Axiom.AppinfoQuery
import AxiomDaemon.Protocol.SentMessages
import AxiomDaemon.Axiom.TxndataMetric
import AxiomDaemon.Axiom.TxndataEncode
import AxiomDaemon.Daemon.RulesAgree
import AxiomDaemon.Protocol.SentTransactions
import AxiomDaemon.Util.ObjectWriting
