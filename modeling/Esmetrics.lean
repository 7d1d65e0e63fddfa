import Esmetrics.Auth.Credentials
import Esmetrics.Auth.NormalizedPath
import Esmetrics.Auth.RetryLoop
import Esmetrics.Common.FloatToDecimal
import Esmetrics.Encoding.Precision
import Esmetrics.Encoding.VarintReaders
import Esmetrics.Encoding.VarintWriters
import Esmetrics.Esmagent.Conservation
import Esmetrics.Esmagent.DurableFifo
import Esmetrics.Esmagent.Kubernetes.Convergence
import Esmetrics.Esmagent.Scrape.DnsWire
import Esmetrics.Esmagent.Scrape.ExportedLabels
import Esmetrics.Esmagent.Scrape.Reconcile
import Esmetrics.Esmagent.Scrape.Staleness
import Esmetrics.Esmalert.FailedEvaluation
import Esmetrics.Esmalert.LabelIdentity
import Esmetrics.Esmalert.Manager
import Esmetrics.Esmalert.Restore
import Esmetrics.Esmctl.XorReads
import Esmetrics.Mergeset.BlockCache
import Esmetrics.Mergeset.MergeRun
import Esmetrics.Mergeset.PartSelection
import Esmetrics.Mergeset.TableSearch
import Esmetrics.Metricsql.Parser
import Esmetrics.Metricsql.Quoting
import Esmetrics.Promql.AggrLimit
import Esmetrics.Promql.Rollup
import Esmetrics.Promql.RollupResultCache
import Esmetrics.Protoparser.CsvScanner
import Esmetrics.Protoparser.PrometheusComment
import Esmetrics.Protoparser.Stream
import Esmetrics.Protoparser.Timestamps
import Esmetrics.Relabel.GraphiteTemplates
import Esmetrics.Relabel.LabelReferences
import Esmetrics.Select.ExportJson
import Esmetrics.Select.ExportPrometheus
import Esmetrics.Storage.BlockStream.MergeRun
import Esmetrics.Storage.CanonicalName
import Esmetrics.Storage.CivilDate
import Esmetrics.Storage.Index.CompositeFilters
import Esmetrics.Storage.Index.FiltersCache
import Esmetrics.Storage.Index.FiltersKey
import Esmetrics.Storage.Index.RegexpMatch
import Esmetrics.Storage.Index.RowMerge
import Esmetrics.Storage.PartStore
import Esmetrics.Storage.Partition.RawRows
import Esmetrics.Storage.SeriesMerge
import Esmetrics.Storage.Table
import Esmetrics.Streamaggr.Dedup
import Esmetrics.Streamaggr.FlushPlacement
import Esmetrics.Streamaggr.Windows
