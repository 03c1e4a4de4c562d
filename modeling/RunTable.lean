import RunTable.Catalog
import RunTable.Column
import RunTable.Compile
import RunTable.Document
import RunTable.Double.Basic
import RunTable.Double.Shortest
import RunTable.Double.Text
import RunTable.Error
import RunTable.EvalError
import RunTable.Expr.Basic
import RunTable.Expr.Eval
import RunTable.Expr.Operators
import RunTable.Expr.Render
import RunTable.Field
import RunTable.Filter.Fields
import RunTable.Filter.Match
import RunTable.Filter.Operator
import RunTable.Filter.Query
import RunTable.Instant.Basic
import RunTable.Instant.Calendar
import RunTable.Instant.Relaxed
import RunTable.Instant.Text
import RunTable.Json.Basic
import RunTable.Json.Decode
import RunTable.Json.Order
import RunTable.Json.Printer
import RunTable.Json.Reader
import RunTable.NameSet
import RunTable.Params
import RunTable.Path
import RunTable.Pipeline.Group
import RunTable.Pipeline.Projection
import RunTable.Pipeline.Render
import RunTable.Pipeline.Run
import RunTable.Pipeline.Sort
import RunTable.Pipeline.Stage
import RunTable.Plan.Derived
import RunTable.Plan.FieldSets
import RunTable.Plan.MetricJoin
import RunTable.Plan.Needs
import RunTable.Plan.Paging
import RunTable.Proofs.Calendar
import RunTable.Proofs.ColumnIndependence
import RunTable.Proofs.ColumnValues
import RunTable.Proofs.CountAnswer
import RunTable.Proofs.DistinctValues
import RunTable.Proofs.EarlyPages
import RunTable.Proofs.FilterSpellings
import RunTable.Proofs.ForcedFields
import RunTable.Proofs.Frame
import RunTable.Proofs.GroupPartition
import RunTable.Proofs.Groups
import RunTable.Proofs.InstantText
import RunTable.Proofs.IntegerIds
import RunTable.Proofs.JoinBlock
import RunTable.Proofs.JsonText
import RunTable.Proofs.KeptFields
import RunTable.Proofs.ListAnswer
import RunTable.Proofs.ListPipeline
import RunTable.Proofs.Liveness
import RunTable.Proofs.MetricCells
import RunTable.Proofs.NamesApart
import RunTable.Proofs.NumberText
import RunTable.Proofs.Outcomes
import RunTable.Proofs.Overlays
import RunTable.Proofs.PageSizes
import RunTable.Proofs.PageTiling
import RunTable.Proofs.PathAccess
import RunTable.Proofs.PlannedFields
import RunTable.Proofs.ProjectedPaths
import RunTable.Proofs.ReferencedFields
import RunTable.Proofs.Relevance
import RunTable.Proofs.RequestParameters
import RunTable.Proofs.RowIdentity
import RunTable.Proofs.RowStages
import RunTable.Proofs.RunRows
import RunTable.Proofs.SelectionIndependence
import RunTable.Proofs.ShortestDecimal
import RunTable.Proofs.ShownRows
import RunTable.Proofs.SingleRun
import RunTable.Proofs.SortedRows
import RunTable.Proofs.StaleRuns
import RunTable.Proofs.StorageOrder
import RunTable.Proofs.StoredRecords
import RunTable.Proofs.StoredRuns
import RunTable.Proofs.StrippedFields
import RunTable.Proofs.Tables
import RunTable.Proofs.TestedValues
import RunTable.Proofs.UnfailingQueries
import RunTable.Proofs.UnpagedPipelines
import RunTable.Proofs.Upserts
import RunTable.Proofs.ValueEquality
import RunTable.Proofs.ValueOrder
import RunTable.Proofs.Writes
import RunTable.Proofs.WrittenReferences
import RunTable.Record.Metric
import RunTable.Record.Run
import RunTable.Record.Status
import RunTable.Request
import RunTable.Response
import RunTable.Service
import RunTable.Settings
import RunTable.Store
import RunTable.Table
import RunTable.Text.Blank
import RunTable.Text.Numeral
import RunTable.Text.Split
import RunTable.Word
