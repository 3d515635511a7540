import RouteScript.Session
import RouteScript.Report
import RouteScript.Main
import RouteScript.Proofs.Table
import RouteScript.Proofs.CallGraph
import RouteScript.Proofs.CallGraphRestriction
import RouteScript.Proofs.CallGraphHistory
import RouteScript.Proofs.Reachability
import RouteScript.Proofs.Linking
import RouteScript.Proofs.Knowledge
import RouteScript.Proofs.Utf8
import RouteScript.Proofs.Uri
import RouteScript.Proofs.Run
import RouteScript.Proofs.HistoryIndependence
import RouteScript.Proofs.FaultIsolation
import RouteScript.Proofs.VariableIndex
import RouteScript.Proofs.VariableDiagnostics
import RouteScript.Proofs.Offsets
import RouteScript.Proofs.Coalesce
import RouteScript.Proofs.Weave
import RouteScript.Proofs.ChangeSummary
import RouteScript.Proofs.EditorOwnership
import RouteScript.Proofs.PathSpelling
import RouteScript.Proofs.Lexing
import RouteScript.Proofs.DocumentOrder
import RouteScript.Proofs.Shape
import RouteScript.Proofs.EngineCalls
import RouteScript.Proofs.Scanner
import RouteScript.Proofs.Forms
import RouteScript.Proofs.Occurrences
import RouteScript.Proofs.CallEdges
import RouteScript.Proofs.ClosedDocuments
import RouteScript.Proofs.Debouncing
import RouteScript.Proofs.Positions
import RouteScript.Proofs.OccurrenceRanges
import RouteScript.Proofs.TokenOrder
import RouteScript.Proofs.Reading
import RouteScript.Proofs.Statements
import RouteScript.Proofs.Paths
import RouteScript.Proofs.RangeExtraction
import RouteScript.Proofs.CalledNames
import RouteScript.Proofs.References
import RouteScript.Proofs.MatchBoundaries
import RouteScript.Proofs.Rounding
import RouteScript.Proofs.Splices
import RouteScript.PseudoVar.ByteScanner
import RouteScript.Proofs.ScanSafety
import RouteScript.Proofs.Identity
import RouteScript.Proofs.UriKeys
import RouteScript.Proofs.LeadingLiterals
import RouteScript.Proofs.EntryNames
import RouteScript.Proofs.ImportResolution
import RouteScript.Proofs.ScriptSearch
import RouteScript.Proofs.CallAtOffset
import RouteScript.Proofs.Parameters
import RouteScript.Proofs.ImportSpelling
import RouteScript.Proofs.CallbackDiagnostics
import RouteScript.Proofs.LiteralParts
import RouteScript.Proofs.CallbackHandlers
import RouteScript.Proofs.TableDiagnostics
import RouteScript.Proofs.VariableReferences
import RouteScript.Proofs.IndexQueue
import RouteScript.Proofs.TokenMerge
import RouteScript.Proofs.ReportSpans
import RouteScript.Proofs.OpenSubscript
import RouteScript.Proofs.Offers
import RouteScript.Proofs.Scopes
