import EventQuery.Config.Json
import EventQuery.Latency.Duration
import EventQuery.Latency.Percentile
import EventQuery.Latency.Workload
import EventQuery.Main
import EventQuery.Proofs.MeaningPreservation
import EventQuery.Proofs.NoInjection
import EventQuery.Proofs.ParserCompleteness
import EventQuery.Proofs.FailureClassification
import EventQuery.Proofs.StrictMode
import EventQuery.Proofs.Offences
import EventQuery.Proofs.SoftErrors
import EventQuery.Proofs.EmbeddedErrors
import EventQuery.Proofs.SqlFragment
import EventQuery.Proofs.SqlReading
import EventQuery.Proofs.ExtractionAgreement
import EventQuery.Proofs.LikePatterns
import EventQuery.Proofs.Peg
import EventQuery.Proofs.PegTokens
import EventQuery.Proofs.PegAgreement
import EventQuery.Proofs.QuantityErrors
import EventQuery.Proofs.Parentheses
import EventQuery.Proofs.DialectGrowth
import EventQuery.Proofs.StoreRuns
import EventQuery.Proofs.Sessions
import EventQuery.Proofs.DialectMaps
import EventQuery.Proofs.PassOrder
import EventQuery.Proofs.PatternMeaning
import EventQuery.Proofs.ReadingDepth
import EventQuery.Proofs.CategoryTest
import EventQuery.Proofs.UniqueFolding
import EventQuery.Proofs.ListForms
import EventQuery.Proofs.SourceTokens
import EventQuery.Proofs.Leaves
import EventQuery.Proofs.Contexts
import EventQuery.Proofs.StringLiterals
import EventQuery.Proofs.BinaryRounding
import EventQuery.Proofs.ShortestDecimal
import EventQuery.Proofs.LiteralPlaces
import EventQuery.Proofs.IntegerLiterals
import EventQuery.Proofs.LetterCase
import EventQuery.Proofs.EmptyClauses
import EventQuery.Proofs.SchemaConsistency
import EventQuery.Proofs.BatchLines
import EventQuery.Proofs.OrderStatistics
import EventQuery.Proofs.PatternReplacements
