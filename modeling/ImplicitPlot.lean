import ImplicitPlot.Formula.Printer
import ImplicitPlot.Main
import ImplicitPlot.Proofs.Machine.Height
import ImplicitPlot.Proofs.Machine.PlanCode
import ImplicitPlot.Proofs.Machine.Compile
import ImplicitPlot.Proofs.Interval.Enclosure
import ImplicitPlot.Proofs.Interval.PowerEnclosure
import ImplicitPlot.Proofs.Formula.Enclosure
import ImplicitPlot.Proofs.Plot.Crew
import ImplicitPlot.Proofs.Plot.EmptyPixels
import ImplicitPlot.Proofs.Scalar.Exact
import ImplicitPlot.Proofs.Formula.Grammar
import ImplicitPlot.Proofs.Formula.ParserSoundness
import ImplicitPlot.Proofs.Formula.ParserCompleteness
import ImplicitPlot.Proofs.Scalar.Encoding
import ImplicitPlot.Proofs.Scalar.Rank
import ImplicitPlot.Proofs.Formula.Sharing
import ImplicitPlot.Proofs.Machine.History
import ImplicitPlot.Proofs.Interval.Inclusion
import ImplicitPlot.Proofs.Interval.PowerInclusion
import ImplicitPlot.Proofs.Interval.SingleValues
import ImplicitPlot.Proofs.Formula.SharingInclusion
import ImplicitPlot.Proofs.Plot.Bands
import ImplicitPlot.Proofs.Plot.Turns
import ImplicitPlot.Proofs.Plot.PixelMap
import ImplicitPlot.Proofs.Formula.RoundTrip
import ImplicitPlot.Proofs.Decimal.Written
import ImplicitPlot.Proofs.Formula.WrittenText
import ImplicitPlot.Proofs.Scalar.Product
import ImplicitPlot.Proofs.Formula.PowerOverflow
import ImplicitPlot.Proofs.Formula.Tolerance
import ImplicitPlot.Proofs.Interval.PowerRange
import ImplicitPlot.Proofs.Interval.Validity
import ImplicitPlot.Proofs.Machine.Validity
import ImplicitPlot.Proofs.Machine.CodeFaults
import ImplicitPlot.Proofs.Interval.Points
import ImplicitPlot.Proofs.Formula.PointEvaluation
import ImplicitPlot.Proofs.Decimal.Scanning
import ImplicitPlot.Proofs.Decimal.LiteralValue
import ImplicitPlot.Proofs.Formula.Lexemes
import ImplicitPlot.Proofs.Formula.Lookahead
import ImplicitPlot.Proofs.Formula.SyntaxErrors
import ImplicitPlot.Proofs.Formula.LetterCase
import ImplicitPlot.Proofs.Formula.Layout
import ImplicitPlot.Proofs.Formula.Reading
import ImplicitPlot.Proofs.Formula.ReadingLimits
import ImplicitPlot.Proofs.Formula.AmpleLimits
import ImplicitPlot.Proofs.Formula.NestingErrors
import ImplicitPlot.Proofs.Formula.ParserLimits
import ImplicitPlot.Proofs.Scalar.Magnitudes
import ImplicitPlot.Proofs.Scalar.Counts
import ImplicitPlot.Proofs.Plot.FirstFault
import ImplicitPlot.Proofs.Plot.RegionCorners
import ImplicitPlot.Proofs.Plot.PixelEdges
import ImplicitPlot.Proofs.Machine.NestedRuns
import ImplicitPlot.Proofs.Formula.NarrowerBindings
import ImplicitPlot.Proofs.Interval.ExactRanges
import ImplicitPlot.Proofs.Scalar.RoundingError
import ImplicitPlot.Proofs.Plot.EdgeErrors
import ImplicitPlot.Proofs.Plot.Coverage
import ImplicitPlot.Proofs.Plot.FiniteBounds
import ImplicitPlot.Proofs.Interval.Degenerate
import ImplicitPlot.Proofs.Machine.Dependence
import ImplicitPlot.Proofs.Formula.NamedVariables
import ImplicitPlot.Proofs.Text.Lines
import ImplicitPlot.Proofs.Text.LineRoles
import ImplicitPlot.Proofs.Scalar.Halves
import ImplicitPlot.Proofs.Plot.Samples
import ImplicitPlot.Proofs.Plot.Exports
import ImplicitPlot.Proofs.Decimal.LongestLiteral
import ImplicitPlot.Proofs.Text.Bytes
import ImplicitPlot.Proofs.Formula.ByteScan
import ImplicitPlot.Proofs.Formula.LongestTokens
import ImplicitPlot.Proofs.Formula.Likeness
