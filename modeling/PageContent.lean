import PageContent.Span
import PageContent.Byte
import PageContent.Text.Utf8
import PageContent.Text.Quoted
import PageContent.Decimal.Text
import PageContent.Token.Scan
import PageContent.Operand.Write
import PageContent.Operator.Check
import PageContent.Options
import PageContent.Tree.Walk
import PageContent.Tree.Json
import PageContent.Parse
import PageContent.Json.Read
import PageContent.Batch
import PageContent.Builder
import PageContent.Mutation
import PageContent.Report
import PageContent.Text.Preview
import PageContent.Corpus.Builtin
import PageContent.Conformance
import PageContent.Proofs.Recognition
import PageContent.Proofs.Leaves
import PageContent.Proofs.Filtering
import PageContent.Proofs.ImageData
import PageContent.Proofs.Lexing
import PageContent.Proofs.Prefixes
import PageContent.Proofs.Mutations
import PageContent.Proofs.Numbers
import PageContent.Proofs.Utf8
import PageContent.Proofs.Writing
import PageContent.Proofs.Spelling
import PageContent.Proofs.Placement
import PageContent.Proofs.Unplaced
import PageContent.Proofs.RoundTrip
import PageContent.Proofs.Segmentation
import PageContent.Proofs.Relocation
import PageContent.Proofs.Layout
import PageContent.Proofs.Concatenation
import PageContent.Proofs.Calls
import PageContent.Proofs.Batches
import PageContent.Proofs.Fragments
import PageContent.Descent
import PageContent.Proofs.Sessions
import PageContent.Proofs.Laziness
import PageContent.Proofs.Origins
import PageContent.Proofs.Reports
import PageContent.Proofs.Leftovers
import PageContent.Proofs.Confinement
import PageContent.Proofs.Locations
import PageContent.Proofs.Slices
import PageContent.Proofs.PatternColors
import PageContent.Proofs.WrittenNumbers
import PageContent.Proofs.ImageEnds
import PageContent.Proofs.Literals
import PageContent.Proofs.HexStrings
import PageContent.Proofs.Iteration
import PageContent.Proofs.NearestValues
import PageContent.Proofs.Numerals
import PageContent.Proofs.ErrorPlaces
import PageContent.Proofs.EscapedTexts
import PageContent.Proofs.Arguments
import PageContent.Proofs.Commands
import PageContent.Proofs.SamplePages
import PageContent.Proofs.ConformanceReports
import PageContent.Proofs.Corpora
import PageContent.Proofs.FixtureDocuments
import PageContent.Proofs.Dispatch
import PageContent.Proofs.Progress
