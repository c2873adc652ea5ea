import XPathAssembly.Assembly.Build
import XPathAssembly.Assembly.Token
import XPathAssembly.Bench
import XPathAssembly.Chain
import XPathAssembly.Collapse
import XPathAssembly.CommandLine.Options
import XPathAssembly.CommandLine.Path
import XPathAssembly.CommandLine.Program
import XPathAssembly.CommandLine.Response
import XPathAssembly.Escape
import XPathAssembly.Fault
import XPathAssembly.Json.Reader
import XPathAssembly.Json.Value
import XPathAssembly.Kind
import XPathAssembly.Layout.Buffer
import XPathAssembly.Layout.Concatenation
import XPathAssembly.Layout.Expression
import XPathAssembly.Layout.Spacing
import XPathAssembly.Layout.Style
import XPathAssembly.Listing
import XPathAssembly.Main
import XPathAssembly.Number.Binary
import XPathAssembly.Number.Shortest
import XPathAssembly.Number.Spelled
import XPathAssembly.Number.Written
import XPathAssembly.Report.Bullets
import XPathAssembly.Report.Issue
import XPathAssembly.Segment
import XPathAssembly.Session
import XPathAssembly.Store.Basic
import XPathAssembly.Store.Discard
import XPathAssembly.Text.Basic
import XPathAssembly.Text.Blank
import XPathAssembly.Text.Digit
import XPathAssembly.Text.Indent
import XPathAssembly.Text.Lines
import XPathAssembly.Text.Point
import XPathAssembly.Text.Printable
import XPathAssembly.Text.Quoted
import XPathAssembly.Text.Utf8
import XPathAssembly.Text.Word
import XPathAssembly.Upkeep.Agreement
import XPathAssembly.Upkeep.Job
import XPathAssembly.Upkeep.Metadata
import XPathAssembly.Upkeep.Readme
import XPathAssembly.Upkeep.Steps
import XPathAssembly.Proofs.Token
import XPathAssembly.Proofs.Store.Calls
import XPathAssembly.Proofs.Store.Trail
import XPathAssembly.Proofs.Store.Line
import XPathAssembly.Proofs.Store.Splicing
import XPathAssembly.Proofs.Store.Grouping
import XPathAssembly.Proofs.Store.Teardown
import XPathAssembly.Proofs.Layout.Laid
import XPathAssembly.Proofs.Layout.Parts
import XPathAssembly.Proofs.Layout.Concatenation
import XPathAssembly.Proofs.Layout.Reading
import XPathAssembly.Proofs.Layout.Verbatim
import XPathAssembly.Proofs.Layout.Literals
import XPathAssembly.Proofs.Layout.Pieces
import XPathAssembly.Proofs.Layout.Room
import XPathAssembly.Proofs.Layout.Gaps
import XPathAssembly.Proofs.Layout.Words
import XPathAssembly.Proofs.Layout.Blanks
import XPathAssembly.Proofs.Layout.Encoding
import XPathAssembly.Proofs.Assembly.Input
import XPathAssembly.Proofs.Assembly.Construction
import XPathAssembly.Proofs.Assembly.Outcome
import XPathAssembly.Proofs.Json.Limits
import XPathAssembly.Proofs.Json.Steps
import XPathAssembly.Proofs.Json.Literals
import XPathAssembly.Proofs.Json.Grammar
import XPathAssembly.Proofs.Json.Members
import XPathAssembly.Proofs.Text.Utf8
import XPathAssembly.Proofs.Assembly.Loading
import XPathAssembly.Proofs.Store.Forest
import XPathAssembly.Proofs.Store.Growth
import XPathAssembly.Proofs.Store.Rows
import XPathAssembly.Proofs.Bench.Calls
import XPathAssembly.Proofs.Bench.Ownership
import XPathAssembly.Proofs.Bench.Interleaving
import XPathAssembly.Proofs.Bench.Joining
import XPathAssembly.Proofs.Bench.Collapsing
import XPathAssembly.Proofs.Bench.Refusals
import XPathAssembly.Proofs.Escape.CodePoint
import XPathAssembly.Proofs.Escape.Hexadecimal
import XPathAssembly.Proofs.Escape.Spelling
import XPathAssembly.Proofs.Escape.Validity
import XPathAssembly.Proofs.Escape.Length
import XPathAssembly.Proofs.Escape.Boundary
import XPathAssembly.Proofs.Store.Runs
import XPathAssembly.Proofs.Session
import XPathAssembly.Proofs.Store.Links
import XPathAssembly.Proofs.Store.Walks
import XPathAssembly.Proofs.Store.Marking
import XPathAssembly.Proofs.Store.Emptying
import XPathAssembly.Proofs.Listing
import XPathAssembly.Proofs.CommandLine.Production
import XPathAssembly.Proofs.CommandLine.Printing
import XPathAssembly.Proofs.Layout.Recovery
import XPathAssembly.Proofs.Report.Outline
import XPathAssembly.Proofs.Json.Shown
import XPathAssembly.Proofs.Assembly.Wording
import XPathAssembly.Proofs.CommandLine.Reporting
import XPathAssembly.Proofs.Report.Entries
import XPathAssembly.Proofs.Text.Cutting
import XPathAssembly.Proofs.Listing.OnePass
import XPathAssembly.Proofs.Text.Blocks
import XPathAssembly.Proofs.Text.PrefixCode
import XPathAssembly.Proofs.Listing.Faithful
import XPathAssembly.Proofs.Text.Word
import XPathAssembly.Proofs.Number.Spelled
import XPathAssembly.Proofs.CommandLine.Options
import XPathAssembly.Proofs.CommandLine.Requests
import XPathAssembly.Proofs.CommandLine.Path
import XPathAssembly.Proofs.Upkeep.Steps
import XPathAssembly.Proofs.Upkeep.Metadata
import XPathAssembly.Proofs.Upkeep.Agreement
import XPathAssembly.Proofs.Listing.Numbers
import XPathAssembly.Proofs.Description
import XPathAssembly.Proofs.Messages
