import DocLint.Command
import DocLint.Command.Help
import DocLint.Document
import DocLint.Encoding
import DocLint.Encoding.Iso2022Jp
import DocLint.Failure
import DocLint.Finding
import DocLint.Lines
import DocLint.Lines.Universal
import DocLint.Lint
import DocLint.Main
import DocLint.Path
import DocLint.Report
import DocLint.Report.Sink
import DocLint.Rule
import DocLint.Text
import DocLint.Text.CharClass
import DocLint.Text.FullWidth
import DocLint.Text.Hex
import DocLint.Text.Lossy
import DocLint.Text.Terminal
import DocLint.Text.WellFormed
import DocLint.Trace
import DocLint.Tree
import DocLint.Tree.Build
import DocLint.Tree.Files
import DocLint.Tree.Manifest
import DocLint.Tree.Resolve
import DocLint.Proofs.Attempt
import DocLint.Proofs.Command.Grammar
import DocLint.Proofs.Document.Clean
import DocLint.Proofs.Encoding.Passages
import DocLint.Proofs.Lines.Boundaries
import DocLint.Proofs.Lines.Decomposition
import DocLint.Proofs.Lines.LineEnds
import DocLint.Proofs.Lines.Numbers
import DocLint.Proofs.Lines.Seam
import DocLint.Proofs.Lines.UnixEnds
import DocLint.Proofs.Lint.Agreement
import DocLint.Proofs.Lint.Names
import DocLint.Proofs.Lint.Run
import DocLint.Proofs.Lint.Subdirectory
import DocLint.Proofs.Path.LastName
import DocLint.Proofs.Report.Delivery
import DocLint.Proofs.Report.Reading
import DocLint.Proofs.Rule.Append
import DocLint.Proofs.Rule.BlankRuns
import DocLint.Proofs.Rule.Order
import DocLint.Proofs.Text.Lossy
import DocLint.Proofs.Text.Utf8
import DocLint.Proofs.Tree.Below
import DocLint.Proofs.Tree.Follow
import DocLint.Proofs.Tree.Relisted
import DocLint.Proofs.Tree.Scan
import DocLint.Proofs.Tree.Stops
import DocLint.Proofs.Tree.Subdirectory
