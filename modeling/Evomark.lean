import Evomark.Document.Tree
import Evomark.Document.Expectation
import Evomark.Exec.TreePass
import Evomark.Main
import Evomark.Proofs.Exec.Repeat
import Evomark.Proofs.Exec.History
import Evomark.Proofs.Toolchain.Format
import Evomark.Proofs.Toolchain.Execute
import Evomark.Proofs.Exec.Persist
import Evomark.Proofs.Exec.Lazy
import Evomark.Proofs.Exec.Outcome
import Evomark.Proofs.Exec.Marked
import Evomark.Proofs.Exec.Erased
import Evomark.Proofs.Exec.Rerun
import Evomark.Proofs.Toolchain.Visible
import Evomark.Proofs.Toolchain.Canonical
import Evomark.Proofs.Markup.Inner
import Evomark.Proofs.Markup.Shifted
import Evomark.Proofs.Markup.Nesting
import Evomark.Proofs.Document.Arena
import Evomark.Proofs.Document.Edits
import Evomark.Proofs.Markup.Progress
import Evomark.Proofs.Document.Extended
import Evomark.Proofs.Document.Reworks
import Evomark.Proofs.Document.Siblings
import Evomark.Proofs.Markup.Built
import Evomark.Proofs.Markup.Slots
import Evomark.Proofs.Exec.TreeStep
import Evomark.Proofs.Exec.TreeMarkers
import Evomark.Proofs.Exec.TreePass
import Evomark.Proofs.Exec.Changes
import Evomark.Proofs.Exec.Types
import Evomark.Proofs.Document.Everywhere
import Evomark.Proofs.Markup.Grammatical
import Evomark.Proofs.Markup.Bindings
import Evomark.Proofs.Markup.ByteParse
import Evomark.Proofs.Document.Outline
import Evomark.Proofs.CommandLine.Exit
import Evomark.Proofs.Exec.Synthesis
import Evomark.Proofs.Exec.JsonBody
import Evomark.Proofs.Exec.Memo
import Evomark.Proofs.Exec.Latest
import Evomark.Proofs.Exec.Stop
import Evomark.Proofs.Exec.Saves
import Evomark.Proofs.Exec.Salts
import Evomark.Proofs.Markup.Spans
import Evomark.Proofs.Markup.Stray
import Evomark.Proofs.Markup.Parameters
import Evomark.Proofs.Text.Paragraphs
import Evomark.Proofs.Toolchain.Prose
import Evomark.Proofs.Text.Tight
import Evomark.Proofs.Exec.Reachable
import Evomark.Proofs.Exec.Reference
import Evomark.Proofs.Exec.Literals
import Evomark.Proofs.Toolchain.Fenced
import Evomark.Proofs.Markup.Lookups
import Evomark.Proofs.Markup.Collected
import Evomark.Proofs.CommandLine.Writes
import Evomark.Proofs.Text.Tidy
import Evomark.Proofs.Markup.Texts
import Evomark.Proofs.Exec.Provenance
import Evomark.Proofs.Markup.ClauseEnds
import Evomark.Proofs.Document.Padding
