import Freshen.Main
import Freshen.Traversal.Trace
import Freshen.Proofs.Command.Rename
import Freshen.Proofs.Grammar.FirstError
import Freshen.Proofs.Rename.Calls
import Freshen.Proofs.Rename.Canonical
import Freshen.Proofs.Rename.Lockstep
import Freshen.Proofs.Rename.Source
import Freshen.Proofs.Token.Segments
import Freshen.Proofs.Token.MaximalMunch
import Freshen.Proofs.Layout.Spans
import Freshen.Proofs.Rename.Spans
import Freshen.Proofs.Grammar.Outcome
import Freshen.Proofs.Token.Padding
import Freshen.Proofs.Command.Padding
import Freshen.Proofs.Grammar.SelfDelimiting
import Freshen.Proofs.Token.Concat
import Freshen.Proofs.Command.Concat
import Freshen.Proofs.Grammar.Nesting
import Freshen.Proofs.Traversal.Logs
import Freshen.Proofs.Grammar.Progress
import Freshen.Proofs.Token.Spaced
import Freshen.Proofs.Layout.Minimal
import Freshen.Proofs.Layout.Columns
import Freshen.Proofs.Layout.Lines
import Freshen.Proofs.Layout.Signed
import Freshen.Proofs.Token.StringLiterals
import Freshen.Proofs.Token.Unreadable
import Freshen.Proofs.Naming.Layers
import Freshen.Proofs.Naming.Generation
import Freshen.Proofs.Command.Options
import Freshen.Proofs.Rename.Frames
