import LinearCalculus.Arrow.Basic
import LinearCalculus.Arrow.Compress
import LinearCalculus.Arrow.Move
import LinearCalculus.Arrow.Primitive
import LinearCalculus.Arrow.Reverse
import LinearCalculus.Arrow.Rule
import LinearCalculus.Checker.Options
import LinearCalculus.Checker.Program
import LinearCalculus.Checker.Report
import LinearCalculus.Codec.Arrow
import LinearCalculus.Codec.Decoder
import LinearCalculus.Codec.Fields
import LinearCalculus.Codec.Formula
import LinearCalculus.Codec.Surface
import LinearCalculus.Context.Basic
import LinearCalculus.Context.Candidates
import LinearCalculus.Context.Transformation
import LinearCalculus.Context.Transport
import LinearCalculus.Formula.Alpha
import LinearCalculus.Formula.Basic
import LinearCalculus.Formula.Free
import LinearCalculus.Formula.Substitution
import LinearCalculus.Formula.Text
import LinearCalculus.Json.Basic
import LinearCalculus.Json.Canonical
import LinearCalculus.Json.Reader
import LinearCalculus.Json.Writer
import LinearCalculus.Main
import LinearCalculus.Surface.Arrow
import LinearCalculus.Surface.Expansion
import LinearCalculus.Surface.Formula
import LinearCalculus.Surface.Memo
import LinearCalculus.TwoHole
import LinearCalculus.Var
import LinearCalculus.Proofs.Formula.Nameless
import LinearCalculus.Proofs.Formula.Replacement
import LinearCalculus.Proofs.Formula.Hygiene
import LinearCalculus.Proofs.Formula.Truth
import LinearCalculus.Proofs.Arrow.Acceptance
import LinearCalculus.Proofs.Arrow.Soundness
import LinearCalculus.Proofs.Arrow.Linearity
import LinearCalculus.Proofs.Arrow.Inverse
import LinearCalculus.Proofs.Arrow.Compression
import LinearCalculus.Proofs.Context.Typing
import LinearCalculus.Proofs.Surface.Typing
import LinearCalculus.Proofs.Surface.Recall
import LinearCalculus.Proofs.Arrow.Inscription
import LinearCalculus.Proofs.Production
import LinearCalculus.Proofs.Arrow.Depth
import LinearCalculus.Proofs.Arrow.Termination
import LinearCalculus.Proofs.Arrow.Outline
import LinearCalculus.Proofs.Arrow.Stack
import LinearCalculus.Proofs.Arrow.NormalForm
import LinearCalculus.Proofs.Arrow.Merging
import LinearCalculus.Proofs.Arrow.Confluence
import LinearCalculus.Proofs.Arrow.Decision
import LinearCalculus.Proofs.Arrow.Content
import LinearCalculus.Proofs.Context.Filling
import LinearCalculus.Proofs.Surface.Endpoints
import LinearCalculus.Proofs.Context.Definedness
import LinearCalculus.Proofs.Context.Cancellation
import LinearCalculus.Proofs.Variables
import LinearCalculus.Proofs.Exhaustion
import LinearCalculus.Proofs.Formula.FreshCopy
import LinearCalculus.Proofs.Context.Passage
import LinearCalculus.Proofs.Context.Drawing
import LinearCalculus.Proofs.Context.Search
import LinearCalculus.Proofs.Context.Crossing
import LinearCalculus.Proofs.Context.Termination
import LinearCalculus.Proofs.Record
import LinearCalculus.Proofs.Identities
import LinearCalculus.Proofs.Json.Lexeme
import LinearCalculus.Proofs.Json.Document
import LinearCalculus.Proofs.Codec.Reading
import LinearCalculus.Proofs.Codec.Restoration
import LinearCalculus.Proofs.TwoHole.Filling
import LinearCalculus.Proofs.TwoHole.Transport
import LinearCalculus.Proofs.TwoHole.Return
import LinearCalculus.Proofs.TwoHole.Duplication
import LinearCalculus.Proofs.Arrow.Size
import LinearCalculus.Proofs.Context.Functoriality
import LinearCalculus.Proofs.Arrow.Moves
import LinearCalculus.Proofs.Surface.Undoing
import LinearCalculus.Proofs.Surface.Content
import LinearCalculus.Proofs.TwoHole.Positions
import LinearCalculus.Proofs.Formula.Readability
import LinearCalculus.Proofs.Arrow.Equality
import LinearCalculus.Proofs.Checker.Faithfulness
