import FrontEnd.Tree.Render
import FrontEnd.Token.Set
import FrontEnd.Source.Buffer
import FrontEnd.Source.Cursor
import FrontEnd.Text.Escape
import FrontEnd.Diagnostic.Terminal
import FrontEnd.Diagnostic.Json
import FrontEnd.Pattern.Reader
import FrontEnd.Pattern.Automaton
import FrontEnd.TokenTable.Build
import FrontEnd.TokenStream
import FrontEnd.Grammar.Build
import FrontEnd.Parser.Machine
import FrontEnd.Main
import FrontEnd.Proofs.Parser.Soundness
import FrontEnd.Proofs.Parser.Limits
import FrontEnd.Proofs.Parser.Acts
import FrontEnd.Proofs.Parser.Leaves
import FrontEnd.Proofs.Parser.Reports
import FrontEnd.Proofs.Parser.Damage
import FrontEnd.Proofs.Demo.Faults
import FrontEnd.Proofs.Demo.Insertions
import FrontEnd.Proofs.Demo.Lexicon
import FrontEnd.Proofs.Parser.Blame
import FrontEnd.Proofs.Stream.Division
import FrontEnd.Proofs.Stream.Seams
import FrontEnd.Proofs.Demo.Joining
import FrontEnd.Proofs.Demo.Words
import FrontEnd.Proofs.Source.Places
import FrontEnd.Proofs.Stream.Requests
import FrontEnd.Proofs.Pattern.Stamps
import FrontEnd.Proofs.Parser.WellFormed
import FrontEnd.Proofs.Token.FiniteSets
import FrontEnd.Proofs.Parser.Unknown
import FrontEnd.Proofs.Parser.Layout
import FrontEnd.Proofs.Token.Trials
import FrontEnd.Proofs.Parser.Precedence
import FrontEnd.Proofs.Diagnostic.Documents
import FrontEnd.Proofs.Parser.Bounds
import FrontEnd.Proofs.Grammar.LeastSolutions
import FrontEnd.Proofs.Grammar.Cycles
import FrontEnd.Proofs.Parser.Associativity
import FrontEnd.Proofs.Parser.Vanishing
import FrontEnd.Proofs.Parser.Ambiguity
import FrontEnd.Proofs.Parser.Extents
import FrontEnd.Proofs.Pattern.Parsing
import FrontEnd.Proofs.Stream.Literals
import FrontEnd.Proofs.Tree.Branches
import FrontEnd.Proofs.Source.Partition
import FrontEnd.Proofs.Parser.Expected
import FrontEnd.Proofs.Diagnostic.Carets
import FrontEnd.Proofs.Demo.Lines
import FrontEnd.Proofs.Grammar.Faults
import FrontEnd.Proofs.Parser.Sight
