import Crux.Asm.Instr
import Crux.Asm.Line
import Crux.Asm.Program
import Crux.Binary32
import Crux.Command.Files
import Crux.Command.Folder
import Crux.Command.Run
import Crux.Compile
import Crux.Emit.Basic
import Crux.Emit.Frame
import Crux.Emit.Node
import Crux.Grammar.Expression
import Crux.Grammar.Nonterminal
import Crux.Grammar.Parser
import Crux.Grammar.Program
import Crux.Grammar.Statement
import Crux.Main
import Crux.Node.Basic
import Crux.Position
import Crux.Scope
import Crux.Symbol
import Crux.Text.Alphabetic
import Crux.Text.Json
import Crux.Text.Numeric
import Crux.Token.Basic
import Crux.Token.Scan
import Crux.Ty.Basic
import Crux.Ty.Rules
import Crux.Typing.Checker
import Crux.Proofs.Phrase.Expression
import Crux.Proofs.Phrase.Program
import Crux.Proofs.Grammar.Ebnf
import Crux.Proofs.Grammar.Reads
import Crux.Proofs.Grammar.Sound
import Crux.Proofs.Phrase.Derived
import Crux.Proofs.Phrase.Reading
import Crux.Proofs.Phrase.Complete.Expression
import Crux.Proofs.Phrase.Complete.Program
import Crux.Proofs.Grammar.Accepts
import Crux.Proofs.Grammar.Lookahead
import Crux.Proofs.Grammar.FirstError
import Crux.Proofs.Scope.Environment
import Crux.Proofs.Scope.History
import Crux.Proofs.Scope.Tree
import Crux.Proofs.Node.Order
import Crux.Proofs.Phrase.Numbering
import Crux.Proofs.Typing.Findings
import Crux.Proofs.Emit.Total
import Crux.Proofs.Typing.Sound
import Crux.Proofs.Scope.Accepted
import Crux.Proofs.Compile
import Crux.Proofs.Emit.Code
import Crux.Proofs.Machine.Basic
import Crux.Proofs.Semantics
import Crux.Proofs.Emit.Body
import Crux.Proofs.Emit.Program
import Crux.Proofs.Emit.Labels
import Crux.Proofs.Typing.Values
import Crux.Proofs.Machine.Storage
import Crux.Proofs.Machine.Stack
import Crux.Proofs.Machine.Expression
import Crux.Proofs.Machine.Statement
import Crux.Proofs.Machine.Layout
import Crux.Proofs.Scope.Variables
import Crux.Proofs.Preservation
import Crux.Proofs.Source.Syntax
import Crux.Proofs.Source.Expression
import Crux.Proofs.Source.Statement
import Crux.Proofs.Source.Parsing
import Crux.Proofs.Typing.Judgement
import Crux.Proofs.Typing.Operations
import Crux.Proofs.Typing.Decides
import Crux.Proofs.Typing.Program
import Crux.Proofs.Scope.Resolution
import Crux.Proofs.Emit.References
import Crux.Proofs.Emit.Closure
import Crux.Proofs.Emit.Unique
import Crux.Proofs.Machine.Paths
import Crux.Proofs.Machine.Effects
import Crux.Proofs.Machine.Balance
import Crux.Proofs.Asm.Text
import Crux.Proofs.Emit.Distinct
import Crux.Proofs.Machine.Depth
import Crux.Proofs.Typing.Reports
import Crux.Proofs.Machine.Calls
import Crux.Proofs.Erasure.Checking
import Crux.Proofs.Erasure.Code
import Crux.Proofs.Erasure.Compile
import Crux.Proofs.Token.Pattern
import Crux.Proofs.Token.Segments
import Crux.Proofs.Emit.Reuse
import Crux.Proofs.Typing.Reuse
import Crux.Proofs.Machine.Discipline
import Crux.Proofs.Scope.Arrays
import Crux.Proofs.Machine.Elements
import Crux.Proofs.Emit.Allocation
import Crux.Proofs.Emit.Blocks
import Crux.Proofs.Typing.Tables
import Crux.Proofs.Typing.Provenance
import Crux.Proofs.Token.Respaced
import Crux.Proofs.Grammar.Outcome
import Crux.Proofs.Grammar.Legible
import Crux.Proofs.Typing.Equivalence
import Crux.Proofs.Typing.Texts
