import CMinusMinus.Analysis
import CMinusMinus.Analysis.Frames
import CMinusMinus.Analysis.Listing
import CMinusMinus.Analysis.Names
import CMinusMinus.Analysis.Typing
import CMinusMinus.Assembly
import CMinusMinus.Assembly.Emit
import CMinusMinus.Assembly.Lowering
import CMinusMinus.Command
import CMinusMinus.Command.Arguments
import CMinusMinus.Command.Run
import CMinusMinus.Compilation
import CMinusMinus.Compilation.Files
import CMinusMinus.Diagnostic
import CMinusMinus.Diagnostic.Snippet
import CMinusMinus.Disk
import CMinusMinus.Fault
import CMinusMinus.Host
import CMinusMinus.Log
import CMinusMinus.Machine
import CMinusMinus.Machine.Run
import CMinusMinus.Main
import CMinusMinus.Path
import CMinusMinus.Proofs.Accepted
import CMinusMinus.Proofs.Activation
import CMinusMinus.Proofs.Addresses
import CMinusMinus.Proofs.Assembled
import CMinusMinus.Proofs.Attribution
import CMinusMinus.Proofs.Balance
import CMinusMinus.Proofs.Blocks
import CMinusMinus.Proofs.Builds
import CMinusMinus.Proofs.Cascades
import CMinusMinus.Proofs.Chains
import CMinusMinus.Proofs.Checking
import CMinusMinus.Proofs.Code
import CMinusMinus.Proofs.Comments
import CMinusMinus.Proofs.Correctness
import CMinusMinus.Proofs.Declarations
import CMinusMinus.Proofs.Discipline
import CMinusMinus.Proofs.Emission
import CMinusMinus.Proofs.Execution
import CMinusMinus.Proofs.Explanations
import CMinusMinus.Proofs.Expressions
import CMinusMinus.Proofs.Faults
import CMinusMinus.Proofs.Fidelity
import CMinusMinus.Proofs.Files
import CMinusMinus.Proofs.Framing
import CMinusMinus.Proofs.Functions
import CMinusMinus.Proofs.Grammar
import CMinusMinus.Proofs.Labels
import CMinusMinus.Proofs.Layouts
import CMinusMinus.Proofs.Lexing
import CMinusMinus.Proofs.LineEnds
import CMinusMinus.Proofs.Literals
import CMinusMinus.Proofs.Loading
import CMinusMinus.Proofs.Lookup
import CMinusMinus.Proofs.Mirroring
import CMinusMinus.Proofs.Naming
import CMinusMinus.Proofs.Nesting
import CMinusMinus.Proofs.Numerals
import CMinusMinus.Proofs.Occurrences
import CMinusMinus.Proofs.Passes
import CMinusMinus.Proofs.Placement
import CMinusMinus.Proofs.Places
import CMinusMinus.Proofs.Printing
import CMinusMinus.Proofs.Prolonging
import CMinusMinus.Proofs.Prompt
import CMinusMinus.Proofs.Reading
import CMinusMinus.Proofs.Rechecking
import CMinusMinus.Proofs.Reference
import CMinusMinus.Proofs.References
import CMinusMinus.Proofs.Renaming
import CMinusMinus.Proofs.Rendering
import CMinusMinus.Proofs.Replacement
import CMinusMinus.Proofs.Resemblance
import CMinusMinus.Proofs.Resolution
import CMinusMinus.Proofs.Retracing
import CMinusMinus.Proofs.RoundTrip
import CMinusMinus.Proofs.Runs
import CMinusMinus.Proofs.Scopes
import CMinusMinus.Proofs.Scoping
import CMinusMinus.Proofs.ShownTypes
import CMinusMinus.Proofs.Sites
import CMinusMinus.Proofs.Slots
import CMinusMinus.Proofs.Snippets
import CMinusMinus.Proofs.Spans
import CMinusMinus.Proofs.Specimens
import CMinusMinus.Proofs.Spelling
import CMinusMinus.Proofs.Statements
import CMinusMinus.Proofs.Storage
import CMinusMinus.Proofs.Stores
import CMinusMinus.Proofs.StructTypes
import CMinusMinus.Proofs.Tandem
import CMinusMinus.Proofs.Tokens
import CMinusMinus.Proofs.TypeRules
import CMinusMinus.Proofs.Variables
import CMinusMinus.Proofs.Views
import CMinusMinus.Proofs.Visits
import CMinusMinus.Proofs.WellFormed
import CMinusMinus.Proofs.WellTyped
import CMinusMinus.Proofs.Words
import CMinusMinus.Session
import CMinusMinus.Span
import CMinusMinus.Symbol
import CMinusMinus.Symbol.Table
import CMinusMinus.Syntax
import CMinusMinus.Syntax.Parser
import CMinusMinus.Text.Alphanumeric
import CMinusMinus.Text.Blank
import CMinusMinus.Text.Integer
import CMinusMinus.Text.Lines
import CMinusMinus.Text.Printable
import CMinusMinus.Text.Quoted
import CMinusMinus.Token
import CMinusMinus.Token.Lexer
import CMinusMinus.Ty
