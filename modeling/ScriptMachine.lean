import ScriptMachine.Arena
import ScriptMachine.Attribute
import ScriptMachine.Builtins.Native
import ScriptMachine.Builtins.SharedModule
import ScriptMachine.Builtins.StandardModule
import ScriptMachine.CommandLine.Basic
import ScriptMachine.CommandLine.FileTree
import ScriptMachine.CommandLine.Lister
import ScriptMachine.CommandLine.Runner
import ScriptMachine.CommandLine.Snippet
import ScriptMachine.Compiler.Declaration
import ScriptMachine.Compiler.Draft
import ScriptMachine.Compiler.Expression
import ScriptMachine.Compiler.Header
import ScriptMachine.Compiler.Source
import ScriptMachine.DeclaredType
import ScriptMachine.Fault
import ScriptMachine.Function
import ScriptMachine.Host
import ScriptMachine.Journal
import ScriptMachine.Machine.Comprehension
import ScriptMachine.Machine.Invoke
import ScriptMachine.Machine.Lookup
import ScriptMachine.Machine.Run
import ScriptMachine.Machine.State
import ScriptMachine.Machine.Step
import ScriptMachine.Main
import ScriptMachine.Number.Basic
import ScriptMachine.Number.Binary64
import ScriptMachine.Number.Decimal
import ScriptMachine.Number.Reading
import ScriptMachine.Operator.Basic
import ScriptMachine.Operator.Binary
import ScriptMachine.Operator.Cast
import ScriptMachine.Operator.Order
import ScriptMachine.Operator.Unary
import ScriptMachine.Program.Assembly
import ScriptMachine.Program.Basic
import ScriptMachine.Program.Listing
import ScriptMachine.Proofs.Builtins.Answers
import ScriptMachine.Proofs.Builtins.Indexing
import ScriptMachine.Proofs.Builtins.Splitting
import ScriptMachine.Proofs.Compiler.Bodies
import ScriptMachine.Proofs.Compiler.Branches
import ScriptMachine.Proofs.Compiler.Chronology
import ScriptMachine.Proofs.Compiler.Compiled
import ScriptMachine.Proofs.Compiler.Composition
import ScriptMachine.Proofs.Compiler.Declarations
import ScriptMachine.Proofs.Compiler.Enclosure
import ScriptMachine.Proofs.Compiler.Expressions
import ScriptMachine.Proofs.Compiler.Fusion
import ScriptMachine.Proofs.Compiler.Headers
import ScriptMachine.Proofs.Compiler.Layers
import ScriptMachine.Proofs.Compiler.Ledger
import ScriptMachine.Proofs.Compiler.Lexical
import ScriptMachine.Proofs.Compiler.LiteralExpressions
import ScriptMachine.Proofs.Compiler.LiteralPrograms
import ScriptMachine.Proofs.Compiler.Literals
import ScriptMachine.Proofs.Compiler.NumberTokens
import ScriptMachine.Proofs.Compiler.PairedExpressions
import ScriptMachine.Proofs.Compiler.PairedPrograms
import ScriptMachine.Proofs.Compiler.Pairs
import ScriptMachine.Proofs.Compiler.Partition
import ScriptMachine.Proofs.Compiler.Places
import ScriptMachine.Proofs.Compiler.Progress
import ScriptMachine.Proofs.Compiler.ProgressExpressions
import ScriptMachine.Proofs.Compiler.Quiet
import ScriptMachine.Proofs.Compiler.Reading
import ScriptMachine.Proofs.Compiler.Resolution
import ScriptMachine.Proofs.Compiler.ResolvedDeclarations
import ScriptMachine.Proofs.Compiler.ResolvedExpressions
import ScriptMachine.Proofs.Compiler.Scoping
import ScriptMachine.Proofs.Compiler.SourceOrder
import ScriptMachine.Proofs.Compiler.SourcedExpressions
import ScriptMachine.Proofs.Compiler.SourcedPrograms
import ScriptMachine.Proofs.Compiler.Sources
import ScriptMachine.Proofs.Compiler.Termination
import ScriptMachine.Proofs.Compiler.Writing
import ScriptMachine.Proofs.Expression.Calculation
import ScriptMachine.Proofs.Expression.Lexing
import ScriptMachine.Proofs.Expression.Meaning
import ScriptMachine.Proofs.Expression.Operators
import ScriptMachine.Proofs.Expression.Parts
import ScriptMachine.Proofs.Expression.Phrase
import ScriptMachine.Proofs.Expression.Reading
import ScriptMachine.Proofs.Expression.Whole
import ScriptMachine.Proofs.Machine.Agreement
import ScriptMachine.Proofs.Machine.Ascent
import ScriptMachine.Proofs.Machine.Callers
import ScriptMachine.Proofs.Machine.Calls
import ScriptMachine.Proofs.Machine.Capturing
import ScriptMachine.Proofs.Machine.Cells
import ScriptMachine.Proofs.Machine.Collecting
import ScriptMachine.Proofs.Machine.Comparing
import ScriptMachine.Proofs.Machine.Comprehensions
import ScriptMachine.Proofs.Machine.Custody
import ScriptMachine.Proofs.Machine.Descent
import ScriptMachine.Proofs.Machine.Determinism
import ScriptMachine.Proofs.Machine.Entrances
import ScriptMachine.Proofs.Machine.Flow
import ScriptMachine.Proofs.Machine.Frames
import ScriptMachine.Proofs.Machine.Histories
import ScriptMachine.Proofs.Machine.Holdings
import ScriptMachine.Proofs.Machine.Invocations
import ScriptMachine.Proofs.Machine.Knowledge
import ScriptMachine.Proofs.Machine.Lending
import ScriptMachine.Proofs.Machine.Mimicry
import ScriptMachine.Proofs.Machine.MirroredCalls
import ScriptMachine.Proofs.Machine.MirroredRuns
import ScriptMachine.Proofs.Machine.MirroredSteps
import ScriptMachine.Proofs.Machine.Mirroring
import ScriptMachine.Proofs.Machine.Moments
import ScriptMachine.Proofs.Machine.Nesting
import ScriptMachine.Proofs.Machine.Openings
import ScriptMachine.Proofs.Machine.Origins
import ScriptMachine.Proofs.Machine.Pairing
import ScriptMachine.Proofs.Machine.Passing
import ScriptMachine.Proofs.Machine.Preference
import ScriptMachine.Proofs.Machine.Provenance
import ScriptMachine.Proofs.Machine.Ranges
import ScriptMachine.Proofs.Machine.Recovery
import ScriptMachine.Proofs.Machine.Resumption
import ScriptMachine.Proofs.Machine.Returning
import ScriptMachine.Proofs.Machine.Rounds
import ScriptMachine.Proofs.Machine.Scoping
import ScriptMachine.Proofs.Machine.Sessions
import ScriptMachine.Proofs.Machine.Slots
import ScriptMachine.Proofs.Machine.Soundness
import ScriptMachine.Proofs.Machine.Stack
import ScriptMachine.Proofs.Machine.Stacks
import ScriptMachine.Proofs.Machine.Standing
import ScriptMachine.Proofs.Machine.Steps
import ScriptMachine.Proofs.Machine.Suspension
import ScriptMachine.Proofs.Machine.Termination
import ScriptMachine.Proofs.Machine.Turns
import ScriptMachine.Proofs.Machine.Unknowns
import ScriptMachine.Proofs.Machine.Variables
import ScriptMachine.Proofs.Number.Arithmetic
import ScriptMachine.Proofs.Number.Clamping
import ScriptMachine.Proofs.Number.Comparison
import ScriptMachine.Proofs.Number.Numerals
import ScriptMachine.Proofs.Number.Parsing
import ScriptMachine.Proofs.Number.Printing
import ScriptMachine.Proofs.Number.Shifts
import ScriptMachine.Proofs.Outcome
import ScriptMachine.Proofs.Program.Definedness
import ScriptMachine.Proofs.Program.Layout
import ScriptMachine.Proofs.Program.Naming
import ScriptMachine.Proofs.Program.WellFormed
import ScriptMachine.Proofs.Session.Cache
import ScriptMachine.Proofs.Session.Dispatch
import ScriptMachine.Proofs.Session.Traffic
import ScriptMachine.Proofs.Text.Digits
import ScriptMachine.Proofs.Text.Splitting
import ScriptMachine.Proofs.Value.Arguments
import ScriptMachine.Proofs.Value.Casts
import ScriptMachine.Proofs.Value.Closures
import ScriptMachine.Proofs.Value.Entries
import ScriptMachine.Proofs.Value.Equality
import ScriptMachine.Proofs.Value.Fields
import ScriptMachine.Proofs.Value.Indifference
import ScriptMachine.Proofs.Value.Involutions
import ScriptMachine.Proofs.Value.Operators
import ScriptMachine.Proofs.Value.Order
import ScriptMachine.Proofs.Value.Parts
import ScriptMachine.Proofs.Value.Ranges
import ScriptMachine.Proofs.Value.Records
import ScriptMachine.Proofs.Value.Refusals
import ScriptMachine.Proofs.Value.Renaming
import ScriptMachine.Proofs.Value.Sharing
import ScriptMachine.Range
import ScriptMachine.Record
import ScriptMachine.Registry
import ScriptMachine.Session.Basic
import ScriptMachine.Session.Cache
import ScriptMachine.Session.Configuration
import ScriptMachine.Session.Tasks
import ScriptMachine.Text
import ScriptMachine.Token.Basic
import ScriptMachine.Token.Lexer
import ScriptMachine.Value.Basic
import ScriptMachine.Value.Display
import ScriptMachine.Value.Entries
import ScriptMachine.Value.Equality
