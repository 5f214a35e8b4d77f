import LazyLisp.Atom
import LazyLisp.Breakdown
import LazyLisp.CommandLine
import LazyLisp.CommandLine.Arguments
import LazyLisp.Datum
import LazyLisp.Datum.Literal
import LazyLisp.Datum.Parser
import LazyLisp.Decimal.Notation
import LazyLisp.Decimal.Rounding
import LazyLisp.Decimal.Shortest
import LazyLisp.Disk
import LazyLisp.Disk.Path
import LazyLisp.Disk.Tree
import LazyLisp.Editor
import LazyLisp.Eval.Call
import LazyLisp.Eval.Engine
import LazyLisp.Eval.Equality
import LazyLisp.Eval.Evaluate
import LazyLisp.Eval.Expansion
import LazyLisp.Eval.Form
import LazyLisp.Eval.Load
import LazyLisp.Eval.Naming
import LazyLisp.Eval.Primitive
import LazyLisp.Eval.Run
import LazyLisp.Eval.Template
import LazyLisp.Input
import LazyLisp.Json
import LazyLisp.Json.Parser
import LazyLisp.Main
import LazyLisp.Number
import LazyLisp.Outline
import LazyLisp.Prelude
import LazyLisp.Primitive
import LazyLisp.Proofs.Acceptance
import LazyLisp.Proofs.AlikeRuns
import LazyLisp.Proofs.AlikeSteps
import LazyLisp.Proofs.Allocation
import LazyLisp.Proofs.Answering
import LazyLisp.Proofs.ArgumentBinding
import LazyLisp.Proofs.ByteStream
import LazyLisp.Proofs.Catching
import LazyLisp.Proofs.ConditionalForms
import LazyLisp.Proofs.CutText
import LazyLisp.Proofs.DefinitionPatterns
import LazyLisp.Proofs.Dialogue
import LazyLisp.Proofs.ErrorPlaces
import LazyLisp.Proofs.Evolution
import LazyLisp.Proofs.ExplicitExpansion
import LazyLisp.Proofs.GeneratedSymbols
import LazyLisp.Proofs.Grammar
import LazyLisp.Proofs.ImmediateApplication
import LazyLisp.Proofs.IncrementalReading
import LazyLisp.Proofs.Interruption
import LazyLisp.Proofs.IteratedLists
import LazyLisp.Proofs.JoinedText
import LazyLisp.Proofs.LazyHalves
import LazyLisp.Proofs.LexicalScope
import LazyLisp.Proofs.Lexing
import LazyLisp.Proofs.Likeness
import LazyLisp.Proofs.ListComputation
import LazyLisp.Proofs.ListLibrary
import LazyLisp.Proofs.ListLoading
import LazyLisp.Proofs.ListLoops
import LazyLisp.Proofs.ListProcedures
import LazyLisp.Proofs.Literals
import LazyLisp.Proofs.LoadedPrelude
import LazyLisp.Proofs.Observation
import LazyLisp.Proofs.OpenDocuments
import LazyLisp.Proofs.OutlineAgreement
import LazyLisp.Proofs.OutlinePlaces
import LazyLisp.Proofs.Parsing
import LazyLisp.Proofs.PlainEvaluation
import LazyLisp.Proofs.Positions
import LazyLisp.Proofs.PrintedDefinitions
import LazyLisp.Proofs.PrintedTokens
import LazyLisp.Proofs.PrintedUnquotations
import LazyLisp.Proofs.Printing
import LazyLisp.Proofs.ProperTokens
import LazyLisp.Proofs.ReadAccounts
import LazyLisp.Proofs.ReadBack
import LazyLisp.Proofs.ReadFailures
import LazyLisp.Proofs.Reading
import LazyLisp.Proofs.ReadingBreakdowns
import LazyLisp.Proofs.RecordedSessions
import LazyLisp.Proofs.Recording
import LazyLisp.Proofs.Resuming
import LazyLisp.Proofs.Running
import LazyLisp.Proofs.SafeEvaluation
import LazyLisp.Proofs.SafeOperations
import LazyLisp.Proofs.SafeSimulation
import LazyLisp.Proofs.SafeSteps
import LazyLisp.Proofs.Separators
import LazyLisp.Proofs.SimulatedEngines
import LazyLisp.Proofs.SimulatedPrimitives
import LazyLisp.Proofs.SimulatedSessions
import LazyLisp.Proofs.SimulatedSteps
import LazyLisp.Proofs.Simulation
import LazyLisp.Proofs.SkippedForms
import LazyLisp.Proofs.Spelling
import LazyLisp.Proofs.SplitProgram
import LazyLisp.Proofs.StoreEvolution
import LazyLisp.Proofs.StoredDefinitions
import LazyLisp.Proofs.StructuralEquality
import LazyLisp.Proofs.Substitution
import LazyLisp.Proofs.TailPositions
import LazyLisp.Proofs.Taking
import LazyLisp.Proofs.TameRuns
import LazyLisp.Proofs.Tameness
import LazyLisp.Proofs.TemplateLevels
import LazyLisp.Proofs.Templates
import LazyLisp.Proofs.TextPrefixes
import LazyLisp.Proofs.TiedValues
import LazyLisp.Proofs.Tiling
import LazyLisp.Proofs.Traceback
import LazyLisp.Proofs.UnambiguousText
import LazyLisp.Proofs.ValuePositions
import LazyLisp.Proofs.WholeDialogue
import LazyLisp.Proofs.WordsAtPlaces
import LazyLisp.Proofs.Yielding
import LazyLisp.ReadError
import LazyLisp.Server
import LazyLisp.Session
import LazyLisp.Settings
import LazyLisp.Signature
import LazyLisp.Store
import LazyLisp.Store.Fault
import LazyLisp.Store.Frame
import LazyLisp.Store.Printer
import LazyLisp.Store.Procedure
import LazyLisp.Store.Report
import LazyLisp.Text.Blank
import LazyLisp.Text.Digit
import LazyLisp.Text.Half
import LazyLisp.Text.Position
import LazyLisp.Text.Printable
import LazyLisp.Text.Quoted
import LazyLisp.Text.Uppercase
import LazyLisp.Text.Utf8
import LazyLisp.Token
import LazyLisp.Token.Lexer
import LazyLisp.Value
import LazyLisp.World
