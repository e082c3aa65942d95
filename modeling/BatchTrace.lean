import BatchTrace.Assignment
import BatchTrace.Block
import BatchTrace.CommandLine
import BatchTrace.Json
import BatchTrace.Main
import BatchTrace.Program
import BatchTrace.Proofs.Token.Spelling
import BatchTrace.Proofs.Trace.Runs
import BatchTrace.Reference.Expand
import BatchTrace.Reference.Replacement
import BatchTrace.Reference.Slice
import BatchTrace.Settings.Basic
import BatchTrace.Settings.Overlay
import BatchTrace.Settings.Printer
import BatchTrace.Switch
import BatchTrace.Text.Basic
import BatchTrace.Text.Blank
import BatchTrace.Text.CaseTable
import BatchTrace.Text.Lower
import BatchTrace.Token.Basic
import BatchTrace.Token.Chunk
import BatchTrace.Token.Cleaning
import BatchTrace.Token.Lexer
import BatchTrace.Token.Quoted
import BatchTrace.Toml.Printer
import BatchTrace.Toml.Reader
import BatchTrace.Toml.Scalar
import BatchTrace.Toml.Table
import BatchTrace.Toml.Value
import BatchTrace.Trace.Event
import BatchTrace.Trace.Frame
import BatchTrace.Trace.Interpreter
import BatchTrace.Trace.Session
import BatchTrace.Variables
import BatchTrace.Proofs.Trace.Bounds
import BatchTrace.Proofs.Trace.Isolation
import BatchTrace.Proofs.Trace.DepthLimit
import BatchTrace.Proofs.Token.Neighbours
import BatchTrace.Proofs.Token.Widening
import BatchTrace.Proofs.Token.NormalForm
import BatchTrace.Proofs.Token.Words
import BatchTrace.Proofs.Trace.Moves
import BatchTrace.Proofs.Trace.Nesting
import BatchTrace.Proofs.Trace.Order
import BatchTrace.Proofs.Text.LetterCase
import BatchTrace.Proofs.Token.LetterCase
import BatchTrace.Proofs.Reference.LetterCase
import BatchTrace.Proofs.Program.LetterCase
import BatchTrace.Proofs.Trace.LetterCase
import BatchTrace.Proofs.Trace.Callers
import BatchTrace.Proofs.Trace.Deferral
import BatchTrace.Proofs.Trace.Replay
import BatchTrace.Proofs.Trace.CutOffs
import BatchTrace.Proofs.Token.Lookahead
import BatchTrace.Proofs.Token.Reading
import BatchTrace.Proofs.Token.Tidying
import BatchTrace.Proofs.Token.Rereading
import BatchTrace.Proofs.Token.Placement
import BatchTrace.Proofs.Token.Seams
import BatchTrace.Proofs.Token.Alphabet
import BatchTrace.Proofs.Reference.Sigils
import BatchTrace.Proofs.Trace.Unreferenced
import BatchTrace.Proofs.Trace.Sequence
import BatchTrace.Proofs.Text.Ascii
import BatchTrace.Proofs.Program.Disguise
import BatchTrace.Proofs.Token.Calm
import BatchTrace.Proofs.Token.CalmCleaning
import BatchTrace.Proofs.Program.Heads
import BatchTrace.Proofs.Text.Trimming
import BatchTrace.Proofs.Trace.CalmCommands
import BatchTrace.Proofs.Trace.Layers
import BatchTrace.Proofs.Trace.Visibility
import BatchTrace.Proofs.Token.SetRegion
import BatchTrace.Proofs.Token.QuoteParity
import BatchTrace.Proofs.Reference.Slices
import BatchTrace.Proofs.Program.SetCommand
import BatchTrace.Proofs.Trace.Assignments
import BatchTrace.Proofs.Trace.EscapedSet
import BatchTrace.Proofs.Variables.Keys
import BatchTrace.Proofs.Reference.Locality
import BatchTrace.Proofs.Reference.Matching
import BatchTrace.Proofs.Reference.Templates
import BatchTrace.Proofs.Reference.Lookups
import BatchTrace.Proofs.Reference.Indices
import BatchTrace.Proofs.Reference.Occurrences
import BatchTrace.Proofs.Token.Positions
import BatchTrace.Proofs.Token.Brackets
import BatchTrace.Proofs.Token.AssignmentShape
import BatchTrace.Proofs.Token.Carets
import BatchTrace.Proofs.Token.StandardForm
import BatchTrace.Proofs.Token.Collapse
import BatchTrace.Proofs.Program.Parts
import BatchTrace.Proofs.Program.Collapse
import BatchTrace.Proofs.Program.SwitchWords
import BatchTrace.Proofs.Program.Switches
import BatchTrace.Proofs.Variables.Names
import BatchTrace.Proofs.Variables.History
import BatchTrace.Proofs.Variables.Overlay
import BatchTrace.Proofs.Program.QuotedPaths
import BatchTrace.Proofs.Block.Commands
import BatchTrace.Proofs.Block.Grouping
import BatchTrace.Proofs.Block.Balance
import BatchTrace.Proofs.Token.ClosedStrings
import BatchTrace.Proofs.Settings.MergedVariables
