import Snack.Main
import Snack.Token.Display
import Snack.Tree.Load
import Snack.Proofs.Core.Meaning
import Snack.Proofs.Simplify.Meaning
import Snack.Proofs.Steps
import Snack.Proofs.Typing.State
import Snack.Proofs.Typing.Accepts
import Snack.Proofs.Typing.Rules
import Snack.Proofs.Typing.Assignable
import Snack.Proofs.Typing.Infer
import Snack.Proofs.Typing.Sound
import Snack.Proofs.Typing.Identity
import Snack.Proofs.Typing.Closed
import Snack.Proofs.Simplify.Reducts
import Snack.Proofs.Core.Writable
import Snack.Proofs.Simplify.Writable
import Snack.Proofs.Simplify.Normal
import Snack.Proofs.Script.Names
import Snack.Proofs.Script.Closed
import Snack.Proofs.Number.Numeral
import Snack.Proofs.Token.Scan
import Snack.Proofs.Tree.Formed
import Snack.Proofs.Tree.Moved
import Snack.Proofs.Typing.Reports
import Snack.Proofs.Compile.Outcome
import Snack.Proofs.Token.Longest
import Snack.Proofs.Token.Items
import Snack.Proofs.Token.Places
import Snack.Proofs.Token.Layout
import Snack.Proofs.Token.Lexeme
import Snack.Proofs.Tree.Grammar
import Snack.Proofs.Parser.Sound
import Snack.Proofs.Parser.Complete
import Snack.Proofs.Agree
import Snack.Proofs.Parser.Layout
import Snack.Proofs.Core.Bare
import Snack.Proofs.Typing.Layout
import Snack.Proofs.Core.Layout
import Snack.Proofs.Compile.Channels
import Snack.Proofs.Compile.Layout
import Snack.Proofs.Simplify.Calls
import Snack.Proofs.Core.Jumps
import Snack.Proofs.Typing.Jumps
import Snack.Proofs.Simplify.Jumps
import Snack.Proofs.Script.Identifiers
import Snack.Proofs.Script.Modes
import Snack.Proofs.Typing.Lexical
import Snack.Proofs.Typing.Resolution
import Snack.Proofs.Core.Sites
import Snack.Proofs.Simplify.Sites
import Snack.Proofs.Core.Parts
import Snack.Proofs.Simplify.Types
import Snack.Proofs.Core.Blocks
import Snack.Proofs.Core.Spelled
import Snack.Proofs.Script.Lines
import Snack.Proofs.Script.Blocks
import Snack.Proofs.Script.Brackets
import Snack.Proofs.Script.Indented
import Snack.Proofs.Typing.Spelled
import Snack.Proofs.Typing.Blocks
import Snack.Proofs.Command.Output
import Snack.Proofs.Compile.Blocks
import Snack.Proofs.Typing.Integers
import Snack.Proofs.Simplify.Integers
import Snack.Proofs.Compile.Integers
import Snack.Proofs.Tree.Renamed
import Snack.Proofs.Core.Renamed
import Snack.Proofs.Typing.Renaming
import Snack.Proofs.Typing.Renamed
import Snack.Proofs.Core.Shown
import Snack.Proofs.Script.Shown
import Snack.Proofs.Compile.Shown
import Snack.Proofs.Compile.Indented
import Snack.Proofs.Token.Joined
import Snack.Proofs.Script.Quoted
import Snack.Proofs.Tree.Spans
import Snack.Proofs.Parser.Takes
import Snack.Proofs.Parser.Spans
import Snack.Proofs.Parser.Progress
import Snack.Proofs.Typing.Order
import Snack.Proofs.Typing.Scopes
import Snack.Proofs.Token.Changed
import Snack.Proofs.Parser.Strings
import Snack.Proofs.Parser.Seam
import Snack.Proofs.Parser.Joined
import Snack.Proofs.Number.Floats
import Snack.Proofs.Simplify.Identities
import Snack.Proofs.Core.Types
import Snack.Proofs.Tree.EmptyOptionals
import Snack.Proofs.Typing.Hereditary
import Snack.Proofs.Typing.Numerals
import Snack.Proofs.Typing.Optionals
import Snack.Proofs.Script.Signs
import Snack.Proofs.Core.Renumbered
import Snack.Proofs.Compile.Signs
import Snack.Proofs.Core.Nodes
import Snack.Proofs.Simplify.Nodes
import Snack.Proofs.Typing.Nodes
import Snack.Proofs.Typing.Slots
import Snack.Proofs.Script.Slots
import Snack.Proofs.Compile.Targets
import Snack.Proofs.Simplify.Refs
import Snack.Proofs.Typing.Receivers
import Snack.Proofs.Compile.Receivers
import Snack.Proofs.Script.Members
import Snack.Proofs.Typing.Members
import Snack.Proofs.Compile.Members
import Snack.Proofs.Command.Arguments
import Snack.Proofs.Token.Pragmas
import Snack.Proofs.Typing.Course
import Snack.Proofs.Typing.Reached
import Snack.Proofs.Typing.Tables
import Snack.Proofs.Script.Chains
import Snack.Proofs.Compile.Chains
import Snack.Proofs.Simplify.Size
import Snack.Proofs.Text.After
import Snack.Proofs.Typing.Names
import Snack.Proofs.Number.Shortest
import Snack.Proofs.Number.Rounding
import Snack.Proofs.Number.Layout
import Snack.Proofs.Json.Reader
import Snack.Proofs.Json.Numeral
import Snack.Proofs.Json.Written
import Snack.Proofs.Json.Keys
import Snack.Proofs.Compile.Dumps
import Snack.Proofs.Tree.Targets
import Snack.Proofs.Tree.Read
