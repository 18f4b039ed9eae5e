import Abacus.Binary.Basic
import Abacus.Binary.Text
import Abacus.Binary.Elementary
import Abacus.Binary.Estimate
import Abacus.Binary.Power
import Abacus.Binary.Read
import Abacus.Command.Arguments
import Abacus.Command.Dialogue
import Abacus.Command.Option
import Abacus.Command.Word
import Abacus.Complex.Basic
import Abacus.Complex.Functions
import Abacus.Complex.Text
import Abacus.Decimal.Basic
import Abacus.Decimal.Functions
import Abacus.Decimal.Text
import Abacus.Eval.Statement
import Abacus.Eval.Expression
import Abacus.Expression.Runs
import Abacus.Expression.Postfix
import Abacus.Fault
import Abacus.Json.Basic
import Abacus.Json.Print
import Abacus.Json.Read
import Abacus.Machine
import Abacus.Main
import Abacus.Number.Digits
import Abacus.Number.Fixed
import Abacus.Number.Root
import Abacus.Random
import Abacus.Scope
import Abacus.Session
import Abacus.Statement.Basic
import Abacus.Statement.Json
import Abacus.Statement.Parse
import Abacus.System.Basic
import Abacus.System.Bignumber
import Abacus.System.Complex
import Abacus.System.Decimal
import Abacus.System.Fraction
import Abacus.Text.Integer
import Abacus.Text.Lines
import Abacus.Text.Printable
import Abacus.Token.Basic
import Abacus.Token.Group
import Abacus.Token.Scan
import Abacus.Proofs.Machine
import Abacus.Proofs.Simulation.Basic
import Abacus.Proofs.Simulation.Steps
import Abacus.Proofs.Simulation.Expression
import Abacus.Proofs.Simulation.Statement
import Abacus.Proofs.Simulation.OneSystem
import Abacus.Proofs.Fuel
import Abacus.Proofs.Replay
import Abacus.Proofs.Scoping.Frames
import Abacus.Proofs.Scoping.Sound
import Abacus.Proofs.Scoping.Runs
import Abacus.Proofs.Forest.Basic
import Abacus.Proofs.Forest.Source
import Abacus.Proofs.Forest.Runs
import Abacus.Proofs.Forest.Statement
import Abacus.Proofs.Cache
import Abacus.Proofs.Forest.Grouping
import Abacus.Proofs.Json
import Abacus.Proofs.Literals
import Abacus.Proofs.Parametric
import Abacus.Proofs.Exact.Digits
import Abacus.Proofs.Exact.Value
import Abacus.Proofs.Exact.Integers
import Abacus.Proofs.Exact.Powers
import Abacus.Proofs.Exact.Factorials
import Abacus.Proofs.Exact.Agreement
import Abacus.Proofs.Reading.Blocks
import Abacus.Proofs.Scanning
import Abacus.Proofs.Reading.Program
import Abacus.Proofs.Safety.Anchored
import Abacus.Proofs.Safety.Orderly
import Abacus.Proofs.Safety.Runs
import Abacus.Proofs.Alike.Basic
import Abacus.Proofs.Alike.Lines
import Abacus.Proofs.Alike.Heads
import Abacus.Proofs.Alike.Steps
import Abacus.Proofs.Alike.Words
import Abacus.Proofs.Alike.Expression
import Abacus.Proofs.Alike.Statement
import Abacus.Proofs.Alike.Grouping
import Abacus.Proofs.Layout
import Abacus.Proofs.Strict.Forest
import Abacus.Proofs.Strict.Runs
import Abacus.Proofs.Joined.Shift
import Abacus.Proofs.Joined.Scan
import Abacus.Proofs.Joined.Reading
import Abacus.Proofs.Joined.Runs
import Abacus.Proofs.Debugging
import Abacus.Proofs.Reading.Kinds
import Abacus.Proofs.Chains
import Abacus.Proofs.Conduct.Steps
import Abacus.Proofs.Conduct.Expression
import Abacus.Proofs.Conduct.Statement
import Abacus.Proofs.Records
import Abacus.Proofs.LoopFree.Forest
import Abacus.Proofs.LoopFree.Spans
import Abacus.Proofs.LoopFree.Runs
import Abacus.Proofs.Newton
import Abacus.Proofs.Roots
import Abacus.Proofs.Shunting
import Abacus.Proofs.Grammar.Language
import Abacus.Proofs.Grammar.Reading
import Abacus.Proofs.Shadowing.Worlds
import Abacus.Proofs.Shadowing.Runs
import Abacus.Proofs.Rounding.Even
import Abacus.Proofs.Rounding.Places
import Abacus.Proofs.Rounding.Quotients
import Abacus.Proofs.Rounding.Inverses
import Abacus.Proofs.Written.Digits
import Abacus.Proofs.Written.Reading
import Abacus.Proofs.Exact.Products
import Abacus.Proofs.Rounding.Sums
import Abacus.Proofs.Remainders
import Abacus.Proofs.Windows
import Abacus.Proofs.Strict.Rewriting
import Abacus.Proofs.Continued.Scan
import Abacus.Proofs.Continued.Lines
import Abacus.Proofs.Continued.Heads
import Abacus.Proofs.Continued.Reading
import Abacus.Proofs.Continued.Bare
import Abacus.Proofs.Continued.Forest
import Abacus.Proofs.Continued.Program
import Abacus.Proofs.Divisors
import Abacus.Proofs.Rounding.Precision
import Abacus.Proofs.Rounding.Results
import Abacus.Proofs.Prompts.Systems
import Abacus.Proofs.Prompts.Dialogue
import Abacus.Proofs.Rendered.Basic
import Abacus.Proofs.Rendered.Lines
import Abacus.Proofs.Rendered.Runs
import Abacus.Proofs.Rendered.Heads
import Abacus.Proofs.Rendered.Steps
import Abacus.Proofs.Rendered.Expression
import Abacus.Proofs.Rendered.Statement
import Abacus.Proofs.Rendered.Leads
import Abacus.Proofs.Rendered.Reached
import Abacus.Proofs.Rendered.Compound
import Abacus.Proofs.Rendered.Found
import Abacus.Proofs.Rendered.Scan
import Abacus.Proofs.Rendered.Parts
import Abacus.Proofs.Rendered.Exchanged
import Abacus.Proofs.Rendered.Regrouped
import Abacus.Proofs.Rendered.Relocated
import Abacus.Proofs.Rendered.Expansion
import Abacus.Proofs.Rendered.Pieces
import Abacus.Proofs.Rendered.Program
import Abacus.Proofs.Arguments
import Abacus.Proofs.Scoping.Lookup
