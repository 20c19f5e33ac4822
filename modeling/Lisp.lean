import Lisp.Arity
import Lisp.Builtin.Basic
import Lisp.Builtin.Call
import Lisp.Decimal.Binary64
import Lisp.Decimal.FloatText
import Lisp.Decimal.Numeral
import Lisp.Decimal.Shortest
import Lisp.Eval.Basic
import Lisp.Eval.Error
import Lisp.Eval.Literal
import Lisp.Eval.Run
import Lisp.Eval.SpecialForm
import Lisp.Eval.Step
import Lisp.Form.Basic
import Lisp.Form.Printer
import Lisp.Form.ReadError
import Lisp.Form.Reader
import Lisp.Integer
import Lisp.Main
import Lisp.Number
import Lisp.Position
import Lisp.Scope.Arena
import Lisp.Scope.Collect
import Lisp.Session.Basic
import Lisp.Session.Source
import Lisp.Shell.Completion
import Lisp.Shell.Highlight
import Lisp.Shell.Lines
import Lisp.Shell.Repl
import Lisp.Shell.Report
import Lisp.Sink
import Lisp.Text.Blank
import Lisp.Text.Quoted
import Lisp.Token.Basic
import Lisp.Token.Lookahead
import Lisp.Form.Parser
import Lisp.Token.Scan
import Lisp.Value.Basic
import Lisp.Value.Equality
import Lisp.Value.Printer
import Lisp.Proofs.Scope.Frames
import Lisp.Proofs.Scope.Reachable
import Lisp.Proofs.Scope.Chain
import Lisp.Proofs.Scope.Renaming
import Lisp.Proofs.Scope.Bound
import Lisp.Proofs.Eval.Agreement
import Lisp.Proofs.Eval.StepAgreement
import Lisp.Proofs.Eval.Fuel
import Lisp.Proofs.Session.Conversation
import Lisp.Proofs.Session.Intact
import Lisp.Proofs.Eval.Plain
import Lisp.Proofs.Eval.PlainAgreement
import Lisp.Proofs.Eval.Effects
import Lisp.Proofs.Value.Entries
import Lisp.Proofs.Token.Ends
import Lisp.Proofs.Token.Quoted
import Lisp.Proofs.Token.Sequence
import Lisp.Proofs.Decimal.Integer
import Lisp.Proofs.Form.Reading
import Lisp.Proofs.Form.Grammar
import Lisp.Proofs.Form.Completion
import Lisp.Proofs.Form.Normal
import Lisp.Proofs.Form.Canonical
import Lisp.Proofs.Eval.Constant
import Lisp.Proofs.Value.Data
import Lisp.Proofs.Session.ReadBack
import Lisp.Proofs.Token.Displacement
import Lisp.Proofs.Form.Displacement
import Lisp.Proofs.Form.Pushdown
import Lisp.Proofs.Form.Likeness
import Lisp.Proofs.Form.Relocation
import Lisp.Proofs.Value.Likeness
import Lisp.Proofs.Scope.Likeness
import Lisp.Proofs.Eval.Likeness
import Lisp.Proofs.Eval.Parameters
import Lisp.Proofs.Eval.Succession
import Lisp.Proofs.Session.Likeness
import Lisp.Proofs.Session.Comments
import Lisp.Proofs.Session.Composition
import Lisp.Proofs.Session.Sites
import Lisp.Proofs.Session.Lines
import Lisp.Proofs.Token.Place
import Lisp.Proofs.Token.Tiling
import Lisp.Proofs.Decimal.Literal
import Lisp.Proofs.Eval.Defences
import Lisp.Proofs.Eval.Code
import Lisp.Proofs.Eval.Soundness
import Lisp.Proofs.Form.Place
import Lisp.Proofs.Session.Texts
import Lisp.Proofs.Form.Recast
import Lisp.Proofs.Session.Canonical
import Lisp.Proofs.Scope.History
import Lisp.Proofs.Scope.Census
import Lisp.Proofs.Eval.Composed
import Lisp.Proofs.Eval.Stacks
import Lisp.Proofs.Session.Requests
import Lisp.Proofs.Session.SafePoints
import Lisp.Proofs.Token.Pattern
import Lisp.Proofs.Form.Slice
import Lisp.Proofs.Form.Spacing
import Lisp.Proofs.Session.Keyed
import Lisp.Proofs.Shell.Pieces
import Lisp.Proofs.Shell.Brackets
import Lisp.Proofs.Form.Recovery
import Lisp.Proofs.Scope.Names
import Lisp.Proofs.Scope.WayOut
import Lisp.Proofs.Builtin.Arithmetic
import Lisp.Proofs.Token.Closing
import Lisp.Proofs.Eval.Operations
import Lisp.Proofs.Session.Named
import Lisp.Proofs.Shell.Completion
import Lisp.Proofs.Scope.Shadowing
import Lisp.Proofs.Scope.Places
