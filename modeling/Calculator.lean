import Calculator.Event
import Calculator.Session
import Calculator.Proofs.Derivation
import Calculator.Proofs.Scan
import Calculator.Proofs.Unclosed
import Calculator.Proofs.Reading
import Calculator.Proofs.Rules
import Calculator.Proofs.Parsing
import Calculator.Proofs.Acceptance
import Calculator.Proofs.Recovery
import Calculator.Proofs.Lexing
import Calculator.Proofs.SingleFault
import Calculator.Proofs.Spelling
import Calculator.Proofs.Tiling
import Calculator.Proofs.Foreign
import Calculator.Proofs.Spacing
import Calculator.Proofs.Writing
import Calculator.Proofs.Words
import Calculator.Proofs.Division
import Calculator.Proofs.Nesting
import Calculator.Proofs.Computation
import Calculator.Proofs.Shift
import Calculator.Proofs.Composition
import Calculator.Proofs.Postorder
import Calculator.Proofs.Machine
import Calculator.Proofs.Bindings
import Calculator.Proofs.Stream
import Calculator.Proofs.Boundaries
import Calculator.Proofs.Evaluator
import Calculator.Proofs.Answers
import Calculator.Proofs.FreshSession
import Calculator.Proofs.History
import Calculator.Proofs.OneLine
import Calculator.Proofs.Table
import Calculator.Proofs.Outline
import Calculator.Proofs.Places
import Calculator.Proofs.Inputs
import Calculator.Proofs.Columns
import Calculator.Proofs.Calls
import Calculator.Proofs.Farthest
import Calculator.Proofs.Numerals
