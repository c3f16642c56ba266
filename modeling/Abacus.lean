import Abacus.CommandLine.Invocation
import Abacus.Decimal.ReadBack
import Abacus.Machine.Cursor
import Abacus.Machine.State
import Abacus.Main
import Abacus.Proofs.Evaluation
import Abacus.Proofs.Grammar
import Abacus.Proofs.Prefix
import Abacus.Proofs.Recognition
import Abacus.Proofs.SyntaxFault
import Abacus.Proofs.TracedRun
import Abacus.Proofs.StepLog
import Abacus.Proofs.Covering
import Abacus.Proofs.Ending
import Abacus.Proofs.Listing
import Abacus.Proofs.Sources
import Abacus.Proofs.TreeDepth
import Abacus.Proofs.StackDepth
import Abacus.Proofs.SavedListing
import Abacus.Proofs.Moving
import Abacus.Proofs.Embedding
import Abacus.Machine.Call
import Abacus.Program.Generator
import Abacus.Proofs.Independence
import Abacus.Proofs.Transcript
import Abacus.Proofs.DocumentNumber
import Abacus.Proofs.DocumentText
import Abacus.Proofs.DocumentAnswer
import Abacus.Proofs.NamedBinding
import Abacus.Proofs.UndefinedVariable
import Abacus.Proofs.Advice
import Abacus.Program.Depth
import Abacus.Proofs.Balance
import Abacus.Proofs.Underflow
import Abacus.Decimal.Plain
import Abacus.Proofs.LexicalFault
import Abacus.Proofs.InOrder
import Abacus.Proofs.Separation
import Abacus.Proofs.LineByLine
import Abacus.Proofs.SeededNames
import Abacus.Proofs.OpenNesting
import Abacus.Proofs.Culprit
import Abacus.Machine.Move
import Abacus.Proofs.Lookups
import Abacus.Proofs.Navigation
import Abacus.Proofs.OperatorFirst
import Abacus.Proofs.Outline
import Abacus.Proofs.DocumentRecord
import Abacus.Proofs.ParserRun
