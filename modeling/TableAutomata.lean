import TableAutomata.Automaton.Error
import TableAutomata.Automaton.Matcher
import TableAutomata.Automaton.Recognizer
import TableAutomata.Automaton.Record
import TableAutomata.Automaton.Run
import TableAutomata.Automaton.Table
import TableAutomata.Automaton.WholeText
import TableAutomata.Describe
import TableAutomata.Grammar.Abnf
import TableAutomata.Grammar.Calculator
import TableAutomata.Input.ArrayCursor
import TableAutomata.Input.Cursor
import TableAutomata.Input.Position
import TableAutomata.Input.TextCursor
import TableAutomata.Main
import TableAutomata.Match.Basic
import TableAutomata.Match.Contextual
import TableAutomata.Match.Outcome
import TableAutomata.Program.LexemeList
import TableAutomata.Program.NumberCheck
import TableAutomata.Program.Report
import TableAutomata.Proofs.Advance
import TableAutomata.Proofs.Alternatives
import TableAutomata.Proofs.Budget
import TableAutomata.Proofs.CalculatorScan
import TableAutomata.Proofs.CalculatorTokens
import TableAutomata.Proofs.Chain
import TableAutomata.Proofs.Containment
import TableAutomata.Proofs.CoreRules
import TableAutomata.Proofs.CursorOrder
import TableAutomata.Proofs.Exchange
import TableAutomata.Proofs.Execution
import TableAutomata.Proofs.FirstFault
import TableAutomata.Proofs.FixedContext
import TableAutomata.Proofs.Iteration
import TableAutomata.Proofs.Level
import TableAutomata.Proofs.LexemeListing
import TableAutomata.Proofs.Lifecycle
import TableAutomata.Proofs.Locality
import TableAutomata.Proofs.MaximalMunch
import TableAutomata.Proofs.Mirror
import TableAutomata.Proofs.Mismatch
import TableAutomata.Proofs.NearerBound
import TableAutomata.Proofs.NumberVerdicts
import TableAutomata.Proofs.Priority
import TableAutomata.Proofs.Reading
import TableAutomata.Proofs.Recurrence
import TableAutomata.Proofs.RejectedPlaces
import TableAutomata.Proofs.Relabelling
import TableAutomata.Proofs.Repetition
import TableAutomata.Proofs.Resumption
import TableAutomata.Proofs.RunLog
import TableAutomata.Proofs.ScanSimulation
import TableAutomata.Proofs.ScanStep
import TableAutomata.Proofs.Sequencing
import TableAutomata.Proofs.Simulation
import TableAutomata.Proofs.SinglePass
import TableAutomata.Proofs.Span
import TableAutomata.Proofs.TableReading
import TableAutomata.Proofs.Termination
import TableAutomata.Proofs.TextArray
import TableAutomata.Proofs.TextPosition
import TableAutomata.Proofs.Tiling
import TableAutomata.Proofs.Trail
import TableAutomata.Proofs.Unambiguous
import TableAutomata.Proofs.UnmetBound
import TableAutomata.Proofs.Validation
import TableAutomata.Proofs.WholeText
import TableAutomata.Proofs.Words
import TableAutomata.Scan.Rule
import TableAutomata.Scan.Scanner
import TableAutomata.Text.Binary
import TableAutomata.Text.CodePoints
import TableAutomata.Text.Combining
import TableAutomata.Text.Decimal
import TableAutomata.Text.Quoted
import TableAutomata.Text.Unprintable
