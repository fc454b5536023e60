import ShiftReduce.Derivation
import ShiftReduce.Grammar.Draft
import ShiftReduce.Parser
import ShiftReduce.Proofs.ActionTable.Acceptance
import ShiftReduce.Proofs.ActionTable.Agreement
import ShiftReduce.Proofs.ActionTable.Candidates
import ShiftReduce.Proofs.ActionTable.Cell
import ShiftReduce.Proofs.ActionTable.Coverage
import ShiftReduce.Proofs.ActionTable.Options
import ShiftReduce.Proofs.ActionTable.Renaming
import ShiftReduce.Proofs.ActionTable.Report
import ShiftReduce.Proofs.ActionTable.Shift
import ShiftReduce.Proofs.Automaton.Bound
import ShiftReduce.Proofs.Automaton.Discovery
import ShiftReduce.Proofs.Automaton.Entry
import ShiftReduce.Proofs.Automaton.Exploration
import ShiftReduce.Proofs.Automaton.Kernel
import ShiftReduce.Proofs.Automaton.Path
import ShiftReduce.Proofs.Automaton.Renaming
import ShiftReduce.Proofs.Automaton.States
import ShiftReduce.Proofs.Automaton.ViablePrefix
import ShiftReduce.Proofs.Derivation.Rightmost
import ShiftReduce.Proofs.First.Closed
import ShiftReduce.Proofs.First.Exact
import ShiftReduce.Proofs.First.Passes
import ShiftReduce.Proofs.Follow.Closed
import ShiftReduce.Proofs.Follow.Exact
import ShiftReduce.Proofs.Follow.Membership
import ShiftReduce.Proofs.Follow.Refinement
import ShiftReduce.Proofs.Follow.Schedule
import ShiftReduce.Proofs.Grammar.Reordering
import ShiftReduce.Proofs.Grammar.Steps
import ShiftReduce.Proofs.Item.Closure
import ShiftReduce.Proofs.Item.ClosureOperator
import ShiftReduce.Proofs.Parser.Completeness
import ShiftReduce.Proofs.Parser.Discipline
import ShiftReduce.Proofs.Parser.Run
import ShiftReduce.Proofs.Parser.Soundness
import ShiftReduce.Proofs.Parser.Stack
import ShiftReduce.Proofs.Parser.Termination
import ShiftReduce.Proofs.Parser.Unambiguity
import ShiftReduce.Proofs.Parser.ValidPrefix
import ShiftReduce.Proofs.Production.Classification
import ShiftReduce.Proofs.Session.Calls
import ShiftReduce.Proofs.Session.Coherent
import ShiftReduce.Proofs.Session.Records
import ShiftReduce.Session
import ShiftReduce.Session.Call
