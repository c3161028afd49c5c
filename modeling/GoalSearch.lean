import GoalSearch.Main
import GoalSearch.Proofs.Action
import GoalSearch.Proofs.Alternatives
import GoalSearch.Proofs.Answers
import GoalSearch.Proofs.Rollback
import GoalSearch.Proofs.DigitSearch
import GoalSearch.Proofs.EntryPoints
import GoalSearch.Proofs.Faithful
import GoalSearch.Proofs.Frames
import GoalSearch.Proofs.Guards
import GoalSearch.Proofs.Identity
import GoalSearch.Proofs.Independence
import GoalSearch.Proofs.Interleaving
import GoalSearch.Proofs.Balance
import GoalSearch.Proofs.Checks
import GoalSearch.Proofs.Commits
import GoalSearch.Proofs.Fuel
import GoalSearch.Proofs.Knots
import GoalSearch.Proofs.Laziness
import GoalSearch.Proofs.Ledger
import GoalSearch.Proofs.Lines
import GoalSearch.Proofs.Marks
import GoalSearch.Proofs.Mgu
import GoalSearch.Proofs.Once
import GoalSearch.Proofs.Product
import GoalSearch.Proofs.Rounds
import GoalSearch.Proofs.Semantics
import GoalSearch.Proofs.Termination
import GoalSearch.Proofs.Groupings
import GoalSearch.Proofs.Squares
import GoalSearch.Proofs.Symmetry
import GoalSearch.Proofs.Entries
import GoalSearch.Proofs.Trace
import GoalSearch.Proofs.Strict
