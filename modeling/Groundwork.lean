import Groundwork.Main
import Groundwork.Backend.Scripted
import Groundwork.Proofs.Session.Current
import Groundwork.Proofs.Session.ForwardChaining
import Groundwork.Proofs.Session.Meaning
import Groundwork.Proofs.Session.Mirror
import Groundwork.Proofs.Session.AnyVariables
import Groundwork.Proofs.Session.Rebuilding
import Groundwork.Proofs.Session.Tuples
import Groundwork.Proofs.Solver.Core
import Groundwork.Proofs.Json.Layout
import Groundwork.Proofs.Json.Value
import Groundwork.Proofs.Document
import Groundwork.Proofs.Program.Paragraphs
import Groundwork.Proofs.Program.Joining
import Groundwork.Proofs.Program.Accounts
import Groundwork.Proofs.Session.Unfolding
import Groundwork.Proofs.AtomTable.Bijection
import Groundwork.Proofs.Session.Accepting
import Groundwork.Proofs.Session.Validated
import Groundwork.Proofs.Program.RoundTrip
import Groundwork.Proofs.Grounding.Limits
import Groundwork.Proofs.Grounding.Refusals
import Groundwork.Proofs.SortTable
import Groundwork.Proofs.Solver.Content
import Groundwork.Proofs.Session.Exporting
import Groundwork.Proofs.Grounding.Substitution
import Groundwork.Proofs.Grounding.InPlace
import Groundwork.Proofs.Session.Refused
import Groundwork.Proofs.Session.Trees
import Groundwork.Proofs.Session.Assuming
import Groundwork.Proofs.Session.Regrounding
import Groundwork.Proofs.Session.NamePairs
import Groundwork.Proofs.Session.Parallel
import Groundwork.Proofs.Program.WellFormed
import Groundwork.Proofs.Program.Annotations
import Groundwork.Proofs.Program.Comments
import Groundwork.Proofs.Listing
import Groundwork.Proofs.Grounding.Renaming
import Groundwork.Proofs.AtomTable.Rollback
import Groundwork.Proofs.Solver.Refusal
import Groundwork.Proofs.Solver.Scanning
import Groundwork.Proofs.Solver.Termination
