import Backchain.Answer
import Backchain.Clause
import Backchain.Console
import Backchain.Database
import Backchain.Decimal
import Backchain.Env.Apply
import Backchain.Env.Basic
import Backchain.Env.Unify
import Backchain.Error
import Backchain.Json.Codec
import Backchain.Json.Reader
import Backchain.Json.Value
import Backchain.Json.Writer
import Backchain.Main
import Backchain.Search
import Backchain.Session
import Backchain.Source.Program
import Backchain.Source.Scan
import Backchain.Term.Basic
import Backchain.Term.Goals
import Backchain.Term.Text
import Backchain.Term.Variables
import Backchain.Text.Blank
import Backchain.Text.Utf8
import Backchain.Proofs.Env.Acyclic
import Backchain.Proofs.Env.Descent
import Backchain.Proofs.Env.Unification
import Backchain.Proofs.Env.Insertion
import Backchain.Proofs.Search.Copying
import Backchain.Proofs.Search.Refinement
import Backchain.Proofs.Search.Skeleton
import Backchain.Proofs.Search.Soundness
import Backchain.Proofs.Database
import Backchain.Proofs.Search.CopyNames
import Backchain.Proofs.Search.Equations
import Backchain.Proofs.Search.Enumeration
import Backchain.Proofs.Session.Reachable
import Backchain.Proofs.Session.LeastModel
import Backchain.Proofs.Env.Unbounded
import Backchain.Proofs.Search.Hygiene
import Backchain.Proofs.Search.Agenda
import Backchain.Proofs.Search.DepthLimit
import Backchain.Proofs.Source.Grammar
import Backchain.Proofs.Source.Reading
import Backchain.Proofs.Env.UnboundedUnify
import Backchain.Proofs.Search.Termination
import Backchain.Proofs.Session.Termination
import Backchain.Proofs.Search.EarlyStop
import Backchain.Proofs.Search.GoalOrder
import Backchain.Proofs.Env.Renaming
import Backchain.Proofs.Search.Renaming
import Backchain.Proofs.Search.Relevance
import Backchain.Proofs.Search.RankedRules
import Backchain.Proofs.Search.Renumbering
import Backchain.Proofs.Search.MoreClauses
import Backchain.Proofs.Source.Printing
import Backchain.Proofs.Session.ClauseByClause
import Backchain.Proofs.Session.StoredFacts
import Backchain.Proofs.Text.Utf8
import Backchain.Proofs.Console.Replay
import Backchain.Proofs.Json.Reading
import Backchain.Proofs.Json.RoundTrip
import Backchain.Proofs.Env.MostGeneral
import Backchain.Proofs.Source.Locality
import Backchain.Proofs.Source.ErrorPlace
import Backchain.Proofs.Source.LineBreak
import Backchain.Proofs.Search.Sequencing
import Backchain.Proofs.Env.Trail
import Backchain.Proofs.Env.Substitution
import Backchain.Proofs.Env.Symmetry
import Backchain.Proofs.Env.Frame
import Backchain.Proofs.Env.SolvedEquations
import Backchain.Proofs.Term.FirstOccurrence
import Backchain.Proofs.Answer
import Backchain.Proofs.Session.Records
import Backchain.Proofs.Term.Places
import Backchain.Proofs.Term.Traversals
import Backchain.Proofs.Term.Leaves
import Backchain.Proofs.Session.Bracketing
import Backchain.Proofs.Json.Shapes
import Backchain.Proofs.Json.Places
import Backchain.Proofs.Json.Spellings
