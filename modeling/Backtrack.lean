import Backtrack.Script.Session
import Backtrack.Token
import Backtrack.Proofs.Discipline
import Backtrack.Proofs.Composed
import Backtrack.Proofs.Reading
import Backtrack.Proofs.Course
import Backtrack.Proofs.Replay
import Backtrack.Proofs.Activity
import Backtrack.Proofs.Correspondence
import Backtrack.Proofs.Watched
import Backtrack.Proofs.Depth
import Backtrack.Proofs.Fatal
import Backtrack.Proofs.Lockstep
import Backtrack.Proofs.Limit
import Backtrack.Proofs.Policies
import Backtrack.Proofs.Client
import Backtrack.Proofs.Lazy
import Backtrack.Proofs.Fuel
import Backtrack.Proofs.Position
import Backtrack.Proofs.Termination
import Backtrack.Proofs.Yields
import Backtrack.Proofs.Repetition
import Backtrack.Proofs.Shift
import Backtrack.Proofs.History
import Backtrack.Proofs.Requests
import Backtrack.Proofs.Uninspected
import Backtrack.Proofs.Comparison
import Backtrack.Proofs.Variation
import Backtrack.Proofs.Expansion
import Backtrack.Proofs.Rewording
import Backtrack.Proofs.Commitment
import Backtrack.Proofs.Knot
import Backtrack.Proofs.WholeParse
import Backtrack.Proofs.Relays
import Backtrack.Proofs.Chronicle
import Backtrack.Proofs.Origin
import Backtrack.Proofs.Ownership
import Backtrack.Proofs.Lifetime
import Backtrack.Proofs.Sessions
import Backtrack.Proofs.SExpr
import Backtrack.Proofs.NestedLists
import Backtrack.Proofs.Answers
import Backtrack.Proofs.Separation
import Backtrack.Proofs.Occurrences
import Backtrack.Proofs.Rerun
import Backtrack.Proofs.Factoring
import Backtrack.Proofs.LeftRecursion
import Backtrack.Proofs.Detour
import Backtrack.Proofs.OrderedChoice
import Backtrack.Proofs.Wording
