import Treewalk.Main
import Treewalk.Proofs.BoundMethods
import Treewalk.Proofs.CleanPrefix
import Treewalk.Proofs.ControlState
import Treewalk.Proofs.ForLoops
import Treewalk.Proofs.FullSink
import Treewalk.Proofs.Grammar.Accepted
import Treewalk.Proofs.Grammar.Precedence
import Treewalk.Proofs.InternalFaults
import Treewalk.Proofs.Joining
import Treewalk.Proofs.LexicalDistance
import Treewalk.Proofs.LocalAssignment
import Treewalk.Proofs.MaximalMunch
import Treewalk.Proofs.PlainLookup
import Treewalk.Proofs.Rejection
import Treewalk.Proofs.Renaming
import Treewalk.Proofs.ScopeAgreement
import Treewalk.Proofs.SharedScopes
import Treewalk.Proofs.StaticDispatch
import Treewalk.Proofs.StoreGrowth
import Treewalk.Proofs.Termination
import Treewalk.Proofs.TreeText
import Treewalk.Proofs.WellScoped
import Treewalk.Tree.Occurrences
