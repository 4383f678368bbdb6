import Entail.Engine.Written
import Entail.Error.Written
import Entail.Main
import Entail.Proofs.Bits
import Entail.Proofs.Classes.Copies
import Entail.Proofs.Program
import Entail.Proofs.Reflexivity
import Entail.Proofs.Resource
import Entail.Proofs.Rule.Bindings
import Entail.Proofs.Rule.Enumeration
import Entail.Proofs.Rule.LeastModel
import Entail.Proofs.Rule.Running
import Entail.Proofs.Rule.Safety
import Entail.Proofs.Rule.Stratification
import Entail.Proofs.Segments
import Entail.Proofs.Table.History
import Entail.Resource.Written
import Entail.Proofs.Equality.Recomputation
import Entail.Proofs.Maintenance.Examination
import Entail.Proofs.Asserted
import Entail.Proofs.OverDeletion
import Entail.Proofs.Rule.Pivot
import Entail.Proofs.Rule.Support
import Entail.Proofs.Rule.RoundTrip
import Entail.Proofs.Termination.Insertion
import Entail.Proofs.Termination.Level
