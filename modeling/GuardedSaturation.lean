import GuardedSaturation.Saturation.Run
import GuardedSaturation.Text.Quoted
import GuardedSaturation.Proofs.AtomOrders.Sessions
import GuardedSaturation.Proofs.Evolution.Instances
import GuardedSaturation.Proofs.Inference.Soundness
import GuardedSaturation.Proofs.NormalForms.Canonicity
import GuardedSaturation.Proofs.NormalForms.Meaning
import GuardedSaturation.Proofs.Renaming.Freshness
import GuardedSaturation.Proofs.Retrieval.Histories
import GuardedSaturation.Proofs.Saturation.Agreement
import GuardedSaturation.Proofs.Saturation.Auxiliaries
import GuardedSaturation.Proofs.Saturation.Completeness
import GuardedSaturation.Proofs.Saturation.Equivalence
import GuardedSaturation.Proofs.Saturation.Failures
import GuardedSaturation.Proofs.Saturation.Guardedness
import GuardedSaturation.Proofs.Saturation.Ledger
import GuardedSaturation.Proofs.Saturation.Minimality
import GuardedSaturation.Proofs.Saturation.PopLimit
import GuardedSaturation.Proofs.Saturation.SeedOrder
import GuardedSaturation.Proofs.Saturation.SkolemShape
import GuardedSaturation.Proofs.Saturation.Soundness
import GuardedSaturation.Proofs.Saturation.Termination
import GuardedSaturation.Proofs.Skolemization.Sessions
import GuardedSaturation.Proofs.Substitution.Compression
import GuardedSaturation.Proofs.Substitution.Idempotence
import GuardedSaturation.Proofs.Subsumption.Edits
import GuardedSaturation.Proofs.Unification.Exactness
import GuardedSaturation.Proofs.Unification.MostGeneral
import GuardedSaturation.Proofs.Unification.PositionalJoins
import GuardedSaturation.Proofs.Unification.Termination
