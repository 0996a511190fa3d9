import HindleyMilner.Main
import HindleyMilner.Expr.Decorate
import HindleyMilner.Session
import HindleyMilner.Ty.Normal
import HindleyMilner.Proofs.Scoping
import HindleyMilner.Proofs.Principal
import HindleyMilner.Proofs.Annotation
import HindleyMilner.Proofs.Termination
import HindleyMilner.Proofs.RuleOrder
import HindleyMilner.Proofs.Blame
import HindleyMilner.Proofs.Accumulated
import HindleyMilner.Proofs.Composition
import HindleyMilner.Proofs.Lockstep
import HindleyMilner.Proofs.BindingStructure
import HindleyMilner.Proofs.Capture
import HindleyMilner.Proofs.Alpha
import HindleyMilner.Proofs.Context
import HindleyMilner.Proofs.Inline
import HindleyMilner.Proofs.WrittenTokens
import HindleyMilner.Proofs.ReadBack
import HindleyMilner.Proofs.RoundTrip
import HindleyMilner.Proofs.Visibility
import HindleyMilner.Proofs.NodeGrammar
import HindleyMilner.Proofs.LoadFailure
import HindleyMilner.Proofs.TypeEntries
import HindleyMilner.Proofs.SourceText
import HindleyMilner.Proofs.Instantiation
import HindleyMilner.Proofs.Allocation
import HindleyMilner.Proofs.TypeText
import HindleyMilner.Proofs.BaseTypes
import HindleyMilner.Proofs.Listing
import HindleyMilner.Proofs.Writable
