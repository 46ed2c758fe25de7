import OwlEl.Classification
import OwlEl.Completion.Reachability
import OwlEl.Completion.Rules
import OwlEl.Completion.Run
import OwlEl.Completion.State
import OwlEl.Data.Grouping
import OwlEl.Data.Layers
import OwlEl.Data.Multimap
import OwlEl.Data.Queue
import OwlEl.Entity
import OwlEl.Fault
import OwlEl.Json
import OwlEl.Normalization.Rules
import OwlEl.Normalization.Weight
import OwlEl.Normalization.Worklist
import OwlEl.Ontology
import OwlEl.Order.OrderedSet
import OwlEl.Order.Shape
import OwlEl.Proofs.Growth
import OwlEl.Proofs.Interpretation
import OwlEl.Proofs.Reading
import OwlEl.Reasoner
import OwlEl.Role.Converse
import OwlEl.Syntax.Axiom
import OwlEl.Syntax.ClassExpr
import OwlEl.Syntax.Codec
import OwlEl.Syntax.NormalAxiom
import OwlEl.Syntax.PropertyExpr
import OwlEl.Syntax.Signature
import OwlEl.Syntax.Term
import OwlEl.Syntax.Text
import OwlEl.Taxonomy
import OwlEl.Vocabulary
import OwlEl.Proofs.Normalization.Yields
import OwlEl.Proofs.Normalization.Provenance
import OwlEl.Proofs.Normalization.Individuals
import OwlEl.Proofs.Valuation
import OwlEl.Proofs.Valuation.Reading
import OwlEl.Proofs.Valuation.Interpretation
import OwlEl.Proofs.Normalization.Meaning
import OwlEl.Proofs.Normalization.Preservation
import OwlEl.Proofs.Normalization.Descent
import OwlEl.Proofs.Normalization.Draining
import OwlEl.Proofs.Normalization.Conservativity
import OwlEl.Proofs.Indexes
import OwlEl.Proofs.Completion.Calculus
import OwlEl.Proofs.Completion.Coherence
import OwlEl.Proofs.Completion.AnyOrder
import OwlEl.Proofs.Completion.Reaching
import OwlEl.Proofs.Completion.Soundness
import OwlEl.Proofs.Completion.Completeness
import OwlEl.Proofs.Completion.Saturation
import OwlEl.Proofs.Completion.Exactness
import OwlEl.Proofs.Converse
import OwlEl.Proofs.Reasoner.Outcome
import OwlEl.Proofs.Reasoner.Soundness
import OwlEl.Proofs.Fragment
import OwlEl.Proofs.Completion.CanonicalModel
import OwlEl.Proofs.Normalization.Safety
import OwlEl.Proofs.Reasoner.Completeness
import OwlEl.Proofs.Completion.Preorder
import OwlEl.Proofs.Reasoner.Preorder
import OwlEl.Proofs.Taxonomy
import OwlEl.Proofs.Reasoner.Taxonomy
import OwlEl.Proofs.Completion.Forced
import OwlEl.Proofs.Completion.MergedModel
import OwlEl.Proofs.Reasoner.Nominals
import OwlEl.Proofs.Role.Closure
import OwlEl.Proofs.Frame.Meanings
import OwlEl.Proofs.Frame.Derivation
import OwlEl.Proofs.Frame.Canonical
import OwlEl.Proofs.Frame.Renaming
import OwlEl.Proofs.Reasoner.Finding
import OwlEl.Proofs.Reasoner.Renaming
import OwlEl.Proofs.Faults
import OwlEl.Proofs.Calls
import OwlEl.Proofs.Normalization.Faults
import OwlEl.Proofs.Role.Faults
import OwlEl.Proofs.Reasoner.Admission
import OwlEl.Proofs.Role.Unpaired
import OwlEl.Proofs.Reasoner.Inertia
import OwlEl.Proofs.Completion.Operations
import OwlEl.Proofs.Completion.Tracking
import OwlEl.Proofs.Room
import OwlEl.Proofs.Normalization.Regularity
import OwlEl.Proofs.Normalization.Totality
import OwlEl.Proofs.Role.Exactness
import OwlEl.Proofs.Taxonomy.Reduction
import OwlEl.Proofs.Role.Automorphism
import OwlEl.Proofs.Minted
import OwlEl.Proofs.Normalization.Origins
import OwlEl.Proofs.Normalization.ReadBack
import OwlEl.Proofs.Tables
import OwlEl.Proofs.Building
import OwlEl.Proofs.Completion.Accounting
import OwlEl.Proofs.Completion.Interruption
import OwlEl.Proofs.Frame.Activation
import OwlEl.Proofs.Reasoner.Accounting
import OwlEl.Proofs.Reasoner.Realization
import OwlEl.Proofs.Distance
import OwlEl.Proofs.Reasoner.Hierarchy
import OwlEl.Proofs.Syntax.Order
import OwlEl.Proofs.Syntax.RoundTrip
import OwlEl.Proofs.Normalization.Budget
