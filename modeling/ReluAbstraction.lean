import ReluAbstraction.Scalar.Exact
import ReluAbstraction.Solver.CaseSplit
import ReluAbstraction.Solver.Scripted
import ReluAbstraction.Feedforward.Json
import ReluAbstraction.Property.Json
import ReluAbstraction.Network.Json
import ReluAbstraction.Config
import ReluAbstraction.Proofs.NeuronSplitting
import ReluAbstraction.Proofs.AbstractGraph
import ReluAbstraction.Proofs.AllOrNothing
import ReluAbstraction.Proofs.AbstractQuery
import ReluAbstraction.Proofs.Exactness
import ReluAbstraction.Proofs.Soundness
import ReluAbstraction.Proofs.Advancing
import ReluAbstraction.Proofs.Answers
import ReluAbstraction.Proofs.Signs
import ReluAbstraction.Proofs.Bookkeeping
import ReluAbstraction.Proofs.Counterexamples
import ReluAbstraction.Proofs.Coverage
import ReluAbstraction.Proofs.Termination
import ReluAbstraction.Proofs.CaseSplits
import ReluAbstraction.Proofs.Lockstep
import ReluAbstraction.Proofs.ForwardPass
import ReluAbstraction.Proofs.BestCandidates
import ReluAbstraction.Proofs.Boundaries
import ReluAbstraction.Proofs.Lifetimes
import ReluAbstraction.Proofs.Numbering
import ReluAbstraction.Proofs.Symmetry
import ReluAbstraction.Proofs.Relocation
import ReluAbstraction.Proofs.Enumeration
import ReluAbstraction.Proofs.EdgeMaps
import ReluAbstraction.Proofs.FullActivation
import ReluAbstraction.Proofs.Acceptance
