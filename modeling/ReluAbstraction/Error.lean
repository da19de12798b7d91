import ReluAbstraction.Location
import ReluAbstraction.Handle
import ReluAbstraction.ActivationState

/-!
# Errors

Every failure of the engine is a value of `Error`, which records the cause; `Error.message` is the one place where causes
become text. A `Step` is a computation that changes a state and may fail, and that keeps the changes made before it
failed.
-/

namespace ReluAbstraction

/-- Solver variable. -/
abbrev VarId := Nat

/-- Text of a variable. -/
def VarId.text (v : VarId) : String := s!"x{v}"

/-- Ways in which a stage can be out of turn. -/
inductive FrontierFault where
  /-- A layer is forward activated before it is preprocessed. -/
  | forwardBeforePreprocess
  /-- A layer is fully activated before the layer feeding it is forward activated. -/
  | fullBeforeForward
  /-- No stage can take its next step. -/
  | stuck
  /-- A layer outside of the refinable range is merged or split. -/
  | notRefinable
  /-- Verification is asked for before every layer is abstracted. -/
  | incomplete
deriving DecidableEq, Repr

/-- Ways in which a partition can fail to divide an arnode. -/
inductive PartitionFault where
  /-- Fewer than two cells. -/
  | tooFewCells (cells : Nat)
  /-- A cell without nodes. -/
  | emptyCell
  /-- A node that the arnode does not hold. -/
  | notMember (node : NodeId)
  /-- A node in two places. -/
  | repeated (node : NodeId)
  /-- Some members are in no cell. -/
  | uncovered (covered members : Nat)
deriving DecidableEq, Repr

/-- Entities that do not belong together. -/
inductive Mismatch where
  /-- A node outside of the place of its arnode. -/
  | node (node : NodeId) (loc target : Location)
  /-- Two arnodes of different tables. -/
  | arnodes (first : ArNodeId) (firstLoc : Location) (second : ArNodeId) (secondLoc : Location)
deriving DecidableEq, Repr

/-- Malformed arguments. -/
inductive ArgumentFault where
  /-- An edge set has no such table. -/
  | edgeTable (category : Category)
  /-- A chain has no such table. -/
  | noTable (table : Nat)
  /-- An arnode without nodes. -/
  | noMembers
  /-- An empty set of nodes to wrap. -/
  | emptyWrap
  /-- An entity of another layer. -/
  | otherLayer (loc : Location) (layer : Nat)
  /-- A node that is no longer unprocessed. -/
  | alreadyClassified (node : NodeId) (loc : Location)
  /-- An arnode merged with itself. -/
  | selfMerge (arnode : ArNodeId)
  /-- A merge in the input or output layer. -/
  | boundaryMerge (layer : Nat)
  /-- A split in the input or output layer. -/
  | boundarySplit (layer : Nat)
  /-- No layer of that number. -/
  | noLayer (layer : Nat)
  /-- No input of that number has bounds. -/
  | noInputBounds (input : Nat)
  /-- Fewer than two layers. -/
  | tooFewLayers (layers : Nat)
  /-- The property names an output that does not exist. -/
  | propertyOutput (output outputs : Nat)
  /-- A network without inputs. -/
  | noInputs
  /-- A network without an output layer. -/
  | noOutputLayer
  /-- An input range that holds no number; its ends as text. -/
  | emptyRange (input : Nat) (low high : String)
  /-- A layer without neurons. -/
  | emptyLayer (layer : Nat)
  /-- A layer whose biases do not match its neurons. -/
  | biasCount (layer biases neurons : Nat)
  /-- A neuron whose weights do not match the layer before. -/
  | weightCount (layer neuron width : Nat)
  /-- An input vector of the wrong length. -/
  | inputCount (expected given : Nat)
deriving DecidableEq, Repr

/-- Failures of a solver. -/
inductive SolverFault where
  /-- A constraint mentions a variable that is not declared. -/
  | undeclared (var : VarId)
  /-- The pivot limit was reached. -/
  | noProgress (pivots : Nat)
  /-- A failure in the solver's own words. -/
  | reported (text : String)
deriving DecidableEq, Repr

/-- Failures of a file. -/
inductive FileFault where
  /-- The file or its directory does not exist. -/
  | missing
  /-- The bytes are not UTF-8. -/
  | notText
deriving DecidableEq, Repr

/-- Failures of the engine. -/
inductive Error where
  /-- No id is free below the limit. -/
  | exhausted (limit : Nat)
  /-- No edge is stored under a key. -/
  | noSuchEdge (key : EdgeKey)
  /-- An edge is already stored under a key. -/
  | edgeConflict (key : EdgeKey)
  /-- A cemented entity was to be moved. -/
  | immutable (kind : EntityKind) (handle : Handle kind) (loc : Location)
  /-- A handle whose entity is gone. -/
  | usedAfterDestroy (kind : EntityKind) (index : Nat)
  /-- An activation that would go back. -/
  | invalidTransition (source target : ActivationState)
  /-- A node that an arnode already holds. -/
  | alreadyOwned (node : NodeId) (owner : ArNodeId)
  /-- A node that may still move. -/
  | notCemented (node : NodeId)
  /-- A node that no arnode holds. -/
  | unresolved (node : NodeId)
  /-- A source arnode without outgoing edges yet. -/
  | sourceNotReady (arnode : ArNodeId)
  /-- An arnode whose incoming edges are not confirmed. -/
  | notFullyActivated (arnode : ArNodeId)
  /-- A node with an edge into an unprocessed table. -/
  | successorUnprocessed (node : NodeId) (layer : Nat)
  /-- A removal from a table that only grows. -/
  | appendOnly (table : Nat)
  /-- A slot without an entry. -/
  | emptySlot (table : Nat) (slot : Slot)
  /-- A stage out of turn. -/
  | frontierViolation (fault : FrontierFault)
  /-- A partition that does not divide an arnode. -/
  | invalidPartition (fault : PartitionFault)
  /-- Entities that do not belong together. -/
  | categoryMismatch (fault : Mismatch)
  /-- A malformed argument. -/
  | invalidArgument (fault : ArgumentFault)
  /-- No two arnodes can be merged. -/
  | noMergeCandidate
  /-- No arnode can be split. -/
  | noSplitCandidate
  /-- The solver failed. -/
  | solver (fault : SolverFault)
  /-- The solver's time was spent. -/
  | solverTimeout
  /-- A file failed. -/
  | file (fault : FileFault)
  /-- A configuration could not be read. -/
  | config
  /-- A JSON document could not be read. -/
  | json
deriving DecidableEq, Repr

instance : Inhabited Error := ⟨.json⟩

/-- Text of a stage out of turn. -/
def FrontierFault.message : FrontierFault → String
  | forwardBeforePreprocess => "forward activation needs the layer preprocessed"
  | fullBeforeForward => "full activation needs the feeding layer forward activated"
  | stuck => "frontier cannot advance"
  | notRefinable => "merge and split need a fully activated interior layer fed by non-negative values"
  | incomplete => "verification needs every layer abstracted"

/-- Text of a failed partition. -/
def PartitionFault.message : PartitionFault → String
  | tooFewCells cells => s!"need at least two cells, got {cells}"
  | emptyCell => "empty cell"
  | notMember node => s!"{node.text} is not a constituent"
  | repeated node => s!"{node.text} appears twice"
  | uncovered covered members => s!"cells cover {covered} of {members} constituents"

/-- Text of entities that do not belong together. -/
def Mismatch.message : Mismatch → String
  | node id loc target => s!"{id.text} at {loc.text} cannot join an arnode at {target.text}"
  | arnodes first firstLoc second secondLoc =>
    s!"{first.text} at {firstLoc.text} and {second.text} at {secondLoc.text}"

/-- Text of a malformed argument. -/
def ArgumentFault.message : ArgumentFault → String
  | edgeTable category => s!"edge table {category.name} out of range for this edge set"
  | noTable table => s!"no table {table}"
  | noMembers => "arnode needs a constituent"
  | emptyWrap => "cannot wrap an empty node set"
  | otherLayer loc layer => s!"{loc.text} is not in layer {layer}"
  | alreadyClassified node loc => s!"{node.text} at {loc.text} is already classified"
  | selfMerge arnode => s!"cannot merge {arnode.text} with itself"
  | boundaryMerge layer => s!"arnodes of boundary layer {layer} are never merged"
  | boundarySplit layer => s!"arnodes of boundary layer {layer} are never split"
  | noLayer layer => s!"no layer {layer}"
  | noInputBounds input => s!"no bounds for input {input}"
  | tooFewLayers layers => s!"a network needs an input and an output layer, got {layers} layers"
  | propertyOutput output outputs => s!"property names output {output} of {outputs}"
  | noInputs => "network has no inputs"
  | noOutputLayer => "network has no output layer"
  | emptyRange input low high => s!"input {input} has empty range [{low}, {high}]"
  | emptyLayer layer => s!"layer {layer} is empty"
  | biasCount layer biases neurons => s!"layer {layer} has {biases} biases for {neurons} neurons"
  | weightCount layer neuron width => s!"layer {layer} neuron {neuron} expects {width} inputs"
  | inputCount expected given => s!"expected {expected} inputs, got {given}"

/-- Text of a solver failure. -/
def SolverFault.message : SolverFault → String
  | undeclared var => s!"{VarId.text var} is not a declared variable"
  | noProgress pivots => s!"simplex made no progress after {pivots} pivots"
  | reported text => text

/-- Text of a file failure. -/
def FileFault.message : FileFault → String
  | missing => "No such file or directory (os error 2)"
  | notText => "stream did not contain valid UTF-8"

namespace Error

/-- Text of an error. -/
def message : Error → String
  | exhausted limit => s!"id space exhausted (limit {limit})"
  | noSuchEdge key => s!"no edge at table {key.category.index} slot {key.slot}"
  | edgeConflict key => s!"edge already present at table {key.category.index} slot {key.slot}"
  | immutable _ handle loc => s!"{handle.recordText} at {loc.text} is cemented and cannot be relocated"
  | usedAfterDestroy kind index => s!"{kind.word} {index} used after destroy"
  | invalidTransition source target =>
    s!"invalid activation transition from {source.name} to {target.name}"
  | alreadyOwned node owner => s!"{node.text} already belongs to {owner.text}"
  | notCemented node => s!"{node.text} is not cemented"
  | unresolved node => s!"{node.text} has no owning arnode"
  | sourceNotReady arnode => s!"source {arnode.text} is not forward activated"
  | notFullyActivated arnode => s!"{arnode.text} is not fully activated"
  | successorUnprocessed node layer =>
    s!"{node.text} points into an unprocessed table of layer {layer}"
  | appendOnly table => s!"table {table} is append-only"
  | emptySlot table slot => s!"table {table} has no entry at slot {slot}"
  | frontierViolation fault => s!"frontier violation: {fault.message}"
  | invalidPartition fault => s!"invalid partition: {fault.message}"
  | categoryMismatch fault => s!"category mismatch: {fault.message}"
  | invalidArgument fault => s!"invalid argument: {fault.message}"
  | noMergeCandidate => "no merge candidate"
  | noSplitCandidate => "no split candidate"
  | solver fault => s!"solver: {fault.message}"
  | solverTimeout => "solver timed out"
  | file fault => s!"I/O error: {fault.message}"
  | config => "config"
  | json => "json"

end Error

namespace ActivationState

/-- Moves on to `target`. Staying is allowed, going back is not. -/
def advance (s target : ActivationState) : Except Error ActivationState :=
  if target.rank < s.rank then .error (.invalidTransition s target) else .ok target

end ActivationState

/-- A computation on a state of type `σ` that may fail. A failed step keeps the changes made before the failure. -/
abbrev Step (σ β : Type) := EStateM Error σ β

namespace Step

variable {σ τ β : Type}

/-- A result that leaves the state alone. -/
def ofExcept : Except Error β → Step σ β
  | .ok b => pure b
  | .error e => throw e

/-- Reads the state, possibly failing. -/
def read (f : σ → Except Error β) : Step σ β := fun s =>
  match f s with
  | .ok b => .ok b s
  | .error e => .error e s

/-- Replaces the state, or leaves it alone on failure. -/
def update (f : σ → Except Error σ) : Step σ Unit := fun s =>
  match f s with
  | .ok s' => .ok () s'
  | .error e => .error e s

/-- Runs a step on a part of the state. -/
def zoom (part : σ → τ) (restore : σ → τ → σ) (step : Step τ β) : Step σ β := fun s =>
  match step (part s) with
  | .ok b t => .ok b (restore s t)
  | .error e t => .error e (restore s t)

/-- Outcome of a step and the state it leaves. -/
def outcome (step : Step σ β) (s : σ) : Except Error β × σ :=
  match step s with
  | .ok b s' => (.ok b, s')
  | .error e s' => (.error e, s')

end Step

end ReluAbstraction
