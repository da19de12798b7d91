import ReluAbstraction.Abstraction

/-!
# Activation

Abstract edges are built from concrete ones. The edge from `source` to `target` folds twice: for every member of
`source`, the weights into the members of `target` are reduced as the target's category says, a missing edge counting as
zero; then the results are reduced as the source's category says. Forward activation builds the outgoing edges of an
arnode, full activation confirms the incoming ones.
-/

namespace ReluAbstraction.Abstraction

variable {α : Type} [Scalar α]

/-- The arnodes that hold the neighbours of an arnode's members on one side, in order. -/
def neighborOwners (a : Abstraction α) (id : ArNodeId) (d : Direction) : Except Error (List ArNodeId) := do
  let neighbors ← (← a.arnode id).data.members.mapM fun member => do
    ((← a.node member).edges d).neighbors.mapM a.ownerOf
  return (neighbors.flatten.foldl SortedSet.add (.empty : SortedSet ArNodeId)).keys

/-- Weight of the abstract edge from `source` to `target`; none if no member of one has an edge to a member of the
other. -/
def abstractWeight? (a : Abstraction α) (source target : ArNodeId) : Except Error (Option α) := do
  let src ← a.arnode source
  let dst ← a.arnode target
  let keys ← dst.data.members.mapM fun member => return (← a.node member).location.key
  let found ← src.data.members.mapM fun member => do
    let edges := (← a.node member).outgoing
    return keys.map fun key => (edges.get? key).map (·.weight)
  if found.any (·.any Option.isSome) then
    let perMember := found.filterMap fun weights =>
      (a.policy.incoming dst.location.category).reduce? (weights.map (·.getD 0))
    return (a.policy.outgoing src.location.category).reduce? perMember
  else return none

/-- Moves an arnode's state on. -/
def advance (id : ArNodeId) (state : ActivationState) : Step (Abstraction α) Unit :=
  onArnodes (Graph.edit id fun v => do
    return { v with data := { v.data with state := ← v.data.state.advance state } })

/-- Builds the outgoing edges of an arnode, once. Every neighbour of its members has to be held by an arnode. -/
def forwardActivate (id : ArNodeId) : Step (Abstraction α) Unit := do
  if (← Step.read fun a => a.arnode id).data.state.isForward then return
  let targets ← Step.read fun a => a.neighborOwners id .outgoing
  targets.forM fun target => do
    match ← Step.read fun a => a.abstractWeight? id target with
    | some weight =>
      onArnodes (Graph.link id .outgoing target weight true)
      recode (·.markStale target)
    | none => pure ()
  advance id .forwardActivated

/-- Fails unless a state is far enough for full activation. -/
def requireForward (state : ActivationState) : Except Error Unit :=
  if state.isForward then .ok () else .error (.invalidTransition state .fullyActivated)

/-- Fails unless an arnode has its outgoing edges. -/
def requireReady (a : Abstraction α) (source : ArNodeId) : Except Error Unit := do
  if !(← a.arnode source).data.state.isForward then throw (.sourceNotReady source)

/-- Sets the edge from `source` to `id` to its abstract weight, or removes it. -/
def recalculate (id source : ArNodeId) : Step (Abstraction α) Unit := do
  match ← Step.read fun a => a.abstractWeight? source id with
  | some weight => onArnodes (Graph.link id .incoming source weight true)
  | none =>
    let key := (← Step.read fun a => a.arnode source).location.key
    if ((← Step.read fun a => a.arnode id).incoming.get? key).isSome then
      discard (onArnodes (Graph.unlink id .incoming source true))

/-- Rebuilds the incoming edges of a forward activated arnode and makes it fully activated, once. Every source has to be
forward activated; edges from arnodes that feed no member are dropped. -/
def fullyActivate (id : ArNodeId) : Step (Abstraction α) Unit := do
  let state := (← Step.read fun a => a.arnode id).data.state
  if state = .fullyActivated then return
  Step.ofExcept (requireForward state)
  let sources ← Step.read fun a => a.neighborOwners id .incoming
  sources.forM fun source => Step.read fun a => a.requireReady source
  let current := (← Step.read fun a => a.arnode id).incoming.neighbors
  current.forM fun neighbor =>
    if neighbor ∈ sources then pure ()
    else discard (onArnodes (Graph.unlink id .incoming neighbor true))
  sources.forM (recalculate id)
  recode (·.markStale id)
  advance id .fullyActivated

/-- Makes a forward activated arnode fully activated with the incoming edges it has, once. If asked to check, every source
has to be forward activated. -/
def confirm (id : ArNodeId) (check : Bool) : Step (Abstraction α) Unit := do
  let arnode ← Step.read fun a => a.arnode id
  if arnode.data.state = .fullyActivated then return
  Step.ofExcept (requireForward arnode.data.state)
  if check then
    arnode.incoming.neighbors.forM fun source => Step.read fun a => a.requireReady source
  advance id .fullyActivated

end ReluAbstraction.Abstraction
