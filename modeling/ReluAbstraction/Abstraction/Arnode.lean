import ReluAbstraction.Abstraction

/-!
# Making and destroying arnodes

An arnode is made over nodes of one category that no other arnode holds. Making one borrows its variables, destroying one
gives them back; both leave marks on the arnodes whose equations they touch, and `refreshEquations` works the marks off.
-/

namespace ReluAbstraction.Abstraction

variable {α : Type} [Scalar α]

/-- Bias of a node that can join an arnode at `loc`; fails if the node cannot. -/
def memberBias (a : Abstraction α) (loc : Location) (id : NodeId) : Except Error α := do
  let node ← a.node id
  if node.movable then throw (.notCemented id)
  if let some owner := node.data.owner then throw (.alreadyOwned id owner)
  if node.location.layer ≠ loc.layer ∨ node.location.category ≠ loc.category then
    throw (.categoryMismatch (.node id node.location loc))
  return node.data.bias

/-- Bias of an arnode at `loc` over `members`. -/
def foldBias (a : Abstraction α) (loc : Location) (members : List NodeId) : Except Error α := do
  match (a.policy.bias loc.category).reduce? (← members.mapM (a.memberBias loc)) with
  | some bias => return bias
  | none => throw (.invalidArgument .noMembers)

/-- Makes an arnode at `loc` over `members`. -/
def spawn (loc : Location) (members : List NodeId) (boundary : Bool) : Step (Abstraction α) ArNodeId := do
  let bias ← Step.read fun a => a.foldBias loc members
  let vars ← onEncoding (Encoding.borrowVars boundary)
  let id ← tryCatch (onArnodes (Graph.add (ArNode.create loc members vars bias))) fun error => do
    recode (·.releaseVars vars none)
    throw error
  members.forM (setOwner (some id))
  recode (·.markStale id)
  count .arnodeCreated
  return id

/-- Destroys an arnode and gives the nodes it held. -/
def destroy (id : ArNodeId) : Step (Abstraction α) (List NodeId) := do
  let (arnode, neighbors) ← onArnodes (Graph.destroy id)
  arnode.data.members.forM (setOwner none)
  neighbors.forM fun (d, neighbor) =>
    if d = .outgoing then recode (·.markStale neighbor) else pure ()
  recode (·.forget id)
  recode (·.releaseVars arnode.data.vars arnode.data.equation)
  count .arnodeDestroyed
  return arnode.data.members

/-- Rebuilds the equation of an arnode. -/
def refresh (id : ArNodeId) : Step (Abstraction α) Unit := do
  let arnode ← Step.read fun a => a.arnode id
  let equation ← Step.read fun a => arnode.buildEquation fun source => do
    return (← a.arnode source).data.vars.outgoing
  onArnodes (Graph.edit id fun v => .ok { v with data := { v.data with equation } })
  recode (·.replaceEquation arnode.data.equation equation)

/-- Rebuilds the equation of every marked arnode that is still there. Gives their number. -/
def refreshEquations : Step (Abstraction α) Nat := do
  let stale ← onEncoding Encoding.takeStale
  stale.foldlM (fun rebuilt id => do
    if (← get).arnodes.contains id then
      refresh id
      return rebuilt + 1
    else return rebuilt) 0

/-- The query of the arnodes, with all variables issued so far declared. -/
def preparedQuery : Step (Abstraction α) (Query α) := do
  recode (·.prepare)
  return (← get).encoding.query

end ReluAbstraction.Abstraction
