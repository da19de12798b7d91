import ReluAbstraction.Network

/-!
# Building the abstraction

The stages of the abstraction, layer by layer. Preprocessing the input layer also bounds the variables of the inputs, and
preprocessing the output layer bounds the variable of the property's output.
-/

namespace ReluAbstraction.Network

variable {α : Type} [Scalar α]

/-- Neuron that the first member of an arnode comes from. -/
def firstNeuron? (n : Network α) (arnode : ArNode α) : Except Error (Option Nat) := do
  match arnode.data.members with
  | [] => return none
  | member :: _ => return some (← n.abstraction.node member).data.origin.index

/-- Sets a bound of an abstract variable. -/
def setBound (v : VarId) (bound : Bound α) : Step (Network α) Unit :=
  onAbstraction (Abstraction.recode fun e => { e with query := e.query.setBound v bound })

/-- Bounds an arnode of the input layer by the range of its input. -/
def boundInput (id : ArNodeId) : Step (Network α) Unit := do
  let arnode ← Step.read fun n => n.abstraction.arnode id
  match ← Step.read fun n => n.firstNeuron? arnode with
  | none => pure ()
  | some neuron =>
    match (← get).inputs[neuron]? with
    | none => throw (.invalidArgument (.noInputBounds neuron))
    | some range =>
      setBound arnode.data.vars.incoming (.lower range.low)
      setBound arnode.data.vars.incoming (.upper range.high)

/-- Bounds an arnode of the output layer if it stands for the property's output. -/
def boundOutput (id : ArNodeId) : Step (Network α) Unit := do
  let arnode ← Step.read fun n => n.abstraction.arnode id
  let property := (← get).property
  match ← Step.read fun n => n.firstNeuron? arnode with
  | none => pure ()
  | some neuron =>
    if neuron = property.output then setBound arnode.data.vars.incoming property.bound else pure ()

/-- Moves the frontier on. -/
def moveFrontier (f : Frontier → Frontier) : Step (Network α) Unit :=
  modify fun n => { n with frontier := f n.frontier }

/-- Preprocesses the next layer and gives its number. -/
def preprocessNext : Step (Network α) (Option Nat) := do
  match (← get).frontier.preprocess with
  | none => return none
  | some l =>
    let created ← onAbstraction (Abstraction.preprocess l)
    if l = 0 then created.forM boundInput
    else if l + 1 = (← get).abstraction.layers.length then created.forM boundOutput
    moveFrontier fun f => { f with preprocess := Frontier.before? l }
    return some l

/-- Forward activates the next layer and gives its number. -/
def forwardNext : Step (Network α) (Option Nat) := do
  let frontier := (← get).frontier
  match frontier.forward with
  | none => return none
  | some l =>
    if !frontier.isPreprocessed l then throw (.frontierViolation .forwardBeforePreprocess)
    onAbstraction (Abstraction.forwardActivateLayer l)
    moveFrontier fun f => { f with forward := Frontier.before? l }
    return some l

/-- Fully activates the next layer and gives its number. -/
def fullNext : Step (Network α) (Option Nat) := do
  let frontier := (← get).frontier
  match frontier.full with
  | none => return none
  | some l =>
    if !frontier.canFullyActivate then throw (.frontierViolation .fullBeforeForward)
    onAbstraction (Abstraction.confirmLayer l (← get).checkActivation)
    moveFrontier fun f => { f with full := Frontier.interiorBefore? l }
    return some l

/-- Takes the latest stage that can run one layer further. Gives false once all stages are through. -/
def advance : Step (Network α) Bool := do
  let frontier := (← get).frontier
  if frontier.canFullyActivate then discard fullNext
  else if frontier.canForward then discard forwardNext
  else if frontier.preprocess.isSome then discard preprocessNext
  else if !frontier.isComplete then throw (.frontierViolation .stuck)
  else return false
  return true

/-- Advances at most the given number of times, until all stages are through. -/
def advanceUpTo : Nat → Step (Network α) Unit
  | 0 => pure ()
  | steps + 1 => do
    if ← advance then advanceUpTo steps

/-- Completes the abstraction. Each stage takes every layer at most once, so three times the number of layers, and one
more to see the end, are enough. -/
def complete : Step (Network α) Unit := do
  advanceUpTo (3 * (← get).abstraction.layers.length + 1)

end ReluAbstraction.Network
