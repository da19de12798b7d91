import ReluAbstraction.Graph.Vertex
import ReluAbstraction.IdPool

/-!
# The abstract query

The arnodes of a network appear in one query: each borrows solver variables, those between the boundary layers are joined
by a ReLU, and each has an equation over its incoming edges. Equations are not kept up to date edit by edit; an arnode
whose equation may be out of date is marked stale until the next refresh.
-/

namespace ReluAbstraction

/-- Solver variables and the query of the arnodes. -/
structure Encoding (α : Type) where
  /-- Variables not in use. -/
  pool : IdPool
  /-- The query. -/
  query : Query α
  /-- Arnodes whose equation may be out of date. -/
  stale : SortedSet ArNodeId
deriving DecidableEq

namespace Encoding

variable {α : Type}

/-- An encoding without arnodes, with variables below a limit. -/
def empty (limit : Option Nat) : Encoding α := ⟨.ofLimit? limit, .empty, .empty⟩

instance : Inhabited (Encoding α) := ⟨empty none⟩

/-- Takes one variable. -/
def takeVar : Step (Encoding α) VarId := do
  let (v, pool) ← Step.read fun e => e.pool.allocate
  modify ({ · with pool })
  return v

/-- Borrows the variables of a new arnode: one for a boundary layer, else two joined by a ReLU. When only one is left it
is given back. -/
def borrowVars (boundary : Bool) : Step (Encoding α) VarPair := do
  let incoming ← takeVar
  if boundary then return ⟨incoming, incoming⟩
  let outgoing ← tryCatch takeVar fun error => do
    modify fun e => { e with pool := e.pool.release incoming }
    throw error
  modify fun e => { e with query := e.query.addRelu ⟨incoming, outgoing⟩ }
  return ⟨incoming, outgoing⟩

/-- Fails unless `count` more variables are free. -/
def reserve (e : Encoding α) (count : Nat) : Except Error Unit :=
  if e.pool.available < count then .error e.pool.exhausted else .ok ()

/-- Sets a lower bound. -/
def setLower (e : Encoding α) (v : VarId) (x : α) : Encoding α := { e with query := e.query.setLower v x }

/-- Sets an upper bound. -/
def setUpper (e : Encoding α) (v : VarId) (x : α) : Encoding α := { e with query := e.query.setUpper v x }

/-- Drops both bounds of a variable. -/
def removeBounds (e : Encoding α) (v : VarId) : Encoding α := { e with query := e.query.removeBounds v }

/-- Gives a variable back, together with its bounds. -/
def giveBack (e : Encoding α) (v : VarId) : Encoding α :=
  { e.removeBounds v with pool := e.pool.release v }

/-- Removes an equation from the query, if there is one. -/
def dropEquation [BEq α] (e : Encoding α) : Option (Equation α) → Encoding α
  | some equation => { e with query := e.query.removeEquation equation }
  | none => e

/-- Gives an arnode's variables back, together with its bounds, its ReLU and its equation. -/
def releaseVars [BEq α] (e : Encoding α) (vars : VarPair) (equation : Option (Equation α)) : Encoding α :=
  let e := e.dropEquation equation
  if vars.isBoundary then e.giveBack vars.incoming
  else
    let e := { e with query := e.query.removeRelu ⟨vars.incoming, vars.outgoing⟩ }
    (e.giveBack vars.outgoing).giveBack vars.incoming

/-- Marks an arnode's equation as possibly out of date. -/
def markStale (e : Encoding α) (id : ArNodeId) : Encoding α := { e with stale := e.stale.add id }

/-- Drops the mark of an arnode. -/
def forget (e : Encoding α) (id : ArNodeId) : Encoding α := { e with stale := e.stale.erase id }

/-- Whether an arnode is marked. -/
def isStale (e : Encoding α) (id : ArNodeId) : Bool := e.stale.contains id

/-- Drops all marks and gives the arnodes that had one, in order. -/
def takeStale : Step (Encoding α) (List ArNodeId) := do
  let stale := (← get).stale
  modify ({ · with stale := .empty })
  return stale.keys

/-- Exchanges an arnode's equation. -/
def replaceEquation [BEq α] (e : Encoding α) (old new : Option (Equation α)) : Encoding α :=
  let e := e.dropEquation old
  match new with
  | some equation => { e with query := e.query.addEquation equation }
  | none => e

/-- Declares all variables issued so far. -/
def prepare (e : Encoding α) : Encoding α :=
  { e with query := { e.query with varCount := match e.pool.maxUsed with
      | some top => top + 1
      | none => 0 } }

end Encoding

end ReluAbstraction
