import ReluAbstraction.Network

/-!
# Choosing what to merge and what to split

Arnodes are merged and split in layers that are fully activated and lie between the inputs and the outputs. Folding weights
bounds the output only where the folded values cannot be negative; layer 1 reads the inputs themselves, so it is left out
as soon as one input can be negative.

A merge is scored by the difference of the weights that the two arnodes get from one source, and the smallest score wins. A
split is scored by how far a concrete weight of a member is from the abstract weight that stands for it, and the largest
score wins.
-/

namespace ReluAbstraction

/-- Layers from `first` to `last`. -/
structure LayerRange where
  /-- The first layer. -/
  first : Nat
  /-- The last layer. -/
  last : Nat
deriving DecidableEq, Repr

namespace LayerRange

/-- Whether there is no layer in the range. -/
def isEmpty (r : LayerRange) : Bool := decide (r.last < r.first)

/-- Whether a layer is in the range. -/
def contains (r : LayerRange) (l : Nat) : Bool := decide (r.first ≤ l ∧ l ≤ r.last)

/-- The layers of the range, last one first. -/
def descending (r : LayerRange) : List Nat := (List.range' r.first (r.last + 1 - r.first)).reverse

end LayerRange

/-- Two arnodes that could be merged. -/
structure MergeCandidate (α : Type) where
  /-- Their layer. -/
  layer : Nat
  /-- The arnode with the smaller handle. -/
  first : ArNodeId
  /-- The other arnode. -/
  second : ArNodeId
  /-- Difference of the weights that they get from one source. -/
  score : α
deriving DecidableEq, Repr

/-- The candidate of two edges of one source into layer `l`. -/
def MergeCandidate.ofEdges {α : Type} [Scalar α] (l : Nat) (a b : Edge α ArNodeId) : MergeCandidate α :=
  let ordered := (compare a.neighbor b.neighbor).isLE
  { layer := l
    first := if ordered then a.neighbor else b.neighbor
    second := if ordered then b.neighbor else a.neighbor
    score := Scalar.magnitude (a.weight - b.weight) }

/-- A member that could be split off its arnode. -/
structure SplitCandidate (α : Type) where
  /-- Layer of the arnode. -/
  layer : Nat
  /-- The arnode. -/
  arnode : ArNodeId
  /-- The member. -/
  member : NodeId
  /-- The other members. -/
  rest : List NodeId
  /-- Largest distance between an incoming weight of the member and the abstract weight that stands for it. -/
  score : α
deriving DecidableEq, Repr

/-- The partition that splits the member off. -/
def SplitCandidate.partition {α : Type} (c : SplitCandidate α) : List (List NodeId) := [[c.member], c.rest]

/-- The first element that no later one beats, where `beats x y` says that `x` takes the place of an earlier `y`. -/
def firstBest? {β : Type} (beats : β → β → Bool) : List β → Option β
  | [] => none
  | x :: xs => some (xs.foldl (fun best y => if beats y best then y else best) x)

namespace Network

variable {α : Type} [Scalar α]

/-- Whether some input can be negative. -/
def hasSignedInputs (n : Network α) : Bool := n.inputs.any fun range => range.low < 0

/-- Layers whose arnodes may be merged and split. -/
def refinable (n : Network α) : LayerRange :=
  let floor := if n.hasSignedInputs then 2 else 1
  let activated := match n.frontier.full with
    | some next => next + 1
    | none => 1
  ⟨if activated < floor then floor else activated, n.abstraction.layers.length - 2⟩

/-- Candidates that one source gives in layer `l`: each pair of its edges into one table. -/
def mergesFrom (n : Network α) (order : EdgeSet.Listing α ArNodeId) (l : Nat) (source : ArNodeId) :
    Except Error (List (MergeCandidate α)) := do
  let edges := (← n.abstraction.arnode source).outgoing
  return (edges.combinationsIn order 2).filterMap fun
    | [a, b] => some (MergeCandidate.ofEdges l a.2 b.2)
    | _ => none

/-- Candidates in layer `l`, source by source. -/
def mergesIn (n : Network α) (order : ArNodeId → EdgeSet.Listing α ArNodeId) (l : Nat) :
    Except Error (List (MergeCandidate α)) := do
  return (← (← n.arnodesIn (l - 1)).mapM fun source => n.mergesFrom (order source) l source).flatten

/-- The merge with the smallest score, where `order` tells for each source in which order its edges are taken. Of equal
scores the first one in the highest layer wins. -/
def bestMergeIn (n : Network α) (order : ArNodeId → EdgeSet.Listing α ArNodeId) : Except Error (MergeCandidate α) := do
  let smaller (x y : MergeCandidate α) : Bool := decide (x.score < y.score)
  let perLayer ← n.refinable.descending.mapM (n.mergesIn order)
  match firstBest? smaller (perLayer.filterMap (firstBest? smaller)) with
  | some candidate => return candidate
  | none => throw .noMergeCandidate

/-- The merge with the smallest score, where edges are taken by slot. -/
def bestMerge (n : Network α) : Except Error (MergeCandidate α) := n.bestMergeIn fun _ => .bySlot

/-- Distance between a concrete edge into an arnode and the abstract edge that stands for it. -/
def distortion (n : Network α) (arnode : ArNode α) (edge : Edge α NodeId) : Except Error α := do
  let source ← n.abstraction.arnode (← n.abstraction.ownerOf edge.neighbor)
  let abstracted := match arnode.incoming.get? source.location.key with
    | some e => e.weight
    | none => 0
  return Scalar.magnitude (edge.weight - abstracted)

/-- Largest distance over the incoming edges of a member; zero if it has none. -/
def memberScore (n : Network α) (arnode : ArNode α) (member : NodeId) : Except Error α := do
  let edges := (← n.abstraction.node member).incoming.toList
  return (← edges.mapM fun e => n.distortion arnode e.2).foldl Scalar.larger 0

/-- Candidates that one arnode of layer `l` gives: each of its members, if it has at least two. -/
def splitsOf (n : Network α) (l : Nat) (id : ArNodeId) : Except Error (List (SplitCandidate α)) := do
  let arnode ← n.abstraction.arnode id
  let members := arnode.data.members
  if members.length < 2 then return []
  members.mapM fun member => do
    return ⟨l, id, member, members.filter (· ≠ member), ← n.memberScore arnode member⟩

/-- Candidates in layer `l`, arnode by arnode. -/
def splitsIn (n : Network α) (l : Nat) : Except Error (List (SplitCandidate α)) := do
  return (← (← n.arnodesIn l).mapM (n.splitsOf l)).flatten

/-- The split with the largest score. Of equal scores the first one in the highest layer wins. -/
def bestSplit (n : Network α) : Except Error (SplitCandidate α) := do
  let candidates ← n.refinable.descending.mapM n.splitsIn
  match firstBest? (fun x y => decide (y.score < x.score)) candidates.flatten with
  | some candidate => return candidate
  | none => throw .noSplitCandidate

/-- Fails unless arnodes of layer `l` may be merged and split. -/
def requireRefinable (n : Network α) (l : Nat) : Except Error Unit :=
  if n.refinable.contains l then .ok () else .error (.frontierViolation .notRefinable)

/-- Merges two arnodes of layer `l`. -/
def merge (l : Nat) (first second : ArNodeId) : Step (Network α) ArNodeId := do
  Step.read fun n => n.requireRefinable l
  onAbstraction (Abstraction.merge l first second)

/-- Splits an arnode of layer `l`. -/
def split (l : Nat) (id : ArNodeId) (cells : List (List NodeId)) : Step (Network α) (List ArNodeId) := do
  Step.read fun n => n.requireRefinable l
  onAbstraction (Abstraction.split l id cells)

/-- Carries a merge out. -/
def applyMerge (c : MergeCandidate α) : Step (Network α) ArNodeId := merge c.layer c.first c.second

/-- Carries a split out. -/
def applySplit (c : SplitCandidate α) : Step (Network α) (List ArNodeId) := split c.layer c.arnode c.partition

end Network

end ReluAbstraction
