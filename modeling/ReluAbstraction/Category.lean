import ReluAbstraction.Scalar

/-!
# Categories

A layer keeps its nodes in five tables. Four of them hold classified nodes, by the sign of their outgoing weights and by
whether raising the node raises or lowers the network's output; the fifth holds nodes not yet classified.
-/

namespace ReluAbstraction

/-- Table a node lives in, and by extension the table of its arnode. -/
inductive Category where
  /-- Non-negative outgoing weights; raising the node raises the output. -/
  | posInc
  /-- Non-negative outgoing weights; raising the node lowers the output. -/
  | posDec
  /-- Negative outgoing weights; raising the node raises the output. -/
  | negInc
  /-- Negative outgoing weights; raising the node lowers the output. -/
  | negDec
  /-- Not classified yet. -/
  | unprocessed
deriving DecidableEq, Repr, Inhabited

namespace Category

/-- All categories, in table order. -/
def all : List Category := [posInc, posDec, negInc, negDec, unprocessed]

/-- The classified categories, in table order. -/
def cemented : List Category := [posInc, posDec, negInc, negDec]

/-- Table number of a category. -/
def index : Category → Nat
  | posInc => 0
  | posDec => 1
  | negInc => 2
  | negDec => 3
  | unprocessed => 4

/-- Category of a table number. -/
def ofIndex? (i : Nat) : Option Category := all[i]?

/-- Whether nodes of the category have a fixed place. -/
def isCemented (c : Category) : Bool := c != unprocessed

/-- Whether raising a node of the category raises the output, unknown before classification. -/
def isIncreasing? : Category → Option Bool
  | posInc | negInc => some true
  | posDec | negDec => some false
  | unprocessed => none

/-- Short name, as it stands in locations. -/
def name : Category → String
  | posInc => "pos_inc"
  | posDec => "pos_dec"
  | negInc => "neg_inc"
  | negDec => "neg_dec"
  | unprocessed => "unprocessed"

/-- Long name, as it stands in documents. -/
def longName : Category → String
  | posInc => "positive_increasing"
  | posDec => "positive_decreasing"
  | negInc => "negative_increasing"
  | negDec => "negative_decreasing"
  | unprocessed => "unprocessed"

/-- Category with the given sign and direction. -/
def ofSigns (positive increasing : Bool) : Category :=
  match positive, increasing with
  | true, true => posInc
  | true, false => posDec
  | false, true => negInc
  | false, false => negDec

/-- Category of a node with an outgoing edge of weight `w` into a node of category `target`; none while `target` is
unprocessed. A zero weight counts as positive. -/
def classify? {α : Type} [Scalar α] (w : α) (target : Category) : Option Category :=
  target.isIncreasing?.map fun increasing =>
    let positive : Bool := decide (0 ≤ w)
    ofSigns positive (positive == increasing)

theorem index_injective {a b : Category} (h : a.index = b.index) : a = b := by
  cases a <;> cases b <;> first | rfl | cases h

end Category

end ReluAbstraction
