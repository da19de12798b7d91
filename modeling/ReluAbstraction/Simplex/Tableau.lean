import ReluAbstraction.Error
import ReluAbstraction.Simplex.Program

/-!
# Simplex

A linear program is decided by pivoting. Every constraint gets a slack variable equal to its expression, so that all
bounds are on variables. Basic variables are written over the others; a basic variable outside its bounds is repaired by
exchanging it with a non-basic one that has room. Both choices take the smallest index, which keeps the search from
cycling.

`Tableau.step` is one exchange and `Tableau.run` repeats it up to a limit.
-/

namespace ReluAbstraction

/-- A tableau over `n` variables with `m` basic ones. -/
structure Tableau (α : Type) (n m : Nat) where
  /-- Lower bounds. -/
  lower : Vector (Option α) n
  /-- Upper bounds. -/
  upper : Vector (Option α) n
  /-- Current values. -/
  values : Vector α n
  /-- Coefficients of each basic variable over the non-basic ones. -/
  rows : Vector (Vector α n) m
  /-- The basic variable of each row. -/
  basic : Vector (Fin n) m

/-- What one exchange comes to. -/
inductive Tableau.Progress (α : Type) (n m : Nat) where
  /-- Every variable is within its bounds. -/
  | feasible
  /-- A basic variable cannot be repaired. -/
  | infeasible
  /-- A basic variable was exchanged. -/
  | pivoted (next : Tableau α n m)

namespace Tableau

variable {α : Type} [Scalar α] {n m : Nat}

/-- The number nearest to zero within bounds; the upper bound wins where they cross. -/
def start (lower upper : Option α) : α :=
  let raised := match lower with
    | some l => Scalar.larger 0 l
    | none => 0
  match upper with
  | some u => Scalar.smaller raised u
  | none => raised

/-- Value of a linear expression, summed from left to right. -/
def rowValue (row values : Vector α n) : α := Scalar.dot row.toList values.toList

/-- Coefficients of a constraint over all variables; terms of one variable add up. -/
def dense (columns : Nat) (slack : Nat) (terms : List (Fin columns × α)) : Vector α (columns + slack) :=
  terms.foldl (fun row (i, c) => assign row (i.castAdd slack) (row.get (i.castAdd slack) + c))
    (Vector.replicate (columns + slack) 0)

/-- The tableau a program starts from: the slack variables are basic, and the others stand as near to zero as their
bounds allow. -/
def ofProgram (p : LinearProgram α n) : Tableau α (n + p.rows.length) p.rows.length :=
  let rows := Vector.ofFn fun i : Fin p.rows.length => dense n p.rows.length (p.rows.get i).coefficients
  let basic := Vector.ofFn fun i : Fin p.rows.length => i.natAdd n
  let lower := p.lower ++ Vector.ofFn fun i : Fin p.rows.length => (p.rows.get i).lower
  let upper := p.upper ++ Vector.ofFn fun i : Fin p.rows.length => (p.rows.get i).upper
  let initial := Vector.zipWith start lower upper
  let values := (List.finRange p.rows.length).foldl
    (fun values i => assign values (basic.get i) (rowValue (rows.get i) values)) initial
  { lower, upper, values, rows, basic }

/-- Whether the bounds of some variable cross. -/
def crossed (t : Tableau α n m) (tolerance : Tolerance α) : Bool :=
  (List.finRange n).any fun i =>
    match t.lower.get i, t.upper.get i with
    | some l, some u => u + tolerance.bound < l
    | _, _ => false

/-- The bound that variable `i` violates, and whether the variable lies below it. -/
def violation? (t : Tableau α n m) (tolerance : Tolerance α) (i : Fin n) : Option (α × Bool) :=
  let value := t.values.get i
  let below := match t.lower.get i with
    | some l => if value < l - tolerance.bound then some (l, true) else none
    | none => none
  match below, t.upper.get i with
  | some found, _ => some found
  | none, some u => if u + tolerance.bound < value then some (u, false) else none
  | none, none => none

/-- Row of the basic variable of smallest index that violates a bound, with that bound and its side. -/
def violatedBasic? (t : Tableau α n m) (tolerance : Tolerance α) : Option (Fin m × α × Bool) :=
  (List.finRange m).foldl (fun best row =>
    match t.violation? tolerance (t.basic.get row) with
    | none => best
    | some (target, below) =>
      match best with
      | none => some (row, target, below)
      | some (other, _, _) => if t.basic.get row < t.basic.get other then some (row, target, below) else best) none

/-- Whether variable `j` can grow. -/
def canRise (t : Tableau α n m) (tolerance : Tolerance α) (j : Fin n) : Bool :=
  match t.upper.get j with
  | some u => decide (t.values.get j < u - tolerance.bound)
  | none => Scalar.roomAbove (t.values.get j)

/-- Whether variable `j` can shrink. -/
def canFall (t : Tableau α n m) (tolerance : Tolerance α) (j : Fin n) : Bool :=
  match t.lower.get j with
  | some l => decide (l + tolerance.bound < t.values.get j)
  | none => Scalar.roomBelow (t.values.get j)

/-- Whether moving the non-basic variable `j` moves the basic variable of `row` the way it has to go. -/
def eligible (t : Tableau α n m) (tolerance : Tolerance α) (row : Fin m) (increase : Bool) (j : Fin n) : Bool :=
  let a := (t.rows.get row).get j
  if Scalar.magnitude a ≤ tolerance.pivot ∨ t.basic.contains j then false
  else if increase then
    (decide (0 < a) && t.canRise tolerance j) || (decide (a < 0) && t.canFall tolerance j)
  else
    (decide (0 < a) && t.canFall tolerance j) || (decide (a < 0) && t.canRise tolerance j)

/-- The non-basic variable of smallest index that can repair the basic variable of `row`. -/
def entering? (t : Tableau α n m) (tolerance : Tolerance α) (row : Fin m) (increase : Bool) : Option (Fin n) :=
  (List.finRange n).find? (t.eligible tolerance row increase)

/-- Values after the basic variable of `row` has moved to `target` along the entering variable. -/
def shift (t : Tableau α n m) (row : Fin m) (entering : Fin n) (target : α) : Vector α n :=
  let theta := (target - t.values.get (t.basic.get row)) / (t.rows.get row).get entering
  let moved := assign t.values entering (t.values.get entering + theta)
  let moved := (List.finRange m).foldl
    (fun values i => assign values (t.basic.get i) (values.get (t.basic.get i) + (t.rows.get i).get entering * theta)) moved
  assign moved (t.basic.get row) target

/-- The row of the entering variable: the leaving variable's row solved for it. -/
def pivotRow (t : Tableau α n m) (row : Fin m) (entering : Fin n) : Vector α n :=
  let a := (t.rows.get row).get entering
  assign (assign ((t.rows.get row).map fun c => -c / a) entering 0) (t.basic.get row) (1 / a)

/-- A row with the entering variable replaced by its own row. -/
def substitute (tolerance : Tolerance α) (entering : Fin n) (pivotRow row : Vector α n) : Vector α n :=
  let c := row.get entering
  let cleared := assign row entering 0
  if Scalar.magnitude c ≤ tolerance.pivot then cleared
  else Vector.zipWith (fun old new => old + c * new) cleared pivotRow

/-- Exchanges the basic variable of `row`, which moves to `target`, with a non-basic one. -/
def pivot (t : Tableau α n m) (tolerance : Tolerance α) (row : Fin m) (entering : Fin n) (target : α) :
    Tableau α n m :=
  let solved := t.pivotRow row entering
  { t with
    values := t.shift row entering target
    rows := Vector.ofFn fun i => if i = row then solved else substitute tolerance entering solved (t.rows.get i)
    basic := assign t.basic row entering }

/-- One exchange. -/
def step (t : Tableau α n m) (tolerance : Tolerance α) : Progress α n m :=
  match t.violatedBasic? tolerance with
  | none => .feasible
  | some (row, target, below) =>
    match t.entering? tolerance row below with
    | none => .infeasible
    | some entering => .pivoted (t.pivot tolerance row entering target)

/-- Repeats exchanges, at most `limit` times: the final tableau if it is feasible, none if there is no feasible point, and
no answer at all when the limit is reached. -/
def run (tolerance : Tolerance α) : Nat → Tableau α n m → Option (Option (Tableau α n m))
  | 0, _ => none
  | limit + 1, t =>
    match t.step tolerance with
    | .feasible => some (some t)
    | .infeasible => some none
    | .pivoted next => run tolerance limit next

end Tableau

namespace LinearProgram

variable {α : Type} [Scalar α] {n : Nat}

/-- Number of exchanges after which the search is given up. -/
def pivotLimit (p : LinearProgram α n) : Nat := 1000 + 50 * (n + p.rows.length)

/-- A point within all bounds and limits, none if there is no such point; fails if `limit` exchanges do not decide. -/
def solveWithin (tolerance : Tolerance α) (limit : Nat) (p : LinearProgram α n) : Except Error (Option (Vector α n)) :=
  let t := Tableau.ofProgram p
  if t.crossed tolerance then .ok none
  else
    match t.run tolerance limit with
    | some (some final) => .ok (some (Vector.ofFn fun i => final.values.get (i.castAdd p.rows.length)))
    | some none => .ok none
    | none => .error (.solver (.noProgress limit))

/-- The answer within the number of exchanges that the program is worth. -/
def solve (tolerance : Tolerance α) (p : LinearProgram α n) : Except Error (Option (Vector α n)) :=
  p.solveWithin tolerance p.pivotLimit

end LinearProgram

end ReluAbstraction
