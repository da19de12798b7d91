import ReluAbstraction.Error

/-!
# Id pools

A pool issues the smallest free id and takes ids back. Its free ids are kept as a list of ranges, in increasing order,
with at least one id in use between two of them. Once every id is back, the list is again the one the pool started with.
-/

namespace ReluAbstraction

/-- Ids from `start` up to but not including `stop`. -/
structure IdRange where
  /-- First id. -/
  start : Nat
  /-- First id after the range. -/
  stop : Nat
deriving DecidableEq, Repr

/-- Issues and reclaims ids. -/
structure IdPool where
  /-- Free ids, as ranges in increasing order. -/
  free : List IdRange
  /-- First id that is never issued, if a limit was declared. -/
  limit : Option Nat
  /-- Largest id issued so far. -/
  maxUsed : Option Nat
deriving DecidableEq, Repr

namespace IdPool

/-- First id that no pool issues. -/
def ceiling : Nat := 18446744073709551615

/-- A pool of the ids below `limit`. -/
def bounded (limit : Nat) : IdPool :=
  ⟨if limit = 0 then [] else [⟨0, limit⟩], some limit, none⟩

/-- A pool without a declared limit. -/
def unbounded : IdPool := ⟨[⟨0, ceiling⟩], none, none⟩

/-- A pool with a declared limit, or without one. -/
def ofLimit? : Option Nat → IdPool
  | some limit => bounded limit
  | none => unbounded

instance : Inhabited IdPool := ⟨unbounded⟩

/-- The error raised when no id is left. -/
def exhausted (p : IdPool) : Error := .exhausted (p.limit.getD ceiling)

/-- The larger of the ids issued so far and `id`. -/
def raise (used : Option Nat) (id : Nat) : Option Nat :=
  match used with
  | none => some id
  | some top => some (if top < id then id else top)

/-- Issues the smallest free id. -/
def allocate (p : IdPool) : Except Error (Nat × IdPool) :=
  match p.free with
  | [] => .error p.exhausted
  | range :: rest =>
    let free := if range.start + 1 = range.stop then rest else ⟨range.start + 1, range.stop⟩ :: rest
    .ok (range.start, { p with free, maxUsed := raise p.maxUsed range.start })

/-- Adds an id to a list of ranges, joining it with the ranges it touches. -/
def insertId (id : Nat) : List IdRange → List IdRange
  | [] => [⟨id, id + 1⟩]
  | range :: rest =>
    if id + 1 < range.start then ⟨id, id + 1⟩ :: range :: rest
    else if id + 1 = range.start then ⟨id, range.stop⟩ :: rest
    else if id = range.stop then
      match rest with
      | [] => [⟨range.start, id + 1⟩]
      | next :: more =>
        if next.start = id + 1 then ⟨range.start, next.stop⟩ :: more
        else ⟨range.start, id + 1⟩ :: next :: more
    else range :: insertId id rest

/-- Takes an id back. -/
def release (p : IdPool) (id : Nat) : IdPool := { p with free := insertId id p.free }

/-- Number of free ids. -/
def available (p : IdPool) : Nat := p.free.foldr (fun range n => range.stop - range.start + n) 0

/-- Whether `id` is free. -/
def isFree (p : IdPool) (id : Nat) : Bool := p.free.any fun range => range.start ≤ id ∧ id < range.stop

end IdPool

end ReluAbstraction
