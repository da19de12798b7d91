import ReluAbstraction.Json
import ReluAbstraction.Network.Run
import ReluAbstraction.Toml.Reader

/-!
# Settings of a run

Settings are read from a TOML document with three sections. Each setting has a default, and a document may not hold
anything else.
-/

namespace ReluAbstraction

/-- Settings of the abstraction. -/
structure AbstractionConfig where
  /-- How the biases of an arnode's members are folded. -/
  biasReduction : Reduction
  /-- Whether full activation checks that the sources are ready. -/
  checkActivation : Bool
  /-- Number of variables that the abstract query may use. -/
  variableLimit : Option Nat
deriving DecidableEq, Repr

/-- Settings of a run. -/
structure Config where
  /-- Time limit and record file of the solver. -/
  solver : SolveOptions
  /-- Settings of the abstraction. -/
  abstraction : AbstractionConfig
  /-- How many merges and splits may be made. -/
  refinement : Budget
deriving DecidableEq, Repr

namespace Config

open Document

/-- Settings of an empty document. -/
def standard : Config := ⟨⟨none, none⟩, ⟨.sum, true, none⟩, ⟨none, none⟩⟩

instance : Inhabited Config := ⟨standard⟩

section Read

variable {ν : Type} [Document ν]

/-- Reads a number that may be left out. -/
def limit (v : Option ν) : Option (Option Nat) := defaulted (nullable nat?) none v

/-- Reads the solver's section. -/
def readSolver (v : ν) : Option SolveOptions := do
  let [timeout, logPath] ← record ["timeout_ms", "log_path"] v | none
  return ⟨← limit timeout, ← defaulted (nullable text?) none logPath⟩

/-- Reads the abstraction's section. -/
def readAbstraction (v : ν) : Option AbstractionConfig := do
  let [bias, check, size] ← record ["bias_reduction", "check_activation_validity", "variable_limit"] v | none
  let bias ← defaulted (choice [Reduction.max, .min, .sum] Reduction.name) .sum bias
  return ⟨bias, ← defaulted flag? true check, ← limit size⟩

/-- Reads the refinement's section. -/
def readRefinement (v : ν) : Option Budget := do
  let [merges, splits] ← record ["merge_budget", "max_refinements"] v | none
  return ⟨← limit merges, ← limit splits⟩

/-- Reads settings. -/
def ofDocument (v : ν) : Option Config := do
  let [solver, abstraction, refinement] ← record ["solver", "abstraction", "refinement"] v | none
  return {
    solver := ← defaulted readSolver standard.solver solver
    abstraction := ← defaulted readAbstraction standard.abstraction abstraction
    refinement := ← defaulted readRefinement standard.refinement refinement }

end Read

/-- Reads settings from a TOML text. -/
def ofText (text : String) : Except Error Config :=
  match (Toml.read? text).bind ofDocument with
  | some config => .ok config
  | none => .error .config

/-- Reads settings from the bytes of a TOML file, if there is one. -/
def ofFile (bytes : Option ByteArray) : Except Error Config :=
  match bytes with
  | none => .error (.file .missing)
  | some bytes =>
    match String.fromUTF8? bytes with
    | some text => ofText text
    | none => .error (.file .notText)

/-- Writes settings. -/
def toJson (c : Config) : Json :=
  .object [
    ("solver", .object [("timeout_ms", .option .nat c.solver.timeout), ("log_path", .option .string c.solver.logPath)]),
    ("abstraction", .object [("bias_reduction", .string c.abstraction.biasReduction.name),
      ("check_activation_validity", .bool c.abstraction.checkActivation),
      ("variable_limit", .option .nat c.abstraction.variableLimit)]),
    ("refinement", .object [("merge_budget", .option .nat c.refinement.merges),
      ("max_refinements", .option .nat c.refinement.splits)])]

/-- Choices made when a network is taken up. -/
def options (c : Config) : Options :=
  ⟨c.abstraction.biasReduction, none, c.abstraction.checkActivation, c.abstraction.variableLimit⟩

end Config

end ReluAbstraction
