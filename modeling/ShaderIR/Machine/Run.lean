import ShaderIR.Machine.Effect
import ShaderIR.Machine.Execution

/-!
# Runs

A run starts at the entry block and follows the branches until a return. A million
instructions may be executed; the next one is refused.
-/

set_option autoImplicit false

namespace ShaderIR

/-- A point of a run: what is left of the current block, and the state. -/
structure Config where
  block : BlockId
  rest : List Instr
  machine : Machine

structure RunResult where
  outputs : List OutputRecord
  ending : Except Stop (List Value)

namespace Function

def code (f : Function) (b : BlockId) : List Instr := (f.blockInstrs b).map Prod.snd

def stepLimit : Nat := 1000000

/-- Executes at most `fuel` instructions. -/
def exec (f : Function) : Nat → Config → RunResult
  | _, ⟨block, [], m⟩ =>
    ⟨m.outputs.toList, .error (.error (.unsupported (.noTerminator block)))⟩
  | 0, ⟨_, _ :: _, m⟩ => ⟨m.outputs.toList, .error (.error (.unsupported .stepLimit))⟩
  | fuel + 1, ⟨block, ins :: rest, m⟩ =>
    match m.effect f ins with
    | .error e => ⟨m.outputs.toList, .error e⟩
    | .ok (.ret xs) => ⟨m.outputs.toList, .ok xs⟩
    | .ok (.jump target bindings) =>
      f.exec fuel ⟨target, f.code target, m.bindAll bindings⟩
    | .ok e => f.exec fuel ⟨block, rest, m.apply e⟩

/-- The start of a run: the entry's parameters are bound to as many arguments as there
are. -/
def start (f : Function) (entry : Block) (args : List Value) : Config :=
  ⟨.entry, f.code .entry, Machine.initial.bindAll (entry.paramIds.zip args)⟩

def run (f : Function) (args : List Value) : RunResult :=
  match f.blocks with
  | [] => ⟨[], .error (.violation .outOfBounds)⟩
  | entry :: _ => f.exec stepLimit (f.start entry args)

/-- The execution of a run that ends with a return. -/
def evaluate (f : Function) (args : List Value) : Except Stop Execution :=
  let r := f.run args
  r.ending.map fun xs => ⟨r.outputs, xs⟩

end Function

end ShaderIR
