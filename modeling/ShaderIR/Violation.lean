import ShaderIR.Ident
import ShaderIR.Text.Quoted

/-!
# Broken preconditions

Every operation of the library is total. An operation whose caller broke a precondition
answers with the violation instead of a value. Violations are kept apart from the
errors that a pass or a run reports about its input, because no caller can recover from them.
-/

set_option autoImplicit false

namespace ShaderIR

inductive Violation where
  /-- A count or an identifier does not fit its word. -/
  | overflow
  /-- A block is named that the function does not have. -/
  | outOfBounds
  | noCurrentBlock
  | noBlockToPush
  /-- An instruction is pushed after a terminator. -/
  | sealedBlock (block : BlockId)
  /-- A function is finished while a block has no terminator. -/
  | unsealedBlock (block : BlockId) (name : Option String)
  /-- A signature element without a component. -/
  | emptyElement
deriving DecidableEq

def Violation.message : Violation → String
  | .overflow => "arithmetic overflow"
  | .outOfBounds => "index out of bounds"
  | .noCurrentBlock => "IrFunctionBuilder: no current block set"
  | .noBlockToPush => "IrFunctionBuilder: no current block set before push_instr"
  | .sealedBlock b => "push_instr called on already-sealed block " ++ b.description
  | .unsealedBlock b name =>
    "build() called with unsealed block " ++ b.description ++ " ('" ++
      Text.quotedOption name ++ "')"
  | .emptyElement => "signature element must be at least 1x1"

/-- Why an operation gave no answer: an error that it reports, or a broken precondition. -/
inductive Failure (ε : Type) where
  | error (e : ε)
  | violation (v : Violation)

/-- Identifiers of values are 32-bit words. -/
def idLimit : Nat := 4294967296

/-- Sizes and offsets in memory are 64-bit words. -/
def wordLimit : Nat := 18446744073709551616

def mulWord? (a b : Nat) : Option Nat :=
  if a * b < wordLimit then some (a * b) else none

def addWord? (a b : Nat) : Option Nat :=
  if a + b < wordLimit then some (a + b) else none

theorem mulWord?_eq_some {a b c : Nat} :
    mulWord? a b = some c ↔ a * b < wordLimit ∧ a * b = c := by
  simp [mulWord?]

theorem addWord?_eq_some {a b c : Nat} :
    addWord? a b = some c ↔ a + b < wordLimit ∧ a + b = c := by
  simp [addWord?]

end ShaderIR
