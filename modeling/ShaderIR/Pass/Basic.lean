import ShaderIR.Function.Validity
import ShaderIR.Preserve.Redirect

/-!
# Passes

The passes that a pipeline can schedule: one that stores every output once, and a
check that changes nothing.
-/

set_option autoImplicit false

namespace ShaderIR

inductive Pass where
  | preserve
  | validate
deriving DecidableEq

namespace Pass

def name : Pass → String
  | preserve => Preserve.passName
  | validate => "validate"

def description : Pass → String
  | preserve => Preserve.passDescription
  | validate => "Validate SSA structure and memory operand types"

/-- Whether a second run in a row may be scheduled. -/
def isIdempotent : Pass → Bool
  | preserve => false
  | validate => true

def run (p : Pass) (f : Function) (m : Metadata) : PassRun :=
  match p with
  | preserve => Preserve.run f m
  | validate =>
    match f.validate with
    | .ok () => ⟨f, m, [], .ok false⟩
    | .error e => ⟨f, m, [], .error (.error e)⟩

end Pass

end ShaderIR
