import ShaderIR.Machine.Error
import ShaderIR.Pass.Pipeline

/-!
# Errors of the library

All errors under one type, with a text that names their kind and a code that stays the
same whatever the text; and the entry point that reports them.
-/

set_option autoImplicit false

namespace ShaderIR

inductive Error where
  | pass (e : PassError)
  | run (e : RunError)
  /-- A text could not be written. -/
  | print

namespace Error

def kind : Error → String
  | pass _ => "pass error"
  | run _ => "interpreter error"
  | print => "print error"

def detail : Error → String
  | pass e => e.message
  | run e => e.message
  | print => "an error occurred when formatting an argument"

def message (e : Error) : String := "[" ++ e.kind ++ "] " ++ e.detail

def code : Error → String
  | pass e => e.code
  | run _ => "E0400"
  | print => "E0500"

end Error

/-- Stores every output of every function of a module once. -/
def Module.preserveAllOutputs (m : Module) : ModuleRun :=
  let r := Pipeline.run ⟨[.preserve]⟩ ⟨false, none⟩ m
  match r.verdict with
  | .error (pass, .error _) => { r with events := r.events ++ [.aborted pass] }
  | _ => r

end ShaderIR
