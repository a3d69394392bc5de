import Std.Data.TreeMap.Lemmas
import ShaderIR.Pass.Basic
import ShaderIR.Text.Quoted

/-!
# Registries of passes

A registry finds a pass by the argument under which it was registered, which need not be
the pass's own name. The first registration of an argument stays.
-/

set_option autoImplicit false

namespace ShaderIR

structure Registration where
  arg : String
  description : String
  pass : Pass

def Registration.text (r : Registration) : String :=
  "PassInfo \x7b arg: " ++ Text.quoted r.arg ++ ", description: " ++
    Text.quoted r.description ++ " \x7d"

structure Registry where
  entries : Std.TreeMap String Registration

namespace Registry

def empty : Registry := ⟨∅⟩

def lookup? (s : Registry) (arg : String) : Option Registration := s.entries[arg]?

def register (s : Registry) (r : Registration) : Except PassError Registry :=
  if s.entries.contains r.arg then .error (.duplicateRegistration r.arg)
  else .ok ⟨s.entries.insert r.arg r⟩

/-- The registrations in the order of their arguments. -/
def toList (s : Registry) : List Registration := s.entries.toList.map Prod.snd

def own (p : Pass) : Registration := ⟨p.name, p.description, p⟩

def builtin : Registry :=
  ⟨((∅ : Std.TreeMap String Registration).insert Pass.validate.name (own .validate)).insert
    Pass.preserve.name (own .preserve)⟩

def builtinEvents : List Event :=
  [.registered Pass.validate.name, .registered Pass.preserve.name]

theorem register_builtin :
    (empty.register (own .validate)).bind (fun s => s.register (own .preserve)) =
      .ok builtin := by
  rfl

end Registry

end ShaderIR
