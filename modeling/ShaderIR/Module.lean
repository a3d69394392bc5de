import ShaderIR.Function.Printer
import ShaderIR.Metadata

/-!
# Modules

A module holds functions under different names, and optionally shader metadata. A
function is named by its position, and an index finds the position of a name.
-/

set_option autoImplicit false

namespace ShaderIR

structure Module where
  name : String
  functions : List Function
  index : Std.TreeMap String FunctionId
  metadata : Option Metadata

namespace Module

def empty (name : String) : Module := ⟨name, [], ∅, none⟩

def function? (m : Module) (id : FunctionId) : Option Function := m.functions[id.index]?

def functionByName? (m : Module) (name : String) : Option Function :=
  m.index[name]?.bind m.function?

/-- Adds a function, unless its name is taken. Its number is a 32-bit word: there are fewer than
`idLimit` functions. -/
def add (m : Module) (f : Function) : Option (FunctionId × Module) :=
  if m.index.contains f.name then none
  else
    let id : FunctionId := ⟨m.functions.length⟩
    some (id, { m with
      functions := m.functions ++ [{ f with id := id }]
      index := m.index.insert f.name id })

def nameTaken (name : String) : String := "function '" ++ name ++ "' already defined"

def attach (m : Module) (d : Metadata) : Module := { m with metadata := some d }

/-- The metadata, which are empty as long as there are none. -/
def metadataOrEmpty (m : Module) : Metadata := m.metadata.getD .empty

def ensureMetadata (m : Module) : Module := m.attach m.metadataOrEmpty

def text (m : Module) : String :=
  "; module: " ++ m.name ++ "\n" ++
    String.join (((m.metadata.map fun d => d.ops.declared).getD []).map Intrinsic.text) ++
    String.join (m.functions.map Function.text)

end Module

end ShaderIR
