import ShaderIR.Ident
import ShaderIR.Machine.Value

/-!
# Events

What passes, pipelines and runs note down while they work.
-/

set_option autoImplicit false

namespace ShaderIR

inductive Event where
  | registered (arg : String)
  | noOutputStores (pass func : String)
  | outputStores (pass func : String) (stores elements : Nat)
  | scratch (func : String) (slot : ValueId) (name : String) (id rows cols : Nat)
  | returns (pass : String) (count : Nat) (func : String)
  | ran (pass func : String) (modified : Bool)
  | dump (pass text : String)
  | aborted (pass : String)
  | recorded (record : OutputRecord)

inductive Level where
  | trace | debug
deriving DecidableEq

def Level.text : Level → String
  | trace => "TRACE"
  | debug => "DEBUG"

namespace Event

def level : Event → Level
  | registered .. | scratch .. | returns .. | recorded .. => .trace
  | noOutputStores .. | outputStores .. | ran .. | dump .. | aborted .. => .debug

def message : Event → String
  | registered arg => "registered pass '" ++ arg ++ "'"
  | noOutputStores pass f => pass ++ ": no output stores in '" ++ f ++ "'"
  | outputStores pass f stores elements =>
    pass ++ ": '" ++ f ++ "' has " ++ toString stores ++ " output stores to " ++
      toString elements ++ " signature elements"
  | scratch f slot name id rows cols =>
    f ++ ": scratch " ++ slot.text ++ " for '" ++ name ++ "' (id " ++ toString id ++ ", " ++
      toString rows ++ "x" ++ toString cols ++ ")"
  | returns pass count f => pass ++ ": " ++ toString count ++ " returns in '" ++ f ++ "'"
  | ran pass f modified =>
    "pass '" ++ pass ++ "' on '" ++ f ++ "': modified = " ++ (if modified then "true" else "false")
  | dump pass text => "--- IR after " ++ pass ++ " ---\n" ++ text
  | aborted pass => "pipeline aborted in '" ++ pass ++ "'"
  | recorded r => r.text

def line (e : Event) : String := e.level.text ++ " " ++ e.message

end Event

end ShaderIR
