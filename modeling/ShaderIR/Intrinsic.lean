import ShaderIR.Ty
import ShaderIR.Violation
import ShaderIR.Text.Segments

/-!
# Intrinsics

An intrinsic is an operation specialised to a scalar. A module lists the intrinsics that
it declares by name, each once.
-/

set_option autoImplicit false

namespace ShaderIR

inductive OpCode where
  | storeOutput
  | storePatchConstant
deriving DecidableEq, Inhabited

namespace OpCode

/-- The number that every call passes first. -/
def value : OpCode → Nat
  | storeOutput => 5
  | storePatchConstant => 106

def ofValue? (n : Int64) : Option OpCode :=
  if n = 5 then some storeOutput
  else if n = 106 then some storePatchConstant
  else none

def className : OpCode → String
  | storeOutput => "storeOutput"
  | storePatchConstant => "storePatchConstant"

end OpCode

/-- The number of a signature element, if an operand is one. -/
def elementId? (n : Int64) : Option Nat :=
  if 0 ≤ n.toInt ∧ n.toInt < idLimit then some n.toInt.toNat else none

def intrinsicStem : String := "dx.op."

def isIntrinsicName (name : String) : Bool := intrinsicStem.toList.isPrefixOf name.toList

structure Intrinsic where
  opcode : OpCode
  overload : Scalar
deriving DecidableEq

namespace Intrinsic

def name (i : Intrinsic) : String :=
  intrinsicStem ++ i.opcode.className ++ "." ++ i.overload.suffix

/-- Opcode, signature element, row, column and value. -/
def params (i : Intrinsic) : List Ty := [.i32, .i32, .i32, .i8, .scalar i.overload]

def returnTy (_ : Intrinsic) : Ty := .void

def text (i : Intrinsic) : String :=
  "declare " ++ i.returnTy.text ++ " @" ++ i.name ++ "(" ++
    Text.commaList (i.params.map Ty.text) ++ ")\n"

end Intrinsic

/-- The declared intrinsics, in the order of their names. -/
structure OpTable where
  declared : List Intrinsic

namespace OpTable

def empty : OpTable := ⟨[]⟩

/-- Inserts at the place that the name asks for, unless the intrinsic is there. -/
def insertByName (i : Intrinsic) : List Intrinsic → List Intrinsic
  | [] => [i]
  | j :: rest =>
    if i = j then j :: rest
    else if i.name < j.name then i :: j :: rest
    else j :: insertByName i rest

def declare (t : OpTable) (i : Intrinsic) : OpTable := ⟨insertByName i t.declared⟩

def find? (t : OpTable) (name : String) : Option Intrinsic :=
  t.declared.find? fun i => i.name == name

/-- Declares an intrinsic, and hands out the entry that the table then has under its name. -/
def request (t : OpTable) (i : Intrinsic) : Intrinsic × OpTable :=
  (((t.declare i).find? i.name).getD i, t.declare i)

theorem mem_insertByName {i j : Intrinsic} {l : List Intrinsic} :
    j ∈ insertByName i l ↔ j = i ∨ j ∈ l := by
  induction l with
  | nil => simp [insertByName]
  | cons k l ih =>
    rw [insertByName]
    split
    · next h => subst h; simp
    · split
      · simp
      · simp only [List.mem_cons, ih]
        constructor
        · rintro (h | h | h) <;> simp [h]
        · rintro (h | h | h) <;> simp [h]

theorem mem_declare {t : OpTable} {i j : Intrinsic} :
    j ∈ (t.declare i).declared ↔ j = i ∨ j ∈ t.declared := mem_insertByName

end OpTable

end ShaderIR
