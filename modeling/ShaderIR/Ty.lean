import ShaderIR.Violation

/-!
# Types of values

Scalars, and the arrays and pointers over them. An aggregate is only ever reached
through a pointer: `Ty.descend` selects inside it, and `Ty.cells` counts the scalar
cells that it occupies in memory.
-/

set_option autoImplicit false

namespace ShaderIR

inductive Scalar where
  | i1 | i8 | i16 | i32 | i64 | f16 | f32 | f64
deriving DecidableEq, Inhabited

namespace Scalar

def width : Scalar → Nat
  | i1 => 1
  | i8 => 8
  | i16 | f16 => 16
  | i32 | f32 => 32
  | i64 | f64 => 64

def isInt : Scalar → Bool
  | i1 | i8 | i16 | i32 | i64 => true
  | f16 | f32 | f64 => false

def isFloat (s : Scalar) : Bool := !s.isInt

def text : Scalar → String
  | i1 => "i1"
  | i8 => "i8"
  | i16 => "i16"
  | i32 => "i32"
  | i64 => "i64"
  | f16 => "half"
  | f32 => "float"
  | f64 => "double"

def suffix : Scalar → String
  | i1 => "i1"
  | i8 => "i8"
  | i16 => "i16"
  | i32 => "i32"
  | i64 => "i64"
  | f16 => "f16"
  | f32 => "f32"
  | f64 => "f64"

end Scalar

inductive Ty where
  | void
  | scalar (s : Scalar)
  | array (elem : Ty) (len : Nat)
  | pointer (target : Ty)
deriving DecidableEq, Inhabited

namespace Ty

abbrev i1 : Ty := .scalar .i1
abbrev i8 : Ty := .scalar .i8
abbrev i32 : Ty := .scalar .i32

def pointee? : Ty → Option Ty
  | pointer t => some t
  | _ => none

def scalar? : Ty → Option Scalar
  | scalar s => some s
  | _ => none

def intWidth? (t : Ty) : Option Nat :=
  (t.scalar?.filter Scalar.isInt).map Scalar.width

def isInt (t : Ty) : Bool := t.intWidth?.isSome

def text : Ty → String
  | void => "void"
  | scalar s => s.text
  | array elem len => "[" ++ toString len ++ " x " ++ elem.text ++ "]"
  | pointer t => t.text ++ "*"

/-- The type inside `n` array levels. -/
def descend : Nat → Ty → Option Ty
  | 0, t => some t
  | n + 1, array elem _ => descend n elem
  | _ + 1, _ => none

/-- The number of scalar cells of a value of the type, if it is a size. -/
def cells? : Ty → Option Nat
  | array elem len => elem.cells?.bind (mulWord? len)
  | _ => some 1

/-- The type of an address computed from a base of type `base` with `count` indices:
the first index steps over the base, each further one selects in an array. Where there
is nothing to select in, the type is void. -/
def address (base : Option Ty) (count : Nat) : Ty :=
  match (base.bind pointee?).bind (descend (count - 1)) with
  | some t => pointer t
  | none => void

@[simp] theorem pointee?_eq_some {t u : Ty} : t.pointee? = some u ↔ t = pointer u := by
  cases t <;> simp [pointee?]

theorem isInt_iff {t : Ty} : t.isInt = true ↔ ∃ s : Scalar, t = .scalar s ∧ s.isInt = true := by
  cases t <;> simp [isInt, intWidth?, scalar?, Option.isSome_iff_exists, Option.filter]

theorem intWidth?_scalar (s : Scalar) :
    (Ty.scalar s).intWidth? = if s.isInt then some s.width else none := by
  cases s <;> rfl

end Ty

end ShaderIR
