import ShaderIR.Ty
import ShaderIR.Violation

/-!
# Signatures

A signature lists the registers that a shader declares. An element is a matrix of
components. It is named by its position, which is a 32-bit word, and is of the kind of the
signature that holds it.
-/

set_option autoImplicit false

namespace ShaderIR

/-- The type of a component. Normalised types are held as floats of their width. -/
inductive Component where
  | i1 | i16 | u16 | i32 | u32 | i64 | u64
  | f16 | f32 | f64
  | snormF16 | unormF16 | snormF32 | unormF32 | snormF64 | unormF64
deriving DecidableEq

namespace Component

def base : Component → Scalar
  | i1 => .i1
  | i16 | u16 => .i16
  | i32 | u32 => .i32
  | i64 | u64 => .i64
  | f16 | snormF16 | unormF16 => .f16
  | f32 | snormF32 | unormF32 => .f32
  | f64 | snormF64 | unormF64 => .f64

def ty (c : Component) : Ty := .scalar c.base

def isFloat (c : Component) : Bool := c.base.isFloat

def text : Component → String
  | i1 => "i1"
  | i16 => "i16"
  | u16 => "u16"
  | i32 => "i32"
  | u32 => "u32"
  | i64 => "i64"
  | u64 => "u64"
  | f16 => "f16"
  | f32 => "f32"
  | f64 => "f64"
  | snormF16 => "snorm_f16"
  | unormF16 => "unorm_f16"
  | snormF32 => "snorm_f32"
  | unormF32 => "unorm_f32"
  | snormF64 => "snorm_f64"
  | unormF64 => "unorm_f64"

end Component

structure Element where
  name : String
  rows : Nat
  cols : Nat
  component : Component
deriving DecidableEq

namespace Element

def isSingle (e : Element) : Bool := e.rows == 1 && e.cols == 1

/-- The number of components, a 32-bit word. -/
def size (e : Element) : Except Violation Nat :=
  if e.rows * e.cols < idLimit then .ok (e.rows * e.cols) else .error .overflow

end Element

inductive SignatureKind where
  | input | output | patchConstant
deriving DecidableEq

structure Signature where
  kind : SignatureKind
  elements : List Element

namespace Signature

def empty (kind : SignatureKind) : Signature := ⟨kind, []⟩

/-- Appends an element, which must have a component. Its number is a 32-bit word: a signature has
fewer than `idLimit` elements. -/
def append (s : Signature) (e : Element) : Except Violation (Nat × Signature) :=
  if 1 ≤ e.rows ∧ 1 ≤ e.cols then
    .ok (s.elements.length, { s with elements := s.elements ++ [e] })
  else .error .emptyElement

def element? (s : Signature) (id : Nat) : Option Element := s.elements[id]?

theorem element?_append {s t : Signature} {e : Element} {id : Nat}
    (h : s.append e = .ok (id, t)) (n : Nat) :
    t.element? n = if n = id then some e else s.element? n := by
  unfold append at h
  split at h
  · simp only [Except.ok.injEq, Prod.mk.injEq] at h
    obtain ⟨rfl, rfl⟩ := h
    simp only [element?, List.getElem?_append]
    rcases Nat.lt_trichotomy n s.elements.length with hn | rfl | hn
    · simp [hn, Nat.ne_of_lt hn]
    · simp
    · have h0 : n - s.elements.length ≠ 0 := by omega
      have h1 : ¬n < s.elements.length := by omega
      have h2 : n ≠ s.elements.length := by omega
      simp [h1, h2, h0]
  · cases h

end Signature

end ShaderIR
