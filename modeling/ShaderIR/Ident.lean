import Std.Data.TreeMap.Lemmas

/-!
# Identifiers

Values, blocks, instructions and functions are named by numbers. The number of a block,
an instruction or a function is its position; the number of a value is free. Finite maps
keyed by values carry what a function records about them and what a run binds to them.
-/

set_option autoImplicit false

namespace ShaderIR

structure ValueId where
  index : Nat
deriving DecidableEq, Inhabited

structure BlockId where
  index : Nat
deriving DecidableEq, Inhabited

structure InstrId where
  index : Nat
deriving DecidableEq, Inhabited

structure FunctionId where
  index : Nat
deriving DecidableEq, Inhabited

namespace ValueId

def text (v : ValueId) : String := "%" ++ toString v.index

instance : Ord ValueId := ⟨compareOn index⟩

instance : Std.TransOrd ValueId := inferInstanceAs (Std.TransCmp (compareOn index))

instance : Std.LawfulEqOrd ValueId where
  eq_of_compare {a b} h := by
    have h : compare a.index b.index = .eq := h
    cases a
    cases b
    simpa using h

end ValueId

namespace BlockId

/-- The entry of a function is its first block. -/
def entry : BlockId := ⟨0⟩

def text (b : BlockId) : String := "bb" ++ toString b.index

def description (b : BlockId) : String := "BlockId(" ++ toString b.index ++ ")"

end BlockId

def InstrId.description (i : InstrId) : String := "InstrId(" ++ toString i.index ++ ")"

abbrev ValueMap (α : Type) : Type := Std.TreeMap ValueId α

namespace ValueMap

variable {α : Type} (m : ValueMap α) (v w : ValueId) (a : α)

theorem getElem?_insert_eq : (m.insert v a)[w]? = if v = w then some a else m[w]? := by
  simp [Std.TreeMap.getElem?_insert]

theorem getElem?_insert_ne (h : v ≠ w) : (m.insert v a)[w]? = m[w]? := by
  rw [getElem?_insert_eq, if_neg h]

theorem getElem?_erase_eq : (m.erase v)[w]? = if v = w then none else m[w]? := by
  simp [Std.TreeMap.getElem?_erase]

end ValueMap

end ShaderIR
