import ShaderIR.Preserve.Scratch

/-!
# Epilogues

Before a return, every component of every written element is loaded from its slot and
stored to the output, element by element, and within an element row by row. A column is
an 8-bit word, so an element has at most 256 of them.
-/

set_option autoImplicit false

namespace ShaderIR

namespace Element

def columnLimit : Nat := 256

def positions (e : Element) : List (Nat × Nat) :=
  (List.range e.rows).flatMap fun r => (List.range e.cols).map fun c => (r, c)

theorem mem_positions {e : Element} {r c : Nat} :
    (r, c) ∈ e.positions ↔ r < e.rows ∧ c < e.cols := by
  simp [positions]

theorem length_positions (e : Element) : e.positions.length = e.rows * e.cols := by
  simp [positions, List.length_flatMap, List.map_const']

end Element

namespace Scratch

/-- Loads one component and stores it to the output by a call of an intrinsic. -/
def component (s : Scratch) (callee : String) (row column next : Nat) : Lowered :=
  let op : ValueId := ⟨next⟩
  let id : ValueId := ⟨next + 1⟩
  let r : ValueId := ⟨next + 2⟩
  let c : ValueId := ⟨next + 3⟩
  let a := s.address r c 8 (next + 4)
  let v : ValueId := ⟨a.next⟩
  ⟨[.constInt op (Int64.ofNat s.target.opcode.value) .i32,
      .constInt id (Int64.ofNat s.target.id) .i32,
      .constInt r (Int64.ofNat row) .i32,
      .constInt c (Int64.ofNat column) .i8] ++ a.code ++
    [.load v a.value s.ty,
      .call none callee [op, id, r, c, v] none],
    a.next + 1, none⟩

/-- The components at some positions, up to the first fault. -/
def components (s : Scratch) (callee : String) : List (Nat × Nat) → Nat → List Draft × Nat
  | [], next => ([], next)
  | (r, c) :: rest, next =>
    let l := s.component callee r c next
    let (code, next) := s.components callee rest l.next
    (l.code ++ code, next)

/-- The whole element, or the columns of its first row up to the limit. -/
def epilogue (s : Scratch) (callee func : String) (next : Nat) : Lowered :=
  if s.element.cols ≤ Element.columnLimit then
    let (code, next) := s.components callee s.element.positions next
    ⟨code, next, none⟩
  else
    let (code, next) :=
      s.components callee ((List.range Element.columnLimit).map fun c => (0, c)) next
    ⟨code, next, some (.unsupportedShader func (.tooManyColumns s.element.name))⟩

end Scratch

/-- Puts the epilogues of all slots before one return. What they call is the intrinsic that the
table has for the element. -/
def emitEpilogue (ret : InstrId) :
    List Scratch → Function → Metadata → Function × Metadata × Option PassError
  | [], f, m => (f, m, none)
  | s :: rest, f, m =>
    match f.position? ret with
    | none => (f, m, some (.internal f.name (.ret ret)))
    | some (b, k) =>
      let (i, m) := m.request s.target.intrinsic
      let l := s.epilogue i.name f.name f.nextValue
      let f := f.emit b k l.code l.next
      match l.fault with
      | some e => (f, m, some e)
      | none => emitEpilogue ret rest f m

/-- Puts the epilogues of all slots before each of some returns. -/
def emitEpilogues (slots : List Scratch) :
    List InstrId → Function → Metadata → Function × Metadata × Option PassError
  | [], f, m => (f, m, none)
  | ret :: rest, f, m =>
    match emitEpilogue ret slots f m with
    | (f, m, some e) => (f, m, some e)
    | (f, m, none) => emitEpilogues slots rest f m

end ShaderIR
