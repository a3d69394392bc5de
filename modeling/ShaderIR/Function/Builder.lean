import ShaderIR.Function.Edit
import ShaderIR.Violation

/-!
# Building functions

A builder appends to the blocks of a new function, each of which ends with its first
terminator. A function is finished when every block has one.
-/

set_option autoImplicit false

namespace ShaderIR

structure Builder where
  func : Function
  current : Option BlockId

namespace Builder

inductive Command where
  | createBlock (name : Option String)
  | addParam (block : BlockId) (name : Option String) (ty : Ty)
  | setCurrent (block : BlockId)
  | current
  | isTerminated
  | fresh
  | constInt (value : Int64) (ty : Ty)
  | constFloat (value : Float) (ty : Ty)
  | call (callee : String) (args : List ValueId)
  | ret (values : List ValueId)
  | push (instr : Instr) (ty : Option Ty)

def new (name : String) (params : List Param) (returnTy : Ty) : Builder :=
  ⟨.empty name params returnTy, none⟩

/-- Adds a block under the next number, a 32-bit word: there are fewer than `idLimit` blocks. -/
def createBlock (s : Builder) (name : Option String) : BlockId × Builder :=
  let b : BlockId := ⟨s.func.blocks.length⟩
  (b, { s with func := { s.func with blocks := s.func.blocks ++ [⟨b, [], [], name⟩] } })

/-- Hands out the next value, as long as its successor is still an identifier. -/
def fresh (s : Builder) : Except Violation (ValueId × Builder) :=
  if s.func.nextValue + 1 < idLimit then
    .ok (s.func.freshValue, { s with func := s.func.reserve 1 })
  else .error .overflow

def addParam (s : Builder) (b : BlockId) (name : Option String) (ty : Ty) :
    Except Violation (ValueId × Builder) := do
  let (v, s) ← s.fresh
  match s.func.block? b with
  | none => .error .outOfBounds
  | some _ =>
    let f := s.func
    .ok (v, { s with
      func := { f with
        blocks := f.blocks.modify b.index fun blk =>
          { blk with params := blk.params ++ [⟨v, ty, name⟩] }
        defs := f.defs.insert v (.param b)
        types := f.types.insert v ty } })

def push (s : Builder) (d : Draft) : Except Violation Builder :=
  match s.current with
  | none => .error .noBlockToPush
  | some b =>
    if s.func.isSealed b then .error (.sealedBlock b)
    else match s.func.block? b with
      | none => .error .outOfBounds
      | some blk => .ok { s with func := s.func.splice b blk.body.length [d] }

def define (s : Builder) (make : ValueId → Draft) : Except Violation (ValueId × Builder) := do
  let (v, s) ← s.fresh
  let s ← s.push (make v)
  .ok (v, s)

def step (s : Builder) : Command → Except Violation (Reply × Builder)
  | .createBlock name =>
    let (b, s) := s.createBlock name
    .ok (.block b, s)
  | .addParam b name ty => do
    let (v, s) ← s.addParam b name ty
    .ok (.value v, s)
  | .setCurrent b => .ok (.done, { s with current := some b })
  | .current =>
    match s.current with
    | some b => .ok (.block b, s)
    | none => .error .noCurrentBlock
  | .isTerminated => .ok (.flag (s.current.any s.func.isSealed), s)
  | .fresh => do
    let (v, s) ← s.fresh
    .ok (.value v, s)
  | .constInt n ty => do
    let (v, s) ← s.define fun r => .constInt r n ty
    .ok (.value v, s)
  | .constFloat x ty => do
    let (v, s) ← s.define fun r => ⟨.constFloat r x ty, some ty⟩
    .ok (.value v, s)
  | .call callee args => do
    let s ← s.push (.call none callee args none)
    .ok (.done, s)
  | .ret values => do
    let s ← s.push ⟨.ret values, none⟩
    .ok (.done, s)
  | .push ins ty => do
    let s ← s.push ⟨ins, ty⟩
    .ok (match ins.result? with
      | some v => .value v
      | none => .done, s)

/-- Carries out commands up to the first violation, and lists the answers until then. -/
def run (s : Builder) : List Command → List Reply × Except Violation Builder
  | [] => ([], .ok s)
  | c :: cs =>
    match s.step c with
    | .error v => ([], .error v)
    | .ok (r, s) =>
      let (rs, e) := s.run cs
      (r :: rs, e)

/-- The finished function. The first block without a terminator is reported. -/
def build (s : Builder) : Except Violation Function :=
  match s.func.blocks.find? fun blk => !s.func.isSealed blk.id with
  | some blk => .error (.unsealedBlock blk.id blk.name)
  | none => .ok s.func

theorem build_eq_ok {s : Builder} {f : Function} :
    s.build = .ok f ↔ s.func = f ∧ ∀ blk ∈ f.blocks, f.isSealed blk.id = true := by
  unfold build
  split
  · next blk h =>
    have hs := List.find?_some h
    have hm := List.mem_of_find?_eq_some h
    simp only [reduceCtorEq, false_iff, not_and]
    rintro rfl hall
    simp [hall blk hm] at hs
  · next h =>
    simp only [Except.ok.injEq]
    constructor
    · rintro rfl
      simpa using h
    · exact fun h => h.1

end Builder

end ShaderIR
