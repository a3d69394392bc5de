import ShaderIR.Pass.Registry
import ShaderIR.Module
import ShaderIR.Text.Segments

/-!
# Pipelines

A pipeline is a list of passes in which a pass that is not idempotent stands at most once. A run
takes each pass over all functions of a module before the next pass starts, and ends with
the first failure.
-/

set_option autoImplicit false

namespace ShaderIR

structure Pipeline where
  passes : List Pass

namespace Pipeline

def empty : Pipeline := ⟨[]⟩

def names (p : Pipeline) : List String := p.passes.map Pass.name

def add (p : Pipeline) (q : Pass) : Except PassError Pipeline :=
  if q.isIdempotent = false ∧ q.name ∈ p.names then .error (.passScheduledTwice q.name)
  else .ok ⟨p.passes ++ [q]⟩

def addAll (s : Registry) (p : Pipeline) : List String → Except PassError Pipeline
  | [] => .ok p
  | arg :: args =>
    match s.lookup? arg with
    | none => .error (.unknownPass arg)
    | some r => do
      let p ← p.add r.pass
      p.addAll s args

def ofText (s : Registry) (text : String) : Except PassError Pipeline :=
  addAll s empty (Text.segments text)

end Pipeline

structure Sweep where
  functions : List Function
  metadata : Metadata
  events : List Event
  verdict : Except (Failure PassError) Bool

/-- Runs a pass over some functions, up to the first failure. -/
def Pass.sweep (p : Pass) : List Function → Metadata → Sweep
  | [], m => ⟨[], m, [], .ok false⟩
  | f :: fs, m =>
    let r := p.run f m
    match r.verdict with
    | .error e => ⟨r.func :: fs, r.metadata, r.events, .error e⟩
    | .ok changed =>
      let s := p.sweep fs r.metadata
      ⟨r.func :: s.functions, s.metadata,
        r.events ++ .ran p.name r.func.name changed :: s.events,
        s.verdict.map (changed || ·)⟩

structure RunOptions where
  /-- Validates every function after every pass. -/
  verifyEach : Bool
  /-- Notes down the module after the pass with this name. -/
  dumpAfter : Option String

/-- The module that a run leaves behind. A failure names the pass after which the run
ended. -/
structure ModuleRun where
  result : Module
  events : List Event
  verdict : Except (String × Failure PassError) Bool

def firstFault? : List Function → Option PassError
  | [] => none
  | f :: fs =>
    match f.validate with
    | .error e => some e
    | .ok () => firstFault? fs

/-- One pass over a module, with the checks and notes that follow it. -/
def Pass.runOnModule (o : RunOptions) (p : Pass) (m : Module) : ModuleRun :=
  let s := p.sweep m.functions m.metadataOrEmpty
  let m := { m with functions := s.functions, metadata := some s.metadata }
  match s.verdict with
  | .error e => ⟨m, s.events, .error (p.name, e)⟩
  | .ok changed =>
    match if o.verifyEach then firstFault? m.functions else none with
    | some e => ⟨m, s.events, .error (p.name, .error e)⟩
    | none =>
      let dump := if o.dumpAfter = some p.name then [.dump p.name m.text] else []
      ⟨m, s.events ++ dump, .ok changed⟩

def runPasses (o : RunOptions) : List Pass → Module → ModuleRun
  | [], m => ⟨m, [], .ok false⟩
  | p :: ps, m =>
    let r := p.runOnModule o m
    match r.verdict with
    | .error e => ⟨r.result, r.events, .error e⟩
    | .ok changed =>
      let t := runPasses o ps r.result
      ⟨t.result, r.events ++ t.events, t.verdict.map (changed || ·)⟩

def Pipeline.run (p : Pipeline) (o : RunOptions) (m : Module) : ModuleRun :=
  runPasses o p.passes m

end ShaderIR
