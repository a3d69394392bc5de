import ShaderIR.Preserve.Epilogue
import ShaderIR.Pass.Run

/-!
# Storing every output once

A shader may write its outputs sparsely, on some paths only, or repeatedly. Here all its
output stores are redirected to scratch slots, and before every return each component of
each written element is stored exactly once. What is wrong with the stores or with
their signature is found before anything is changed, and what is wrong with an index or
with the shape of an element on the way.

The resulting function has output stores again, so that a second run would redirect those
in their turn.
-/

set_option autoImplicit false

namespace ShaderIR.Preserve

def passName : String := "hlsl-dxil-preserve-all-outputs"

def passDescription : String := "DXIL preserve all outputs"

def eraseStores (stores : List OutputStore) (f : Function) : Function :=
  stores.foldl (fun f o => ((f.erase o.call).map Prod.snd).getD f) f

def scratchEvent (func : String) (s : Scratch) : Event :=
  .scratch func s.slot s.element.name s.target.id s.element.rows s.element.cols

/-- Whether the slot of a target has a size. -/
def fits (t : Target) : Bool := t.element.isSingle || t.element.size.isOk

/-- A function after slots have been allocated at its entry. -/
def allocateSlots (f : Function) (slots : List Scratch) : Function :=
  f.emit .entry 0 (slots.map Scratch.alloca) (f.nextValue + slots.length)

/-- Redirects the stores of a function whose slots have been allocated, and stores the slots
before its returns. -/
def redirectStores (slots : List Scratch) (stores : List OutputStore) (f : Function)
    (m : Metadata) : PassRun :=
  match lowerStores slots stores f with
  | (f, some e) => ⟨f, m, [], .error (.error e)⟩
  | (f, none) =>
    let events := [.returns passName f.returns.length f.name]
    match emitEpilogues slots f.returns f m with
    | (f, m, some e) => ⟨f, m, events, .error (.error e)⟩
    | (f, m, none) => ⟨eraseStores stores f, m, events, .ok true⟩

/-- Values that have run out of identifiers overrule any other outcome. -/
def guardIds (r : PassRun) : PassRun :=
  if r.func.nextValue < idLimit then r else { r with verdict := .error (.violation .overflow) }

def redirect (f : Function) (m : Metadata) (stores : List OutputStore) (targets : List Target) :
    PassRun :=
  let slots := Scratch.allot f.nextValue targets
  let events := .outputStores passName f.name stores.length targets.length ::
    ((slots.takeWhile fun s => fits s.target).map (scratchEvent f.name))
  if targets.all fits then
    let r := guardIds (redirectStores slots stores (allocateSlots f slots) m)
    { r with events := events ++ r.events }
  else ⟨f, m, events, .error (.violation .overflow)⟩

def run (f : Function) (m : Metadata) : PassRun :=
  match OutputStore.all f with
  | .error e => ⟨f, m, [], .error (.error e)⟩
  | .ok [] => ⟨f, m, [.noOutputStores passName f.name], .ok false⟩
  | .ok stores =>
    match Target.collect f.name m [] stores with
    | .error e => ⟨f, m, [], .error (.error e)⟩
    | .ok targets => redirect f m stores targets

end ShaderIR.Preserve
