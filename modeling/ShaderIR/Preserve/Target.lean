import ShaderIR.Preserve.Store
import ShaderIR.Metadata

/-!
# Written signature elements

The elements that a function's output stores write, each once and in ascending order of
their numbers. The first store that names a number looks the element up, in the signature of
its opcode. The kind of the element says by which operation it is written in the end, and every
later store to the number must be by that operation.
-/

set_option autoImplicit false

namespace ShaderIR

/-- An element with the number and the kind that its signature gives to it. -/
structure Target where
  id : Nat
  kind : SignatureKind
  element : Element

/-- The element that a store names, in the signature of its opcode. -/
def OutputStore.target? (o : OutputStore) (m : Metadata) : Option Target :=
  ((m.signature o.opcode).element? o.id).map (⟨o.id, (m.signature o.opcode).kind, ·⟩)

theorem OutputStore.target?_eq_some {o : OutputStore} {m : Metadata} {t : Target} :
    o.target? m = some t ↔ t.id = o.id ∧ t.kind = (m.signature o.opcode).kind ∧
      (m.signature o.opcode).element? o.id = some t.element := by
  rw [target?, Option.map_eq_some_iff]
  constructor
  · rintro ⟨e, he, rfl⟩
    exact ⟨rfl, rfl, he⟩
  · rintro ⟨hid, hk, he⟩
    exact ⟨t.element, he, by rw [← hid, ← hk]⟩

/-- What a signature is called in an error. -/
def OpCode.signatureName : OpCode → String
  | storeOutput => "output"
  | storePatchConstant => "patch constant"

namespace Target

/-- The operation that stores to the element. -/
def opcode (t : Target) : OpCode := t.kind.opcode

/-- The intrinsic that stores a component of the element. -/
def intrinsic (t : Target) : Intrinsic := ⟨t.opcode, t.element.component.base⟩

def insertById (t : Target) : List Target → List Target
  | [] => [t]
  | u :: us => if t.id < u.id then t :: u :: us else u :: insertById t us

/-- The targets of some stores, beside those already known. -/
def collect (func : String) (m : Metadata) :
    List Target → List OutputStore → Except PassError (List Target)
  | ts, [] => .ok ts
  | ts, s :: rest =>
    match ts.find? fun t => t.id == s.id with
    | some t =>
      if t.opcode = s.opcode then collect func m ts rest
      else .error (.unsupportedShader func (.sharedId t.opcode s.opcode s.id))
    | none =>
      match s.target? m with
      | some t => collect func m (insertById t ts) rest
      | none => .error (.unknownSignatureElement func s.opcode.signatureName s.id)

theorem mem_insertById {t u : Target} {ts : List Target} :
    u ∈ insertById t ts ↔ u = t ∨ u ∈ ts := by
  induction ts with
  | nil => simp [insertById]
  | cons v ts ih =>
    rw [insertById]
    split
    · simp
    · simp only [List.mem_cons, ih]
      constructor
      · rintro (h | h | h) <;> simp [h]
      · rintro (h | h | h) <;> simp [h]

theorem pairwise_insertById {t : Target} {ts : List Target}
    (h : ts.Pairwise fun a b => a.id < b.id) (hne : ∀ u ∈ ts, u.id ≠ t.id) :
    (insertById t ts).Pairwise fun a b => a.id < b.id := by
  induction ts with
  | nil => simp [insertById]
  | cons u us ih =>
    obtain ⟨hu, hus⟩ := List.pairwise_cons.mp h
    rw [insertById]
    split
    · next hlt =>
      refine List.pairwise_cons.mpr ⟨fun v hv => ?_, h⟩
      rcases List.mem_cons.mp hv with rfl | hv
      · exact hlt
      · exact Nat.lt_trans hlt (hu v hv)
    · next hlt =>
      have hut : u.id ≠ t.id := hne u List.mem_cons_self
      refine List.pairwise_cons.mpr ⟨fun v hv => ?_, ih hus fun v hv =>
        hne v (List.mem_cons_of_mem u hv)⟩
      rcases mem_insertById.mp hv with rfl | hv
      · omega
      · exact hu v hv

theorem pairwise_collect {func : String} {m : Metadata} {ts us : List Target}
    {stores : List OutputStore} (h : ts.Pairwise fun a b => a.id < b.id)
    (hc : collect func m ts stores = .ok us) : us.Pairwise fun a b => a.id < b.id := by
  induction stores generalizing ts with
  | nil =>
    cases hc
    exact h
  | cons s rest ih =>
    rw [collect] at hc
    split at hc
    · split at hc
      · exact ih h hc
      · cases hc
    · next hf =>
      split at hc
      · next t ht =>
        refine ih (pairwise_insertById h fun u hu => ?_) hc
        rw [(OutputStore.target?_eq_some.mp ht).1]
        have := List.find?_eq_none.mp hf u hu
        simpa using this
      · cases hc

end Target

end ShaderIR
