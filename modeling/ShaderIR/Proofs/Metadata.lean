import ShaderIR.Metadata

/-!
# Signatures that can be built

A signature is built by appending elements, each of which has a component. It keeps its kind, so
that the signatures of a shader are of the right kinds as long as none of them is replaced.
-/

set_option autoImplicit false

namespace ShaderIR

inductive Signature.Built : Signature → Prop
  | empty (kind : SignatureKind) : Built (.empty kind)
  | append {s t : Signature} {e : Element} {id : Nat} :
      Built s → s.append e = .ok (id, t) → Built t

theorem Signature.Built.element_pos {s : Signature} (hs : s.Built) {id : Nat} {e : Element}
    (he : s.element? id = some e) : 1 ≤ e.rows ∧ 1 ≤ e.cols := by
  induction hs with
  | empty kind => cases he
  | append hs happ ih =>
    rw [Signature.element?_append happ] at he
    split at he
    · cases he
      unfold Signature.append at happ
      split at happ
      · next hpos => exact hpos
      · cases happ
    · exact ih he

/-- Both signatures are built; the intrinsics may be any. -/
structure Metadata.Built (m : Metadata) : Prop where
  outputs : m.outputs.Built
  patchConstants : m.patchConstants.Built

theorem Metadata.Built.signature {m : Metadata} (hm : m.Built) (op : OpCode) :
    (m.signature op).Built := by
  cases op with
  | storeOutput => exact hm.outputs
  | storePatchConstant => exact hm.patchConstants

/-- Each signature is of the kind whose elements are stored to by the operation that looks them up
there. -/
def Metadata.Aligned (m : Metadata) : Prop := ∀ op, (m.signature op).kind.opcode = op

theorem Signature.kind_append {s t : Signature} {e : Element} {id : Nat}
    (h : s.append e = .ok (id, t)) : t.kind = s.kind := by
  unfold append at h
  split at h
  · cases h
    rfl
  · cases h

namespace Metadata

/-- The metadata that appending to the signatures of a new shader can make. -/
inductive Made : Metadata → Prop
  | empty : Made .empty
  | output {m : Metadata} {s : Signature} {e : Element} {id : Nat} (hm : Made m)
      (h : m.outputs.append e = .ok (id, s)) : Made { m with outputs := s }
  | patchConstant {m : Metadata} {s : Signature} {e : Element} {id : Nat} (hm : Made m)
      (h : m.patchConstants.append e = .ok (id, s)) : Made { m with patchConstants := s }
  | declare {m : Metadata} (hm : Made m) (i : Intrinsic) : Made (m.declare i)

theorem Made.built {m : Metadata} (hm : m.Made) : m.Built := by
  induction hm with
  | empty => exact ⟨.empty .output, .empty .patchConstant⟩
  | output _ h ih => exact ⟨.append ih.outputs h, ih.patchConstants⟩
  | patchConstant _ h ih => exact ⟨ih.outputs, .append ih.patchConstants h⟩
  | declare _ i ih => exact ⟨ih.outputs, ih.patchConstants⟩

theorem Made.aligned {m : Metadata} (hm : m.Made) : m.Aligned := by
  induction hm with
  | empty => rintro (_ | _) <;> rfl
  | output _ h ih =>
    rintro (_ | _)
    · exact (congrArg SignatureKind.opcode (Signature.kind_append h)).trans (ih .storeOutput)
    · exact ih .storePatchConstant
  | patchConstant _ h ih =>
    rintro (_ | _)
    · exact ih .storeOutput
    · exact (congrArg SignatureKind.opcode (Signature.kind_append h)).trans
        (ih .storePatchConstant)
  | declare _ i ih =>
    intro op
    rw [signature_declare]
    exact ih op

end Metadata

end ShaderIR
