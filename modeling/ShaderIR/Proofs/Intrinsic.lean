import ShaderIR.Metadata

/-!
# Tables of intrinsics

The name of an intrinsic says what it is, so a table finds by a name exactly the intrinsic that
has it, and hands out what was asked for. A table that is made by declaring one intrinsic after
another is in the order of the names, and has each of them once.
-/

set_option autoImplicit false

namespace ShaderIR

theorem Intrinsic.name_injective {i j : Intrinsic} (h : i.name = j.name) : i = j := by
  obtain ⟨op, s⟩ := i
  obtain ⟨op', s'⟩ := j
  revert h
  cases op <;> cases s <;> cases op' <;> cases s' <;> decide

namespace OpTable

inductive Built : OpTable → Prop
  | empty : Built .empty
  | declare {t : OpTable} (i : Intrinsic) : Built t → Built (t.declare i)

/-- The declared intrinsics are in the order of their names, which are all different. -/
def Ordered (t : OpTable) : Prop := t.declared.Pairwise fun i j => i.name < j.name

theorem pairwise_insertByName {i : Intrinsic} {l : List Intrinsic}
    (h : l.Pairwise fun i j => i.name < j.name) :
    (insertByName i l).Pairwise fun i j => i.name < j.name := by
  induction l with
  | nil => exact List.pairwise_singleton _ _
  | cons j rest ih =>
    obtain ⟨hj, hrest⟩ := List.pairwise_cons.mp h
    rw [insertByName]
    split
    · exact h
    · next hne =>
      split
      · next hlt =>
        refine List.pairwise_cons.mpr ⟨fun k hk => ?_, h⟩
        rcases List.mem_cons.mp hk with rfl | hk
        · exact hlt
        · exact String.lt_trans hlt (hj k hk)
      · next hnlt =>
        refine List.pairwise_cons.mpr ⟨fun k hk => ?_, ih hrest⟩
        rcases mem_insertByName.mp hk with rfl | hk
        · refine String.not_le.mp fun hle => hne (Intrinsic.name_injective ?_)
          exact String.le_antisymm hle (String.not_lt.mp hnlt)
        · exact hj k hk

theorem sublist_insertByName (i : Intrinsic) (l : List Intrinsic) :
    l.Sublist (insertByName i l) := by
  induction l with
  | nil => exact List.nil_sublist _
  | cons j rest ih =>
    rw [insertByName]
    split
    · exact List.Sublist.refl _
    · split
      · exact List.sublist_cons_self _ _
      · exact ih.cons_cons j

theorem Built.ordered {t : OpTable} (h : t.Built) : t.Ordered := by
  induction h with
  | empty => exact List.Pairwise.nil
  | declare i _ ih => exact pairwise_insertByName ih

theorem find?_eq_some {t : OpTable} {name : String} {i : Intrinsic} :
    t.find? name = some i ↔ i ∈ t.declared ∧ i.name = name := by
  constructor
  · intro h
    exact ⟨List.mem_of_find?_eq_some h, by simpa using List.find?_some h⟩
  · rintro ⟨hmem, rfl⟩
    cases hfind : t.find? i.name with
    | none =>
      have hno := List.find?_eq_none.mp hfind i hmem
      simp at hno
    | some j =>
      have hname : j.name = i.name := by simpa using List.find?_some hfind
      rw [Intrinsic.name_injective hname]

theorem find?_declare (t : OpTable) (i : Intrinsic) (name : String) :
    (t.declare i).find? name = if i.name = name then some i else t.find? name := by
  refine Option.ext fun j => ?_
  rw [find?_eq_some, mem_declare]
  split
  · next hname =>
    rw [Option.some.injEq]
    constructor
    · rintro ⟨-, hj⟩
      exact Intrinsic.name_injective (hname.trans hj.symm)
    · rintro rfl
      exact ⟨Or.inl rfl, hname⟩
  · next hname =>
    rw [find?_eq_some]
    refine and_congr_left fun hj => or_iff_right ?_
    rintro rfl
    exact hname hj

@[simp] theorem request_eq (t : OpTable) (i : Intrinsic) : t.request i = (i, t.declare i) := by
  rw [request, find?_declare, if_pos rfl, Option.getD_some]

end OpTable

namespace Metadata

@[simp] theorem request_eq (m : Metadata) (i : Intrinsic) : m.request i = (i, m.declare i) := by
  rw [request, OpTable.request_eq, declare]

def declareAll (m : Metadata) (is : List Intrinsic) : Metadata := is.foldl declare m

theorem declareAll_append (m : Metadata) (is js : List Intrinsic) :
    m.declareAll (is ++ js) = (m.declareAll is).declareAll js :=
  List.foldl_append

@[simp] theorem signature_declareAll (m : Metadata) (is : List Intrinsic) (op : OpCode) :
    (m.declareAll is).signature op = m.signature op := by
  induction is generalizing m with
  | nil => rfl
  | cons i is ih =>
    rw [declareAll, List.foldl_cons]
    exact (ih (m.declare i)).trans (m.signature_declare i op)

theorem mem_declareAll {m : Metadata} {is : List Intrinsic} {j : Intrinsic} :
    j ∈ (m.declareAll is).ops.declared ↔ j ∈ m.ops.declared ∨ j ∈ is := by
  induction is generalizing m with
  | nil => simp [declareAll]
  | cons i is ih =>
    have hhead : j ∈ (m.declare i).ops.declared ↔ j = i ∨ j ∈ m.ops.declared :=
      OpTable.mem_declare
    have htail : j ∈ (m.declareAll (i :: is)).ops.declared ↔
        j ∈ (m.declare i).ops.declared ∨ j ∈ is := ih
    rw [htail, hhead, List.mem_cons, or_comm (a := j = i), or_assoc]

theorem sublist_declareAll (m : Metadata) (is : List Intrinsic) :
    m.ops.declared.Sublist (m.declareAll is).ops.declared := by
  induction is generalizing m with
  | nil => exact List.Sublist.refl _
  | cons i is ih => exact (OpTable.sublist_insertByName i m.ops.declared).trans (ih (m.declare i))

theorem built_declareAll {m : Metadata} (h : m.ops.Built) (is : List Intrinsic) :
    (m.declareAll is).ops.Built := by
  induction is generalizing m with
  | nil => exact h
  | cons i is ih => exact ih (m := m.declare i) (.declare i h)

end Metadata

end ShaderIR
