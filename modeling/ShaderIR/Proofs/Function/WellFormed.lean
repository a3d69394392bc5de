import ShaderIR.Machine.Run
import ShaderIR.Proofs.Function.Valid

/-!
# Well-formed functions

Validity said place by place, without a scan: an instruction stands at an index of a block,
and a value is defined before a place if a parameter of the same or an earlier block, or an
instruction at an earlier place, defines it. The functions that the validator accepts are
those that are well-formed in this sense.
-/

set_option autoImplicit false

namespace ShaderIR

/-- An instruction uses a value in one of the places that it has for operands. -/
inductive Instr.Uses : Instr → ValueId → Prop
  | lhs {r op lhs rhs ty} : Uses (.binary r op lhs rhs ty) lhs
  | rhs {r op lhs rhs ty} : Uses (.binary r op lhs rhs ty) rhs
  | converted {r op v ty} : Uses (.cast r op v ty) v
  | base {r base indices inbounds ty} : Uses (.gep r base indices inbounds ty) base
  | index {r base indices inbounds ty v} : v ∈ indices → Uses (.gep r base indices inbounds ty) v
  | loaded {r ptr ty} : Uses (.load r ptr ty) ptr
  | address {ptr value} : Uses (.store ptr value) ptr
  | stored {ptr value} : Uses (.store ptr value) value
  | argument {r callee args ty v} : v ∈ args → Uses (.call r callee args ty) v
  | passed {target args v} : v ∈ args → Uses (.br target args) v
  | condition {cond thenTo thenArgs elseTo elseArgs} :
    Uses (.condbr cond thenTo thenArgs elseTo elseArgs) cond
  | passedThen {cond thenTo thenArgs elseTo elseArgs v} :
    v ∈ thenArgs → Uses (.condbr cond thenTo thenArgs elseTo elseArgs) v
  | passedElse {cond thenTo thenArgs elseTo elseArgs v} :
    v ∈ elseArgs → Uses (.condbr cond thenTo thenArgs elseTo elseArgs) v
  | returned {values v} : v ∈ values → Uses (.ret values) v

theorem Instr.mem_operands {ins : Instr} {v : ValueId} : v ∈ ins.operands ↔ ins.Uses v := by
  constructor
  · intro h
    cases ins with
    | constInt | constFloat | undef | alloca => cases h
    | binary r op lhs rhs ty =>
      rcases List.mem_pair.mp h with rfl | rfl
      · exact .lhs
      · exact .rhs
    | cast r op u ty =>
      cases List.mem_singleton.mp h
      exact .converted
    | gep r base indices inbounds ty =>
      rcases List.mem_cons.mp h with rfl | h
      · exact .base
      · exact .index h
    | load r ptr ty =>
      cases List.mem_singleton.mp h
      exact .loaded
    | store ptr value =>
      rcases List.mem_pair.mp h with rfl | rfl
      · exact .address
      · exact .stored
    | call r callee args ty => exact .argument h
    | br target args => exact .passed h
    | condbr cond thenTo thenArgs elseTo elseArgs =>
      rcases List.mem_cons.mp h with rfl | h
      · exact .condition
      · rcases List.mem_append.mp h with h | h
        · exact .passedThen h
        · exact .passedElse h
    | ret values => exact .returned h
  · intro h
    cases h <;> simp_all [operands]

theorem ends_iff {is : List Instr} : Ends is ↔ is ≠ [] ∧
    ∀ (k : Nat) (ins : Instr), is[k]? = some ins →
      (ins.isTerminator = true ↔ k + 1 = is.length) := by
  induction is with
  | nil =>
    constructor
    · rintro ⟨init, last, heq, -⟩
      exact absurd heq.symm (by simp)
    · exact fun h => absurd rfl h.1
  | cons i is ih =>
    rw [ends_cons]
    constructor
    · rintro ⟨hi, hrest⟩
      refine ⟨List.cons_ne_nil i is, fun k ins hk => ?_⟩
      cases k with
      | zero =>
        cases hk
        rw [hi]
        cases is <;> simp
      | succ k =>
        have hk : is[k]? = some ins := hk
        rcases hrest with rfl | hends
        · cases hk
        · rw [(ih.mp hends).2 k ins hk, List.length_cons, Nat.succ_inj]
    · rintro ⟨-, hall⟩
      refine ⟨?_, ?_⟩
      · have h := hall 0 i rfl
        rw [Bool.eq_iff_iff, h]
        cases is <;> simp
      · rcases Decidable.em (is = []) with hnil | hne
        · exact Or.inl hnil
        · refine Or.inr (ih.mpr ⟨hne, fun k ins hk => ?_⟩)
          rw [hall (k + 1) ins hk, List.length_cons, Nat.succ_inj]

/-- Read piece by piece: what a piece uses is known from the start, or defined by an earlier
piece or in the piece itself. -/
theorem scoped_flatMap {α : Type} {known : List ValueId} {xs : List α}
    {F : α → List Occurrence} : Scoped known (xs.flatMap F) ↔
      ∀ (n : Nat) (x : α), xs[n]? = some x →
        Scoped (known ++ definitions ((xs.take n).flatMap F)) (F x) := by
  induction xs generalizing known with
  | nil => simp [Scoped]
  | cons y xs ih =>
    rw [List.flatMap_cons, scoped_append, ih]
    constructor
    · rintro ⟨hy, hxs⟩ n x hn
      cases n with
      | zero =>
        cases hn
        exact hy.mono fun v hv => List.mem_append_left _ hv
      | succ n =>
        have h := hxs n x hn
        rwa [List.append_assoc, ← definitions_append, ← List.flatMap_cons, ← List.take_succ_cons]
          at h
    · intro h
      refine ⟨?_, fun n x hn => ?_⟩
      · have hy := h 0 y rfl
        rwa [List.take_zero, List.flatMap_nil, definitions, List.flatMap_nil,
          List.append_nil] at hy
      · have hx := h (n + 1) x hn
        rwa [List.take_succ_cons, List.flatMap_cons, definitions_append, ← List.append_assoc] at hx

theorem mem_definitions_flatMap {α : Type} {xs : List α} {F : α → List Occurrence} {v : ValueId} :
    v ∈ definitions (xs.flatMap F) ↔ ∃ x ∈ xs, v ∈ definitions (F x) := by
  simp only [definitions, List.mem_flatMap]
  constructor
  · rintro ⟨o, ⟨x, hx, ho⟩, hv⟩
    exact ⟨x, hx, o, ho, hv⟩
  · rintro ⟨x, hx, o, ho, hv⟩
    exact ⟨o, ⟨x, hx, ho⟩, hv⟩

theorem scoped_instrs {known : List ValueId} {is : List Instr} :
    Scoped known (is.map Instr.occurrence) ↔ ∀ (k : Nat) (ins : Instr), is[k]? = some ins →
      ∀ v ∈ ins.operands, v ∈ known ++ definitions ((is.take k).map Instr.occurrence) := by
  have hmap : ∀ js : List Instr, js.map Instr.occurrence = js.flatMap fun j => [j.occurrence] :=
    fun js => List.map_eq_flatMap
  simp only [hmap, scoped_flatMap]
  exact forall₃_congr fun k ins _ => and_iff_left trivial

theorem mem_definitions_instrs {is : List Instr} {v : ValueId} :
    v ∈ definitions (is.map Instr.occurrence) ↔ ∃ ins ∈ is, ins.result? = some v := by
  rw [definitions, List.flatMap_map, List.mem_flatMap]
  simp only [Instr.occurrence, Option.mem_toList]

namespace Function

variable {f : Function}

/-- A value is defined before the place with index `k` in the `n`-th block: it is a parameter
of this or an earlier block, or the result of an instruction that stands at an earlier place. -/
inductive DefinedBefore (f : Function) (n k : Nat) : ValueId → Prop
  | param {m : Nat} {blk : Block} {v : ValueId} : f.blocks[m]? = some blk → m ≤ n →
    v ∈ blk.paramIds → f.DefinedBefore n k v
  | result {m j : Nat} {ins : Instr} {v : ValueId} : (f.code ⟨m⟩)[j]? = some ins →
    (m < n ∨ m = n ∧ j < k) → ins.result? = some v → f.DefinedBefore n k v

theorem typeOf?_of_typeOf {v : ValueId} {ty : Ty} (h : f.typeOf v = ty) (hne : ty ≠ .void) :
    f.typeOf? v = some ty := by
  unfold typeOf at h
  cases hrec : f.typeOf? v with
  | none =>
    rw [hrec] at h
    exact absurd h.symm hne
  | some t =>
    rw [hrec] at h
    exact congrArg some h

/-- The types that an instruction asks for, where types are recorded for its operands. A value
without a recorded type counts as void. -/
def Agrees (f : Function) : Instr → Prop
  | .store ptr value => f.typeOf ptr = .pointer (f.typeOf value)
  | .load _ ptr ty => f.typeOf ptr = .pointer ty
  | .binary _ op lhs rhs ty =>
    f.typeOf lhs = f.typeOf rhs ∧ (op.isCompare = false → f.typeOf lhs = ty)
  | .gep _ base indices _ _ =>
    (∃ ty, f.typeOf base = .pointer ty) ∧ ∀ v ∈ indices, ∃ s, f.typeOf v = .scalar s ∧ s.isInt
  | _ => True

def defined (f : Function) : List ValueId :=
  f.blocks.flatMap fun blk =>
    blk.paramIds ++ (f.resolve blk.body).filterMap fun p => p.2.result?

structure WellFormed (f : Function) : Prop where
  nonempty : ∀ (n : Nat) (blk : Block), f.blocks[n]? = some blk → f.code ⟨n⟩ ≠ []
  terminated : ∀ (n k : Nat) (ins : Instr), (f.code ⟨n⟩)[k]? = some ins →
    (ins.isTerminator = true ↔ k + 1 = (f.code ⟨n⟩).length)
  once : f.defined.Nodup
  scope : ∀ (n k : Nat) (ins : Instr), (f.code ⟨n⟩)[k]? = some ins →
    ∀ v, ins.Uses v → f.DefinedBefore n k v
  typed : ∀ (n k : Nat) (ins : Instr), (f.code ⟨n⟩)[k]? = some ins → f.Agrees ins

theorem code_eq {n : Nat} {blk : Block} (h : f.blocks[n]? = some blk) :
    f.code ⟨n⟩ = (f.resolve blk.body).map Prod.snd := by
  rw [code, blockInstrs, block?, h]

theorem exists_block {n k : Nat} {ins : Instr} (h : (f.code ⟨n⟩)[k]? = some ins) :
    ∃ blk, f.blocks[n]? = some blk := by
  cases hb : f.blocks[n]? with
  | some blk => exact ⟨blk, rfl⟩
  | none =>
    rw [code, blockInstrs, block?, hb] at h
    cases h

theorem definitions_occurrences (f : Function) : definitions f.occurrences = f.defined := by
  rw [definitions, occurrences, List.flatMap_assoc, defined]
  refine List.flatMap_congr fun blk _ => ?_
  rw [List.filterMap_eq_flatMap_toList]
  exact f.definitions_blockOccurrences blk

theorem mem_definitions_before {n k : Nat} {blk : Block} (hb : f.blocks[n]? = some blk)
    {v : ValueId} : v ∈ definitions ((f.blocks.take n).flatMap f.blockOccurrences) ++
        blk.paramIds ++ definitions (((f.code ⟨n⟩).take k).map Instr.occurrence) ↔
      f.DefinedBefore n k v := by
  rw [List.mem_append, List.mem_append, mem_definitions_flatMap, mem_definitions_instrs]
  constructor
  · rintro ((⟨blk', hmem, hv⟩ | hv) | ⟨ins, hmem, hv⟩)
    · obtain ⟨m, hm⟩ := List.mem_iff_getElem?.mp hmem
      rw [List.getElem?_take] at hm
      split at hm
      · next hlt =>
        rw [blockOccurrences_eq, definitions_append, definitions_params, ← code_eq hm,
          List.mem_append, mem_definitions_instrs] at hv
        rcases hv with hv | ⟨ins, hins, hv⟩
        · exact .param hm (Nat.le_of_lt hlt) hv
        · obtain ⟨j, hj⟩ := List.mem_iff_getElem?.mp hins
          exact .result hj (Or.inl hlt) hv
      · cases hm
    · exact .param hb (Nat.le_refl n) hv
    · obtain ⟨j, hj⟩ := List.mem_iff_getElem?.mp hmem
      rw [List.getElem?_take] at hj
      split at hj
      · next hlt => exact .result hj (Or.inr ⟨rfl, hlt⟩) hv
      · cases hj
  · intro h
    cases h with
    | @param m blk' _ hm hle hv =>
      rcases Nat.lt_or_eq_of_le hle with hlt | rfl
      · refine Or.inl (Or.inl ⟨blk', List.mem_iff_getElem?.mpr ⟨m, ?_⟩, ?_⟩)
        · rw [List.getElem?_take, if_pos hlt, hm]
        · rw [blockOccurrences_eq, definitions_append, definitions_params]
          exact List.mem_append_left _ hv
      · cases hb.symm.trans hm
        exact Or.inl (Or.inr hv)
    | @result m j ins _ hj hplace hv =>
      rcases hplace with hlt | ⟨rfl, hlt⟩
      · obtain ⟨blk', hm⟩ := exists_block hj
        refine Or.inl (Or.inl ⟨blk', List.mem_iff_getElem?.mpr ⟨m, ?_⟩, ?_⟩)
        · rw [List.getElem?_take, if_pos hlt, hm]
        · rw [blockOccurrences_eq, definitions_append, definitions_params, ← code_eq hm,
            List.mem_append, mem_definitions_instrs]
          exact Or.inr ⟨ins, List.mem_of_getElem? hj, hv⟩
      · refine Or.inr ⟨ins, List.mem_iff_getElem?.mpr ⟨j, ?_⟩, hv⟩
        rw [List.getElem?_take, if_pos hlt, hj]

theorem scoped_occurrences : Scoped [] f.occurrences ↔
    ∀ (n k : Nat) (ins : Instr), (f.code ⟨n⟩)[k]? = some ins →
      ∀ v ∈ ins.operands, f.DefinedBefore n k v := by
  rw [occurrences, scoped_flatMap]
  have hblock : ∀ (n : Nat) (blk : Block), f.blocks[n]? = some blk →
      (Scoped ([] ++ definitions ((f.blocks.take n).flatMap f.blockOccurrences))
          (f.blockOccurrences blk) ↔
        ∀ (k : Nat) (ins : Instr), (f.code ⟨n⟩)[k]? = some ins →
          ∀ v ∈ ins.operands, f.DefinedBefore n k v) := by
    intro n blk hb
    rw [List.nil_append, blockOccurrences_eq, scoped_append, definitions_params, ← code_eq hb,
      and_iff_right (scoped_params _ _), scoped_instrs]
    refine forall₅_congr fun k ins _ v _ => ?_
    exact mem_definitions_before hb
  constructor
  · intro h n k ins hk
    obtain ⟨blk, hb⟩ := exists_block hk
    exact (hblock n blk hb).mp (h n blk hb) k ins hk
  · intro h n blk hb
    exact (hblock n blk hb).mpr (h n)

theorem forall_instrs {P : Instr → Prop} : (∀ p ∈ f.instrs, P p.2) ↔
    ∀ (n k : Nat) (ins : Instr), (f.code ⟨n⟩)[k]? = some ins → P ins := by
  constructor
  · intro h n k ins hk
    obtain ⟨blk, hb⟩ := exists_block hk
    rw [code_eq hb] at hk
    obtain ⟨p, hp, rfl⟩ := List.mem_map.mp (List.mem_of_getElem? hk)
    exact h p (List.mem_flatMap.mpr ⟨blk, List.mem_of_getElem? hb, hp⟩)
  · intro h p hp
    obtain ⟨blk, hmem, hp⟩ := List.mem_flatMap.mp hp
    obtain ⟨n, hb⟩ := List.mem_iff_getElem?.mp hmem
    have hcode : p.2 ∈ f.code ⟨n⟩ := by
      rw [code_eq hb]
      exact List.mem_map_of_mem hp
    obtain ⟨k, hk⟩ := List.mem_iff_getElem?.mp hcode
    exact h n k p.2 hk

theorem typeFault?_eq_none {ins : Instr} : f.typeFault? ins = none ↔ f.Agrees ins := by
  cases ins with
  | store ptr value => simp [typeFault?, Agrees]
  | load r ptr ty => simp [typeFault?, Agrees]
  | binary r op lhs rhs ty => cases hop : op.isCompare <;> simp [typeFault?, Agrees, hop]
  | gep r base indices inbounds ty =>
    have hbase : (f.typeOf base).pointee?.isNone = false ↔ ∃ t, f.typeOf base = .pointer t := by
      rw [Option.isNone_eq_false_iff, Option.isSome_iff_exists]
      exact exists_congr fun t => Ty.pointee?_eq_some
    have hindices : (indices.find? fun v => !(f.typeOf v).isInt) = none ↔
        ∀ v ∈ indices, ∃ s, f.typeOf v = .scalar s ∧ s.isInt := by
      rw [List.find?_eq_none]
      refine forall₂_congr fun v _ => ?_
      rw [Bool.not_eq_true', Bool.not_eq_false, Ty.isInt_iff]
    rw [Agrees, ← hbase, ← hindices, typeFault?]
    cases (f.typeOf base).pointee?.isNone <;> simp
  | _ => simp [typeFault?, Agrees]

/-- The validator accepts the well-formed functions, and no others. -/
theorem validate_iff_wellFormed (f : Function) : f.validate = .ok () ↔ f.WellFormed := by
  have hends : (∀ blk ∈ f.blocks, Ends ((f.resolve blk.body).map Prod.snd)) ↔
      ∀ (n : Nat) (blk : Block), f.blocks[n]? = some blk → Ends (f.code ⟨n⟩) := by
    constructor
    · intro h n blk hb
      rw [code_eq hb]
      exact h blk (List.mem_of_getElem? hb)
    · intro h blk hmem
      obtain ⟨n, hb⟩ := List.mem_iff_getElem?.mp hmem
      rw [← code_eq hb]
      exact h n blk hb
  rw [validate_eq_ok]
  constructor
  · intro h
    have hblocks := hends.mp h.ends
    constructor
    case nonempty => exact fun n blk hb => (ends_iff.mp (hblocks n blk hb)).1
    case terminated =>
      intro n k ins hk
      obtain ⟨blk, hb⟩ := exists_block hk
      exact (ends_iff.mp (hblocks n blk hb)).2 k ins hk
    case once =>
      rw [← definitions_occurrences]
      exact h.nodup
    case scope =>
      intro n k ins hk v hv
      exact scoped_occurrences.mp h.scope n k ins hk v (Instr.mem_operands.mpr hv)
    case typed => exact forall_instrs.mp fun p hp => typeFault?_eq_none.mp (h.typed p hp)
  · intro h
    constructor
    case ends =>
      exact hends.mpr fun n blk hb => ends_iff.mpr ⟨h.nonempty n blk hb, h.terminated n⟩
    case nodup =>
      rw [definitions_occurrences]
      exact h.once
    case scope =>
      refine scoped_occurrences.mpr fun n k ins hk v hv => ?_
      exact h.scope n k ins hk v (Instr.mem_operands.mp hv)
    case typed =>
      exact fun p hp => typeFault?_eq_none.mpr (forall_instrs.mpr h.typed p hp)

end Function

end ShaderIR
