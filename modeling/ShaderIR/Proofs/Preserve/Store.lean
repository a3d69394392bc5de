import ShaderIR.Preserve.Target
import Mathlib.Data.List.Forall2
import Mathlib.Data.List.Nodup
import ShaderIR.Proofs.Metadata
import ShaderIR.Proofs.Outcome

/-!
# Output stores and written elements

The output stores of a function are read off its calls one by one, in order. The targets
are the elements that they write: each element once, in ascending order. Of the stores to one
number the first decides which element this is. Where each signature is of the kind of the stores
that look into it, all stores to a number name the same element.
-/

set_option autoImplicit false

namespace ShaderIR

theorem isIntrinsicName_name (i : Intrinsic) : isIntrinsicName i.name = true := by
  rw [isIntrinsicName, List.isPrefixOf_iff_prefix, Intrinsic.name]
  simp only [String.toList_append, List.append_assoc]
  exact List.prefix_append _ _

theorem OpCode.ofValue?_value (op : OpCode) : OpCode.ofValue? (Int64.ofNat op.value) = some op := by
  cases op <;> rfl

theorem elementId?_ofNat {id : Nat} (h : id < idLimit) : elementId? (Int64.ofNat id) = some id := by
  have hint : (Int64.ofNat id).toInt = id := Int64.toInt_ofNat_of_lt (Nat.lt_trans h (by decide))
  rw [elementId?, hint, if_pos ⟨by omega, by exact_mod_cast h⟩, Int.toNat_natCast]

def Instr.callsIntrinsic (ins : Instr) : Bool := ins.callee?.any isIntrinsicName

namespace OutputStore

/-- The output store `o` is what the instruction `p` reads as. -/
structure Reads (f : Function) (p : InstrId × Instr) (o : OutputStore) : Prop where
  call : o.call = p.1
  opcode : f.storeOpcode? p.2 = some o.opcode
  operands : ∃ op id n rest, p.2.operands = op :: id :: o.row :: o.column :: o.value :: rest ∧
    f.constInt? id = some n ∧ elementId? n = some o.id

theorem Reads.unique {f : Function} {p : InstrId × Instr} {o o' : OutputStore} (h : Reads f p o)
    (h' : Reads f p o') : o = o' := by
  obtain ⟨op, id, n, rest, hops, hn, hid⟩ := h.operands
  obtain ⟨op', id', n', rest', hops', hn', hid'⟩ := h'.operands
  have hc := h.call.trans h'.call.symm
  have ho := Option.some.inj (h.opcode.symm.trans h'.opcode)
  have heq := hops.symm.trans hops'
  obtain ⟨call, opcode, k, row, column, value⟩ := o
  obtain ⟨call', opcode', k', row', column', value'⟩ := o'
  simp only [List.cons.injEq] at heq
  obtain ⟨-, rfl, hrow, hcolumn, hvalue, -⟩ := heq
  cases hn.symm.trans hn'
  cases hid.symm.trans hid'
  simp only at hc ho
  rw [hc, ho, hrow, hcolumn, hvalue]

theorem exists_operands {args : List ValueId} (h : 5 ≤ args.length) :
    ∃ op id row column value rest, args = op :: id :: row :: column :: value :: rest := by
  match args, h with
  | op :: id :: row :: column :: value :: rest, _ =>
    exact ⟨op, id, row, column, value, rest, rfl⟩

theorem ofCall_eq_ok {f : Function} {i : InstrId} {op : OpCode} {args : List ValueId}
    {o : OutputStore} :
    ofCall f i op args = .ok o ↔ o.call = i ∧ o.opcode = op ∧
      ∃ v id n rest, args = v :: id :: o.row :: o.column :: o.value :: rest ∧
        f.constInt? id = some n ∧ elementId? n = some o.id := by
  constructor
  · intro h
    unfold ofCall at h
    split at h
    · split at h
      · cases h
      · next n hn =>
        split at h
        · cases h
        · next id hid =>
          cases h
          exact ⟨rfl, rfl, _, _, n, _, rfl, hn, hid⟩
    · cases h
  · rintro ⟨rfl, rfl, v, id, n, rest, rfl, hn, hid⟩
    simp only [ofCall, hn, hid]

theorem reads_iff {f : Function} {p : InstrId × Instr} {o : OutputStore} {op : OpCode}
    (h : f.storeOpcode? p.2 = some op) :
    Reads f p o ↔ ofCall f p.1 op p.2.operands = .ok o := by
  rw [ofCall_eq_ok]
  constructor
  · intro hr
    exact ⟨hr.call, Option.some.inj (hr.opcode.symm.trans h), hr.operands⟩
  · rintro ⟨hc, ho, hops⟩
    exact ⟨hc, ho ▸ h, hops⟩

theorem storeOpcode?_of_callee?_none {f : Function} {ins : Instr} (h : ins.callee? = none) :
    f.storeOpcode? ins = none := by
  cases ins with
  | call r callee args ty => cases h
  | _ => rfl

theorem storeOpcode?_call {f : Function} {r : Option ValueId} {callee : String}
    {args : List ValueId} {ty : Option Ty} {v : ValueId} {n : Int64}
    (hname : isIntrinsicName callee = true) (hv : args.head? = some v)
    (hn : f.constInt? v = some n) :
    f.storeOpcode? (.call r callee args ty) = OpCode.ofValue? n := by
  simp only [Function.storeOpcode?, Function.isCallTo, hname, hv, hn, Bool.true_and,
    Option.bind_some, Option.any_some, beq_iff_eq]
  rfl

theorem storeOpcode?_of_isReturn {f : Function} {ins : Instr} (h : ins.isReturn = true) :
    f.storeOpcode? ins = none := by
  cases ins with
  | ret values => rfl
  | _ => cases h

theorem Reads.callsIntrinsic {f : Function} {p : InstrId × Instr} {o : OutputStore}
    (h : Reads f p o) : p.2.callsIntrinsic = true := by
  have hcall : ∀ op, f.isCallTo op p.2 = true → p.2.callsIntrinsic = true := by
    intro op hcall
    cases hins : p.2 with
    | call r callee args ty =>
      rw [hins, Function.isCallTo, Bool.and_eq_true] at hcall
      exact hcall.1
    | _ =>
      rw [hins] at hcall
      cases hcall
  have hop := h.opcode
  unfold Function.storeOpcode? at hop
  split at hop
  · next hc => exact hcall _ hc
  · split at hop
    · next hc => exact hcall _ hc
    · cases hop

theorem Reads.isTerminator_eq_false {f : Function} {p : InstrId × Instr} {o : OutputStore}
    (h : Reads f p o) : p.2.isTerminator = false := by
  have hcalls := h.callsIntrinsic
  cases hins : p.2 with
  | br target args =>
    rw [hins] at hcalls
    cases hcalls
  | condbr cond thenTo thenArgs elseTo elseArgs =>
    rw [hins] at hcalls
    cases hcalls
  | ret values =>
    rw [hins] at hcalls
    cases hcalls
  | _ => rfl

theorem Reads.isReturn_eq_false {f : Function} {p : InstrId × Instr} {o : OutputStore}
    (h : Reads f p o) : p.2.isReturn = false := by
  cases hr : p.2.isReturn with
  | false => rfl
  | true =>
    have hterm := Instr.isTerminator_of_isReturn hr
    rw [h.isTerminator_eq_false] at hterm
    cases hterm

def callsOf (f : Function) (is : List (InstrId × Instr)) : List (InstrId × Instr) :=
  is.filter fun p => (f.storeOpcode? p.2).isSome

theorem collect_eq_ok {f : Function} {is : List (InstrId × Instr)} {os : List OutputStore} :
    collect f is = .ok os ↔ List.Forall₂ (Reads f) (callsOf f is) os := by
  induction is generalizing os with
  | nil =>
    simp only [collect, callsOf, List.filter_nil, List.forall₂_nil_left_iff, Except.ok.injEq]
    exact eq_comm
  | cons p is ih =>
    obtain ⟨i, ins⟩ := p
    rw [collect]
    cases hop : f.storeOpcode? ins with
    | none =>
      have hskip : callsOf f ((i, ins) :: is) = callsOf f is :=
        List.filter_cons_of_neg (by simp [hop])
      rw [hskip]
      exact ih
    | some op =>
      have htake : callsOf f ((i, ins) :: is) = (i, ins) :: callsOf f is :=
        List.filter_cons_of_pos (by simp [hop])
      simp only [htake, bind_eq_ok]
      constructor
      · rintro ⟨o, ho, rest, hrest, h⟩
        cases h
        exact .cons ((reads_iff hop).mpr ho) (ih.mp hrest)
      · rintro (_ | ⟨ho, hrest⟩)
        exact ⟨_, (reads_iff hop).mp ho, _, ih.mpr hrest, rfl⟩

theorem all_eq_ok {f : Function} {os : List OutputStore} :
    all f = .ok os ↔ List.Forall₂ (Reads f) (callsOf f f.instrs) os := collect_eq_ok

theorem map_call_of_reads {f : Function} {ps : List (InstrId × Instr)} {os : List OutputStore}
    (h : List.Forall₂ (Reads f) ps os) : os.map OutputStore.call = ps.map Prod.fst := by
  induction h with
  | nil => rfl
  | cons hr _ ih => rw [List.map_cons, List.map_cons, hr.call, ih]

section All

variable {f : Function} {os : List OutputStore} (h : all f = .ok os)
include h

theorem exists_call {o : OutputStore} (ho : o ∈ os) : ∃ p ∈ f.instrs, Reads f p o := by
  obtain ⟨n, hn, rfl⟩ := List.mem_iff_getElem.mp ho
  have hall := List.forall₂_iff_get.mp (all_eq_ok.mp h)
  have hn' : n < (callsOf f f.instrs).length := hall.1 ▸ hn
  exact ⟨_, List.mem_of_mem_filter (List.get_mem _ ⟨n, hn'⟩), hall.2 n hn' hn⟩

theorem exists_store {p : InstrId × Instr} {op : OpCode} (hp : p ∈ f.instrs)
    (hop : f.storeOpcode? p.2 = some op) : ∃ o ∈ os, Reads f p o := by
  have hmem : p ∈ callsOf f f.instrs := List.mem_filter.mpr ⟨hp, by simp [hop]⟩
  obtain ⟨n, hn, rfl⟩ := List.mem_iff_getElem.mp hmem
  have hall := List.forall₂_iff_get.mp (all_eq_ok.mp h)
  have hn' : n < os.length := hall.1 ▸ hn
  exact ⟨_, List.get_mem _ ⟨n, hn'⟩, hall.2 n hn hn'⟩

theorem mem_of_reads {p : InstrId × Instr} {o : OutputStore} (hp : p ∈ f.instrs)
    (hr : Reads f p o) : o ∈ os := by
  obtain ⟨o', ho', hr'⟩ := exists_store h hp hr.opcode
  rwa [hr.unique hr']

theorem map_call_all : os.map OutputStore.call = (callsOf f f.instrs).map Prod.fst :=
  map_call_of_reads (all_eq_ok.mp h)

end All

end OutputStore

namespace OutputStore

/-- An output store is the first of some instructions that names its number. -/
inductive First (f : Function) (o : OutputStore) : List (InstrId × Instr) → Prop
  | here {p : InstrId × Instr} {rest : List (InstrId × Instr)} (hr : Reads f p o) :
      First f o (p :: rest)
  | later {p : InstrId × Instr} {rest : List (InstrId × Instr)}
      (hp : ∀ o', Reads f p o' → o'.id ≠ o.id) (h : First f o rest) : First f o (p :: rest)

theorem First.exists_mem {f : Function} {o : OutputStore} {is : List (InstrId × Instr)}
    (h : First f o is) : ∃ p ∈ is, Reads f p o := by
  induction h with
  | here hr => exact ⟨_, List.mem_cons_self, hr⟩
  | later _ _ ih =>
    obtain ⟨p, hp, hr⟩ := ih
    exact ⟨p, List.mem_cons_of_mem _ hp, hr⟩

theorem first_iff {f : Function} {o : OutputStore} {is : List (InstrId × Instr)}
    {os : List OutputStore} (h : List.Forall₂ (Reads f) (callsOf f is) os) :
    First f o is ↔ os.find? (fun o' => o'.id == o.id) = some o := by
  induction is generalizing os with
  | nil =>
    cases h
    exact iff_of_false (by rintro ⟨⟩) (by rintro ⟨⟩)
  | cons p is ih =>
    cases hop : f.storeOpcode? p.2 with
    | none =>
      have hnone : ∀ o', ¬Reads f p o' := fun o' hr => by
        cases hop.symm.trans hr.opcode
      rw [callsOf, List.filter_cons_of_neg (by simp [hop])] at h
      rw [← ih h]
      constructor
      · rintro (hr | ⟨-, hrest⟩)
        · exact absurd hr (hnone o)
        · exact hrest
      · exact .later fun o' hr => absurd hr (hnone o')
    | some op =>
      rw [callsOf, List.filter_cons_of_pos (by simp [hop])] at h
      obtain ⟨o₀, os, hr, hrest, rfl⟩ := List.forall₂_cons_left_iff.mp h
      by_cases hid : o₀.id = o.id
      · rw [List.find?_cons_of_pos (by simpa using hid), Option.some.injEq]
        constructor
        · rintro (hr' | ⟨hne, -⟩)
          · exact hr.unique hr'
          · exact absurd hid (hne o₀ hr)
        · rintro rfl
          exact .here hr
      · rw [List.find?_cons_of_neg (by simpa using hid), ← ih hrest]
        constructor
        · rintro (hr' | ⟨-, hrest⟩)
          · exact absurd (congrArg id (hr.unique hr')) hid
          · exact hrest
        · exact .later fun o' hr' => hr.unique hr' ▸ hid

end OutputStore

/-- The element that the first output store to its number names. -/
def Function.Writes (f : Function) (m : Metadata) (t : Target) : Prop :=
  ∃ o, OutputStore.First f o f.instrs ∧ o.target? m = some t

namespace Target

/-- Collecting loses no target. Every store has one that is written by its operation, or that the
store itself has named. -/
theorem exists_of_collect {func : String} {m : Metadata} {ts us : List Target}
    {os : List OutputStore} (h : collect func m ts os = .ok us) :
    (∀ t ∈ ts, t ∈ us) ∧ ∀ o ∈ os, ∃ t ∈ us, t.id = o.id ∧
      (t.opcode = o.opcode ∨ o.target? m = some t) := by
  induction os generalizing ts with
  | nil =>
    cases h
    exact ⟨fun t ht => ht, fun o ho => absurd ho List.not_mem_nil⟩
  | cons o rest ih =>
    rw [collect] at h
    split at h
    · next t hfind =>
      split at h
      · next hop =>
        obtain ⟨hkeep, hrest⟩ := ih h
        refine ⟨hkeep, List.forall_mem_cons.mpr ⟨⟨t, ?_, ?_, Or.inl hop⟩, hrest⟩⟩
        · exact hkeep t (List.mem_of_find?_eq_some hfind)
        · simpa using List.find?_some hfind
      · cases h
    · split at h
      · next t ht =>
        obtain ⟨hkeep, hrest⟩ := ih h
        refine ⟨fun u hu => hkeep u (mem_insertById.mpr (Or.inr hu)),
          List.forall_mem_cons.mpr ⟨⟨t, ?_, ?_, Or.inr ht⟩, hrest⟩⟩
        · exact hkeep t (mem_insertById.mpr (Or.inl rfl))
        · exact (OutputStore.target?_eq_some.mp ht).1
      · cases h

theorem eq_of_pairwise {ts : List Target} (h : ts.Pairwise fun t u => t.id < u.id) {t u : Target}
    (ht : t ∈ ts) (hu : u ∈ ts) (hid : t.id = u.id) : t = u :=
  List.inj_on_of_nodup_map (List.pairwise_map.mpr (h.imp Nat.ne_of_lt)) ht hu hid

theorem mem_of_collect {func : String} {m : Metadata} {ts us : List Target}
    {os : List OutputStore} (hts : ts.Pairwise fun t u => t.id < u.id)
    (h : collect func m ts os = .ok us) {t : Target} (ht : t ∈ us) :
    t ∈ ts ∨ ∃ o, os.find? (fun o => o.id == t.id) = some o ∧ o.target? m = some t := by
  induction os generalizing ts with
  | nil =>
    cases h
    exact Or.inl ht
  | cons o rest ih =>
    have hkeep := (exists_of_collect h).1
    have hus := pairwise_collect hts h
    rw [collect] at h
    split at h
    · next u hfind =>
      split at h
      · by_cases hid : o.id = t.id
        · -- the number was taken before
          have hu := List.mem_of_find?_eq_some hfind
          have huid : u.id = o.id := by simpa using List.find?_some hfind
          rw [eq_of_pairwise hus ht (hkeep u hu) (hid.symm.trans huid.symm)]
          exact Or.inl hu
        · rw [List.find?_cons_of_neg (by simpa using hid)]
          exact ih hts h
      · cases h
    · next hfind =>
      split at h
      · next u hu =>
        have huid := (OutputStore.target?_eq_some.mp hu).1
        have hne : ∀ v ∈ ts, v.id ≠ u.id := fun v hv heq => by
          have hno := List.find?_eq_none.mp hfind v hv
          simp [heq, huid] at hno
        by_cases hid : o.id = t.id
        · have hmem := (exists_of_collect h).1 u (mem_insertById.mpr (Or.inl rfl))
          obtain rfl := eq_of_pairwise hus ht hmem (hid.symm.trans huid.symm)
          rw [List.find?_cons_of_pos (by simpa using hid)]
          exact Or.inr ⟨o, rfl, hu⟩
        · rw [List.find?_cons_of_neg (by simpa using hid)]
          refine (ih (pairwise_insertById hts hne) h).imp_left fun hmem => ?_
          rcases mem_insertById.mp hmem with rfl | hmem
          · exact absurd huid.symm hid
          · exact hmem
      · cases h

theorem exists_named {func : String} {m : Metadata} {ts : List Target} {os : List OutputStore}
    (h : collect func m [] os = .ok ts) {t : Target} (ht : t ∈ ts) :
    ∃ o ∈ os, o.target? m = some t := by
  rcases mem_of_collect List.Pairwise.nil h ht with hnil | ⟨o, hfind, hnamed⟩
  · cases hnil
  · exact ⟨o, List.mem_of_find?_eq_some hfind, hnamed⟩

/-- The elements that the output stores of a function write, in ascending order. Each store is by
the operation that writes the element in the end, or has named the element itself. -/
structure Written (f : Function) (m : Metadata) (ts : List Target) : Prop where
  ordered : ts.Pairwise fun t u => t.id < u.id
  mem_iff : ∀ t, t ∈ ts ↔ f.Writes m t
  agrees : ∀ p ∈ f.instrs, ∀ o, OutputStore.Reads f p o → ∃ t ∈ ts, t.id = o.id ∧
    (t.opcode = o.opcode ∨ o.target? m = some t)

theorem written_of_collect {f : Function} {m : Metadata} {os : List OutputStore}
    {ts : List Target} (hall : OutputStore.all f = .ok os)
    (h : collect f.name m [] os = .ok ts) : Written f m ts where
  ordered := pairwise_collect List.Pairwise.nil h
  mem_iff t := by
    have hfirst := fun o => OutputStore.first_iff (o := o) (OutputStore.all_eq_ok.mp hall)
    constructor
    · intro ht
      rcases mem_of_collect List.Pairwise.nil h ht with hnil | ⟨o, hfind, hnamed⟩
      · cases hnil
      · rw [(OutputStore.target?_eq_some.mp hnamed).1] at hfind
        exact ⟨o, (hfirst o).mpr hfind, hnamed⟩
    · rintro ⟨o, ho, hnamed⟩
      have hfind := (hfirst o).mp ho
      obtain ⟨u, hu, hid, -⟩ := (exists_of_collect h).2 o (List.mem_of_find?_eq_some hfind)
      rcases mem_of_collect List.Pairwise.nil h hu with hnil | ⟨o', hfind', hnamed'⟩
      · cases hnil
      · rw [hid, hfind] at hfind'
        cases hfind'
        cases hnamed.symm.trans hnamed'
        exact hu
  agrees p hp o hr := (exists_of_collect h).2 o (OutputStore.mem_of_reads hall hp hr)

theorem Written.eq_of_id {f : Function} {m : Metadata} {ts : List Target} (h : Written f m ts)
    {t u : Target} (ht : t ∈ ts) (hu : u ∈ ts) (hid : t.id = u.id) : t = u :=
  eq_of_pairwise h.ordered ht hu hid

section Aligned

variable {f : Function} {m : Metadata} {ts : List Target} (h : Written f m ts) (hm : m.Aligned)
include hm

theorem opcode_of_aligned {o : OutputStore} {t : Target} (ht : o.target? m = some t) :
    t.opcode = o.opcode := by
  rw [opcode, (OutputStore.target?_eq_some.mp ht).2.1]
  exact hm o.opcode

theorem named_of_aligned {o o' : OutputStore} {t : Target} (ht : o'.target? m = some t)
    (hid : t.id = o.id) (hop : t.opcode = o.opcode) : o.target? m = some t := by
  have hop' := opcode_of_aligned hm ht
  obtain ⟨hid', hkind, he⟩ := OutputStore.target?_eq_some.mp ht
  rw [← hop', hop] at hkind he
  rw [← hid', hid] at he
  exact OutputStore.target?_eq_some.mpr ⟨hid, hkind, he⟩

include h

/-- Where the kinds are right, every store writes the element that it names itself. -/
theorem Written.exists_of_reads {p : InstrId × Instr} (hp : p ∈ f.instrs) {o : OutputStore}
    (hr : OutputStore.Reads f p o) : ∃ t ∈ ts, t.id = o.id ∧ t.opcode = o.opcode ∧
      o.target? m = some t := by
  obtain ⟨t, ht, hid, hop | hnamed⟩ := h.agrees p hp o hr
  · obtain ⟨o', -, hnamed⟩ := (h.mem_iff t).mp ht
    exact ⟨t, ht, hid, hop, named_of_aligned hm hnamed hid hop⟩
  · exact ⟨t, ht, hid, opcode_of_aligned hm hnamed, hnamed⟩

end Aligned

end Target

/-- No number is written by both operations. -/
def Function.Separates (f : Function) : Prop :=
  ∀ p ∈ f.instrs, ∀ q ∈ f.instrs, ∀ o o', OutputStore.Reads f p o → OutputStore.Reads f q o' →
    o.id = o'.id → o.opcode = o'.opcode

/-- Where the kinds are right, and also where no number is written by both operations, a store
writes the element of the signature that it looks into. -/
theorem OutputStore.Reads.element_of_writes {f : Function} {m : Metadata} {ts : List Target}
    (h : Target.Written f m ts) (hm : m.Aligned ∨ f.Separates) {p : InstrId × Instr}
    (hp : p ∈ f.instrs) {o : OutputStore} (hr : Reads f p o) {t : Target} (ht : f.Writes m t)
    (hid : t.id = o.id) : (m.signature o.opcode).element? o.id = some t.element := by
  rcases hm with ha | hs
  · obtain ⟨u, hu, huid, -, hnamed⟩ := h.exists_of_reads ha hp hr
    obtain rfl : t = u := h.eq_of_id ((h.mem_iff t).mpr ht) hu (hid.trans huid.symm)
    exact (target?_eq_some.mp hnamed).2.2
  · obtain ⟨o', hfirst, hnamed⟩ := ht
    obtain ⟨q, hq, hr'⟩ := hfirst.exists_mem
    obtain ⟨hid', -, he⟩ := target?_eq_some.mp hnamed
    have hsame : o.id = o'.id := hid.symm.trans hid'
    rw [hs p hp q hq o o' hr hr' hsame, hsame]
    exact he

/-- With two signatures of one kind, stores by both operations write the element that the first of
them names. -/
example : Target.collect "main" ⟨⟨.patchConstant, [⟨"A", 1, 1, .i32⟩]⟩,
    ⟨.patchConstant, [⟨"B", 1, 1, .f32⟩]⟩, .empty⟩ []
      [⟨⟨0⟩, .storeOutput, 0, ⟨0⟩, ⟨1⟩, ⟨2⟩⟩, ⟨⟨1⟩, .storePatchConstant, 0, ⟨0⟩, ⟨1⟩, ⟨3⟩⟩] =
    .ok [⟨0, .patchConstant, ⟨"A", 1, 1, .i32⟩⟩] := rfl

end ShaderIR
