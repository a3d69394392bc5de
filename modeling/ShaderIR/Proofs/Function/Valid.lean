import Mathlib.Data.List.Nodup
import Mathlib.Data.List.Pairwise
import Mathlib.Data.List.Perm.Basic
import ShaderIR.Function.Validity
import ShaderIR.Proofs.Outcome

/-!
# What validity means

A function is valid if every block ends with its only terminator, no value is defined twice,
every value is defined before it is used, and no instruction has a type fault. Read in
layout order, a function is a list of occurrences: each uses some values and defines others.
-/

set_option autoImplicit false

namespace ShaderIR

structure Occurrence where
  uses : List ValueId
  defs : List ValueId

def definitions (os : List Occurrence) : List ValueId := os.flatMap Occurrence.defs

/-- Every value that is used is among those given, or defined before. -/
def Scoped (known : List ValueId) : List Occurrence → Prop
  | [] => True
  | o :: rest => (∀ v ∈ o.uses, v ∈ known) ∧ Scoped (known ++ o.defs) rest

def Instr.occurrence (ins : Instr) : Occurrence := ⟨ins.operands, ins.result?.toList⟩

/-- The instructions of a block: the last one, and no other, is a terminator. -/
def Ends (is : List Instr) : Prop :=
  ∃ init last, is = init ++ [last] ∧ last.isTerminator = true ∧
    ∀ ins ∈ init, ins.isTerminator = false

theorem definitions_append (os ps : List Occurrence) :
    definitions (os ++ ps) = definitions os ++ definitions ps :=
  List.flatMap_append

theorem scoped_append {known : List ValueId} {os ps : List Occurrence} :
    Scoped known (os ++ ps) ↔ Scoped known os ∧ Scoped (known ++ definitions os) ps := by
  induction os generalizing known with
  | nil => simp [Scoped, definitions]
  | cons o os ih =>
    rw [List.cons_append, Scoped, Scoped, ih, and_assoc, List.append_assoc]
    rfl

theorem Scoped.mono {known more : List ValueId} {os : List Occurrence} (h : Scoped known os)
    (hsub : ∀ v ∈ known, v ∈ more) : Scoped more os := by
  induction os generalizing known more with
  | nil => exact h
  | cons o os ih =>
    refine ⟨fun v hv => hsub v (h.1 v hv), ih h.2 fun v hv => ?_⟩
    rcases List.mem_append.mp hv with hv | hv
    · exact List.mem_append_left _ (hsub v hv)
    · exact List.mem_append_right _ hv

theorem Scoped.mem_of_use {known : List ValueId} {os : List Occurrence} (h : Scoped known os)
    {o : Occurrence} (ho : o ∈ os) {v : ValueId} (hv : v ∈ o.uses) :
    v ∈ known ++ definitions os := by
  induction os generalizing known with
  | nil => cases ho
  | cons o' os ih =>
    rw [definitions, List.flatMap_cons, ← List.append_assoc]
    rcases List.mem_cons.mp ho with rfl | ho
    · exact List.mem_append_left _ (List.mem_append_left _ (h.1 v hv))
    · exact ih h.2 ho

theorem ends_cons {ins : Instr} {is : List Instr} :
    Ends (ins :: is) ↔ ins.isTerminator = is.isEmpty ∧ (is = [] ∨ Ends is) := by
  constructor
  · rintro ⟨init, last, heq, hlast, hinit⟩
    cases init with
    | nil =>
      cases heq
      exact ⟨hlast, Or.inl rfl⟩
    | cons i init =>
      cases heq
      refine ⟨?_, Or.inr ⟨init, last, rfl, hlast, fun j hj => hinit j (List.mem_cons_of_mem _ hj)⟩⟩
      rw [hinit _ List.mem_cons_self]
      simp
  · rintro ⟨hins, rfl | ⟨init, last, rfl, hlast, hinit⟩⟩
    · exact ⟨[], ins, rfl, hins, fun j hj => absurd hj List.not_mem_nil⟩
    · refine ⟨ins :: init, last, rfl, hlast, fun j hj => ?_⟩
      rcases List.mem_cons.mp hj with rfl | hj
      · rw [hins]
        simp
      · exact hinit j hj

namespace Function

def blockOccurrences (f : Function) (blk : Block) : List Occurrence :=
  blk.paramIds.map (fun v => ⟨[], [v]⟩) ++ (f.resolve blk.body).map fun p => p.2.occurrence

def occurrences (f : Function) : List Occurrence := f.blocks.flatMap f.blockOccurrences

structure Valid (f : Function) : Prop where
  ends : ∀ blk ∈ f.blocks, Ends ((f.resolve blk.body).map Prod.snd)
  nodup : (definitions f.occurrences).Nodup
  scope : Scoped [] f.occurrences
  typed : ∀ p ∈ f.instrs, f.typeFault? p.2 = none

/-- The set of defined values that a check has computed holds the given ones, each once. -/
structure Holds (d : Defined) (known : List ValueId) : Prop where
  nodup : known.Nodup
  contains_iff : ∀ v, d.contains v = true ↔ v ∈ known

variable {f : Function}

theorem defineAll_eq_ok {d : Defined} {known : List ValueId} (hd : Holds d known)
    (vs : List ValueId) :
    (∀ d', f.defineAll d vs = .ok d' → Holds d' (known ++ vs)) ∧
      ((known ++ vs).Nodup → ∃ d', f.defineAll d vs = .ok d') := by
  induction vs generalizing d known with
  | nil =>
    refine ⟨fun d' h => ?_, fun _ => ⟨d, rfl⟩⟩
    cases h
    rwa [List.append_nil]
  | cons v vs ih =>
    have hstep : v ∉ known → Holds (d.insert v) (known ++ [v]) := by
      intro hv
      refine ⟨?_, fun u => ?_⟩
      · rw [List.nodup_append]
        refine ⟨hd.nodup, List.nodup_singleton v, ?_⟩
        rintro a ha b hb rfl
        exact hv (List.mem_singleton.mp hb ▸ ha)
      · rw [Std.TreeSet.contains_insert, Bool.or_eq_true, hd.contains_iff, List.mem_append,
          List.mem_singleton, beq_iff_eq, Std.LawfulEqCmp.compare_eq_iff_eq, or_comm, eq_comm]
    have hsplit : known ++ v :: vs = (known ++ [v]) ++ vs := by simp
    constructor
    · intro d' h
      obtain ⟨d₁, h₁, h⟩ := bind_eq_ok.mp h
      unfold define at h₁
      split at h₁
      · cases h₁
      · next hv =>
        cases h₁
        rw [hsplit]
        exact (ih (hstep fun hmem => hv ((hd.contains_iff v).mpr hmem))).1 d' h
    · intro hn
      have hv : v ∉ known := fun hmem =>
        List.disjoint_of_nodup_append hn hmem List.mem_cons_self
      rw [hsplit] at hn
      obtain ⟨d', h⟩ := (ih (hstep hv)).2 hn
      refine ⟨d', bind_eq_ok.mpr ⟨d.insert v, ?_, h⟩⟩
      rw [define, if_neg fun hmem => hv ((hd.contains_iff v).mp hmem)]

theorem checkInstr_eq_ok {label : String} {isLast : Bool} {d d' : Defined} {ins : Instr}
    {known : List ValueId} (hd : Holds d known) :
    f.checkInstr label isLast d ins = .ok d' ↔ ins.isTerminator = isLast ∧
      (∀ v ∈ ins.operands, v ∈ known) ∧ f.typeFault? ins = none ∧
      f.defineAll d ins.result?.toList = .ok d' := by
  unfold checkInstr
  split
  · next hne =>
    constructor
    · rintro ⟨⟩
    · exact fun h => absurd h.1 (by simpa using hne)
  · next heq =>
    have heq : ins.isTerminator = isLast := by simpa using heq
    split
    · next v hv =>
      constructor
      · rintro ⟨⟩
      · intro h
        have hbad := List.find?_some hv
        have hmem := h.2.1 v (List.mem_of_find?_eq_some hv)
        rw [(hd.contains_iff v).mpr hmem] at hbad
        cases hbad
    · next hnone =>
      have huses : ∀ v ∈ ins.operands, v ∈ known := by
        intro v hv
        have := List.find?_eq_none.mp hnone v hv
        exact (hd.contains_iff v).mp (by simpa using this)
      split
      · next fault hfault =>
        constructor
        · rintro ⟨⟩
        · intro h
          rw [h.2.2.1] at hfault
          cases hfault
      · next hfault => exact ⟨fun h => ⟨heq, huses, hfault, h⟩, fun h => h.2.2.2⟩

theorem checkInstrs_eq_ok {label : String} {is : List Instr} {d : Defined}
    {known : List ValueId} (hd : Holds d known) :
    (∀ d', f.checkInstrs label d is = .ok d' →
      Holds d' (known ++ definitions (is.map Instr.occurrence)) ∧ (is = [] ∨ Ends is) ∧
        Scoped known (is.map Instr.occurrence) ∧ ∀ ins ∈ is, f.typeFault? ins = none) ∧
    ((known ++ definitions (is.map Instr.occurrence)).Nodup → (is = [] ∨ Ends is) →
      Scoped known (is.map Instr.occurrence) → (∀ ins ∈ is, f.typeFault? ins = none) →
      ∃ d', f.checkInstrs label d is = .ok d') := by
  induction is generalizing d known with
  | nil =>
    refine ⟨fun d' h => ?_, fun _ _ _ _ => ⟨d, rfl⟩⟩
    cases h
    refine ⟨?_, Or.inl rfl, trivial, fun ins hi => absurd hi List.not_mem_nil⟩
    simpa [definitions] using hd
  | cons ins is ih =>
    have hdefs : known ++ definitions ((ins :: is).map Instr.occurrence) =
        (known ++ ins.result?.toList) ++ definitions (is.map Instr.occurrence) := by
      rw [List.append_assoc]
      rfl
    constructor
    · intro d' h
      obtain ⟨d₁, h₁, h⟩ := bind_eq_ok.mp h
      obtain ⟨hlast, huses, hfault, hdef⟩ := (checkInstr_eq_ok hd).mp h₁
      obtain ⟨hholds, hends, hscoped, htyped⟩ := (ih ((defineAll_eq_ok hd _).1 d₁ hdef)).1 d' h
      rw [hdefs]
      refine ⟨hholds, Or.inr (ends_cons.mpr ⟨hlast, hends⟩), ⟨huses, hscoped⟩, fun j hj => ?_⟩
      rcases List.mem_cons.mp hj with rfl | hj
      · exact hfault
      · exact htyped j hj
    · intro hn hends hscoped htyped
      rw [hdefs] at hn
      obtain ⟨hlast, hends⟩ := ends_cons.mp (hends.resolve_left (List.cons_ne_nil _ _))
      obtain ⟨d₁, hdef⟩ := (defineAll_eq_ok (f := f) hd ins.result?.toList).2
        (List.nodup_append.mp hn).1
      have h₁ : f.checkInstr label is.isEmpty d ins = .ok d₁ := (checkInstr_eq_ok hd).mpr
        ⟨hlast, hscoped.1, htyped ins List.mem_cons_self, hdef⟩
      obtain ⟨d', h⟩ := (ih ((defineAll_eq_ok hd _).1 d₁ hdef)).2 hn hends hscoped.2
        fun j hj => htyped j (List.mem_cons_of_mem ins hj)
      exact ⟨d', bind_eq_ok.mpr ⟨d₁, h₁, h⟩⟩

theorem definitions_params (vs : List ValueId) :
    definitions (vs.map fun v => ⟨[], [v]⟩) = vs := by
  rw [definitions, List.flatMap_map, List.flatMap_singleton']

theorem scoped_params (known vs : List ValueId) :
    Scoped known (vs.map fun v => ⟨[], [v]⟩) := by
  induction vs generalizing known with
  | nil => trivial
  | cons v vs ih => exact ⟨fun u hu => absurd hu List.not_mem_nil, ih _⟩

theorem blockOccurrences_eq (f : Function) (blk : Block) : f.blockOccurrences blk =
    blk.paramIds.map (fun v => ⟨[], [v]⟩) ++
      ((f.resolve blk.body).map Prod.snd).map Instr.occurrence := by
  rw [blockOccurrences, List.map_map]
  rfl

theorem definitions_blockOccurrences (f : Function) (blk : Block) :
    definitions (f.blockOccurrences blk) =
      blk.paramIds ++ (f.resolve blk.body).flatMap fun p => p.2.result?.toList := by
  rw [blockOccurrences, definitions_append, definitions_params, definitions, List.flatMap_map]
  rfl

theorem definitions_perm (f : Function) : (definitions f.occurrences).Perm
    (f.blocks.flatMap Block.paramIds ++ f.instrs.flatMap fun p => p.2.result?.toList) := by
  have hblocks : definitions f.occurrences = f.blocks.flatMap fun blk =>
      blk.paramIds ++ (f.resolve blk.body).flatMap fun p => p.2.result?.toList := by
    rw [definitions, occurrences, List.flatMap_assoc]
    exact List.flatMap_congr fun blk _ => f.definitions_blockOccurrences blk
  rw [hblocks, instrs, List.flatMap_assoc]
  exact (List.flatMap_append_perm _ _ _).symm

theorem checkBlock_eq_ok {blk : Block} {d : Defined} {known : List ValueId} (hd : Holds d known) :
    (∀ d', f.checkBlock d blk = .ok d' →
      Holds d' (known ++ definitions (f.blockOccurrences blk)) ∧
        Ends ((f.resolve blk.body).map Prod.snd) ∧ Scoped known (f.blockOccurrences blk) ∧
          ∀ p ∈ f.resolve blk.body, f.typeFault? p.2 = none) ∧
    ((known ++ definitions (f.blockOccurrences blk)).Nodup →
      Ends ((f.resolve blk.body).map Prod.snd) → Scoped known (f.blockOccurrences blk) →
      (∀ p ∈ f.resolve blk.body, f.typeFault? p.2 = none) →
      ∃ d', f.checkBlock d blk = .ok d') := by
  have hdefs : known ++ definitions (f.blockOccurrences blk) = (known ++ blk.paramIds) ++
      definitions (((f.resolve blk.body).map Prod.snd).map Instr.occurrence) := by
    rw [blockOccurrences_eq, definitions_append, definitions_params, List.append_assoc]
  have hscope : Scoped known (f.blockOccurrences blk) ↔ Scoped (known ++ blk.paramIds)
      (((f.resolve blk.body).map Prod.snd).map Instr.occurrence) := by
    rw [blockOccurrences_eq, scoped_append, definitions_params]
    exact and_iff_right (scoped_params known _)
  have htyped : (∀ p ∈ f.resolve blk.body, f.typeFault? p.2 = none) ↔
      ∀ ins ∈ (f.resolve blk.body).map Prod.snd, f.typeFault? ins = none := by
    rw [List.forall_mem_map]
  rw [hdefs, hscope, htyped]
  unfold checkBlock
  generalize (f.resolve blk.body).map Prod.snd = is
  constructor
  · intro d' h
    obtain ⟨d₁, hparams, h⟩ := bind_eq_ok.mp h
    dsimp only at h
    split at h
    · cases h
    · next hne =>
      obtain ⟨hholds, hends, hscoped, hall⟩ :=
        (checkInstrs_eq_ok ((defineAll_eq_ok hd _).1 d₁ hparams)).1 d' h
      refine ⟨hholds, hends.resolve_left ?_, hscoped, hall⟩
      rintro rfl
      exact hne rfl
  · intro hn hends hscoped hall
    obtain ⟨d₁, hparams⟩ := (defineAll_eq_ok (f := f) hd blk.paramIds).2
      (List.nodup_append.mp hn).1
    obtain ⟨d', h⟩ := (checkInstrs_eq_ok ((defineAll_eq_ok hd _).1 d₁ hparams)).2 hn (Or.inr hends)
      hscoped hall
    have hne : is.isEmpty = false := by
      obtain ⟨init, last, rfl, -⟩ := hends
      simp
    refine ⟨d', bind_eq_ok.mpr ⟨d₁, hparams, ?_⟩⟩
    dsimp only
    rw [hne]
    exact h

theorem checkBlocks_eq_ok {d : Defined} {known : List ValueId}
    (hd : Holds d known) (blks : List Block) :
    (∃ d', f.checkBlocks d blks = .ok d') ↔
      (∀ blk ∈ blks, Ends ((f.resolve blk.body).map Prod.snd)) ∧
      (known ++ definitions (blks.flatMap f.blockOccurrences)).Nodup ∧
      Scoped known (blks.flatMap f.blockOccurrences) ∧
      ∀ p ∈ blks.flatMap fun blk => f.resolve blk.body, f.typeFault? p.2 = none := by
  induction blks generalizing d known with
  | nil => simp [checkBlocks, definitions, Scoped, hd.nodup]
  | cons blk blks ih =>
    rw [List.flatMap_cons, List.flatMap_cons, definitions_append, scoped_append,
      ← List.append_assoc]
    constructor
    · rintro ⟨d', h⟩
      obtain ⟨d₁, h₁, h⟩ := bind_eq_ok.mp h
      obtain ⟨hholds, hends, hscoped, htyped⟩ := (checkBlock_eq_ok hd).1 d₁ h₁
      obtain ⟨hends', hn, hscoped', htyped'⟩ := (ih hholds).mp ⟨d', h⟩
      refine ⟨fun b hb => ?_, hn, ⟨hscoped, hscoped'⟩, fun p hp => ?_⟩
      · rcases List.mem_cons.mp hb with rfl | hb
        · exact hends
        · exact hends' b hb
      · rcases List.mem_append.mp hp with hp | hp
        · exact htyped p hp
        · exact htyped' p hp
    · rintro ⟨hends, hn, ⟨hscoped, hscoped'⟩, htyped⟩
      obtain ⟨d₁, h₁⟩ := (checkBlock_eq_ok hd).2 (List.nodup_append.mp hn).1
        (hends blk List.mem_cons_self) hscoped fun p hp => htyped p (List.mem_append_left _ hp)
      obtain ⟨d', h⟩ := (ih ((checkBlock_eq_ok hd).1 d₁ h₁).1).mpr
        ⟨fun b hb => hends b (List.mem_cons_of_mem blk hb), hn, hscoped',
          fun p hp => htyped p (List.mem_append_right _ hp)⟩
      exact ⟨d', bind_eq_ok.mpr ⟨d₁, h₁, h⟩⟩

/-- The validator accepts the valid functions, and no others. -/
theorem validate_eq_ok : f.validate = .ok () ↔ f.Valid := by
  have hempty : Holds ∅ [] := ⟨List.nodup_nil, fun v => by simp⟩
  have hblocks := checkBlocks_eq_ok (f := f) hempty f.blocks
  constructor
  · intro h
    obtain ⟨d, hd, -⟩ := bind_eq_ok.mp h
    obtain ⟨hends, hn, hscoped, htyped⟩ := hblocks.mp ⟨d, hd⟩
    exact ⟨hends, hn, hscoped, htyped⟩
  · rintro ⟨hends, hn, hscoped, htyped⟩
    obtain ⟨d, hd⟩ := hblocks.mpr ⟨hends, hn, hscoped, htyped⟩
    exact bind_eq_ok.mpr ⟨d, hd, rfl⟩

namespace Valid

variable (h : f.Valid) {v : ValueId} {p : InstrId × Instr} (hp : p ∈ f.instrs)
  (hv : p.2.result? = some v)
include h hp hv

theorem result_unique {q : InstrId × Instr} (hq : q ∈ f.instrs) (hqv : q.2.result? = some v) :
    p = q := by
  have hnodup := (List.nodup_append.mp ((definitions_perm f).nodup_iff.mp h.nodup)).2.1
  have hdisjoint := (List.nodup_flatMap.mp hnodup).2
  have : Std.Symm (Function.onFun List.Disjoint fun p : InstrId × Instr => p.2.result?.toList) :=
    ⟨fun _ _ hd => List.disjoint_comm.mp hd⟩
  by_contra hne
  exact hdisjoint.forall hp hq hne (Option.mem_toList.mpr hv) (Option.mem_toList.mpr hqv)

theorem notMem_paramIds {blk : Block} (hb : blk ∈ f.blocks) : v ∉ blk.paramIds := by
  intro hparam
  have hnodup := (definitions_perm f).nodup_iff.mp h.nodup
  exact List.disjoint_of_nodup_append hnodup (List.mem_flatMap.mpr ⟨blk, hb, hparam⟩)
    (List.mem_flatMap.mpr ⟨p, hp, Option.mem_toList.mpr hv⟩)

end Valid

end Function

end ShaderIR
