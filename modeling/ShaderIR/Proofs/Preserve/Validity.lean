import Mathlib.Data.List.Find
import ShaderIR.Proofs.Function.Valid
import ShaderIR.Proofs.Preserve.Epilogues
import ShaderIR.Proofs.Preserve.Execution

/-!
# Redirection keeps validity

The code of the redirection uses slots, operands of the store in whose place it stands and
values of its own, and has the types that its operands ask for. So a valid function is
redirected to a valid one.
-/

set_option autoImplicit false

namespace ShaderIR

def codeOccurrences (code : List Draft) : List Occurrence := code.map fun d => d.instr.occurrence

theorem codeOccurrences_append (code rest : List Draft) :
    codeOccurrences (code ++ rest) = codeOccurrences code ++ codeOccurrences rest :=
  List.map_append

theorem definitions_codeOccurrences (code : List Draft) :
    definitions (codeOccurrences code) = results code := by
  rw [definitions, codeOccurrences, List.flatMap_map, results, List.filterMap_eq_flatMap_toList]
  rfl

theorem scoped_code_append {known : List ValueId} {code rest : List Draft} :
    Scoped known (codeOccurrences (code ++ rest)) ↔
      Scoped known (codeOccurrences code) ∧
        Scoped (known ++ results code) (codeOccurrences rest) := by
  rw [codeOccurrences_append, scoped_append, definitions_codeOccurrences]

namespace Scratch

theorem scoped_toI32 {column : ValueId} {known : List ValueId} (width next : Nat)
    (hc : column ∈ known) :
    Scoped known (codeOccurrences (toI32 column width next).code) ∧
      (toI32 column width next).value ∈ known ++ results (toI32 column width next).code := by
  unfold toI32
  split
  · simp [Scoped, codeOccurrences, Draft.cast, Instr.occurrence, Instr.operands, hc, results,
      Instr.result?]
  · split
    · simp [Scoped, codeOccurrences, Draft.cast, Instr.occurrence, Instr.operands, hc, results,
        Instr.result?]
    · simp [Scoped, codeOccurrences, results, hc]

theorem scoped_address {s : Scratch} {row column : ValueId} {known : List ValueId}
    (width next : Nat) (hs : s.slot ∈ known) (hr : row ∈ known) (hc : column ∈ known) :
    Scoped known (codeOccurrences (s.address row column width next).code) ∧
      (s.address row column width next).value ∈
        known ++ results (s.address row column width next).code := by
  cases hsingle : s.element.isSingle with
  | true => simp [address, hsingle, Scoped, codeOccurrences, results, hs]
  | false =>
    have hc' : column ∈ known ++ results (s.rowOffset row next).code :=
      List.mem_append_left _ hc
    obtain ⟨hscoped, hvalue⟩ := scoped_toI32 width (next + 2) hc'
    rw [address_of_not_single hsingle]
    dsimp only
    rw [scoped_code_append, scoped_code_append, results_append, results_append]
    refine ⟨⟨⟨?_, hscoped⟩, ?_⟩, ?_⟩
    · simp [Scoped, codeOccurrences, rowOffset, Draft.constInt, Draft.binary, Instr.occurrence,
        Instr.operands, Instr.result?, hr]
    · have hoffset : (⟨next + 1⟩ : ValueId) ∈ known ++ results (s.rowOffset row next).code ++
          results (toI32 column width (next + 2)).code :=
        List.mem_append_left _ (List.mem_append_right _ (by
          simp [results, rowOffset, Draft.constInt, Draft.binary, Instr.result?]))
      have hslot : s.slot ∈ known ++ results (s.rowOffset row next).code ++
          results (toI32 column width (next + 2)).code :=
        List.mem_append_left _ (List.mem_append_left _ hs)
      rw [← List.append_assoc]
      simp only [Scoped, codeOccurrences, Draft.constInt, Draft.binary, Draft.gep,
        Instr.occurrence, Instr.operands, Instr.result?, List.map_cons, List.map_nil,
        List.forall_mem_cons, List.mem_append, Option.toList_some, List.mem_singleton]
      simp only [List.mem_append] at hoffset hslot hvalue
      simp [hoffset, hslot, hvalue]
    · simp [results, Draft.gep, Instr.result?, Draft.binary, Draft.constInt]

theorem scoped_storing {s : Scratch} {o : OutputStore} {known : List ValueId} (width next : Nat)
    (hs : s.slot ∈ known) (hr : o.row ∈ known) (hc : o.column ∈ known) (hv : o.value ∈ known) :
    Scoped known (codeOccurrences (s.storing o width next)) := by
  obtain ⟨hscoped, haddr⟩ := scoped_address width next hs hr hc
  refine scoped_code_append.mpr ⟨hscoped, ?_, trivial⟩
  intro v hmem
  rcases List.mem_cons.mp hmem with rfl | hmem
  · exact haddr
  · cases List.mem_singleton.mp hmem
    exact List.mem_append_left _ hv

theorem scoped_component {s : Scratch} {p : Nat × Nat} {known : List ValueId} (next : Nat)
    (hs : s.slot ∈ known) : Scoped known (codeOccurrences (s.emission p next).code) := by
  have hconsts : Scoped known (codeOccurrences (s.constants p next)) := by
    simp [Scoped, codeOccurrences, constants, Draft.constInt, Instr.occurrence, Instr.operands]
  have hresults : results (s.constants p next) = [⟨next⟩, ⟨next + 1⟩, ⟨next + 2⟩, ⟨next + 3⟩] := rfl
  have hmem : ∀ v ∈ results (s.constants p next), v ∈ known ++ results (s.constants p next) :=
    fun v hv => List.mem_append_right _ hv
  obtain ⟨hscoped, haddr⟩ := scoped_address 8 (next + 4)
    (List.mem_append_left (results (s.constants p next)) hs)
    (hmem ⟨next + 2⟩ (by simp [hresults])) (hmem ⟨next + 3⟩ (by simp [hresults]))
  rw [code_emission, scoped_code_append, scoped_code_append, results_append, ← List.append_assoc]
  refine ⟨⟨hconsts, hscoped⟩, ?_, ?_, trivial⟩
  · intro v hv
    cases List.mem_singleton.mp hv
    exact haddr
  · intro v hv
    rw [hresults]
    have hv : v ∈ [(⟨next⟩ : ValueId), ⟨next + 1⟩, ⟨next + 2⟩, ⟨next + 3⟩,
      ⟨(s.source next).next⟩] := hv
    have hload : (Draft.load ⟨(s.source next).next⟩ (s.source next).value
        s.ty).instr.occurrence.defs = [⟨(s.source next).next⟩] := rfl
    rw [hload]
    simp only [List.mem_append, List.mem_cons, List.not_mem_nil, or_false] at hv ⊢
    tauto

theorem scoped_flush {cells : List (Scratch × Nat × Nat)} {known : List ValueId} (next : Nat)
    (hs : ∀ c ∈ cells, c.1.slot ∈ known) :
    Scoped known (codeOccurrences (flush cells next).1) := by
  induction cells generalizing known next with
  | nil => trivial
  | cons c cells ih =>
    obtain ⟨s, p⟩ := c
    have hcomponent := scoped_component (p := p) next (hs (s, p) List.mem_cons_self)
    refine scoped_code_append.mpr ⟨hcomponent, ih _ fun c hc => ?_⟩
    exact List.mem_append_left _ (hs c (List.mem_cons_of_mem _ hc))

theorem scoped_alloca (slots : List Scratch) (known : List ValueId) :
    Scoped known (codeOccurrences (slots.map alloca)) := by
  induction slots generalizing known with
  | nil => trivial
  | cons s slots ih => exact ⟨fun v hv => absurd hv List.not_mem_nil, ih _⟩

section Types

variable {g : Function} {s : Scratch}

end Types

end Scratch

/-- Code in place of other code: with more values given, slots among them, it still uses only
what is given or defined before, and everything that was defined is defined afterwards. -/
def Keeps (slots : List ValueId) (os ps : List Occurrence) : Prop :=
  ∀ known more : List ValueId, (∀ v ∈ known, v ∈ more) → (∀ v ∈ slots, v ∈ more) →
    Scoped known os →
      Scoped more ps ∧ ∀ v ∈ known ++ definitions os, v ∈ more ++ definitions ps

namespace Keeps

variable {slots : List ValueId}

theorem refl (os : List Occurrence) : Keeps slots os os := by
  intro known more hsub _ hscoped
  refine ⟨hscoped.mono hsub, fun v hv => ?_⟩
  rcases List.mem_append.mp hv with hv | hv
  · exact List.mem_append_left _ (hsub v hv)
  · exact List.mem_append_right _ hv

theorem append {os os' ps ps' : List Occurrence} (h : Keeps slots os ps)
    (h' : Keeps slots os' ps') : Keeps slots (os ++ os') (ps ++ ps') := by
  intro known more hsub hslots hscoped
  rw [scoped_append] at hscoped ⊢
  obtain ⟨hfirst, hknown⟩ := h known more hsub hslots hscoped.1
  obtain ⟨hrest, hall⟩ := h' _ _ hknown (fun v hv => List.mem_append_left _ (hslots v hv)) hscoped.2
  rw [definitions_append, definitions_append, ← List.append_assoc, ← List.append_assoc]
  exact ⟨⟨hfirst, hrest⟩, hall⟩

theorem flatMap {α : Type} {l : List α} {F G : α → List Occurrence}
    (h : ∀ a ∈ l, Keeps slots (F a) (G a)) : Keeps slots (l.flatMap F) (l.flatMap G) := by
  induction l with
  | nil => exact refl []
  | cons a l ih =>
    rw [List.flatMap_cons, List.flatMap_cons]
    exact (h a List.mem_cons_self).append (ih fun b hb => h b (List.mem_cons_of_mem a hb))

theorem of_scoped {ps : List Occurrence}
    (h : ∀ more : List ValueId, (∀ v ∈ slots, v ∈ more) → Scoped more ps) : Keeps slots [] ps := by
  intro known more hsub hslots _
  refine ⟨h more hslots, fun v hv => ?_⟩
  rw [definitions, List.flatMap_nil, List.append_nil] at hv
  exact List.mem_append_left _ (hsub v hv)

end Keeps

namespace Function

def occurrencesAt (f : Function) (blk : Block) : List Occurrence :=
  blk.paramIds.map (fun v => ⟨[], [v]⟩) ++ (f.code blk.id).map Instr.occurrence

theorem Consistent.code_id {f : Function} (hf : f.Consistent) {blk : Block} (h : blk ∈ f.blocks) :
    f.code blk.id = (f.resolve blk.body).map Prod.snd := by
  rw [code, blockInstrs, hf.block?_of_mem h]

theorem Consistent.occurrences_eq {f g : Function} (hg : g.Consistent)
    (h : g.blocks.map (fun blk => { blk with body := [] }) =
      f.blocks.map fun blk => { blk with body := [] }) :
    g.occurrences = f.blocks.flatMap g.occurrencesAt := by
  have hsame : g.occurrences = g.blocks.flatMap g.occurrencesAt := by
    refine List.flatMap_congr fun blk hb => ?_
    rw [blockOccurrences_eq, occurrencesAt, hg.code_id hb]
  have hstrip := congrArg (List.flatMap g.occurrencesAt) h
  rw [List.flatMap_map, List.flatMap_map] at hstrip
  exact hsame.trans hstrip

theorem typeFault?_congr {f g : Function} {ins : Instr}
    (h : ∀ v ∈ ins.operands, g.typeOf? v = f.typeOf? v) : g.typeFault? ins = f.typeFault? ins := by
  have htype : ∀ v ∈ ins.operands, g.typeOf v = f.typeOf v := by
    intro v hv
    rw [typeOf, typeOf, h v hv]
  cases ins with
  | store ptr value =>
    rw [typeFault?, typeFault?, htype ptr (by simp [Instr.operands]),
      htype value (by simp [Instr.operands])]
  | load r ptr ty => rw [typeFault?, typeFault?, htype ptr (by simp [Instr.operands])]
  | binary r op lhs rhs ty =>
    rw [typeFault?, typeFault?, htype lhs (by simp [Instr.operands]),
      htype rhs (by simp [Instr.operands])]
  | gep r base indices inbounds ty =>
    have hfind : indices.find? (fun v => !(g.typeOf v).isInt) =
        indices.find? fun v => !(f.typeOf v).isInt :=
      List.find?_congr fun v hv => by rw [htype v (by simp [Instr.operands, hv])]
    rw [typeFault?, typeFault?, htype base (by simp [Instr.operands]), hfind]
  | _ => rfl

end Function

namespace Preserve.Redirected

variable {f : Function} {m : Metadata} {stores : List OutputStore} {ts : List Target}
  {before : InstrId → List (InstrId × Instr)} {w g : Function}
  (h : Redirected f m stores ts before w g)
include h

theorem straight_site {p : InstrId × Instr} (hp : p ∈ f.instrs) (ht : p.2.isTerminator = false) :
    ∀ ins ∈ site before stores p, ins.isTerminator = false := by
  cases h.fate hp with
  | store o s width start next ho hreads hs hid hindexed hnext htyped hdefines hcode =>
    rw [site_of_store hreads ho hcode]
    exact (s.fresh_storing o width next).straight_instrs
  | ret start next hkept hret hcols hnext htyped hdefines hcode =>
    rw [Instr.isTerminator_of_isReturn hret] at ht
    cases ht
  | other hkept hret hop hcode =>
    rw [site_of_other hkept hcode]
    intro ins hi
    cases List.mem_singleton.mp hi
    exact ht

theorem site_of_isTerminator {p : InstrId × Instr} (hp : p ∈ f.instrs)
    (ht : p.2.isTerminator = true) :
    ∃ code, site before stores p = code ++ [p.2] ∧ ∀ ins ∈ code, ins.isTerminator = false := by
  cases h.fate hp with
  | store o s width start next ho hreads hs hid hindexed hnext htyped hdefines hcode =>
    rw [hreads.isTerminator_eq_false] at ht
    cases ht
  | ret start next hkept hret hcols hnext htyped hdefines hcode =>
    exact ⟨_, site_of_kept hkept hcode, (Scratch.fresh_flush _ next).straight_instrs⟩
  | other hkept hret hop hcode =>
    exact ⟨[], site_of_other hkept hcode, fun ins hi => absurd hi List.not_mem_nil⟩

omit h in
theorem straight_head (b : BlockId) : ∀ ins ∈ (if b = .entry then
    ((Scratch.allot f.nextValue ts).map Scratch.alloca).map Draft.instr else []),
    ins.isTerminator = false := by
  split
  · exact (Scratch.fresh_alloca f.nextValue ts).straight_instrs
  · exact fun ins hi => absurd hi List.not_mem_nil

theorem ends {b : BlockId} (hb : Ends (f.code b)) : Ends (g.code b) := by
  obtain ⟨init, last, heq, hlast, hinit⟩ := hb
  obtain ⟨ps, qs, hblock, hps, hqs⟩ := List.map_eq_append_iff.mp heq
  obtain ⟨p, rfl, hp⟩ := List.map_eq_singleton_iff.mp hqs
  have hmem : ∀ q ∈ ps ++ [p], q ∈ f.instrs := fun q hq =>
    h.consistent.mem_instrs.mpr (Function.instr?_of_mem_blockInstrs (b := b) (hblock ▸ hq))
  obtain ⟨code, hcode, hstraight⟩ := h.site_of_isTerminator
    (hmem p (List.mem_append_right ps List.mem_cons_self)) (hp ▸ hlast)
  rw [h.code, hblock, List.flatMap_append, List.flatMap_singleton, hcode, ← List.append_assoc,
    ← List.append_assoc]
  refine ⟨_, p.2, rfl, hp ▸ hlast, fun ins hi => ?_⟩
  rcases List.mem_append.mp hi with hi | hi
  · rcases List.mem_append.mp hi with hi | hi
    · exact straight_head b ins hi
    · obtain ⟨q, hq, hi⟩ := List.mem_flatMap.mp hi
      apply h.straight_site (hmem q (List.mem_append_left _ hq)) _ ins hi
      exact hinit q.2 (hps ▸ List.mem_map_of_mem hq)
  · exact hstraight ins hi

section Scope

variable (hresult : ∀ p ∈ f.instrs, ∀ o, OutputStore.Reads f p o → p.2.result? = none)
include hresult

theorem keeps_site {p : InstrId × Instr} (hp : p ∈ f.instrs) :
    Keeps ((Scratch.allot f.nextValue ts).map Scratch.slot) [p.2.occurrence]
      ((site before stores p).map Instr.occurrence) := by
  cases h.fate hp with
  | store o s width start next ho hreads hs hid hindexed hnext htyped hdefines hcode =>
    intro known more hsub hslots hscoped
    obtain ⟨op, id, n, rest, hops, -⟩ := hreads.operands
    have huse : ∀ v ∈ p.2.operands, v ∈ more := fun v hv => hsub v (hscoped.1 v hv)
    rw [hops] at huse
    rw [site_of_store hreads ho hcode, List.map_map]
    refine ⟨Scratch.scoped_storing width next (hslots _ (List.mem_map_of_mem hs))
      (huse o.row (by simp)) (huse o.column (by simp)) (huse o.value (by simp)), fun v hv => ?_⟩
    have hdefs : definitions [p.2.occurrence] = [] := by
      simp [definitions, Instr.occurrence, hresult p hp o hreads]
    rw [hdefs, List.append_nil] at hv
    exact List.mem_append_left _ (hsub v hv)
  | ret start next hkept hret hcols hnext htyped hdefines hcode =>
    rw [site_of_kept hkept hcode, List.map_append, List.map_map, List.map_singleton]
    refine Keeps.append (Keeps.of_scoped fun more hslots => ?_) (Keeps.refl [p.2.occurrence])
    apply Scratch.scoped_flush
    intro c hc
    obtain ⟨s, hs, hc⟩ := List.mem_flatMap.mp hc
    obtain ⟨q, -, rfl⟩ := List.mem_map.mp hc
    exact hslots s.slot (List.mem_map_of_mem hs)
  | other hkept hret hop hcode =>
    rw [site_of_other hkept hcode]
    exact Keeps.refl _

theorem keeps_code (b : BlockId) : Keeps ((Scratch.allot f.nextValue ts).map Scratch.slot)
    ((f.code b).map Instr.occurrence)
    (((f.blockInstrs b).flatMap (site before stores)).map Instr.occurrence) := by
  have hsingle : (f.code b).map Instr.occurrence =
      (f.blockInstrs b).flatMap fun p => [p.2.occurrence] := by
    rw [Function.code, List.map_map, List.map_eq_flatMap]
    rfl
  rw [hsingle, List.map_flatMap]
  apply Keeps.flatMap
  intro p hp
  exact h.keeps_site hresult (h.consistent.mem_instrs.mpr (Function.instr?_of_mem_blockInstrs hp))

theorem scope (hf : Scoped [] f.occurrences) : Scoped [] g.occurrences := by
  obtain ⟨blk, rest, hblocks, hid, hrest⟩ := h.exists_entry
  rw [h.consistent.occurrences_eq rfl] at hf
  rw [h.erased.consistent.occurrences_eq h.blocks]
  rw [hblocks, List.flatMap_cons, Function.occurrencesAt, List.append_assoc, scoped_append,
    Function.definitions_params, List.nil_append] at hf ⊢
  refine ⟨Function.scoped_params _ _, ?_⟩
  rw [h.code, if_pos hid, List.map_append, List.append_assoc, scoped_append, List.map_map]
  refine ⟨Scratch.scoped_alloca _ _, ?_⟩
  have hslots : definitions (((Scratch.allot f.nextValue ts).map Scratch.alloca).map
      (Instr.occurrence ∘ Draft.instr)) = (Scratch.allot f.nextValue ts).map Scratch.slot := by
    rw [← Scratch.results_alloca, ← definitions_codeOccurrences]
    rfl
  rw [hslots]
  -- everything behind the slots keeps the scope, the other blocks with their parameters
  have hkeeps := (h.keeps_code hresult blk.id).append (Keeps.flatMap (l := rest)
    (F := f.occurrencesAt) (G := g.occurrencesAt) fun blk' hmem => by
      rw [Function.occurrencesAt, Function.occurrencesAt, h.code, if_neg (hrest blk' hmem),
        List.nil_append]
      exact (Keeps.refl _).append (h.keeps_code hresult blk'.id))
  exact (hkeeps _ _ (fun v hv => List.mem_append_left _ hv)
    (fun v hv => List.mem_append_right _ hv) hf.2).1

omit hresult in
theorem definition?_new {p : InstrId × Instr} (hp : p ∈ g.instrs) {v : ValueId}
    (hr : p.2.result? = some v) (hv : f.nextValue ≤ v.index) :
    g.definition? v = some (.result p.1) := by
  have hi := h.erased.consistent.mem_instrs.mp hp
  rw [h.erased.instr?] at hi
  split at hi
  · cases hi
  · by_cases hlt : p.1.index < f.arena.size
    · rw [h.woven.extension.instr?_old _ hlt] at hi
      have := h.numbered.result _ (h.consistent.mem_instrs.mpr hi) v hr
      omega
    · obtain ⟨-, -, -, hdef⟩ := h.woven.extension.new _ _ v (Nat.not_lt.mp hlt) hi hr
      rw [(h.records_kept hv).2, hdef]

end Scope

end Preserve.Redirected

namespace Preserve

theorem redirectStores_ne_false (slots : List Scratch) (stores : List OutputStore) (f : Function)
    (m : Metadata) : (redirectStores slots stores f m).verdict ≠ .ok false := by
  unfold redirectStores
  split
  · rintro ⟨⟩
  · dsimp only
    split
    · rintro ⟨⟩
    · rintro ⟨⟩

theorem redirect_ne_false (f : Function) (m : Metadata) (stores : List OutputStore)
    (ts : List Target) : (redirect f m stores ts).verdict ≠ .ok false := by
  unfold redirect
  dsimp only
  split
  · show (guardIds _).verdict ≠ .ok false
    unfold guardIds
    split
    · exact redirectStores_ne_false _ _ _ _
    · rintro ⟨⟩
  · rintro ⟨⟩

theorem run_eq_false {f : Function} {m : Metadata} (h : (run f m).verdict = .ok false) :
    (run f m).func = f := by
  unfold run at h ⊢
  split at h
  · cases h
  · rfl
  · split at h
    · cases h
    · exact absurd h (redirect_ne_false f m _ _)

end Preserve

end ShaderIR
