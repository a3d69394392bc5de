import ShaderIR.Proofs.Preserve.Access

/-!
# Slots that can be promoted

A slot can be promoted to values only if its address stays where it is: the slot and the
addresses computed from it are used to load and to store, and for nothing else. To see this for
all code at once, a redirected function is cut into pieces: the instructions that it has kept,
the lowered forms of the output stores, and the components of the epilogues. What is defined in
a piece is used in this piece only.
-/

set_option autoImplicit false

namespace ShaderIR

namespace Preserve

/-- Of the values from `base` on, code names its own results only. -/
def Closed (base : Nat) (code : List Draft) : Prop :=
  ∀ d ∈ code, ∀ v ∈ d.instr.operands, base ≤ v.index → v ∈ results code

/-- A piece of a redirected function: an instruction that it has kept, or new code that accesses a
slot. -/
inductive Piece (f g : Function) (ts : List Target) : List (InstrId × Instr) → Prop
  | kept (p : InstrId × Instr) (hold : p.1.index < f.arena.size)
      (hops : ∀ v ∈ p.2.operands, v.index < f.nextValue) : Piece f g ts [p]
  | access (s : Scratch) (inputs : List ValueId) (next : Nat) (a : Computed) (pre : List Draft)
      (access : Draft) (post : List Draft) (start : Nat) (hs : s ∈ Scratch.allot f.nextValue ts)
      (h : s.Accessing f.nextValue (f.nextValue + ts.length) inputs next a pre access post)
      (hclosed : Closed (f.nextValue + ts.length) (pre ++ a.code ++ access :: post))
      (hplain : ∀ d ∈ pre ++ a.code ++ access :: post, d.instr.allocates = false)
      (hnew : ∀ q ∈ placed start (pre ++ a.code ++ access :: post), f.arena.size ≤ q.1.index)
      (htyped : g.Typed (pre ++ a.code ++ access :: post))
      (hdefines : g.Defines (pre ++ a.code ++ access :: post)) :
      Piece f g ts (placed start (pre ++ a.code ++ access :: post))

/-- Some instructions are made of pieces. -/
def Pieced (f g : Function) (ts : List Target) (is : List (InstrId × Instr)) : Prop :=
  ∃ cs : List (List (InstrId × Instr)), is = cs.flatten ∧ ∀ c ∈ cs, Piece f g ts c

section Pieced

variable {f g : Function} {ts : List Target}

theorem Pieced.nil : Pieced f g ts [] := ⟨[], rfl, by simp⟩

theorem Piece.pieced {c : List (InstrId × Instr)} (h : Piece f g ts c) : Pieced f g ts c :=
  ⟨[c], by simp, by simpa using h⟩

theorem Pieced.append {is js : List (InstrId × Instr)} (hi : Pieced f g ts is)
    (hj : Pieced f g ts js) : Pieced f g ts (is ++ js) := by
  obtain ⟨cs, rfl, hcs⟩ := hi
  obtain ⟨ds, rfl, hds⟩ := hj
  refine ⟨cs ++ ds, List.flatten_append.symm, fun c hc => ?_⟩
  exact (List.mem_append.mp hc).elim (hcs c) (hds c)

theorem pieced_flatMap {α : Type} {l : List α} {F : α → List (InstrId × Instr)}
    (h : ∀ x ∈ l, Pieced f g ts (F x)) : Pieced f g ts (l.flatMap F) := by
  induction l with
  | nil => exact .nil
  | cons x l ih =>
    rw [List.flatMap_cons]
    exact (h x List.mem_cons_self).append (ih fun y hy => h y (List.mem_cons_of_mem x hy))

theorem Piece.closed {c : List (InstrId × Instr)} (h : Piece f g ts c) {q : InstrId × Instr}
    (hq : q ∈ c) {v : ValueId} (hv : v ∈ q.2.operands) (hbase : f.nextValue + ts.length ≤ v.index) :
    ∃ q' ∈ c, q'.2.result? = some v := by
  cases h with
  | kept p hold hops =>
    cases List.mem_singleton.mp hq
    have := hops v hv
    omega
  | access s inputs next a pre access post start hs h hclosed hplain hnew htyped hdefines =>
    obtain ⟨d, hd, heq⟩ := exists_draft hq
    rw [← heq] at hv
    obtain ⟨d', hd', hr⟩ := mem_results.mp (hclosed d hd v hv hbase)
    obtain ⟨q', hq', heq'⟩ := exists_placed start hd'
    exact ⟨q', hq', by rw [heq', hr]⟩

theorem Piece.allocates {c : List (InstrId × Instr)} (h : Piece f g ts c) {q : InstrId × Instr}
    (hq : q ∈ c) (hnew : f.arena.size ≤ q.1.index) : q.2.allocates = false := by
  cases h with
  | kept p hold hops =>
    cases List.mem_singleton.mp hq
    omega
  | access s inputs next a pre access post start hs h hclosed hplain hnew' htyped hdefines =>
    obtain ⟨d, hd, heq⟩ := exists_draft hq
    rw [← heq]
    exact hplain d hd

theorem eq_of_slot {s t : Scratch} (hs : s ∈ Scratch.allot f.nextValue ts)
    (ht : t ∈ Scratch.allot f.nextValue ts) (h : t.slot = s.slot) : t = s := by
  have hnodup := (Scratch.fresh_alloca f.nextValue ts).nodup
  rw [Scratch.results_alloca] at hnodup
  exact List.inj_on_of_nodup_map hnodup ht hs h

theorem Piece.slot {c : List (InstrId × Instr)} (h : Piece f g ts c) {t : Scratch}
    (ht : t ∈ Scratch.allot f.nextValue ts) {q : InstrId × Instr} (hq : q ∈ c) {k : Nat}
    (hk : q.2.operands[k]? = some t.slot) :
    (t.element.isSingle = true → Scratch.Accesses f t.slot (q, k)) ∧
      (t.element.isSingle = false → ∃ r, Scratch.Steps f g t r (q, k) ∧
        f.nextValue + ts.length ≤ r.index ∧ ∃ u, usesIn r c = [u] ∧ Scratch.Accesses f r u) := by
  have hslot := Redirected.slot_index ht
  cases h with
  | kept p hold hops =>
    cases List.mem_singleton.mp hq
    have := hops t.slot (List.mem_of_getElem? hk)
    omega
  | access s inputs next a pre access post start hs h hclosed hplain hnew htyped hdefines =>
    have hnewq := hnew q hq
    obtain ⟨d, hd, heq⟩ := exists_draft hq
    rw [← heq] at hk
    obtain ⟨hts, rfl, hcase⟩ := h.eq_of_operand hslot hd hk
    obtain rfl := eq_of_slot hs ht hts
    rcases hcase with ⟨hsingle, rfl⟩ | ⟨hsingle, zero, index, rfl, hzero, lhs, rhs, hadd⟩
    · refine ⟨fun _ => ⟨hnewq, rfl, ?_⟩, fun hmany => ?_⟩
      · rw [← (h.single hsingle).2, ← h.accessed, ← heq]
      · rw [hsingle] at hmany
        cases hmany
    · have hcode : ∀ d ∈ a.code, d ∈ pre ++ a.code ++ access :: post := fun d hd =>
        List.mem_append_left _ (List.mem_append_right _ hd)
      refine ⟨fun hone => ?_,
        fun _ => ⟨a.value, ⟨hnewq, rfl, zero, index, heq.symm, ?_, ?_⟩, ?_, ?_⟩⟩
      · rw [hsingle] at hone
        cases hone
      · exact hdefines _ (hcode _ hzero) zero rfl
      · exact htyped _ (hcode _ hadd) index rfl
      · rcases h.value with hvalue | hrange
        · exact absurd hvalue (h.value_ne_slot hsingle)
        · have hle := h.le
          omega
      · obtain ⟨i, hi, huses⟩ := h.usesIn_value hsingle start
        exact ⟨_, huses, hnew _ hi, rfl, h.accessed⟩

end Pieced

section Code

variable {s : Scratch} {low base next : Nat} (hslot : low ≤ s.slot.index ∧ s.slot.index < base)
  (hnext : base ≤ next)
include hslot hnext

theorem closed_storing {o : OutputStore} (hrow : o.row.index < low)
    (hcolumn : o.column.index < low) (hvalue : o.value.index < low) (width : Nat) :
    Closed base (s.storing o width next) := by
  have h := Scratch.accessing_storing hslot hrow hcolumn hvalue width hnext
  intro d hd v hv hbase
  rw [(s.fresh_storing o width next).mem_iff]
  rcases List.mem_append.mp hd with hd | hd
  · refine (h.code_range hd hv hbase).resolve_left fun hmem => ?_
    simp only [List.mem_cons, List.not_mem_nil, or_false] at hmem
    rcases hmem with rfl | rfl <;> omega
  · cases List.mem_singleton.mp hd
    rcases List.mem_cons.mp hv with rfl | hv
    · refine h.value.resolve_left fun heq => ?_
      rw [heq] at hbase
      omega
    · cases List.mem_singleton.mp hv
      omega

theorem closed_emission (p : Nat × Nat) : Closed base (s.emission p next).code := by
  have h := Scratch.accessing_component hslot p hnext
  have hle := (s.fresh_source next).le
  intro d hd v hv hbase
  rw [(s.fresh_emission p next).mem_iff]
  show next ≤ v.index ∧ v.index < (s.source next).next + 1
  rw [Scratch.code_emission] at hd
  rcases List.mem_append.mp hd with hd | hd
  · rcases List.mem_append.mp hd with hd | hd
    · rw [s.operands_constants p next d hd] at hv
      cases hv
    · rcases h.code_range hd hv hbase with hmem | hrange
      · simp only [List.mem_cons, List.not_mem_nil, or_false] at hmem
        rcases hmem with rfl | rfl <;> simp only <;> omega
      · omega
  · rcases List.mem_cons.mp hd with rfl | hd
    · cases List.mem_singleton.mp hv
      rcases h.value with heq | hrange
      · rw [heq] at hbase
        omega
      · omega
    · cases List.mem_singleton.mp hd
      simp only [Draft.call, Instr.operands, List.mem_cons, List.not_mem_nil, or_false] at hv
      rcases hv with rfl | rfl | rfl | rfl | rfl <;> simp only <;> omega

end Code

theorem pieced_flush {f g : Function} {ts : List Target} {cells : List (Scratch × Nat × Nat)}
    (hcells : ∀ c ∈ cells, c.1 ∈ Scratch.allot f.nextValue ts) {start next : Nat}
    (hnext : f.nextValue + ts.length ≤ next)
    (hnew : ∀ q ∈ placed start (Scratch.flush cells next).1, f.arena.size ≤ q.1.index)
    (htyped : g.Typed (Scratch.flush cells next).1)
    (hdefines : g.Defines (Scratch.flush cells next).1) :
    Pieced f g ts (placed start (Scratch.flush cells next).1) := by
  induction cells generalizing start next with
  | nil => exact Pieced.nil
  | cons c cells ih =>
    obtain ⟨s, p⟩ := c
    have hs := hcells _ List.mem_cons_self
    have hslot := Redirected.slot_index hs
    have hsplit : (Scratch.flush ((s, p) :: cells) next).1 =
        (s.emission p next).code ++
          (Scratch.flush cells (s.emission p next).next).1 := rfl
    rw [hsplit] at hnew htyped hdefines ⊢
    rw [placed_append] at hnew ⊢
    refine Pieced.append (Piece.pieced ?_) (ih (fun c hc => hcells c (List.mem_cons_of_mem _ hc))
      (Nat.le_trans hnext (s.fresh_emission p next).le)
      (fun q hq => hnew q (List.mem_append_right _ hq))
      (htyped.mono fun d hd => List.mem_append_right _ hd)
      (hdefines.mono fun d hd => List.mem_append_right _ hd))
    exact .access s _ _ _ _ _ _ start hs (Scratch.accessing_component hslot p hnext)
      (closed_emission hslot hnext p) (s.allocates_component p next)
      (fun q hq => hnew q (List.mem_append_left _ hq))
      (htyped.mono fun d hd => List.mem_append_left _ hd)
      (hdefines.mono fun d hd => List.mem_append_left _ hd)

namespace Redirected

variable {f : Function} {m : Metadata} {stores : List OutputStore} {ts : List Target}
  {before : InstrId → List (InstrId × Instr)} {w g : Function}
  (h : Redirected f m stores ts before w g)
include h

theorem pieced : Pieced f g ts (f.instrs.flatMap fun p =>
    before p.1 ++ if p.1 ∈ stores.map OutputStore.call then [] else [p]) := by
  refine pieced_flatMap fun p hp => ?_
  have hnew := h.woven.before_new p.1
  have hkept : Pieced f g ts [p] := (Piece.kept p
    (Function.index_lt_of_instr? (h.consistent.mem_instrs.mp hp)) (h.numbered.operand p hp)).pieced
  cases h.fate hp with
  | store o s width start next ho hreads hs hid hindexed hnext htyped hdefines hcode =>
    obtain ⟨hrow, hcolumn, hvalue⟩ := OutputStore.index_lt h.read h.consistent h.numbered ho
    have hslot := slot_index hs
    rw [hcode] at hnew ⊢
    rw [if_pos (List.mem_map.mpr ⟨o, ho, hreads.call⟩), List.append_nil]
    exact (Piece.access s _ _ _ _ _ _ start hs
      (Scratch.accessing_storing hslot hrow hcolumn hvalue width hnext)
      (closed_storing hslot hnext hrow hcolumn hvalue width) (s.allocates_storing o width next)
      hnew htyped hdefines).pieced
  | ret start next hcall hret hcols hnext htyped hdefines hcode =>
    rw [hcode] at hnew ⊢
    rw [if_neg hcall]
    refine Pieced.append (pieced_flush (fun c hc => ?_) hnext hnew htyped hdefines) hkept
    obtain ⟨s, hs, hc⟩ := List.mem_flatMap.mp hc
    obtain ⟨_, -, rfl⟩ := List.mem_map.mp hc
    exact hs
  | other hcall hret hop hcode =>
    rw [if_neg hcall, hcode, List.nil_append]
    exact hkept

omit h in
theorem usesIn_head (v : ValueId) :
    usesIn v (placed f.arena.size ((Scratch.allot f.nextValue ts).map Scratch.alloca)) = [] := by
  refine usesIn_placed_eq_nil fun d hd => ?_
  obtain ⟨s, -, rfl⟩ := List.mem_map.mp hd
  exact List.not_mem_nil

/-- What a piece defines is used in this piece only: another piece that named it would define it
in its turn, and no value is defined twice. -/
theorem uses_eq_of_piece {cs : List (List (InstrId × Instr))}
    (hcs : g.instrs =
      placed f.arena.size ((Scratch.allot f.nextValue ts).map Scratch.alloca) ++ cs.flatten)
    (hpiece : ∀ c ∈ cs, Piece f g ts c) {c : List (InstrId × Instr)} (hc : c ∈ cs)
    {q : InstrId × Instr} (hq : q ∈ c) {r : ValueId} (hr : q.2.result? = some r)
    (hbase : f.nextValue + ts.length ≤ r.index) : g.uses r = usesIn r c := by
  have hnodup := h.erased.consistent.nodup
  rw [← h.erased.consistent.map_fst_instrs] at hnodup
  have hdefined : ∀ p ∈ g.instrs, p.2.result? = some r → p.1 = q.1 := by
    intro p hp hres
    have hqmem : q ∈ g.instrs := by
      rw [hcs]
      exact List.mem_append_right _ (List.mem_flatten.mpr ⟨c, hc, hq⟩)
    have hle : f.nextValue ≤ r.index := by omega
    have heq := (h.definition?_new hp hres hle).symm.trans (h.definition?_new hqmem hr hle)
    exact Definition.result.inj (Option.some.inj heq)
  have hother : ∀ ds : List (List (InstrId × Instr)), (∀ d ∈ ds, d ∈ cs) →
      (∀ p ∈ ds.flatten, p.1 ≠ q.1) → usesIn r ds.flatten = [] := by
    intro ds hds hne
    refine usesIn_eq_nil fun p hp hmem => ?_
    obtain ⟨d, hd, hp⟩ := List.mem_flatten.mp hp
    obtain ⟨p', hp', hres⟩ := (hpiece d (hds d hd)).closed hp hmem hbase
    refine hne p' (List.mem_flatten.mpr ⟨d, hd, hp'⟩) (hdefined p' ?_ hres)
    rw [hcs]
    exact List.mem_append_right _ (List.mem_flatten.mpr ⟨d, hds d hd, hp'⟩)
  obtain ⟨l, l', rfl⟩ := List.append_of_mem hc
  rw [List.flatten_append, List.flatten_cons] at hcs
  rw [hcs, List.map_append, List.map_append, List.map_append] at hnodup
  obtain ⟨-, hnodup, -⟩ := List.nodup_append.mp hnodup
  obtain ⟨-, hnodup, hleft⟩ := List.nodup_append.mp hnodup
  obtain ⟨-, -, hright⟩ := List.nodup_append.mp hnodup
  have hqc : q.1 ∈ c.map Prod.fst := List.mem_map_of_mem hq
  rw [Function.uses, hcs, usesIn_append, usesIn_append, usesIn_append, usesIn_head,
    hother l (fun d hd => List.mem_append_left _ hd) fun p hp =>
      hleft p.1 (List.mem_map_of_mem hp) q.1 (List.mem_append_left _ hqc),
    hother l' (fun d hd => List.mem_append_right _ (List.mem_cons_of_mem c hd)) fun p hp =>
      (hright q.1 hqc p.1 (List.mem_map_of_mem hp)).symm,
    List.nil_append, List.nil_append, List.append_nil]

end Redirected

/-- The slot of an element with a single component is only loaded from and stored to. In any other
slot there are only steps to its cells, and the address that a step yields is used once, to load
from it or to store to it. -/
structure Promotable (f g : Function) (s : Scratch) : Prop where
  single : s.element.isSingle = true → ∀ u ∈ g.uses s.slot, Scratch.Accesses f s.slot u
  array : s.element.isSingle = false → ∀ u ∈ g.uses s.slot, ∃ r, Scratch.Steps f g s r u ∧
    ∃ u', g.uses r = [u'] ∧ Scratch.Accesses f r u'

/-- An instruction that names a pointer keeps it to itself. -/
def Confines (f : Function) (ptr : ValueId) (q : InstrId × Instr) : Prop :=
  f.arena.size ≤ q.1.index ∧ q.2.callee? = none ∧ q.2.isTerminator = false ∧
    ∀ dest, q.2 ≠ .store dest ptr

theorem confines_of_accesses {f g : Function} {ptr : ValueId}
    (h : ∀ u ∈ g.uses ptr, Scratch.Accesses f ptr u) {q : InstrId × Instr} (hq : q ∈ g.instrs)
    (hmem : ptr ∈ q.2.operands) : Confines f ptr q := by
  obtain ⟨k, hk⟩ := List.mem_iff_getElem?.mp hmem
  obtain ⟨hnew, -, haccessed⟩ := h (q, k) (mem_usesIn.mpr ⟨hq, hk⟩)
  refine ⟨hnew, ?_, ?_, fun dest heq => ?_⟩
  · cases hins : q.2 <;> simp_all [Instr.accessed?, Instr.callee?]
  · cases hins : q.2 <;> simp_all [Instr.accessed?, Instr.isTerminator]
  · have hvalue : q.2.operands[1]? = some ptr := by
      rw [heq]
      rfl
    have hfirst := (h (q, 1) (mem_usesIn.mpr ⟨hq, hvalue⟩)).operand
    cases hfirst

namespace Promotable

variable {f g : Function} {s : Scratch} (h : Promotable f g s)
include h

theorem accesses_of_gep (hg : g.Consistent) {ptr : ValueId} {indices : List ValueId}
    {inbounds : Bool} {ty : Ty} (hd : g.definer? ptr = some (.gep ptr s.slot indices inbounds ty)) :
    ∀ u ∈ g.uses ptr, Scratch.Accesses f ptr u := by
  obtain ⟨i, hi⟩ : ∃ i, g.instr? i = some (.gep ptr s.slot indices inbounds ty) := by
    unfold Function.definer? at hd
    split at hd
    · next i _ => exact ⟨i, hd⟩
    · cases hd
  have huse : ((i, .gep ptr s.slot indices inbounds ty), 0) ∈ g.uses s.slot :=
    mem_usesIn.mpr ⟨hg.mem_instrs.mpr hi, rfl⟩
  cases hs : s.element.isSingle with
  | true => cases (h.single hs _ huse).accessed
  | false =>
    obtain ⟨r, ⟨-, -, zero, index, hgep, -⟩, u, hu, haccess⟩ := h.array hs _ huse
    cases hgep
    intro u' hu'
    rw [hu] at hu'
    cases List.mem_singleton.mp hu'
    exact haccess

/-- A slot, or an address in it, is named by new instructions only, which neither pass it on nor
store it. -/
theorem confines (hg : g.Consistent) {ptr : ValueId} (hptr : s.Addressed g ptr)
    {q : InstrId × Instr} (hq : q ∈ g.instrs) (hmem : ptr ∈ q.2.operands) : Confines f ptr q := by
  rcases hptr with rfl | ⟨indices, inbounds, ty, hd⟩
  · cases hs : s.element.isSingle with
    | true => exact confines_of_accesses (h.single hs) hq hmem
    | false =>
      obtain ⟨k, hk⟩ := List.mem_iff_getElem?.mp hmem
      obtain ⟨r, ⟨hnew, -, zero, index, hgep, -⟩, -⟩ :=
        h.array hs (q, k) (mem_usesIn.mpr ⟨hq, hk⟩)
      simp only at hgep
      exact ⟨hnew, by rw [hgep]; rfl, by rw [hgep]; rfl, by simp [hgep]⟩
  · exact confines_of_accesses (h.accesses_of_gep hg hd) hq hmem

end Promotable

theorem Redirected.promotable {f : Function} {m : Metadata} {stores : List OutputStore}
    {ts : List Target} {before : InstrId → List (InstrId × Instr)} {w g : Function}
    (h : Redirected f m stores ts before w g) {s : Scratch}
    (hs : s ∈ Scratch.allot f.nextValue ts) : Promotable f g s := by
  obtain ⟨cs, hcs, hpiece⟩ := h.pieced
  have hinstrs := h.instrs
  rw [hcs] at hinstrs
  have hfind : ∀ u ∈ g.uses s.slot, ∃ c ∈ cs, u.1 ∈ c ∧ u.1.2.operands[u.2]? = some s.slot := by
    intro u hu
    obtain ⟨hmem, hop⟩ := mem_usesIn.mp hu
    rw [hinstrs] at hmem
    rcases List.mem_append.mp hmem with hhead | hmem
    · have hin := mem_usesIn.mpr ⟨hhead, hop⟩
      rw [usesIn_head] at hin
      cases hin
    · obtain ⟨c, hc, hin⟩ := List.mem_flatten.mp hmem
      exact ⟨c, hc, hin, hop⟩
  refine ⟨fun hsingle u hu => ?_, fun hmany u hu => ?_⟩
  · obtain ⟨c, hc, hin, hop⟩ := hfind u hu
    exact ((hpiece c hc).slot hs hin hop).1 hsingle
  · obtain ⟨c, hc, hin, hop⟩ := hfind u hu
    obtain ⟨r, hstep, hbase, u', huses, haccess⟩ := ((hpiece c hc).slot hs hin hop).2 hmany
    refine ⟨r, hstep, u', ?_, haccess⟩
    obtain ⟨zero, index, hgep, -⟩ := hstep.step
    rw [h.uses_eq_of_piece hinstrs hpiece hc hin (by rw [hgep]; rfl) hbase, huses]

/-- After a redirection the entry begins with a slot for each written element, and apart from these
nothing is allocated. All slots can be promoted. -/
structure Disciplined (f : Function) (m : Metadata) (g : Function) (ts : List Target) : Prop where
  written : Target.Written f m ts
  entry : ∃ rest, g.blockInstrs .entry =
    placed f.arena.size ((Scratch.allot f.nextValue ts).map Scratch.alloca) ++ rest
  alone : ∀ q ∈ g.instrs, f.arena.size ≤ q.1.index → q.2.allocates = true →
    q ∈ placed f.arena.size ((Scratch.allot f.nextValue ts).map Scratch.alloca)
  promotable : ∀ s ∈ Scratch.allot f.nextValue ts, Promotable f g s
  confines : ∀ s ∈ Scratch.allot f.nextValue ts, ∀ ptr, s.Addressed g ptr →
    ∀ q ∈ g.instrs, ptr ∈ q.2.operands → Confines f ptr q

theorem exists_disciplined {f : Function} {m : Metadata} (hf : f.Made) (hv : f.Numbered)
    (hrun : (run f m).verdict = .ok true) : ∃ ts, Disciplined f m (run f m).func ts := by
  obtain ⟨stores, ts, before, w, h⟩ := exists_redirected hf.consistent hv hrun
  have hentry := h.blockInstrs .entry
  rw [if_pos rfl] at hentry
  refine ⟨ts, h.written, ⟨_, hentry⟩, fun q hq hnew halloc => ?_,
    fun s hs => h.promotable hs, fun s hs ptr hptr q hq hmem =>
      (h.promotable hs).confines h.erased.consistent hptr hq hmem⟩
  obtain ⟨cs, hcs, hpiece⟩ := h.pieced
  rw [h.instrs, hcs] at hq
  rcases List.mem_append.mp hq with hhead | hq
  · exact hhead
  · obtain ⟨c, hc, hq⟩ := List.mem_flatten.mp hq
    rw [(hpiece c hc).allocates hq hnew] at halloc
    cases halloc

/-- The slot of a sparse function has two cells: one step to it stores, and two load. -/
theorem sparse_disciplined :
    ((run sparse sparseMetadata).func.uses ⟨5⟩).length = 3 ∧
      ∃ ts, Disciplined sparse sparseMetadata (run sparse sparseMetadata).func ts :=
  ⟨by decide, exists_disciplined made_sparse (by decide) rfl⟩

end Preserve

end ShaderIR
