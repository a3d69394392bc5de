import ShaderIR.Preserve.Scratch
import ShaderIR.Proofs.Function.Consistent

/-!
# Extensions of functions

New code only adds to a function: what was live keeps its handle, what was recorded stays,
and the results of the new instructions are values that the function had not handed out.
-/

set_option autoImplicit false

namespace ShaderIR

def Instr.ty? : Instr → Option Ty
  | .constInt _ _ ty | .constFloat _ _ ty | .undef _ ty | .binary _ _ _ _ ty => some ty
  | .cast _ _ _ ty | .gep _ _ _ _ ty | .load _ _ ty => some ty
  | .alloca _ ty _ => some (.pointer ty)
  | .call _ _ _ ty => ty
  | .store .. | .br .. | .condbr .. | .ret .. => none

theorem Instr.isTerminator_of_result? {ins : Instr} {r : ValueId} (h : ins.result? = some r) :
    ins.isTerminator = false := by
  cases ht : ins.isTerminator with
  | false => rfl
  | true =>
    rw [Instr.result?_of_isTerminator ht] at h
    cases h

def results (code : List Draft) : List ValueId := code.filterMap fun d => d.instr.result?

theorem results_cons (d : Draft) (code : List Draft) :
    results (d :: code) = d.instr.result?.toList ++ results code := by
  cases h : d.instr.result? <;> simp [results, h]

theorem results_append (code rest : List Draft) :
    results (code ++ rest) = results code ++ results rest :=
  List.filterMap_append

theorem mem_results {code : List Draft} {v : ValueId} :
    v ∈ results code ↔ ∃ d ∈ code, d.instr.result? = some v :=
  List.mem_filterMap

/-- Straight-line code whose results are the values from `a` up to `b` in their order, each
with the type that its instruction gives it. -/
structure Fresh (a : Nat) (code : List Draft) (b : Nat) : Prop where
  results : results code = (List.range' a (b - a)).map ValueId.mk
  le : a ≤ b
  ty : ∀ d ∈ code, ∀ r, d.instr.result? = some r → d.ty = d.instr.ty? ∧ d.ty.isSome = true
  straight : ∀ d ∈ code, d.instr.isTerminator = false

namespace Fresh

theorem nil (a : Nat) : Fresh a [] a :=
  ⟨by simp [ShaderIR.results], Nat.le_refl a, by simp, by simp⟩

theorem append {a b c : Nat} {code rest : List Draft} (h : Fresh a code b) (h' : Fresh b rest c) :
    Fresh a (code ++ rest) c where
  results := by
    have hle := h.le
    have hle' := h'.le
    have hsum : (b - a) + (c - b) = c - a := by omega
    have hmid : a + (b - a) = b := by omega
    rw [results_append, h.results, h'.results, ← List.map_append, ← hsum]
    conv_lhs => rw [← hmid]
    rw [show a + (b - a) - a = b - a by omega, show c - (a + (b - a)) = c - b by omega,
      List.range'_append_1]
  le := Nat.le_trans h.le h'.le
  ty d hd := by
    rcases List.mem_append.mp hd with hd | hd
    · exact h.ty d hd
    · exact h'.ty d hd
  straight d hd := by
    rcases List.mem_append.mp hd with hd | hd
    · exact h.straight d hd
    · exact h'.straight d hd

theorem cons {a b : Nat} {d : Draft} {code : List Draft} (hr : d.instr.result? = some ⟨a⟩)
    (ht : d.ty = d.instr.ty?) (hs : d.ty.isSome = true) (h : Fresh (a + 1) code b) :
    Fresh a (d :: code) b := by
  have hd : Fresh a [d] (a + 1) := by
    refine ⟨by simp [hr, ShaderIR.results], Nat.le_succ a, fun e he _ _ => ?_, fun e he => ?_⟩
    · rw [List.mem_singleton.mp he]
      exact ⟨ht, hs⟩
    · rw [List.mem_singleton.mp he, Instr.isTerminator_of_result? hr]
  exact hd.append h

theorem cons_silent {a b : Nat} {d : Draft} {code : List Draft} (hr : d.instr.result? = none)
    (hs : d.instr.isTerminator = false) (h : Fresh a code b) : Fresh a (d :: code) b := by
  have hd : Fresh a [d] a :=
    ⟨by simp [hr, ShaderIR.results], Nat.le_refl a, by simp [hr], by simp [hs]⟩
  exact hd.append h

theorem nodup {a b : Nat} {code : List Draft} (h : Fresh a code b) :
    (ShaderIR.results code).Nodup := by
  rw [h.results]
  exact List.Nodup.map (fun _ _ h => by simpa using h) List.nodup_range'

theorem mem_iff {a b : Nat} {code : List Draft} (h : Fresh a code b) {v : ValueId} :
    v ∈ ShaderIR.results code ↔ a ≤ v.index ∧ v.index < b := by
  obtain ⟨n⟩ := v
  have hle := h.le
  rw [h.results]
  simp
  omega

theorem notMem_of_lt {a b : Nat} {code : List Draft} (h : Fresh a code b) {v : ValueId}
    (hv : v.index < a) : v ∉ ShaderIR.results code := by
  rw [h.mem_iff]
  omega

end Fresh

def Function.Typed (f : Function) (code : List Draft) : Prop :=
  ∀ d ∈ code, ∀ r, d.instr.result? = some r → f.typeOf? r = d.instr.ty?

def Function.Defines (f : Function) (code : List Draft) : Prop :=
  ∀ d ∈ code, ∀ r, d.instr.result? = some r → f.definer? r = some d.instr

theorem Function.Defines.mono {f : Function} {code part : List Draft} (h : f.Defines code)
    (hp : ∀ d ∈ part, d ∈ code) : f.Defines part :=
  fun d hd => h d (hp d hd)

theorem Function.Typed.mono {f : Function} {code part : List Draft} (h : f.Typed code)
    (hp : ∀ d ∈ part, d ∈ code) : f.Typed part :=
  fun d hd => h d (hp d hd)

namespace Function

theorem typeOf?_foldl_of_notMem {f : Function} {ds : List Draft} {v : ValueId}
    (h : v ∉ results ds) : (ds.foldl allocate f).typeOf? v = f.typeOf? v := by
  induction ds generalizing f with
  | nil => rfl
  | cons d ds ih =>
    rw [mem_results] at h
    rw [List.foldl_cons, ih (fun hm => h ?_), typeOf?_allocate, if_neg]
    · exact fun hr => h ⟨d, List.mem_cons_self, hr.1⟩
    · obtain ⟨e, he, hr⟩ := mem_results.mp hm
      exact ⟨e, List.mem_cons_of_mem d he, hr⟩

theorem definition?_foldl_of_notMem {f : Function} {ds : List Draft} {v : ValueId}
    (h : v ∉ results ds) : (ds.foldl allocate f).definition? v = f.definition? v := by
  induction ds generalizing f with
  | nil => rfl
  | cons d ds ih =>
    rw [mem_results] at h
    rw [List.foldl_cons, ih (fun hm => h ?_), definition?_allocate, if_neg]
    · exact fun hr => h ⟨d, List.mem_cons_self, hr.1⟩
    · obtain ⟨e, he, hr⟩ := mem_results.mp hm
      exact ⟨e, List.mem_cons_of_mem d he, hr⟩

theorem name_foldl_allocate (f : Function) (ds : List Draft) :
    (ds.foldl allocate f).name = f.name := by
  induction ds generalizing f with
  | nil => rfl
  | cons d ds ih =>
    rw [List.foldl_cons, ih]
    unfold allocate
    split <;> rfl

theorem nextValue_foldl_allocate (f : Function) (ds : List Draft) :
    (ds.foldl allocate f).nextValue = f.nextValue := by
  induction ds generalizing f with
  | nil => rfl
  | cons d ds ih =>
    rw [List.foldl_cons, ih]
    unfold allocate
    split <;> rfl

theorem records_foldl {f : Function} {ds : List Draft} (hn : (results ds).Nodup) {n : Nat}
    {d : Draft} {r : ValueId} (hd : ds[n]? = some d) (hr : d.instr.result? = some r)
    (ht : d.ty.isSome = true) :
    (ds.foldl allocate f).typeOf? r = d.ty ∧
      (ds.foldl allocate f).definition? r = some (.result ⟨f.arena.size + n⟩) := by
  induction ds generalizing f n with
  | nil => cases hd
  | cons e ds ih =>
    rw [List.foldl_cons]
    cases n with
    | zero =>
      cases hd
      have hnot : r ∉ results ds := by
        rw [results_cons, hr] at hn
        exact (List.nodup_cons.mp hn).1
      rw [typeOf?_foldl_of_notMem hnot, definition?_foldl_of_notMem hnot, typeOf?_allocate,
        definition?_allocate, if_pos ⟨hr, ht⟩, if_pos ⟨hr, ht⟩]
      exact ⟨rfl, rfl⟩
    | succ n =>
      have hn' : (results ds).Nodup := by
        rw [results_cons] at hn
        exact (List.nodup_append.mp hn).2.1
      have := ih (f := f.allocate e) hn' hd
      rw [arena_allocate, Array.size_push, Nat.add_assoc, Nat.add_comm 1 n] at this
      exact this

theorem typed_emit {f : Function} {code : List Draft} {next : Nat}
    (hc : Fresh f.nextValue code next) (b : BlockId) (k : Nat) :
    (f.emit b k code next).Typed code := by
  intro d hd r hr
  obtain ⟨n, hn⟩ := List.mem_iff_getElem?.mp hd
  obtain ⟨ht, hs⟩ := hc.ty d hd r hr
  rw [emit, typeOf?_splice, (records_foldl hc.nodup hn hr hs).1, ht]

theorem typeOf?_emit_of_notMem {f : Function} {code : List Draft} {v : ValueId}
    (h : v ∉ results code) (b : BlockId) (k next : Nat) :
    (f.emit b k code next).typeOf? v = f.typeOf? v := by
  rw [emit, typeOf?_splice, typeOf?_foldl_of_notMem h]
  rfl

theorem paramIds_of_blocks {f g : Function}
    (h : g.blocks.map (fun blk => { blk with body := [] }) =
      f.blocks.map fun blk => { blk with body := [] }) (b : BlockId) :
    (g.block? b).map Block.paramIds = (f.block? b).map Block.paramIds := by
  have hb := congrArg (fun l => l[b.index]?) h
  simp only [List.getElem?_map] at hb
  have hp := congrArg (Option.map Block.paramIds) hb
  rw [Option.map_map, Option.map_map] at hp
  exact hp

/-- `g` is `f` with more instructions. -/
structure Extends (f g : Function) : Prop where
  name : g.name = f.name
  arena_le : f.arena.size ≤ g.arena.size
  next_le : f.nextValue ≤ g.nextValue
  /-- The blocks differ in their bodies only. -/
  blocks : g.blocks.map (fun blk => { blk with body := [] }) =
    f.blocks.map fun blk => { blk with body := [] }
  instr?_old : ∀ i : InstrId, i.index < f.arena.size → g.instr? i = f.instr? i
  typeOf?_old : ∀ v : ValueId, v.index < f.nextValue → g.typeOf? v = f.typeOf? v
  definition?_old : ∀ v : ValueId, v.index < f.nextValue → g.definition? v = f.definition? v
  new : ∀ (i : InstrId) (ins : Instr) (r : ValueId), f.arena.size ≤ i.index →
    g.instr? i = some ins → ins.result? = some r →
    f.nextValue ≤ r.index ∧ r.index < g.nextValue ∧ g.typeOf? r = ins.ty? ∧
      g.definition? r = some (.result i)
  straight : ∀ (i : InstrId) (ins : Instr), f.arena.size ≤ i.index → g.instr? i = some ins →
    ins.isTerminator = false

namespace Extends

theorem refl (f : Function) : f.Extends f where
  name := rfl
  arena_le := Nat.le_refl _
  next_le := Nat.le_refl _
  blocks := rfl
  instr?_old _ _ := rfl
  typeOf?_old _ _ := rfl
  definition?_old _ _ := rfl
  new _ _ _ hle hi _ := absurd (index_lt_of_instr? hi) (Nat.not_lt.mpr hle)
  straight _ _ hle hi := absurd (index_lt_of_instr? hi) (Nat.not_lt.mpr hle)

theorem trans {f g h : Function} (hfg : f.Extends g) (hgh : g.Extends h) : f.Extends h where
  name := hgh.name.trans hfg.name
  arena_le := Nat.le_trans hfg.arena_le hgh.arena_le
  next_le := Nat.le_trans hfg.next_le hgh.next_le
  blocks := hgh.blocks.trans hfg.blocks
  instr?_old i hi := by
    rw [hgh.instr?_old i (Nat.lt_of_lt_of_le hi hfg.arena_le), hfg.instr?_old i hi]
  typeOf?_old v hv := by
    rw [hgh.typeOf?_old v (Nat.lt_of_lt_of_le hv hfg.next_le), hfg.typeOf?_old v hv]
  definition?_old v hv := by
    rw [hgh.definition?_old v (Nat.lt_of_lt_of_le hv hfg.next_le), hfg.definition?_old v hv]
  new i ins r hle hi hr := by
    by_cases hlt : i.index < g.arena.size
    · -- an instruction of the first extension is an old one of the second
      rw [hgh.instr?_old i hlt] at hi
      obtain ⟨h1, h2, h3, h4⟩ := hfg.new i ins r hle hi hr
      rw [hgh.typeOf?_old r h2, hgh.definition?_old r h2]
      exact ⟨h1, Nat.lt_of_lt_of_le h2 hgh.next_le, h3, h4⟩
    · obtain ⟨h1, h2, h3, h4⟩ := hgh.new i ins r (Nat.not_lt.mp hlt) hi hr
      exact ⟨Nat.le_trans hfg.next_le h1, h2, h3, h4⟩
  straight i ins hle hi := by
    by_cases hlt : i.index < g.arena.size
    · rw [hgh.instr?_old i hlt] at hi
      exact hfg.straight i ins hle hi
    · exact hgh.straight i ins (Nat.not_lt.mp hlt) hi

theorem instr?_of_some {f g : Function} (h : f.Extends g) {i : InstrId} {ins : Instr}
    (hi : f.instr? i = some ins) : g.instr? i = some ins := by
  rw [h.instr?_old i (index_lt_of_instr? hi), hi]

theorem emit {f : Function} {code : List Draft} {next : Nat} (hc : Fresh f.nextValue code next)
    (b : BlockId) (k : Nat) : f.Extends (f.emit b k code next) where
  name := name_foldl_allocate _ code
  arena_le := by
    rw [Function.emit, arena_splice]
    simp
  next_le := by
    have hn : (f.emit b k code next).nextValue = next :=
      nextValue_foldl_allocate { f with nextValue := next } code
    rw [hn]
    exact hc.le
  blocks := by
    refine List.ext_getElem? fun n => ?_
    rw [Function.emit, blocks_splice, List.getElem?_map, List.getElem?_map, List.getElem?_modify]
    split <;> cases f.blocks[n]? <;> rfl
  instr?_old i hi := by
    rw [Function.emit, instr?_splice]
    exact if_pos hi
  typeOf?_old v hv := typeOf?_emit_of_notMem (hc.notMem_of_lt hv) b k next
  definition?_old v hv := by
    rw [Function.emit, definition?_splice, definition?_foldl_of_notMem (hc.notMem_of_lt hv)]
    rfl
  new i ins r hle hi hr := by
    have hn : (f.emit b k code next).nextValue = next :=
      nextValue_foldl_allocate { f with nextValue := next } code
    rw [Function.emit, instr?_splice, if_neg (Nat.not_lt.mpr hle), Option.map_eq_some_iff] at hi
    obtain ⟨d, hd, rfl⟩ := hi
    have hmem : d ∈ code := List.mem_of_getElem? hd
    obtain ⟨ht, hs⟩ := hc.ty d hmem r hr
    obtain ⟨htype, hdef⟩ := records_foldl (f := { f with nextValue := next }) hc.nodup hd hr hs
    have hbound := hc.mem_iff.mp (mem_results.mpr ⟨d, hmem, hr⟩)
    rw [hn, ← ht]
    refine ⟨hbound.1, hbound.2, htype, hdef.trans ?_⟩
    rw [Nat.add_sub_cancel' hle]
  straight i ins hle hi := by
    rw [Function.emit, instr?_splice, if_neg (Nat.not_lt.mpr hle), Option.map_eq_some_iff] at hi
    obtain ⟨d, hd, rfl⟩ := hi
    exact hc.straight d (List.mem_of_getElem? hd)

end Extends

end Function

end ShaderIR
