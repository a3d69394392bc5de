import ShaderIR.Proofs.Preserve.Breakoff
import ShaderIR.Proofs.Preserve.Execution

/-!
# Sizes of elements and of redirected functions

The number of components of an element is a 32-bit word, and so is the number of a value. A run
of the pass breaks a rule of the library exactly if one of the two does not fit: a written
element has too many components, or the redirected function has too many values. As long as both
fit, every slot has a cell for each component of its element.
-/

set_option autoImplicit false

namespace ShaderIR

theorem Element.size_eq_ok {e : Element} {n : Nat} :
    e.size = .ok n ↔ n = e.rows * e.cols ∧ e.rows * e.cols < idLimit := by
  unfold size
  split
  · next hlt =>
    rw [Except.ok.injEq]
    exact ⟨fun h => ⟨h.symm, hlt⟩, fun h => h.1.symm⟩
  · next hge =>
    constructor
    · rintro ⟨⟩
    · exact fun h => absurd h.2 hge

theorem Preserve.fits_iff {t : Target} :
    fits t = true ↔ t.element.rows * t.element.cols < idLimit := by
  constructor
  · exact Scratch.size_lt_of_fits
  · intro hlt
    have hsize : t.element.size = .ok _ := Element.size_eq_ok.mpr ⟨rfl, hlt⟩
    rw [fits, hsize, Bool.or_eq_true]
    exact Or.inr rfl

namespace Scratch

theorem next_toI32_le (v : ValueId) (width next : Nat) : (toI32 v width next).next ≤ next + 1 := by
  unfold toI32
  split
  · exact Nat.le_refl _
  · split
    · exact Nat.le_refl _
    · exact Nat.le_succ next

theorem next_address_le (s : Scratch) (row column : ValueId) (width next : Nat) :
    (s.address row column width next).next ≤ next + 6 := by
  unfold address
  split
  · exact Nat.le_add_right next 6
  · have hcolumn := next_toI32_le column width (next + 2)
    show (toI32 column width (next + 2)).next + 3 ≤ next + 6
    omega

theorem next_lowerStore_le (s : Scratch) (f : Function) (o : OutputStore) :
    (s.lowerStore f o).next ≤ f.nextValue + 6 := by
  unfold lowerStore
  dsimp only
  split
  · exact Nat.le_add_right _ _
  · split
    · exact Nat.le_add_right _ _
    · split
      · split
        · show f.nextValue + 2 ≤ f.nextValue + 6
          omega
        · exact s.next_address_le o.row o.column _ f.nextValue
      · exact Nat.le_add_right _ _

theorem next_components_le (s : Scratch) (callee : String) (ps : List (Nat × Nat)) (next : Nat) :
    (s.components callee ps next).2 ≤ next + 11 * ps.length := by
  induction ps generalizing next with
  | nil => exact Nat.le_refl next
  | cons p ps ih =>
    obtain ⟨r, c⟩ := p
    have haddress := s.next_address_le ⟨next + 2⟩ ⟨next + 3⟩ 8 (next + 4)
    have hcomponent : (s.component callee r c next).next =
        (s.address ⟨next + 2⟩ ⟨next + 3⟩ 8 (next + 4)).next + 1 := rfl
    have hrest := ih (s.component callee r c next).next
    show (s.components callee ps (s.component callee r c next).next).2 ≤ _
    rw [List.length_cons]
    omega

theorem next_epilogue_le (s : Scratch) (callee func : String) (next : Nat)
    (hrows : 1 ≤ s.element.rows) :
    (s.epilogue callee func next).next ≤ next + 11 * (s.element.rows * s.element.cols) := by
  unfold epilogue
  split
  · have hall := s.next_components_le callee s.element.positions next
    rw [Element.length_positions] at hall
    exact hall
  · next hwide =>
    have hcols : s.element.cols ≤ s.element.rows * s.element.cols :=
      Nat.le_mul_of_pos_left _ hrows
    have hlength : ((List.range Element.columnLimit).map fun c => (0, c)).length =
        Element.columnLimit := by
      rw [List.length_map, List.length_range]
    generalize (List.range Element.columnLimit).map (fun c => (0, c)) = ps at hlength
    have hfirst := s.next_components_le callee ps next
    rw [hlength] at hfirst
    refine Nat.le_trans hfirst ?_
    omega

end Scratch

def Target.count (ts : List Target) : Nat := (ts.map fun t => t.element.rows * t.element.cols).sum

theorem nextValue_lowerStores_le (slots : List Scratch) (stores : List OutputStore) (f : Function) :
    (lowerStores slots stores f).1.nextValue ≤ f.nextValue + 6 * stores.length := by
  induction stores generalizing f with
  | nil => exact Nat.le_refl _
  | cons o rest ih =>
    rw [lowerStores, List.length_cons]
    split
    · exact Nat.le_add_right _ _
    · next s _ =>
      split
      · exact Nat.le_add_right _ _
      · next b k _ =>
        have hnext := s.next_lowerStore_le f o
        have hemit := Function.nextValue_emit f b k (s.lowerStore f o).code (s.lowerStore f o).next
        dsimp only
        split
        · rw [hemit]
          omega
        · have hrest := ih (f.emit b k (s.lowerStore f o).code (s.lowerStore f o).next)
          rw [hemit] at hrest
          omega

theorem nextValue_emitEpilogue_le (ret : InstrId) {slots : List Scratch}
    (hrows : ∀ s ∈ slots, 1 ≤ s.element.rows) (f : Function) (m : Metadata) :
    (emitEpilogue ret slots f m).1.nextValue ≤
      f.nextValue + 11 * Target.count (slots.map Scratch.target) := by
  induction slots generalizing f m with
  | nil => exact Nat.le_refl _
  | cons s rest ih =>
    have hcount : Target.count ((s :: rest).map Scratch.target) =
        s.element.rows * s.element.cols + Target.count (rest.map Scratch.target) := List.sum_cons
    rw [emitEpilogue_cons, hcount]
    split
    · exact Nat.le_add_right _ _
    · next b k _ =>
      have hnext := s.next_epilogue_le s.target.intrinsic.name f.name f.nextValue
        (hrows s List.mem_cons_self)
      have hemit := Function.nextValue_emit f b k
        (s.epilogue s.target.intrinsic.name f.name f.nextValue).code
        (s.epilogue s.target.intrinsic.name f.name f.nextValue).next
      dsimp only
      split
      · rw [hemit]
        omega
      · have hrest := ih (fun s' hs' => hrows s' (List.mem_cons_of_mem s hs'))
          (f.emit b k (s.epilogue s.target.intrinsic.name f.name f.nextValue).code
            (s.epilogue s.target.intrinsic.name f.name f.nextValue).next)
          (m.declare s.target.intrinsic)
        rw [hemit] at hrest
        omega

theorem nextValue_emitEpilogues_le {slots : List Scratch}
    (hrows : ∀ s ∈ slots, 1 ≤ s.element.rows) (rets : List InstrId) (f : Function)
    (m : Metadata) : (emitEpilogues slots rets f m).1.nextValue ≤
      f.nextValue + 11 * (rets.length * Target.count (slots.map Scratch.target)) := by
  induction rets generalizing f m with
  | nil => exact Nat.le_add_right _ _
  | cons ret rest ih =>
    have hone := nextValue_emitEpilogue_le ret hrows f m
    rw [List.length_cons, Nat.succ_mul rest.length, emitEpilogues]
    rcases heq : emitEpilogue ret slots f m with ⟨g, m', _ | e⟩
    · have hrest := ih g m'
      rw [heq] at hone
      dsimp only at hone ⊢
      omega
    · rw [heq] at hone
      dsimp only at hone ⊢
      omega

namespace Preserve

theorem nextValue_eraseStores (stores : List OutputStore) (f : Function) :
    (eraseStores stores f).nextValue = f.nextValue := by
  induction stores generalizing f with
  | nil => rfl
  | cons o rest ih =>
    rw [eraseStores, List.foldl_cons, ← eraseStores, ih]
    cases h : f.erase o.call with
    | none => rfl
    | some p =>
      obtain ⟨ins, g⟩ := p
      obtain ⟨-, b, k, -, rfl⟩ := Function.erase_eq_some.mp h
      cases ins.result? <;> rfl

theorem instr?_eraseStores {stores : List OutputStore} {i : InstrId}
    (h : ∀ o ∈ stores, o.call ≠ i) (f : Function) :
    (eraseStores stores f).instr? i = f.instr? i := by
  induction stores generalizing f with
  | nil => rfl
  | cons o rest ih =>
    rw [eraseStores, List.foldl_cons, ← eraseStores,
      ih fun o' ho' => h o' (List.mem_cons_of_mem o ho')]
    cases he : f.erase o.call with
    | none => rfl
    | some p =>
      obtain ⟨ins, g⟩ := p
      obtain ⟨-, b, k, -, rfl⟩ := Function.erase_eq_some.mp he
      show (f.without o.call b k ins.result?).instr? i = _
      rw [Function.instr?_without, if_neg (h o List.mem_cons_self).symm]

theorem ruled_eq_violation {g : Function} {r : Except (Failure PassError) Bool}
    (hr : ∀ v, r ≠ .error (.violation v)) {v : Violation} :
    ruled g r = .error (.violation v) ↔ v = .overflow ∧ idLimit ≤ g.nextValue := by
  unfold ruled
  split
  · next hlt =>
    constructor
    · exact fun h => absurd h (hr v)
    · exact fun h => absurd h.2 (Nat.not_le.mpr hlt)
  · next hge =>
    constructor
    · rintro ⟨⟩
      exact ⟨rfl, Nat.not_lt.mp hge⟩
    · rintro ⟨rfl, -⟩
      rfl

theorem Collected.unique {f : Function} {m : Metadata} {stores stores' : List OutputStore}
    {ts ts' : List Target} (h : Collected f m stores ts) (h' : Collected f m stores' ts') :
    stores = stores' ∧ ts = ts' := by
  have hstores := Except.ok.inj (h.read.symm.trans h'.read)
  subst hstores
  exact ⟨rfl, Except.ok.inj (h.targets.symm.trans h'.targets)⟩

theorem all_fits {ts : List Target} : ts.all fits = true ↔
    ∀ t ∈ ts, t.element.rows * t.element.cols < idLimit := by
  rw [List.all_eq_true]
  exact forall₂_congr fun t _ => fits_iff

/-- What becomes of a function whose slots have been placed, until its stores are erased. -/
inductive Reached (f : Function) (m : Metadata) (stores : List OutputStore) (ts : List Target) :
    Function → Prop
  | lowered : Reached f m stores ts (lowerStores (Scratch.allot f.nextValue ts) stores
      (allocateSlots f (Scratch.allot f.nextValue ts))).1
  | flushed {u : Function} : lowerStores (Scratch.allot f.nextValue ts) stores
      (allocateSlots f (Scratch.allot f.nextValue ts)) = (u, none) →
      Reached f m stores ts (emitEpilogues (Scratch.allot f.nextValue ts) u.returns u m).1

/-- A run either finds that a slot has no size, or it places the slots and goes on. -/
inductive Outcome (f : Function) (m : Metadata) (stores : List OutputStore) (ts : List Target) :
    Prop
  | unfit (hfits : ts.all fits = false) (hfunc : (run f m).func = f)
      (hverdict : (run f m).verdict = .error (.violation .overflow))
  | placed (hfits : ts.all fits = true) (w : Function) (r : Except (Failure PassError) Bool)
      (hw : Reached f m stores ts w)
      (hfunc : (run f m).func = w ∨ (run f m).func = eraseStores stores w)
      (hverdict : (run f m).verdict = ruled (run f m).func r)
      (hr : ∀ v, r ≠ .error (.violation v))

theorem collected_of_violation {f : Function} {m : Metadata} {v : Violation}
    (h : (run f m).verdict = .error (.violation v)) : ∃ stores ts, Collected f m stores ts := by
  cases course f m with
  | unread e hall hrun =>
    rw [hrun] at h
    cases h
  | idle hall hrun =>
    rw [hrun] at h
    cases h
  | unresolved stores e hall hne hts hrun =>
    rw [hrun] at h
    cases h
  | unfit stores ts hc => exact ⟨stores, ts, hc⟩
  | unlowered stores ts hc => exact ⟨stores, ts, hc⟩
  | unflushed stores ts hc => exact ⟨stores, ts, hc⟩
  | done stores ts hc => exact ⟨stores, ts, hc⟩

namespace Collected

variable {f : Function} {m : Metadata} {stores : List OutputStore} {ts : List Target}
  (h : Collected f m stores ts)
include h

theorem unfit_or_placed : Outcome f m stores ts := by
  cases course f m with
  | unread e hall hrun => cases hall.symm.trans h.read
  | idle hall hrun =>
    cases hall.symm.trans h.read
    exact absurd rfl h.nonempty
  | unresolved stores' e hall hne hts hrun =>
    cases hall.symm.trans h.read
    cases hts.symm.trans h.targets
  | unfit stores' ts' hc hfits hfunc hmetadata hverdict =>
    obtain ⟨rfl, rfl⟩ := h.unique hc
    exact .unfit hfits hfunc hverdict
  | unlowered stores' ts' hc hfits u e hl hgrows hfunc hmetadata hverdict =>
    obtain ⟨rfl, rfl⟩ := h.unique hc
    have hw : Reached f m stores ts _ := .lowered
    rw [hl] at hw
    exact .placed hfits u (.error (.error e)) hw (Or.inl hfunc) (hfunc ▸ hverdict) fun v => nofun
  | unflushed stores' ts' hc hfits u w m' e hl he hgrows hfunc hmetadata hverdict =>
    obtain ⟨rfl, rfl⟩ := h.unique hc
    have hw : Reached f m stores ts _ := .flushed hl
    rw [he] at hw
    exact .placed hfits w (.error (.error e)) hw (Or.inl hfunc) (hfunc ▸ hverdict) fun v => nofun
  | done stores' ts' hc hfits u w m' hl he hgrows hfunc hmetadata hverdict =>
    obtain ⟨rfl, rfl⟩ := h.unique hc
    have hw : Reached f m stores ts _ := .flushed hl
    rw [he] at hw
    exact .placed hfits w (.ok true) hw (Or.inr hfunc) (hfunc ▸ hverdict) fun v => nofun

theorem one_le_rows (hm : m.Built) : ∀ s ∈ Scratch.allot f.nextValue ts, 1 ≤ s.element.rows := by
  intro s hs
  obtain ⟨o, -, hnamed⟩ := Target.exists_named h.targets (Scratch.target_mem_of_mem_allot hs)
  exact ((hm.signature o.opcode).element_pos (OutputStore.target?_eq_some.mp hnamed).2.2).1

variable (hf : f.Consistent)
include hf

theorem length_returns_le {u : Function}
    (hl : lowerStores (Scratch.allot f.nextValue ts) stores
      (allocateSlots f (Scratch.allot f.nextValue ts)) = (u, none)) :
    u.returns.length ≤ f.returns.length := by
  have hkept := (h.consistent_allocateSlots hf).lowerStores (Scratch.allot f.nextValue ts) stores
  have hgrown := (grows_allocateSlots f ts).lowerStores (Scratch.allot f.nextValue ts) stores
  rw [hl] at hkept hgrown
  refine (List.subperm_of_subset hkept.nodup_returns fun i hi => ?_).length_le
  obtain ⟨ins, hins, hret⟩ := hkept.mem_returns.mp hi
  obtain ⟨ins', hins'⟩ := h.live_of_mem_returns hf hl i hi
  cases hins.symm.trans (hgrown.extension.instr?_of_some hins')
  exact hf.mem_returns.mpr ⟨ins, hins', hret⟩

end Collected

namespace Reached

variable {f w : Function} {m : Metadata} {stores : List OutputStore} {ts : List Target}
  (h : Reached f m stores ts w)
include h

theorem grows : (allocateSlots f (Scratch.allot f.nextValue ts)).Grows w := by
  have hlowered := (Function.Grows.refl (f := allocateSlots f (Scratch.allot f.nextValue ts)))
    |>.lowerStores (Scratch.allot f.nextValue ts) stores
  cases h with
  | lowered => exact hlowered
  | flushed hl =>
    rw [hl] at hlowered
    exact hlowered.emitEpilogues _ _ m

theorem nextValue_le (hc : Collected f m stores ts) (hf : f.Consistent) (hm : m.Built) :
    w.nextValue ≤
      f.nextValue + ts.length + 6 * stores.length + 11 * (f.returns.length * Target.count ts) := by
  have hslots : (allocateSlots f (Scratch.allot f.nextValue ts)).nextValue =
      f.nextValue + ts.length := by
    rw [allocateSlots, Function.nextValue_emit, length_allot]
  have hlowered := nextValue_lowerStores_le (Scratch.allot f.nextValue ts) stores
    (allocateSlots f (Scratch.allot f.nextValue ts))
  rw [hslots] at hlowered
  cases h with
  | lowered => exact Nat.le_trans hlowered (Nat.le_add_right _ _)
  | @flushed u hl =>
    have hflushed := nextValue_emitEpilogues_le (hc.one_le_rows hm) u.returns u m
    have hreturns := Nat.mul_le_mul_right (Target.count ts) (hc.length_returns_le hf hl)
    rw [hl] at hlowered
    rw [Scratch.map_target_allot] at hflushed
    dsimp only at hlowered
    omega

end Reached

/-- What breaks a rule: the size of a written element is no word, or the values are too many. -/
def Oversized (f : Function) (m : Metadata) (ts : List Target) : Prop :=
  (∃ t ∈ ts, idLimit ≤ t.element.rows * t.element.cols) ∨ idLimit ≤ (run f m).func.nextValue

theorem violation_iff (f : Function) (m : Metadata) (v : Violation) :
    (run f m).verdict = .error (.violation v) ↔
      v = .overflow ∧ ∃ stores ts, Collected f m stores ts ∧ Oversized f m ts := by
  have hcollected : ∀ stores ts, Collected f m stores ts →
      ((run f m).verdict = .error (.violation v) ↔ v = .overflow ∧ Oversized f m ts) := by
    intro stores ts hc
    cases hc.unfit_or_placed with
    | unfit hfits hfunc hverdict =>
      obtain ⟨t, ht, hno⟩ := List.all_eq_false.mp hfits
      have hbig : Oversized f m ts :=
        Or.inl ⟨t, ht, Nat.not_lt.mp fun hlt => hno (fits_iff.mpr hlt)⟩
      rw [hverdict]
      constructor
      · rintro ⟨⟩
        exact ⟨rfl, hbig⟩
      · rintro ⟨rfl, -⟩
        rfl
    | placed hfits w r hw hfunc hverdict hr =>
      rw [hverdict, ruled_eq_violation hr]
      refine and_congr_right fun _ => ⟨Or.inr, ?_⟩
      rintro (⟨t, ht, hbig⟩ | hids)
      · exact absurd (all_fits.mp hfits t ht) (Nat.not_lt.mpr hbig)
      · exact hids
  constructor
  · intro h
    obtain ⟨stores, ts, hc⟩ := collected_of_violation h
    obtain ⟨rfl, hbig⟩ := (hcollected stores ts hc).mp h
    exact ⟨rfl, stores, ts, hc, hbig⟩
  · rintro ⟨rfl, stores, ts, hc, hbig⟩
    exact (hcollected stores ts hc).mpr ⟨rfl, hbig⟩

section Collected

variable {f : Function} {m : Metadata} {stores : List OutputStore} {ts : List Target}
  (h : Collected f m stores ts) (hf : f.Consistent)
include h hf

/-- How many values a run can hand out: one for each slot, six for each store, and eleven for each
component at each return. -/
theorem nextValue_run_le (hm : m.Built) : (run f m).func.nextValue ≤
    f.nextValue + ts.length + 6 * stores.length + 11 * (f.returns.length * Target.count ts) := by
  cases h.unfit_or_placed with
  | unfit hfits hfunc hverdict =>
    rw [hfunc]
    omega
  | placed hfits w r hw hfunc hverdict hr =>
    rcases hfunc with hfunc | hfunc
    · rw [hfunc]
      exact hw.nextValue_le h hf hm
    · rw [hfunc, nextValue_eraseStores]
      exact hw.nextValue_le h hf hm

theorem instr?_slot (hfits : ts.all fits = true) {i : Nat} {t : Target} (hi : ts[i]? = some t) :
    (run f m).func.instr? ⟨f.arena.size + i⟩ =
      some (Scratch.alloca ⟨t, ⟨f.nextValue + i⟩⟩).instr := by
  have hslot : (allocateSlots f (Scratch.allot f.nextValue ts)).instr? ⟨f.arena.size + i⟩ =
      some (Scratch.alloca ⟨t, ⟨f.nextValue + i⟩⟩).instr := by
    rw [allocateSlots, Function.emit, Function.instr?_splice, if_neg (by simp)]
    simp [Scratch.getElem?_allot, hi]
  cases h.unfit_or_placed with
  | unfit hfits' hfunc hverdict => cases hfits.symm.trans hfits'
  | placed hfits' w r hw hfunc hverdict hr =>
    have hgrown := hw.grows.extension.instr?_of_some hslot
    rcases hfunc with hfunc | hfunc
    · rw [hfunc]
      exact hgrown
    · rw [hfunc, instr?_eraseStores (fun o ho heq => ?_) w]
      · exact hgrown
      · -- an output store is an instruction of the function itself
        obtain ⟨ins, hins, -⟩ := OutputStore.live_call h.read hf ho
        have hold := Function.index_lt_of_instr? hins
        rw [heq] at hold
        exact absurd hold (Nat.not_lt.mpr (Nat.le_add_right _ _))

theorem effect_slot (hsize : ∀ t ∈ ts, t.element.rows * t.element.cols < idLimit) {i : Nat}
    {t : Target} (hi : ts[i]? = some t) :
    ∃ ins, (run f m).func.instr? ⟨f.arena.size + i⟩ = some ins ∧ ∀ s : Machine,
      s.effect (run f m).func ins =
        .ok (.allocate ⟨f.nextValue + i⟩ (t.element.rows * t.element.cols)) := by
  refine ⟨_, instr?_slot h hf (all_fits.mpr hsize) hi, fun s => ?_⟩
  have hcells : (Scratch.slotTy ⟨t, ⟨f.nextValue + i⟩⟩).cells? =
      some (t.element.rows * t.element.cols) :=
    Scratch.cells?_slotTy (hsize t (List.mem_of_getElem? hi))
  simp only [Scratch.alloca, Draft.alloca, Machine.effect, hcells]

end Collected

/-- A size is the number of components or no size at all, a run breaks a rule exactly if a size is
missing or the values are too many, for which there is a bound, and a slot has a cell for each
component of its element. -/
theorem run_sizes {f : Function} {m : Metadata} (hf : f.Made) (hm : m.Built) :
    (∀ (e : Element) (n : Nat),
      e.size = .ok n ↔ n = e.rows * e.cols ∧ e.rows * e.cols < idLimit) ∧
    (∀ v, (run f m).verdict = .error (.violation v) ↔
      v = .overflow ∧ ∃ stores ts, Collected f m stores ts ∧ Oversized f m ts) ∧
    ∀ stores ts, Collected f m stores ts →
      (run f m).func.nextValue ≤ f.nextValue + ts.length + 6 * stores.length +
        11 * (f.returns.length * Target.count ts) ∧
      ((∀ t ∈ ts, t.element.rows * t.element.cols < idLimit) → ∀ i t, ts[i]? = some t →
        ∃ ins, (run f m).func.instr? ⟨f.arena.size + i⟩ = some ins ∧ ∀ s : Machine,
          s.effect (run f m).func ins =
            .ok (.allocate ⟨f.nextValue + i⟩ (t.element.rows * t.element.cols))) := by
  refine ⟨fun e n => Element.size_eq_ok, violation_iff f m, fun stores ts hc => ⟨?_, ?_⟩⟩
  · exact nextValue_run_le hc hf.consistent hm
  · exact fun hsize i t hi => effect_slot hc hf.consistent hsize hi

/-- The element of the sparse store has two components. -/
theorem sparse_sizes : (∀ v, (run sparse sparseMetadata).verdict ≠ .error (.violation v)) ∧
    ∃ ins, (run sparse sparseMetadata).func.instr? ⟨7⟩ = some ins ∧ ∀ s : Machine,
      s.effect (run sparse sparseMetadata).func ins = .ok (.allocate ⟨5⟩ 2) := by
  obtain ⟨-, hviolation, hsizes⟩ := run_sizes made_sparse made_sparseMetadata.built
  have hc : Collected sparse sparseMetadata [⟨⟨5⟩, .storeOutput, 0, ⟨2⟩, ⟨3⟩, ⟨4⟩⟩]
      [⟨0, .output, ⟨"A", 1, 2, .i32⟩⟩] := ⟨rfl, List.cons_ne_nil _ _, rfl⟩
  obtain ⟨hids, hslots⟩ := hsizes _ _ hc
  refine ⟨fun v hv => ?_, hslots (by decide) 0 _ rfl⟩
  obtain ⟨-, stores, ts, hc', ⟨t, ht, hbig⟩ | hbig⟩ := (hviolation v).mp hv
  · obtain ⟨-, rfl⟩ := hc.unique hc'
    cases List.mem_singleton.mp ht
    exact absurd hbig (by decide)
  · exact absurd (Nat.le_trans hbig hids) (by decide)

/-- An element whose number of components is the first that is no 32-bit word. -/
def hugeMetadata : Metadata :=
  { Metadata.empty with outputs := ⟨.output, [⟨"A", 65536, 65536, .i32⟩]⟩ }

theorem huge_violation : hugeMetadata.Built ∧
    Element.size ⟨"A", 65536, 65536, .i32⟩ = .error .overflow ∧ sparse.Made ∧
    (run sparse hugeMetadata).verdict = .error (.violation .overflow) := by
  have hbuilt : hugeMetadata.Built :=
    ⟨.append (e := ⟨"A", 65536, 65536, .i32⟩) (.empty .output) rfl, .empty .patchConstant⟩
  exact ⟨hbuilt, rfl, made_sparse, rfl⟩

end Preserve

end ShaderIR
