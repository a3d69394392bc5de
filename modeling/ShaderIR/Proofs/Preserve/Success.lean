import ShaderIR.Proofs.Preserve.Redirected

/-!
# Redirections that succeed

Each step of the pass says what it needs: an element for every output store, all stores to an
element through one opcode, indices of integer types, and columns that fit a byte if there is a
return. Where all of this is given, values can run out of identifiers, and nothing else can go
wrong.
-/

set_option autoImplicit false

namespace ShaderIR

namespace Target

theorem exists_collect {func : String} {m : Metadata} {all ts : List Target}
    {stores : List OutputStore} (hids : ∀ t ∈ all, ∀ u ∈ all, t.id = u.id → t = u)
    (hts : ∀ t ∈ ts, t ∈ all)
    (hstores : ∀ o ∈ stores, ∃ t ∈ all, t.id = o.id ∧ t.opcode = o.opcode ∧
      o.target? m = some t) :
    ∃ us, collect func m ts stores = .ok us ∧ ∀ t ∈ us, t ∈ all := by
  induction stores generalizing ts with
  | nil => exact ⟨ts, rfl, hts⟩
  | cons o rest ih =>
    obtain ⟨t, ht, hid, hop, he⟩ := hstores o List.mem_cons_self
    have hrest := fun o' ho' => hstores o' (List.mem_cons_of_mem o ho')
    rw [collect]
    cases hfind : ts.find? fun u => u.id == o.id with
    | some u =>
      have huid : u.id = o.id := by simpa using List.find?_some hfind
      obtain rfl : u = t :=
        hids u (hts u (List.mem_of_find?_eq_some hfind)) t ht (huid.trans hid.symm)
      simp only [hop, if_true]
      exact ih hts hrest
    | none =>
      simp only [he]
      refine ih (fun u hu => ?_) hrest
      rcases mem_insertById.mp hu with rfl | hu
      · exact ht
      · exact hts u hu

theorem eq_of_mem_iff {ts us : List Target} (h : ts.Pairwise fun t u => t.id < u.id)
    (h' : us.Pairwise fun t u => t.id < u.id) (hmem : ∀ t, t ∈ ts ↔ t ∈ us) : ts = us := by
  have hids : ∀ {l : List Target}, (l.Pairwise fun t u => t.id < u.id) → l.Nodup :=
    fun hl => hl.imp fun {t u} hlt heq => Nat.ne_of_lt hlt (congrArg id heq)
  have hperm : ts.Perm us := (List.perm_ext_iff_of_nodup (hids h) (hids h')).mpr hmem
  exact hperm.eq_of_pairwise (fun t u _ _ htu hut => absurd htu (Nat.lt_asymm hut)) h h'

theorem Written.unique {f : Function} {m : Metadata} {ts us : List Target} (h : Written f m ts)
    (h' : Written f m us) : ts = us :=
  eq_of_mem_iff h.ordered h'.ordered fun t => (h.mem_iff t).trans (h'.mem_iff t).symm

end Target

theorem Scratch.fault_lowerStore {s : Scratch} {f : Function} {o : OutputStore} {width : Nat}
    (hc : o.column.index < f.nextValue) (h : s.Indexed f o width) :
    (s.lowerStore f o).fault = none := by
  have hty : columnTy? f o.column f.nextValue = f.typeOf? o.column := by
    rw [columnTy?, if_neg (by omega)]
  unfold lowerStore
  dsimp only
  rcases h with hs | ⟨hrow, hcolumn⟩
  · rw [if_pos hs]
  · split
    · rfl
    · have hwidth : (some Ty.i32).bind Ty.intWidth? = some 32 := rfl
      simp only [hrow, hwidth, if_true, hty, hcolumn]

theorem Scratch.fault_epilogue {s : Scratch} (callee func : String) (next : Nat)
    (h : s.element.cols ≤ Element.columnLimit) : (s.epilogue callee func next).fault = none := by
  rw [epilogue, if_pos h]

namespace Function

variable {f g : Function} {head : List (InstrId × Instr)}
  {before : InstrId → List (InstrId × Instr)}

theorem Woven.lowerStores_ok {slots : List Scratch} {stores : List OutputStore}
    (h : Woven f g head before) (hlive : ∀ o ∈ stores, ∃ ins, f.instr? o.call = some ins)
    (hindex : ∀ o ∈ stores, o.row.index < f.nextValue ∧ o.column.index < f.nextValue)
    (hslots : ∀ o ∈ stores, ∃ s ∈ slots, s.target.id = o.id)
    (hindexed : ∀ o ∈ stores, ∀ s ∈ slots, s.target.id = o.id → ∃ width, s.Indexed f o width) :
    ∃ u, ShaderIR.lowerStores slots stores g = (u, none) := by
  induction stores generalizing g before with
  | nil => exact ⟨g, rfl⟩
  | cons o rest ih =>
    obtain ⟨ins, hins⟩ := hlive o List.mem_cons_self
    obtain ⟨hrow, hcol⟩ := hindex o List.mem_cons_self
    obtain ⟨s', hs', hid'⟩ := hslots o List.mem_cons_self
    obtain ⟨b, k, hp⟩ := h.consistent.exists_position? (h.extension.instr?_of_some hins)
    cases hfind : slots.find? fun s => s.target.id == o.id with
    | none =>
      have := List.find?_eq_none.mp hfind s' hs'
      simp [hid'] at this
    | some s =>
      have hid : s.target.id = o.id := by simpa using List.find?_some hfind
      obtain ⟨width, hidx⟩ :=
        hindexed o List.mem_cons_self s (List.mem_of_find?_eq_some hfind) hid
      have hcol' := Nat.lt_of_lt_of_le hcol h.extension.next_le
      have hidx' : s.Indexed g o width := hidx.congr (h.extension.typeOf?_old _ hrow).symm
        (h.extension.typeOf?_old _ hcol).symm
      have hfault := Scratch.fault_lowerStore hcol' hidx'
      obtain ⟨width', -, hcode, hnext⟩ := Scratch.lowerStore_eq hcol' hfault
      have hfresh := s.fresh_storing o width' g.nextValue
      rw [← hcode, ← hnext] at hfresh
      rw [ShaderIR.lowerStores]
      simp only [hfind, hp, hfault]
      exact ih (h.emit hins hp hfresh) (fun o' ho' => hlive o' (List.mem_cons_of_mem o ho'))
        (fun o' ho' => hindex o' (List.mem_cons_of_mem o ho'))
        (fun o' ho' => hslots o' (List.mem_cons_of_mem o ho'))
        (fun o' ho' => hindexed o' (List.mem_cons_of_mem o ho'))

theorem Woven.emitEpilogue_ok {ret : InstrId} {ins : Instr} {slots : List Scratch}
    (h : Woven f g head before) (hret : f.instr? ret = some ins)
    (hcols : ∀ s ∈ slots, s.element.cols ≤ Element.columnLimit) (m : Metadata) :
    ∃ g' m', ShaderIR.emitEpilogue ret slots g m = (g', m', none) := by
  induction slots generalizing g before m with
  | nil => exact ⟨g, m, rfl⟩
  | cons s rest ih =>
    obtain ⟨b, k, hp⟩ := h.consistent.exists_position? (h.extension.instr?_of_some hret)
    have hfault := s.fault_epilogue s.target.intrinsic.name g.name g.nextValue
      (hcols s List.mem_cons_self)
    obtain ⟨-, hcode, hnext⟩ := Scratch.epilogue_eq hfault
    have hfresh := Scratch.fresh_flush (s.element.positions.map fun p => (s, p)) g.nextValue
    rw [← hcode, ← hnext] at hfresh
    rw [emitEpilogue_cons]
    simp only [hp, hfault]
    exact ih (h.emit hret hp hfresh) (fun t ht => hcols t (List.mem_cons_of_mem s ht)) _

theorem Woven.emitEpilogues_ok {slots : List Scratch} {rets : List InstrId}
    (h : Woven f g head before) (hlive : ∀ i ∈ rets, ∃ ins, f.instr? i = some ins)
    (hcols : rets ≠ [] → ∀ s ∈ slots, s.element.cols ≤ Element.columnLimit) (m : Metadata) :
    ∃ g' m', ShaderIR.emitEpilogues slots rets g m = (g', m', none) := by
  induction rets generalizing g before m with
  | nil => exact ⟨g, m, rfl⟩
  | cons ret rest ih =>
    obtain ⟨ins, hins⟩ := hlive ret List.mem_cons_self
    have hcols := hcols (List.cons_ne_nil ret rest)
    obtain ⟨g₁, m₁, he₁⟩ := h.emitEpilogue_ok hins hcols m
    obtain ⟨hw, -, -⟩ := h.emitEpilogue hins he₁
    rw [ShaderIR.emitEpilogues]
    simp only [he₁]
    exact ih hw (fun i hi => hlive i (List.mem_cons_of_mem ret hi)) (fun _ => hcols) m₁

end Function

namespace Preserve

/-- What the pass needs, said of the stores and of the elements that they write. -/
theorem verdict_run {f : Function} {m : Metadata} {stores : List OutputStore} {ts : List Target}
    (hf : f.Consistent) (hv : f.Numbered) (hall : OutputStore.all f = .ok stores)
    (hne : stores ≠ []) (hts : Target.collect f.name m [] stores = .ok ts)
    (hfits : ∀ t ∈ ts, fits t = true)
    (hindexed : ∀ o ∈ stores, ∀ s : Scratch, s.target ∈ ts → s.target.id = o.id →
      ∃ width, s.Indexed f o width)
    (hcols : f.returns ≠ [] → ∀ t ∈ ts, t.element.cols ≤ Element.columnLimit) :
    (run f m).verdict = .ok true ∨ (run f m).verdict = .error (.violation .overflow) := by
  obtain ⟨blk, hb⟩ := Function.exists_entry hall hne
  have hhead := hf.emit_entry hb (Scratch.fresh_alloca f.nextValue ts)
  have halloc : allocateSlots f (Scratch.allot f.nextValue ts) = f.emit .entry 0
      ((Scratch.allot f.nextValue ts).map Scratch.alloca) (f.nextValue + ts.length) := by
    rw [allocateSlots, length_allot]
  obtain ⟨u, hu⟩ : ∃ u, lowerStores (Scratch.allot f.nextValue ts) stores
      (allocateSlots f (Scratch.allot f.nextValue ts)) = (u, none) := by
    rw [halloc]
    refine hhead.lowerStores_ok
      (fun o ho => (OutputStore.live_call hall hf ho).imp fun _ hlive => hlive.1)
      (fun o ho => (OutputStore.index_lt hall hf hv ho).imp_right And.left)
      (fun o ho => ?_) (fun o ho s hs => hindexed o ho s (Scratch.target_mem_of_mem_allot hs))
    obtain ⟨t, ht, hid, -⟩ := (Target.exists_of_collect hts).2 o ho
    rw [← Scratch.map_target_allot f.nextValue ts] at ht
    obtain ⟨s, hs, rfl⟩ := List.mem_map.mp ht
    exact ⟨s, hs, hid⟩
  obtain ⟨before, hw, -, -, -⟩ := exists_lowered hf hv hall hne hu
  obtain ⟨w, m', he⟩ : ∃ w m', emitEpilogues (Scratch.allot f.nextValue ts) u.returns u m =
      (w, m', none) := hw.emitEpilogues_ok
    (fun i hi => by
      obtain ⟨ins, hins, -⟩ := hf.mem_returns.mp ((hw.mem_returns hf).mp hi)
      exact ⟨ins, hins⟩)
    (fun hne' s hs => by
      obtain ⟨i, hi⟩ := List.exists_mem_of_ne_nil _ hne'
      exact hcols (List.ne_nil_of_mem ((hw.mem_returns hf).mp hi)) _
        (Scratch.target_mem_of_mem_allot hs)) m
  have hrun : (redirect f m stores ts).verdict =
      (guardIds (redirectStores (Scratch.allot f.nextValue ts) stores
        (allocateSlots f (Scratch.allot f.nextValue ts)) m)).verdict := by
    rw [redirect, if_pos (List.all_eq_true.mpr hfits)]
  rw [run_of_collect_ok hall hne hts, hrun]
  simp only [redirectStores, hu, he, guardIds]
  split
  · exact Or.inl rfl
  · exact Or.inr rfl

end Preserve

end ShaderIR
