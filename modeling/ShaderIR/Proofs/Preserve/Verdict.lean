import ShaderIR.Proofs.Preserve.Failure
import ShaderIR.Proofs.Preserve.Success
import ShaderIR.Proofs.Preserve.Validity

/-!
# The verdict on a function

The checks of the pass are scattered over its steps: over the reading of the output stores, the
look-up of their elements, the code in front of each store and the code in front of each return.
Together they decide about a function by what it says before it is changed.
-/

set_option autoImplicit false

namespace ShaderIR

theorem elementId?_eq_some {n : Int64} {id : Nat} :
    elementId? n = some id ↔ (0 ≤ n.toInt ∧ n.toInt < idLimit) ∧ n.toInt.toNat = id := by
  unfold elementId?
  split
  · next h => simp [h]
  · next h => simp [h]

namespace PassError

/-- The errors that the pass reports of a function. -/
inductive Reported (func : String) : PassError → Prop
  | unsupported (reason : Refusal) : Reported func (.unsupportedShader func reason)
  | unknownElement (signature : String) (id : Nat) :
      Reported func (.unknownSignatureElement func signature id)
  | width (bits : Nat) : Reported func (.indexWidthMismatch func bits)

theorem OfStores.reported {func : String} {e : PassError} (h : OfStores func e) :
    Reported func e := by
  cases h with
  | unknownElement signature id => exact .unknownElement signature id
  | _ => exact .unsupported _

theorem OfShape.reported {func : String} {e : PassError} (h : OfShape func e) :
    Reported func e := by
  cases h with
  | width bits => exact .width bits
  | _ => exact .unsupported _

end PassError

namespace OutputStore

variable {f : Function}

theorem exists_forall₂_reads {ps : List (InstrId × Instr)} (h : ∀ p ∈ ps, ∃ o, Reads f p o) :
    ∃ os, List.Forall₂ (Reads f) ps os := by
  induction ps with
  | nil => exact ⟨[], .nil⟩
  | cons p ps ih =>
    obtain ⟨o, ho⟩ := h p List.mem_cons_self
    obtain ⟨os, hos⟩ := ih fun q hq => h q (List.mem_cons_of_mem p hq)
    exact ⟨o :: os, .cons ho hos⟩

theorem exists_all (h : ∀ p ∈ f.instrs, ∀ op, f.storeOpcode? p.2 = some op → ∃ o, Reads f p o) :
    ∃ os, all f = .ok os := by
  have hcalls : ∀ p ∈ callsOf f f.instrs, ∃ o, Reads f p o := by
    intro p hp
    obtain ⟨hmem, hcall⟩ := List.mem_filter.mp hp
    obtain ⟨op, hop⟩ := Option.isSome_iff_exists.mp hcall
    exact h p hmem op hop
  obtain ⟨os, hos⟩ := exists_forall₂_reads hcalls
  exact ⟨os, all_eq_ok.mpr hos⟩

theorem Reads.mem_operands {p : InstrId × Instr} {o : OutputStore} (h : Reads f p o) :
    5 ≤ p.2.operands.length ∧ ∀ v, p.2.operands[1]? = some v →
      ∃ n, f.constInt? v = some n ∧ elementId? n = some o.id := by
  obtain ⟨op, id, n, rest, hops, hn, hid⟩ := h.operands
  rw [hops]
  refine ⟨by simp, fun v hv => ?_⟩
  cases hv
  exact ⟨n, hn, hid⟩

end OutputStore

/-- The elements that output stores name, once for each store. -/
def Target.named (m : Metadata) (stores : List OutputStore) : List Target :=
  stores.filterMap fun o => o.target? m

theorem Scratch.indexed_iff {s : Scratch} {f : Function} {o : OutputStore} :
    (∃ width, s.Indexed f o width) ↔ (s.element.isSingle = false →
      f.typeOf? o.row = some .i32 ∧ ∃ t, f.typeOf? o.column = some t ∧ t.isInt = true) := by
  have hcolumn : (∃ width, (f.typeOf? o.column).bind Ty.intWidth? = some width) ↔
      ∃ t, f.typeOf? o.column = some t ∧ t.isInt = true := by
    simp only [Option.bind_eq_some_iff, Ty.isInt, Option.isSome_iff_exists]
    grind
  rw [← hcolumn]
  simp only [Indexed]
  cases s.element.isSingle <;> simp

def Function.HasStore (f : Function) : Prop :=
  ∃ p ∈ f.instrs, ∃ op, f.storeOpcode? p.2 = some op

theorem OutputStore.all_eq_nil {f : Function} : all f = .ok [] ↔ ¬f.HasStore := by
  rw [all_eq_ok, List.forall₂_nil_right_iff, callsOf, List.filter_eq_nil_iff]
  simp only [Function.HasStore, Option.isSome_iff_exists, not_exists, not_and]

namespace Preserve

/-- What must be true of a function and of the signatures for its output stores to be
redirected. -/
structure Redirectable (f : Function) (m : Metadata) : Prop where
  operands : ∀ p ∈ f.instrs, ∀ op, f.storeOpcode? p.2 = some op → 5 ≤ p.2.operands.length
  element : ∀ p ∈ f.instrs, ∀ op v, f.storeOpcode? p.2 = some op → p.2.operands[1]? = some v →
    ∃ n e, f.constInt? v = some n ∧ (0 ≤ n.toInt ∧ n.toInt < idLimit) ∧
      (m.signature op).element? n.toInt.toNat = some e
  separate : f.Separates
  indices : ∀ p ∈ f.instrs, ∀ o e, OutputStore.Reads f p o →
    (m.signature o.opcode).element? o.id = some e → e.isSingle = false →
    f.typeOf? o.row = some .i32 ∧ ∃ t, f.typeOf? o.column = some t ∧ t.isInt = true
  columns : f.returns = [] ∨ ∀ p ∈ f.instrs, ∀ o e, OutputStore.Reads f p o →
    (m.signature o.opcode).element? o.id = some e → e.cols ≤ 256

theorem fits_of_written {f : Function} {m : Metadata} {ts : List Target}
    (h : Target.Written f m ts)
    (hsizes : ∀ op id e, (m.signature op).element? id = some e → e.rows * e.cols < idLimit) :
    ∀ t ∈ ts, fits t = true := by
  intro t ht
  obtain ⟨o, -, hnamed⟩ := (h.mem_iff t).mp ht
  have hsize := hsizes _ _ _ (OutputStore.target?_eq_some.mp hnamed).2.2
  simp [fits, Element.size, hsize, Except.isOk, Except.toBool]

namespace Redirected

variable {f : Function} {m : Metadata} {stores : List OutputStore} {ts : List Target}
  {before : InstrId → List (InstrId × Instr)} {w g : Function}
  (h : Redirected f m stores ts before w g) (ha : m.Aligned)
include h ha

theorem indexed_of_reads {p : InstrId × Instr} (hp : p ∈ f.instrs) {o : OutputStore} {e : Element}
    (hr : OutputStore.Reads f p o) (he : (m.signature o.opcode).element? o.id = some e)
    (hmany : e.isSingle = false) :
    f.typeOf? o.row = some .i32 ∧ ∃ t, f.typeOf? o.column = some t ∧ t.isInt = true := by
  have ho := OutputStore.mem_of_reads h.read hp hr
  obtain ⟨s, hs, hid, width, start, next, hindexed, -⟩ := h.storing o ho
  have hwrites := (h.written.mem_iff _).mp (Scratch.target_mem_of_mem_allot hs)
  have hs' := hr.element_of_writes h.written (Or.inl ha) hp hwrites hid
  obtain rfl : s.element = e := Option.some.inj (hs'.symm.trans he)
  exact Scratch.indexed_iff.mp ⟨width, hindexed⟩ hmany

theorem redirectable : Redirectable f m := by
  have hwritten := h.written
  refine ⟨fun p hp op hop => ?_, fun p hp op v hop hv => ?_, fun p hp q hq o o' hr hr' hid => ?_,
    fun p hp o e hr he hmany => h.indexed_of_reads ha hp hr he hmany, ?_⟩
  · obtain ⟨o, -, hr⟩ := OutputStore.exists_store h.read hp hop
    exact hr.mem_operands.1
  · obtain ⟨o, -, hr⟩ := OutputStore.exists_store h.read hp hop
    obtain ⟨n, hn, hid⟩ := hr.mem_operands.2 v hv
    obtain ⟨hrange, hnat⟩ := elementId?_eq_some.mp hid
    obtain ⟨t, -, -, -, hnamed⟩ := hwritten.exists_of_reads ha hp hr
    obtain ⟨-, -, he⟩ := OutputStore.target?_eq_some.mp hnamed
    cases hop.symm.trans hr.opcode
    rw [← hnat] at he
    exact ⟨n, t.element, hn, hrange, he⟩
  · obtain ⟨t, ht, htid, htop, -⟩ := hwritten.exists_of_reads ha hp hr
    obtain ⟨t', ht', htid', htop', -⟩ := hwritten.exists_of_reads ha hq hr'
    obtain rfl := hwritten.eq_of_id ht ht' (htid.trans (hid.trans htid'.symm))
    exact htop.symm.trans htop'
  · refine or_iff_not_imp_left.mpr fun hret p hp o e hr he => ?_
    obtain ⟨t, ht, -, -, hnamed⟩ := hwritten.exists_of_reads ha hp hr
    obtain rfl := Option.some.inj (he.symm.trans (OutputStore.target?_eq_some.mp hnamed).2.2)
    exact h.columns hret t ht

end Redirected

namespace Redirectable

variable {f : Function} {m : Metadata} (h : Redirectable f m)
include h

theorem exists_reads {p : InstrId × Instr} (hp : p ∈ f.instrs) {op : OpCode}
    (hop : f.storeOpcode? p.2 = some op) :
    ∃ o e, OutputStore.Reads f p o ∧ (m.signature o.opcode).element? o.id = some e := by
  obtain ⟨u, v, row, column, value, rest, hops⟩ :=
    OutputStore.exists_operands (h.operands p hp op hop)
  obtain ⟨n, e, hn, hrange, he⟩ := h.element p hp op v hop (by rw [hops]; rfl)
  exact ⟨⟨p.1, op, n.toInt.toNat, row, column, value⟩, e,
    ⟨rfl, hop, u, v, n, rest, hops, hn, elementId?_eq_some.mpr ⟨hrange, rfl⟩⟩, he⟩

theorem exists_stores : ∃ stores, OutputStore.all f = .ok stores ∧ ∀ o ∈ stores,
    ∃ e, (m.signature o.opcode).element? o.id = some e := by
  obtain ⟨stores, hall⟩ := OutputStore.exists_all (f := f) fun p hp op hop =>
    let ⟨o, _, hr, _⟩ := h.exists_reads hp hop
    ⟨o, hr⟩
  refine ⟨stores, hall, fun o ho => ?_⟩
  obtain ⟨p, hp, hr⟩ := OutputStore.exists_call hall ho
  obtain ⟨o', e, hr', he⟩ := h.exists_reads hp hr.opcode
  cases hr.unique hr'
  exact ⟨e, he⟩

theorem exists_targets (ha : m.Aligned) {stores : List OutputStore}
    (hall : OutputStore.all f = .ok stores)
    (helements : ∀ o ∈ stores, ∃ e, (m.signature o.opcode).element? o.id = some e) :
    ∃ ts, Target.collect f.name m [] stores = .ok ts := by
  have hinj : ∀ t ∈ Target.named m stores, ∀ u ∈ Target.named m stores, t.id = u.id → t = u := by
    intro t ht u hu hid
    obtain ⟨o, ho, hot⟩ := List.mem_filterMap.mp ht
    obtain ⟨o', ho', hou⟩ := List.mem_filterMap.mp hu
    obtain ⟨p, hp, hr⟩ := OutputStore.exists_call hall ho
    obtain ⟨q, hq, hr'⟩ := OutputStore.exists_call hall ho'
    have hsame : o.id = o'.id := by
      rw [← (OutputStore.target?_eq_some.mp hot).1, hid, (OutputStore.target?_eq_some.mp hou).1]
    rw [OutputStore.target?, h.separate p hp q hq o o' hr hr' hsame, hsame] at hot
    exact Option.some.inj (hot.symm.trans hou)
  have hnamed : ∀ o ∈ stores, ∃ t ∈ Target.named m stores, t.id = o.id ∧ t.opcode = o.opcode ∧
      o.target? m = some t := by
    intro o ho
    obtain ⟨e, he⟩ := helements o ho
    have ht : o.target? m = some ⟨o.id, (m.signature o.opcode).kind, e⟩ :=
      OutputStore.target?_eq_some.mpr ⟨rfl, rfl, he⟩
    exact ⟨_, List.mem_filterMap.mpr ⟨o, ho, ht⟩, rfl, Target.opcode_of_aligned ha ht, ht⟩
  have hnil : ∀ t ∈ ([] : List Target), t ∈ Target.named m stores := fun _ ht =>
    absurd ht List.not_mem_nil
  obtain ⟨ts, hts, -⟩ := Target.exists_collect hinj hnil hnamed
  exact ⟨ts, hts⟩

theorem verdict_run (ha : m.Aligned) (hf : f.Consistent) (hv : f.Numbered) (hstore : f.HasStore)
    (hsizes : ∀ op id e, (m.signature op).element? id = some e → e.rows * e.cols < idLimit) :
    (run f m).verdict = .ok true ∨ (run f m).verdict = .error (.violation .overflow) := by
  obtain ⟨stores, hall, helements⟩ := h.exists_stores
  obtain ⟨ts, hts⟩ := h.exists_targets ha hall helements
  have hwritten := Target.written_of_collect hall hts
  have hne : stores ≠ [] := by
    rintro rfl
    exact OutputStore.all_eq_nil.mp hall hstore
  refine Preserve.verdict_run hf hv hall hne hts (fits_of_written hwritten hsizes)
    (fun o ho s hs hid => ?_) fun hret t ht => ?_
  · obtain ⟨p, hp, hr⟩ := OutputStore.exists_call hall ho
    have he := hr.element_of_writes hwritten (Or.inl ha) hp ((hwritten.mem_iff _).mp hs) hid
    exact Scratch.indexed_iff.mpr (h.indices p hp o _ hr he)
  · obtain ⟨o, hfirst, hnamed⟩ := (hwritten.mem_iff t).mp ht
    obtain ⟨p, hp, hr⟩ := hfirst.exists_mem
    exact h.columns.resolve_left hret p hp o _ hr (OutputStore.target?_eq_some.mp hnamed).2.2

end Redirectable

theorem verdict_ne_violation {f : Function} {m : Metadata}
    (hsizes : ∀ op id e, (m.signature op).element? id = some e → e.rows * e.cols < idLimit)
    (hids : (run f m).func.nextValue < idLimit) (v : Violation) :
    (run f m).verdict ≠ .error (.violation v) := by
  intro h
  cases course f m with
  | unread e hall hrun =>
    rw [hrun] at h
    cases h
  | idle hall hrun =>
    rw [hrun] at h
    cases h
  | unresolved stores e hall hne hts hrun =>
    rw [hrun] at h
    cases h
  | unfit stores ts hc hfits hfunc hmetadata hverdict =>
    have hall := fits_of_written (Target.written_of_collect hc.read hc.targets) hsizes
    rw [List.all_eq_true.mpr hall] at hfits
    cases hfits
  | unlowered stores ts hc hfits u e hl hgrows hfunc hmetadata hverdict =>
    rw [hverdict, ruled, ← hfunc, if_pos hids] at h
    cases h
  | unflushed stores ts hc hfits u w m' e hl he hgrows hfunc hmetadata hverdict =>
    rw [hverdict, ruled, ← hfunc, if_pos hids] at h
    cases h
  | done stores ts hc hfits u w m' hl he hgrows hfunc hmetadata hverdict =>
    rw [hverdict, ruled, ← hfunc, if_pos hids] at h
    cases h

theorem verdict_eq_false_iff {f : Function} {m : Metadata} :
    (run f m).verdict = .ok false ↔ ¬f.HasStore := by
  rw [← OutputStore.all_eq_nil]
  constructor
  · intro h
    unfold run at h
    split at h
    · cases h
    · next hall => exact hall
    · split at h
      · cases h
      · exact absurd h (redirect_ne_false f m _ _)
  · intro hall
    rw [run, hall]

theorem verdict_eq_true_iff {f : Function} {m : Metadata} (hf : f.Consistent) (hv : f.Numbered)
    (ha : m.Aligned)
    (hsizes : ∀ op id e, (m.signature op).element? id = some e → e.rows * e.cols < idLimit)
    (hids : (run f m).func.nextValue < idLimit) :
    (run f m).verdict = .ok true ↔ f.HasStore ∧ Redirectable f m := by
  constructor
  · intro h
    obtain ⟨stores, ts, before, w, hr⟩ := exists_redirected hf hv h
    obtain ⟨o, ho⟩ := List.exists_mem_of_ne_nil _ hr.nonempty
    obtain ⟨p, hp, hreads⟩ := OutputStore.exists_call hr.read ho
    exact ⟨⟨p, hp, o.opcode, hreads.opcode⟩, hr.redirectable ha⟩
  · rintro ⟨hstore, h⟩
    exact (h.verdict_run ha hf hv hstore hsizes).resolve_right
      (verdict_ne_violation hsizes hids .overflow)

theorem error_reported {f : Function} {m : Metadata} {e : PassError} (hf : f.Consistent)
    (hv : f.Numbered) (h : (run f m).verdict = .error (.error e)) : e.Reported f.name := by
  rcases failsEarly_or_grows hf hv h with hearly | ⟨hshape, -⟩
  · exact (ofStores_of_failsEarly hearly).reported
  · exact hshape.reported

/-- Without output stores there is nothing to do. With some, the pass redirects them if all that
it needs is there, and else it says what is missing; that it has lost something itself, it never
says. What it needs is said of signatures of the right kinds. -/
theorem verdict_run_iff {f : Function} {m : Metadata} (hf : f.Made) (hv : f.Numbered)
    (hsizes : ∀ op id e, (m.signature op).element? id = some e → e.rows * e.cols < idLimit)
    (hids : (run f m).func.nextValue < idLimit) :
    ((run f m).verdict = .ok false ↔ ¬f.HasStore) ∧
      (m.Aligned → ((run f m).verdict = .ok true ↔ f.HasStore ∧ Redirectable f m)) ∧
      ((run f m).verdict = .ok false ∨ (run f m).verdict = .ok true ∨
        ∃ e, (run f m).verdict = .error (.error e) ∧ e.Reported f.name) := by
  refine ⟨verdict_eq_false_iff,
    fun ha => verdict_eq_true_iff hf.consistent hv ha hsizes hids, ?_⟩
  cases hverdict : (run f m).verdict with
  | ok b => cases b <;> simp
  | error failure =>
    cases failure with
    | error e => exact Or.inr (Or.inr ⟨e, rfl, error_reported hf.consistent hv hverdict⟩)
    | violation v => exact absurd hverdict (verdict_ne_violation hsizes hids v)

/-- The sparse function has all that is needed; a store at a column that is no integer has not. -/
theorem sparse_redirectable :
    ((run sparse sparseMetadata).verdict = .ok true ∧ Redirectable sparse sparseMetadata) ∧
      (run misindexed sparseMetadata).verdict =
        .error (.error (.unsupportedShader "main" (.columnNotInteger ⟨3⟩ "A"))) ∧
      ¬Redirectable misindexed sparseMetadata := by
  have hsizes : ∀ op id e, (sparseMetadata.signature op).element? id = some e →
      e.rows * e.cols < idLimit := by
    rintro op (_ | id) e he
    · cases op <;> cases he
      decide
    · cases op <;> cases he
  have hsparse : (run sparse sparseMetadata).verdict = .ok true := rfl
  have hmisindexed : (run misindexed sparseMetadata).verdict =
      .error (.error (.unsupportedShader "main" (.columnNotInteger ⟨3⟩ "A"))) := rfl
  obtain ⟨-, htrue, -⟩ := verdict_run_iff made_sparse (by decide) hsizes (by decide)
  obtain ⟨hidle, htrue', -⟩ := verdict_run_iff made_misindexed (by decide) hsizes (by decide)
  have haligned := made_sparseMetadata.aligned
  refine ⟨⟨hsparse, ((htrue haligned).mp hsparse).2⟩, hmisindexed, fun h => ?_⟩
  have hstore : misindexed.HasStore := by
    by_contra hnone
    cases hmisindexed.symm.trans (hidle.mpr hnone)
  cases hmisindexed.symm.trans ((htrue' haligned).mpr ⟨hstore, h⟩)

end Preserve

end ShaderIR
