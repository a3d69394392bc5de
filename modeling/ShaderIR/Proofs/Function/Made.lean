import ShaderIR.Function.Builder
import ShaderIR.Function.Cursor
import ShaderIR.Preserve.Redirect
import ShaderIR.Proofs.Function.Consistent
import ShaderIR.Proofs.Outcome

/-!
# Functions that can be made

A function is made by a builder, and then changed through cursors, by erasing instructions,
by giving it another header, and by the pass that stores every output once, whatever the
verdict of the pass is. All these functions are consistent.
-/

set_option autoImplicit false

namespace ShaderIR

namespace Function.Consistent

theorem withBlock {f g : Function} (hf : f.Consistent) {name : Option String}
    (hb : g.blocks = f.blocks ++ [⟨⟨f.blocks.length⟩, [], [], name⟩]) (ha : g.arena = f.arena)
    (hd : g.defs = f.defs) (ht : g.types = f.types) : g.Consistent := by
  have hinstr : ∀ i, g.instr? i = f.instr? i := fun i => by rw [instr?, ha, instr?]
  refine ⟨fun n blk h => ?_, ?_, fun i => ?_, fun v i h => ?_, fun v c h => ?_, fun v => ?_⟩
  · rw [hb] at h
    rcases Nat.lt_trichotomy n f.blocks.length with hn | rfl | hn
    · exact hf.blockId n blk ((List.getElem?_append_left hn).symm.trans h)
    · rw [List.getElem?_concat_length, Option.some.injEq] at h
      rw [← h]
    · rw [List.getElem?_eq_none (by simp; omega)] at h
      cases h
  · simpa [listed, hb] using hf.nodup
  · rw [hinstr, ← hf.mem_listed]
    simp [listed, hb]
  · rw [hinstr]
    exact hf.recorded.result v i (by rwa [definition?, ← hd])
  · obtain ⟨blk, hblk, hv⟩ := hf.recorded.param v c (by rwa [definition?, ← hd])
    refine ⟨blk, ?_, hv⟩
    rw [block?, hb, List.getElem?_append_left (List.getElem?_eq_some_iff.mp hblk).1]
    exact hblk
  · rw [typeOf?, definition?, ht, hd]
    exact hf.recorded.typed v

theorem flatMap_modify {α β : Type} {h : α → List β} {g : α → α} (hg : ∀ a, h (g a) = h a)
    (l : List α) (n : Nat) : (l.modify n g).flatMap h = l.flatMap h := by
  induction l generalizing n with
  | nil => simp
  | cons a l ih =>
    cases n with
    | zero => simp [hg]
    | succ n => simp [ih]

theorem withParam {f g : Function} (hf : f.Consistent) {b : BlockId} {blk : Block}
    (hblk : f.block? b = some blk) {p : BlockParam}
    (hb : g.blocks = f.blocks.modify b.index fun blk => { blk with params := blk.params ++ [p] })
    (ha : g.arena = f.arena) (hd : g.defs = f.defs.insert p.id (.param b))
    (ht : g.types = f.types.insert p.id p.ty) : g.Consistent := by
  have hinstr : ∀ i, g.instr? i = f.instr? i := fun i => by rw [instr?, ha, instr?]
  have hlisted : g.listed = f.listed := by
    rw [listed, hb]
    exact flatMap_modify (by simp) _ _
  have hblock : ∀ c, g.block? c = (f.block? c).map fun blk =>
      if b.index = c.index then { blk with params := blk.params ++ [p] } else blk := by
    intro c
    rw [block?, hb, List.getElem?_modify]
    rfl
  refine ⟨fun n blk' h => ?_, ?_, fun i => ?_, fun v i h => ?_, fun v c h => ?_, fun v => ?_⟩
  · have h' : g.block? ⟨n⟩ = some blk' := h
    rw [hblock, Option.map_eq_some_iff] at h'
    obtain ⟨blk₀, h₀, rfl⟩ := h'
    split <;> exact hf.blockId n blk₀ h₀
  · exact hlisted ▸ hf.nodup
  · rw [hlisted, hinstr]
    exact hf.mem_listed i
  · rw [definition?, hd, ValueMap.getElem?_insert_eq] at h
    split at h
    · cases h
    · rw [hinstr]
      exact hf.recorded.result v i h
  · rw [definition?, hd, ValueMap.getElem?_insert_eq] at h
    split at h
    · next hv =>
      cases h
      subst hv
      exact ⟨_, by rw [hblock, hblk]; rfl, by simp [Block.paramIds]⟩
    · obtain ⟨blk₀, h₀, hv⟩ := hf.recorded.param v c h
      refine ⟨_, by rw [hblock, h₀]; rfl, ?_⟩
      split
      · exact List.mem_map.mpr (by
          obtain ⟨q, hq, rfl⟩ := List.mem_map.mp hv
          exact ⟨q, List.mem_append_left _ hq, rfl⟩)
      · exact hv
  · rw [typeOf?, definition?, ht, hd, ValueMap.getElem?_insert_eq, ValueMap.getElem?_insert_eq]
    split
    · rfl
    · exact hf.recorded.typed v

end Function.Consistent

namespace Builder

theorem fresh_eq_ok {s t : Builder} {v : ValueId} :
    s.fresh = .ok (v, t) ↔ s.func.nextValue + 1 < idLimit ∧ v = s.func.freshValue ∧
      t = { s with func := s.func.reserve 1 } := by
  unfold fresh
  split
  · next h =>
    constructor
    · rintro ⟨⟩
      exact ⟨h, rfl, rfl⟩
    · rintro ⟨-, rfl, rfl⟩
      rfl
  · next h =>
    constructor
    · rintro ⟨⟩
    · exact fun h' => absurd h'.1 h

theorem push_eq_ok {s t : Builder} {d : Draft} :
    s.push d = .ok t ↔ ∃ b blk, s.current = some b ∧ s.func.isSealed b = false ∧
      s.func.block? b = some blk ∧
      t = { s with func := s.func.splice b blk.body.length [d] } := by
  constructor
  · intro h
    unfold push at h
    split at h
    · cases h
    · next b hc =>
      split at h
      · cases h
      · next hs =>
        split at h
        · cases h
        · next blk hb =>
          cases h
          exact ⟨b, blk, hc, by simpa using hs, hb, rfl⟩
  · rintro ⟨b, blk, hc, hs, hb, rfl⟩
    simp only [push, hc, hs, hb]
    rfl

theorem addParam_eq_ok {s t : Builder} {b : BlockId} {name : Option String} {ty : Ty}
    {v : ValueId} :
    s.addParam b name ty = .ok (v, t) ↔
      ∃ u blk, s.fresh = .ok (v, u) ∧ u.func.block? b = some blk ∧
        t = { u with func := { u.func with
          blocks := u.func.blocks.modify b.index fun blk =>
            { blk with params := blk.params ++ [⟨v, ty, name⟩] }
          defs := u.func.defs.insert v (.param b)
          types := u.func.types.insert v ty } } := by
  unfold addParam
  rw [bind_eq_ok]
  constructor
  · rintro ⟨⟨w, u⟩, hu, h⟩
    dsimp only at h
    split at h
    · cases h
    · next blk hb =>
      cases h
      exact ⟨u, blk, hu, hb, rfl⟩
  · rintro ⟨u, blk, hu, hb, rfl⟩
    refine ⟨(v, u), hu, ?_⟩
    simp only [hb]

theorem define_eq_ok {s t : Builder} {make : ValueId → Draft} {v : ValueId} :
    s.define make = .ok (v, t) ↔ ∃ u, s.fresh = .ok (v, u) ∧ u.push (make v) = .ok t := by
  unfold define
  simp only [bind_eq_ok]
  constructor
  · rintro ⟨⟨w, u⟩, hu, t', ht, h⟩
    cases h
    exact ⟨u, hu, ht⟩
  · rintro ⟨u, hu, ht⟩
    exact ⟨(v, u), hu, t, ht, rfl⟩

/-- What a command pushes that is answered with `r`: a constant defines its answer. -/
def Command.pushed? (r : Reply) : Command → Option Instr
  | .constInt n ty =>
    match r with
    | .value v => some (.constInt v n ty)
    | _ => none
  | .constFloat x ty =>
    match r with
    | .value v => some (.constFloat v x ty)
    | _ => none
  | .call callee args => some (.call none callee args none)
  | .ret values => some (.ret values)
  | .push ins _ => some ins
  | _ => none

def Command.target (b : Option BlockId) : Command → Option BlockId
  | .setCurrent c => some c
  | _ => b

/-- The ways for a command to succeed: it adds a block or a parameter, or it sets values aside and
may push an instruction to the current block. -/
inductive Step (s : Builder) (c : Command) (r : Reply) : Builder → Prop
  | block {name : Option String} : c = .createBlock name → Step s c r (s.createBlock name).2
  | param {b : BlockId} {name : Option String} {ty : Ty} {v : ValueId} {t : Builder} :
      c = .addParam b name ty → s.addParam b name ty = .ok (v, t) → Step s c r t
  | reserved {next : Nat} : c.pushed? r = none → s.func.nextValue ≤ next →
      Step s c r ⟨{ s.func with nextValue := next }, c.target s.current⟩
  | pushed {next : Nat} {d : Draft} {t : Builder} : c.pushed? r = some d.instr →
      c.target s.current = s.current → s.func.nextValue ≤ next →
      push { s with func := { s.func with nextValue := next } } d = .ok t → Step s c r t

theorem Step.define {s t : Builder} {c : Command} {r : Reply} {make : ValueId → Draft} {v : ValueId}
    (hc : c.pushed? r = some (make v).instr) (htarget : c.target s.current = s.current)
    (h : s.define make = .ok (v, t)) : s.Step c r t := by
  obtain ⟨u, hu, hpush⟩ := define_eq_ok.mp h
  obtain ⟨-, -, rfl⟩ := fresh_eq_ok.mp hu
  exact .pushed hc htarget (Nat.le_succ _) hpush

theorem step_eq_ok {s t : Builder} {c : Command} {r : Reply} (h : s.step c = .ok (r, t)) :
    s.Step c r t := by
  cases c with
  | createBlock name =>
    cases h
    exact .block rfl
  | addParam b name ty =>
    obtain ⟨⟨v, u⟩, hp, h⟩ := bind_eq_ok.mp h
    cases h
    exact .param rfl hp
  | setCurrent b =>
    cases h
    exact .reserved rfl (Nat.le_refl _)
  | current =>
    rw [step] at h
    split at h
    · cases h
      exact .reserved rfl (Nat.le_refl _)
    · cases h
  | isTerminated =>
    cases h
    exact .reserved rfl (Nat.le_refl _)
  | fresh =>
    obtain ⟨⟨v, u⟩, hu, h⟩ := bind_eq_ok.mp h
    cases h
    obtain ⟨-, -, rfl⟩ := fresh_eq_ok.mp hu
    exact .reserved rfl (Nat.le_succ _)
  | constInt n ty =>
    obtain ⟨⟨v, u⟩, hp, h⟩ := bind_eq_ok.mp h
    cases h
    exact .define rfl rfl hp
  | constFloat x ty =>
    obtain ⟨⟨v, u⟩, hp, h⟩ := bind_eq_ok.mp h
    cases h
    exact .define rfl rfl hp
  | call callee args =>
    obtain ⟨u, hp, h⟩ := bind_eq_ok.mp h
    cases h
    exact .pushed rfl rfl (Nat.le_refl _) hp
  | ret values =>
    obtain ⟨u, hp, h⟩ := bind_eq_ok.mp h
    cases h
    exact .pushed rfl rfl (Nat.le_refl _) hp
  | push ins ty =>
    obtain ⟨u, hp, h⟩ := bind_eq_ok.mp h
    cases h
    exact .pushed rfl rfl (Nat.le_refl _) hp

theorem run_cons_eq_ok {s t : Builder} {c : Command} {cs : List Command} {rs : List Reply}
    (hrun : s.run (c :: cs) = (rs, .ok t)) :
    ∃ r rs' u, s.step c = .ok (r, u) ∧ u.run cs = (rs', .ok t) ∧ rs = r :: rs' := by
  rw [run] at hrun
  split at hrun
  · cases hrun
  · next r u hu =>
    rcases hrest : u.run cs with ⟨rs', o⟩
    rw [hrest] at hrun
    cases hrun
    exact ⟨r, rs', u, hu, hrest, rfl⟩

section Step

variable {s t : Builder} (hs : s.func.Consistent)
include hs

theorem consistent_fresh {v : ValueId} (h : s.fresh = .ok (v, t)) : t.func.Consistent := by
  obtain ⟨-, -, rfl⟩ := fresh_eq_ok.mp h
  exact hs.withNextValue _

theorem consistent_addParam {b : BlockId} {name : Option String} {ty : Ty} {v : ValueId}
    (h : s.addParam b name ty = .ok (v, t)) : t.func.Consistent := by
  obtain ⟨u, blk, hu, hb, rfl⟩ := addParam_eq_ok.mp h
  exact (consistent_fresh hs hu).withParam (p := ⟨v, ty, name⟩) hb rfl rfl rfl rfl

theorem consistent_step {c : Command} {r : Reply} (h : s.step c = .ok (r, t)) :
    t.func.Consistent := by
  cases step_eq_ok h with
  | block => exact hs.withBlock rfl rfl rfl rfl
  | param _ hadd => exact consistent_addParam hs hadd
  | reserved => exact hs.withNextValue _
  | pushed _ _ _ hpush =>
    obtain ⟨b, blk, -, -, hb, rfl⟩ := push_eq_ok.mp hpush
    exact (hs.withNextValue _).splice hb _ _

theorem consistent_run {cs : List Command} {rs : List Reply} (h : s.run cs = (rs, .ok t)) :
    t.func.Consistent := by
  induction cs generalizing s rs with
  | nil =>
    cases h
    exact hs
  | cons c cs ih =>
    obtain ⟨r, rs', u, hu, hrun, -⟩ := run_cons_eq_ok h
    exact ih (consistent_step hs hu) hrun

end Step

theorem consistent_new (name : String) (params : List Param) (returnTy : Ty) :
    (new name params returnTy).func.Consistent where
  blockId n blk h := by simp [new, Function.empty] at h
  nodup := List.nodup_nil
  mem_listed i := by simp [new, Function.empty, Function.listed, Function.instr?]
  recorded :=
    ⟨fun v i h => by simp [new, Function.empty, Function.definition?] at h,
      fun v b h => by simp [new, Function.empty, Function.definition?] at h, fun _ => rfl⟩

end Builder

namespace Cursor

theorem insert_eq_ok {c c' : Cursor} {d : Draft} {i : InstrId} :
    c.insert d = .ok (i, c') ↔ ∃ blk, c.func.block? c.block = some blk ∧
      c.index ≤ blk.body.length ∧ i = c.func.nextHandle ∧
      c' = { c with func := c.func.splice c.block c.index [d], index := c.index + 1 } := by
  constructor
  · intro h
    unfold insert at h
    split at h
    · cases h
    · next blk hb =>
      split at h
      · next hle =>
        cases h
        exact ⟨blk, hb, hle, rfl, rfl⟩
      · cases h
  · rintro ⟨blk, hb, hle, rfl, rfl⟩
    simp only [insert, hb, if_pos hle]

theorem define_eq_ok {c c' : Cursor} {make : ValueId → Draft} {v : ValueId} :
    c.define make = .ok (v, c') ↔ c.func.nextValue + 1 < idLimit ∧ v = c.func.freshValue ∧
      ∃ i, insert { c with func := c.func.reserve 1 } (make v) = .ok (i, c') := by
  unfold define
  split
  · next hlt =>
    rw [bind_eq_ok]
    constructor
    · rintro ⟨⟨i, d⟩, hd, h⟩
      cases h
      exact ⟨hlt, rfl, i, hd⟩
    · rintro ⟨-, rfl, i, hd⟩
      exact ⟨(i, c'), hd, rfl⟩
  · next hlt =>
    constructor
    · rintro ⟨⟩
    · exact fun h => absurd h.1 hlt

theorem run_cons_eq_ok {c d : Cursor} {cmd : Command} {cmds : List Command} {rs : List Reply}
    (hrun : c.run (cmd :: cmds) = (rs, .ok d)) :
    ∃ r rs' e, c.step cmd = .ok (r, e) ∧ e.run cmds = (rs', .ok d) ∧ rs = r :: rs' := by
  rw [run] at hrun
  split at hrun
  · cases hrun
  · next r e he =>
    rcases hrest : e.run cmds with ⟨rs', o⟩
    rw [hrest] at hrun
    cases hrun
    exact ⟨r, rs', e, he, hrest, rfl⟩

def Inserted (c : Cursor) (g : Function) : Prop :=
  ∃ blk next d, c.func.block? c.block = some blk ∧
    g = { c.func with nextValue := next }.splice c.block c.index [d]

section Step

variable {c c' : Cursor}

theorem inserted_of_insert {d : Draft} {i : InstrId} (h : c.insert d = .ok (i, c')) :
    c.Inserted c'.func := by
  obtain ⟨blk, hb, -, -, rfl⟩ := insert_eq_ok.mp h
  exact ⟨blk, c.func.nextValue, d, hb, rfl⟩

theorem inserted_of_define {make : ValueId → Draft} {v : ValueId}
    (h : c.define make = .ok (v, c')) : c.Inserted c'.func := by
  obtain ⟨-, -, i, hi⟩ := define_eq_ok.mp h
  obtain ⟨blk, hb, -, -, rfl⟩ := insert_eq_ok.mp hi
  exact ⟨blk, (c.func.reserve 1).nextValue, make v, hb, rfl⟩

theorem func_step {cmd : Command} {r : Reply} (h : c.step cmd = .ok (r, c')) :
    c'.func = c.func ∨ c.Inserted c'.func := by
  unfold step at h
  split at h
  · obtain ⟨p, hp, h⟩ := bind_eq_ok.mp h
    cases h
    exact Or.inr (inserted_of_define hp)
  · split at h
    · obtain ⟨p, hp, h⟩ := bind_eq_ok.mp h
      cases h
      exact Or.inr (inserted_of_insert hp)
    · obtain ⟨p, hp, h⟩ := bind_eq_ok.mp h
      cases h
      exact Or.inr (inserted_of_insert hp)
    · obtain ⟨p, hp, h⟩ := bind_eq_ok.mp h
      cases h
      exact Or.inr (inserted_of_insert hp)
    · next i =>
      split at h
      · next d hd =>
        cases h
        obtain ⟨p, -, rfl⟩ := Option.map_eq_some_iff.mp hd
        exact Or.inl rfl
      · cases h
        exact Or.inl rfl
    · cases h
      exact Or.inl rfl

variable (hc : c.func.Consistent)
include hc

theorem consistent_step {cmd : Command} {r : Reply} (h : c.step cmd = .ok (r, c')) :
    c'.func.Consistent := by
  rcases func_step h with heq | ⟨blk, next, d, hb, heq⟩
  · rw [heq]
    exact hc
  · rw [heq]
    exact (hc.withNextValue next).splice hb _ _

theorem consistent_run {cmds : List Command} {rs : List Reply}
    (h : c.run cmds = (rs, .ok c')) : c'.func.Consistent := by
  induction cmds generalizing c rs with
  | nil =>
    cases h
    exact hc
  | cons cmd cmds ih =>
    obtain ⟨r, rs', d, hd, hrun, -⟩ := run_cons_eq_ok h
    exact ih (consistent_step hc hd) hrun

end Step

end Cursor

theorem Function.exists_entry {f : Function} {stores : List OutputStore}
    (h : OutputStore.all f = .ok stores) (hne : stores ≠ []) :
    ∃ blk, f.block? .entry = some blk := by
  cases hb : f.blocks with
  | nil =>
    rw [OutputStore.all, instrs, hb] at h
    cases h
    exact absurd rfl hne
  | cons blk rest => exact ⟨blk, by rw [block?, hb]; rfl⟩

namespace Function.Consistent

variable {f : Function} (hf : f.Consistent)
include hf

theorem emit {b : BlockId} {blk : Block} (hb : f.block? b = some blk) (k : Nat)
    (code : List Draft) (next : Nat) : (f.emit b k code next).Consistent :=
  (hf.withNextValue next).splice hb k code

theorem emit_position {i : InstrId} {b : BlockId} {k : Nat} (hp : f.position? i = some (b, k))
    (code : List Draft) (next : Nat) : (f.emit b k code next).Consistent := by
  obtain ⟨blk, hb, -⟩ := hf.position?_eq_some.mp hp
  exact hf.emit hb k code next

theorem lowerStores (slots : List Scratch) (stores : List OutputStore) :
    (lowerStores slots stores f).1.Consistent := by
  induction stores generalizing f with
  | nil => exact hf
  | cons o rest ih =>
    rw [ShaderIR.lowerStores]
    split
    · exact hf
    · split
      · exact hf
      · next b k hp =>
        dsimp only
        split
        · exact hf.emit_position hp _ _
        · exact ih (hf.emit_position hp _ _)

theorem emitEpilogue (ret : InstrId) (slots : List Scratch) (m : Metadata) :
    (emitEpilogue ret slots f m).1.Consistent := by
  induction slots generalizing f m with
  | nil => exact hf
  | cons s rest ih =>
    rw [ShaderIR.emitEpilogue]
    split
    · exact hf
    · next b k hp =>
      dsimp only
      split
      · exact hf.emit_position hp _ _
      · exact ih (hf.emit_position hp _ _) _

theorem emitEpilogues (slots : List Scratch) (rets : List InstrId) (m : Metadata) :
    (emitEpilogues slots rets f m).1.Consistent := by
  induction rets generalizing f m with
  | nil => exact hf
  | cons ret rest ih =>
    have h := hf.emitEpilogue ret slots m
    rw [ShaderIR.emitEpilogues]
    split
    · next heq =>
      rw [heq] at h
      exact h
    · next heq =>
      rw [heq] at h
      exact ih h _

theorem eraseStores (stores : List OutputStore) : (Preserve.eraseStores stores f).Consistent := by
  induction stores generalizing f with
  | nil => exact hf
  | cons o rest ih =>
    refine ih (f := ((f.erase o.call).map Prod.snd).getD f) ?_
    cases h : f.erase o.call with
    | none => exact hf
    | some p => exact hf.erase h

theorem redirectStores (slots : List Scratch) (stores : List OutputStore) (m : Metadata) :
    (Preserve.redirectStores slots stores f m).func.Consistent := by
  have hl := hf.lowerStores slots stores
  unfold Preserve.redirectStores
  split
  · next heq =>
    rw [heq] at hl
    exact hl
  · next g heq =>
    rw [heq] at hl
    have he := hl.emitEpilogues slots g.returns m
    dsimp only
    split
    · next heq' =>
      rw [heq'] at he
      exact he
    · next heq' =>
      rw [heq'] at he
      exact he.eraseStores stores

theorem redirect {blk : Block} (hb : f.block? .entry = some blk) (m : Metadata)
    (stores : List OutputStore) (targets : List Target) :
    (Preserve.redirect f m stores targets).func.Consistent := by
  have h := (hf.emit hb 0 ((Scratch.allot f.nextValue targets).map Scratch.alloca)
    (f.nextValue + (Scratch.allot f.nextValue targets).length)).redirectStores
      (Scratch.allot f.nextValue targets) stores m
  unfold Preserve.redirect Preserve.guardIds
  dsimp only
  split
  · split <;> exact h
  · exact hf

theorem preserve (m : Metadata) : (Preserve.run f m).func.Consistent := by
  unfold Preserve.run
  split
  · exact hf
  · exact hf
  · next stores hne hall =>
    split
    · exact hf
    · next targets _ =>
      obtain ⟨blk, hb⟩ := exists_entry hall hne
      exact hf.redirect hb m stores targets

end Function.Consistent

namespace Function

/-- The functions that building, editing and the pass can produce. -/
inductive Made : Function → Prop
  | build {name : String} {params : List Param} {returnTy : Ty} {cs : List Builder.Command}
      {rs : List Reply} {s : Builder} {f : Function} :
      (Builder.new name params returnTy).run cs = (rs, .ok s) → s.build = .ok f → Made f
  | editFrom {f : Function} {b : BlockId} {cmds : List Cursor.Command} {rs : List Reply}
      {c : Cursor} :
      Made f → (Cursor.atBlockStart f b).run cmds = (rs, .ok c) → Made c.func
  | editBefore {f : Function} {i : InstrId} {c : Cursor} {cmds : List Cursor.Command}
      {rs : List Reply} {d : Cursor} :
      Made f → Cursor.before? f i = some c → c.run cmds = (rs, .ok d) → Made d.func
  | erase {f g : Function} {i : InstrId} {ins : Instr} :
      Made f → f.erase i = some (ins, g) → Made g
  | preserve {f : Function} {m : Metadata} :
      Made f → (∀ v, (Preserve.run f m).verdict ≠ .error (.violation v)) →
        Made (Preserve.run f m).func
  | withHeader {f : Function} {id : FunctionId} {name : String} {params : List Param}
      {returnTy : Ty} :
      Made f → Made { f with id := id, name := name, params := params, returnTy := returnTy }

theorem Made.consistent {f : Function} (hf : f.Made) : f.Consistent := by
  induction hf with
  | build hr hb =>
    obtain ⟨rfl, -⟩ := Builder.build_eq_ok.mp hb
    exact Builder.consistent_run (Builder.consistent_new _ _ _) hr
  | editFrom _ hr ih => exact Cursor.consistent_run (c := Cursor.atBlockStart _ _) ih hr
  | editBefore _ hc hr ih =>
    obtain ⟨p, -, rfl⟩ := Option.map_eq_some_iff.mp hc
    exact Cursor.consistent_run (c := ⟨_, p.1, p.2⟩) ih hr
  | erase _ h ih => exact ih.erase h
  | preserve _ _ ih => exact ih.preserve _
  | withHeader _ ih => exact ih.withHeader _ _ _ _

end Function

end ShaderIR
