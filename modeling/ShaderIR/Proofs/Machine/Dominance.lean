import ShaderIR.Proofs.Function.Extension
import ShaderIR.Proofs.Function.Made
import ShaderIR.Proofs.Function.WellFormed
import ShaderIR.Proofs.Machine.Trace

/-!
# Values on the paths of a run

The validator reads the blocks in their order, and a run follows the branches. A use that comes
after its definition in the layout can therefore be reached around the block of the definition,
and then the run ends at it for want of the value. This is the only way: whatever is defined in
a block that a run has passed stays bound.
-/

set_option autoImplicit false

namespace ShaderIR

/-- A step that fails for want of a value has found one of the given values unbound. -/
def Machine.Blames (m : Machine) (vs : List ValueId) {α : Type} (x : Except Stop α) : Prop :=
  ∀ v, x = .error (.error (.undefinedValue v)) → v ∈ vs ∧ m.values[v]? = none

namespace Machine.Blames

variable {m : Machine} {vs ws : List ValueId} {α β : Type}

theorem ok (a : α) : m.Blames vs (.ok a) := by
  intro v h
  cases h

theorem other {e : Stop} (h : ∀ v, e ≠ .error (.undefinedValue v)) :
    m.Blames vs (.error e : Except Stop α) :=
  fun v heq => absurd (Except.error.inj heq) (h v)

theorem mono {x : Except Stop α} (h : m.Blames vs x) (hsub : ∀ v ∈ vs, v ∈ ws) :
    m.Blames ws x :=
  fun v hx => ⟨hsub v (h v hx).1, (h v hx).2⟩

theorem bind {x : Except Stop α} {F : α → Except Stop β} (h : m.Blames vs x)
    (hF : ∀ a, m.Blames vs (F a)) : m.Blames vs (x >>= F) := by
  intro v hx
  rcases bind_eq_error.mp hx with hx | ⟨a, -, hx⟩
  · exact h v hx
  · exact hF a v hx

theorem get {v : ValueId} (hv : v ∈ vs) : m.Blames vs (m.get v) := by
  intro u h
  unfold Machine.get at h
  split at h
  · cases h
  · next hnone =>
    cases h
    exact ⟨hv, hnone⟩

theorem getAll (vs : List ValueId) : m.Blames vs (m.getAll vs) := by
  induction vs with
  | nil => exact ok []
  | cons v vs ih =>
    refine (get List.mem_cons_self).bind fun x => ?_
    exact (ih.mono fun u hu => List.mem_cons_of_mem v hu).bind fun xs => ok _

theorem int {v : ValueId} (hv : v ∈ vs) : m.Blames vs (m.int v) := by
  refine (get hv).bind fun x => ?_
  cases x with
  | int n => exact ok n
  | _ => exact other (by simp)

theorem pointer {v : ValueId} (hv : v ∈ vs) : m.Blames vs (m.pointer v) := by
  refine (get hv).bind fun x => ?_
  cases x with
  | pointer slot offset => exact ok _
  | _ => exact other (by simp)

theorem cell (slot offset : Nat) : m.Blames vs (m.cell slot offset) := by
  unfold Machine.cell
  split
  · exact ok _
  · exact other (by simp)

theorem index {v : ValueId} (hv : v ∈ vs) : m.Blames vs (m.index v) := by
  refine (int hv).bind fun n => ?_
  split
  · exact ok _
  · exact other (by simp)

theorem advance (offset n : Nat) (t : Ty) : m.Blames vs (Machine.advance offset n t) := by
  unfold Machine.advance
  split
  · exact ok _
  · exact other (by simp)

theorem select {t : Ty} {offset : Nat} {is : List ValueId} (his : ∀ v ∈ is, v ∈ vs) :
    m.Blames vs (m.select t offset is) := by
  induction is generalizing t offset with
  | nil =>
    rw [Machine.select]
    exact ok offset
  | cons v is ih =>
    rw [Machine.select]
    refine (index (his v List.mem_cons_self)).bind fun n => ?_
    cases t with
    | array elem len =>
      exact (advance offset n elem).bind fun o => ih fun u hu => his u (List.mem_cons_of_mem v hu)
    | _ => exact other (by simp)

theorem offset {t : Ty} {o : Nat} {is : List ValueId} (his : ∀ v ∈ is, v ∈ vs) :
    m.Blames vs (m.offset t o is) := by
  unfold Machine.offset
  split
  · exact other (by simp)
  · next t' _ =>
    cases is with
    | nil => exact ok o
    | cons v is =>
      refine (index (his v List.mem_cons_self)).bind fun n => ?_
      exact (advance o n t').bind fun o' => select fun u hu => his u (List.mem_cons_of_mem v hu)

theorem lift {x : Except RunError α} (h : ∀ v, x ≠ .error (.undefinedValue v)) :
    m.Blames vs (Machine.lift x) := by
  cases x with
  | ok a => exact ok a
  | error e =>
    refine other fun v heq => h v ?_
    cases heq
    rfl

theorem call (callee : String) (args : List ValueId) : m.Blames args (m.call callee args) := by
  have hop : m.Blames args (m.callOpcode? callee args) := by
    unfold Machine.callOpcode?
    split
    · exact (int List.mem_cons_self).bind fun n => ok _
    · exact ok none
  refine hop.bind fun op? => ?_
  cases op? with
  | none => exact other (by simp)
  | some op =>
    have hrecord : m.Blames args (m.outputRecord op args) := by
      unfold Machine.outputRecord
      split
      · refine (int (by simp)).bind fun n => ?_
        split
        · exact other (by simp)
        · exact (int (by simp)).bind fun _ => (int (by simp)).bind fun _ =>
            (get (by simp)).bind fun _ => ok _
      · exact other (by simp)
    exact hrecord.bind fun r => ok _

theorem jump (f : Function) (target : BlockId) (args : List ValueId) :
    m.Blames args (m.jump f target args) := by
  unfold Machine.jump
  split
  · exact other (by simp)
  · exact (getAll args).bind fun xs => ok _

end Machine.Blames

theorem Arith.width_ne_undefinedValue {α : Type} {F : Nat → Except RunError α} {v : ValueId}
    (t : Ty) (hF : ∀ w, F w ≠ .error (.undefinedValue v)) :
    (Arith.intWidth t >>= F) ≠ .error (.undefinedValue v) := by
  intro h
  rcases bind_eq_error.mp h with h | ⟨w, -, h⟩
  · unfold Arith.intWidth at h
    split at h <;> cases h
  · exact hF w h

theorem Arith.cast_ne_undefinedValue (op : CastOp) (source target : Ty) (x : Value)
    (v : ValueId) : Arith.cast op source target x ≠ .error (.undefinedValue v) := by
  unfold Arith.cast
  split
  · simp
  · exact width_ne_undefinedValue target (by simp)
  · exact width_ne_undefinedValue target (by simp)
  · exact width_ne_undefinedValue source fun w => width_ne_undefinedValue target (by simp)
  · exact width_ne_undefinedValue source (by simp)
  · exact width_ne_undefinedValue target (by simp)
  · simp
  · simp
  · simp

theorem Machine.blames_effect (f : Function) (m : Machine) (ins : Instr) :
    m.Blames ins.operands (m.effect f ins) := by
  cases ins with
  | constInt r n ty =>
    refine (Blames.lift fun v => ?_).bind fun w => .ok _
    unfold Arith.intWidth
    split <;> simp
  | constFloat r x ty =>
    refine (Blames.lift fun v => ?_).bind fun y => .ok _
    unfold Arith.floatConst
    split <;> simp
  | undef r ty => exact .ok _
  | binary r op lhs rhs ty =>
    refine (Blames.get (by simp [Instr.operands])).bind fun a => ?_
    refine (Blames.get (by simp [Instr.operands])).bind fun b => ?_
    refine (Blames.lift fun v => ?_).bind fun y => .ok _
    unfold Arith.binary
    split <;> simp
  | cast r op u ty =>
    refine (Blames.get (by simp [Instr.operands])).bind fun a => ?_
    exact (Blames.lift (Arith.cast_ne_undefinedValue op _ ty a)).bind fun y => .ok _
  | alloca r ty name =>
    simp only [effect]
    split
    · exact .ok _
    · exact .other (by simp)
  | gep r base indices inbounds ty =>
    refine (Blames.pointer (by simp [Instr.operands])).bind fun p => ?_
    exact (Blames.offset fun v hv => by simp [Instr.operands, hv]).bind fun o => .ok _
  | load r ptr ty =>
    refine (Blames.pointer (by simp [Instr.operands])).bind fun p => ?_
    exact (Blames.cell p.1 p.2).bind fun x => .ok _
  | store ptr value =>
    refine (Blames.pointer (by simp [Instr.operands])).bind fun p => ?_
    refine (Blames.get (by simp [Instr.operands])).bind fun x => ?_
    exact (Blames.cell p.1 p.2).bind fun y => .ok _
  | call r callee args ty => exact .call callee args
  | br target args => exact .jump f target args
  | condbr cond thenTo thenArgs elseTo elseArgs =>
    refine (Blames.get (by simp [Instr.operands])).bind fun x => ?_
    cases x with
    | int n =>
      dsimp only
      split
      · exact (Blames.jump f elseTo elseArgs).mono fun v hv => by simp [Instr.operands, hv]
      · exact (Blames.jump f thenTo thenArgs).mono fun v hv => by simp [Instr.operands, hv]
    | _ => exact .other (by simp)
  | ret values => exact (Blames.getAll values).bind fun xs => .ok _

namespace Machine

def Binds (m : Machine) (v : ValueId) : Prop := (m.values[v]?).isSome

variable {m : Machine} {v : ValueId}

theorem Binds.bind (h : m.Binds v) (w : ValueId) (x : Value) : (m.bind w x).Binds v := by
  rw [Binds, values_bind]
  split
  · rfl
  · exact h

theorem Binds.bindAll (h : m.Binds v) (bs : List (ValueId × Value)) : (m.bindAll bs).Binds v := by
  induction bs generalizing m with
  | nil => exact h
  | cons b bs ih => exact ih (h.bind b.1 b.2)

theorem Binds.apply (h : m.Binds v) (e : Effect) : (m.apply e).Binds v := by
  cases e with
  | assign w x => exact h.bind w x
  | allocate w cells =>
    rw [Binds, Machine.apply, values_allocate]
    split
    · rfl
    · exact h
  | jump target bs => exact h.bindAll bs
  | write | record | ret => exact h

theorem binds_bindAll {vs : List ValueId} {xs : List Value} (hlen : vs.length ≤ xs.length)
    (hv : v ∈ vs) : (m.bindAll (vs.zip xs)).Binds v := by
  rcases values_bindAll m (vs.zip xs) v with ⟨-, hnot⟩ | ⟨x, -, hx⟩
  · rw [List.map_fst_zip hlen] at hnot
    exact absurd hv hnot
  · rw [Binds, hx]
    rfl

theorem length_getAll {vs : List ValueId} {xs : List Value} (h : m.getAll vs = .ok xs) :
    xs.length = vs.length := by
  induction vs generalizing xs with
  | nil =>
    cases h
    rfl
  | cons w vs ih =>
    obtain ⟨x, -, h⟩ := bind_eq_ok.mp h
    obtain ⟨ys, hys, h⟩ := bind_eq_ok.mp h
    cases h
    rw [List.length_cons, List.length_cons, ih hys]

theorem binds_result {f : Function} {ins : Instr} {e : Effect} (h : m.effect f ins = .ok e)
    (hcall : ins.callee? = none) (hr : ins.result? = some v) : (m.apply e).Binds v := by
  have hs : ins.isTerminator = false := Instr.isTerminator_of_result? hr
  rcases effect_straight hs h with ⟨r, x, hr', -, rfl⟩ | ⟨r, ty, name, n, rfl, -, rfl⟩ |
    ⟨ptr, w, slot, o, x, rfl, -⟩ | ⟨r, callee, args, ty, o, rfl, -⟩
  · cases hr.symm.trans hr'
    rw [Binds, apply, values_bind, if_pos rfl]
    rfl
  · cases hr
    rw [Binds, apply, values_allocate, if_pos rfl]
    rfl
  · cases hr
  · cases hcall

end Machine

namespace Function

variable {f : Function}

/-- A path through the blocks of a function: the blocks that it leaves by a branch, and the block
where it arrives. -/
inductive Path (f : Function) : List BlockId → BlockId → Prop
  | entry : Path f [] .entry
  | branch {passed : List BlockId} {b target : BlockId} {ins : Instr} : Path f passed b →
    ins ∈ f.code b → target ∈ ins.successors → Path f (passed ++ [b]) target

def DefinedIn (f : Function) (b : BlockId) (v : ValueId) : Prop :=
  (∃ blk, f.block? b = some blk ∧ v ∈ blk.paramIds) ∨ ∃ ins ∈ f.code b, ins.result? = some v

/-- Every path to `b` passes `a`, or they are the same block. -/
def Dominates (f : Function) (a b : BlockId) : Prop :=
  ∀ passed, f.Path passed b → a ∈ passed ∨ a = b

/-- Calls have no results, and every branch passes an argument for each parameter. -/
structure Saturated (f : Function) : Prop where
  call : ∀ p ∈ f.instrs, p.2.callee? ≠ none → p.2.result? = none
  branch : ∀ p ∈ f.instrs, ∀ t ∈ p.2.branches, ∀ blk ∈ f.block? t.1,
    t.2.length = blk.params.length

def Forward (f : Function) : Prop :=
  ∀ blk ∈ f.blocks, ∀ ins ∈ f.code blk.id, ∀ target ∈ ins.successors, blk.id.index < target.index

/-- A run has come along a path, and everything that was defined on the way is bound. -/
structure Passed (f : Function) (c : Config) (passed : List BlockId) (done : List Instr) :
    Prop where
  path : f.Path passed c.block
  code : f.code c.block = done ++ c.rest
  params : ∀ blk, f.block? c.block = some blk → ∀ v ∈ blk.paramIds, c.machine.Binds v
  results : ∀ ins ∈ done, ∀ v, ins.result? = some v → c.machine.Binds v
  blocks : ∀ a ∈ passed, ∀ v, f.DefinedIn a v → c.machine.Binds v

theorem passed_start {entry : Block} {rest : List Block} (hb : f.blocks = entry :: rest)
    {args : List Value} (hargs : entry.params.length ≤ args.length) :
    f.Passed (f.start entry args) [] [] where
  path := .entry
  code := rfl
  params blk hblk v hv := by
    have hentry : f.block? .entry = some entry := by
      rw [block?, hb]
      rfl
    cases hblk.symm.trans hentry
    refine Machine.binds_bindAll ?_ hv
    rw [Block.paramIds, List.length_map]
    exact hargs
  results ins hi := nomatch hi
  blocks a ha := nomatch ha

theorem Consistent.exists_mem_of_code (hf : f.Consistent) {b : BlockId} {ins : Instr}
    (h : ins ∈ f.code b) : ∃ i, (i, ins) ∈ f.instrs := by
  obtain ⟨p, hp, rfl⟩ := List.mem_map.mp h
  exact ⟨p.1, hf.mem_instrs.mpr (instr?_of_mem_blockInstrs hp)⟩

theorem Valid.eq_nil_of_isTerminator (hv : f.Valid) {b : BlockId} {done rest : List Instr}
    {ins : Instr} (h : f.code b = done ++ ins :: rest) (ht : ins.isTerminator = true) :
    rest = [] := by
  obtain ⟨n⟩ := b
  have hk : (f.code ⟨n⟩)[done.length]? = some ins := by
    rw [h]
    simp
  have hlast := ((validate_iff_wellFormed f).mp (validate_eq_ok.mpr hv)).terminated n _ ins hk
  rw [hlast, h, List.length_append, List.length_cons] at ht
  exact List.length_eq_zero_iff.mp (by omega)

/-- Where a value is unbound that the next instruction uses, an earlier block defines it, and the
run has not passed that block. -/
theorem Passed.avoids (hv : f.Valid) {c : Config} {passed : List BlockId} {done : List Instr}
    (h : f.Passed c passed done) {ins : Instr} (hi : c.instr? = some ins) {v : ValueId}
    (huse : ins.Uses v) (hnone : c.machine.values[v]? = none) :
    ins ∈ f.code c.block ∧
      ∃ a, a.index < c.block.index ∧ f.DefinedIn a v ∧ a ∉ passed := by
  obtain ⟨rest, hrest⟩ := List.head?_eq_some_iff.mp hi
  have hcode : f.code c.block = done ++ ins :: rest := by rw [h.code, hrest]
  have hk : (f.code ⟨c.block.index⟩)[done.length]? = some ins := by
    show (f.code c.block)[done.length]? = some ins
    rw [hcode]
    simp
  have hunbound : ¬c.machine.Binds v := by simp [Machine.Binds, hnone]
  refine ⟨?_, ?_⟩
  · rw [hcode]
    exact List.mem_append_right _ List.mem_cons_self
  · have hscope := ((validate_iff_wellFormed f).mp (validate_eq_ok.mpr hv)).scope
    cases hscope _ _ ins hk v huse with
    | @param m blk _ hm hle hmem =>
      have hdef : f.DefinedIn ⟨m⟩ v := Or.inl ⟨blk, hm, hmem⟩
      refine ⟨⟨m⟩, ?_, hdef, fun ha => hunbound (h.blocks _ ha v hdef)⟩
      rcases Nat.lt_or_eq_of_le hle with hlt | rfl
      · exact hlt
      · exact absurd (h.params blk hm v hmem) hunbound
    | @result m j ins' _ hj hplace hr =>
      have hdef : f.DefinedIn ⟨m⟩ v := Or.inr ⟨ins', List.mem_of_getElem? hj, hr⟩
      refine ⟨⟨m⟩, ?_, hdef, fun ha => hunbound (h.blocks _ ha v hdef)⟩
      rcases hplace with hlt | ⟨rfl, hlt⟩
      · exact hlt
      · have hj' : (f.code c.block)[j]? = some ins' := hj
        rw [hcode, List.getElem?_append_left hlt] at hj'
        exact absurd (h.results ins' (List.mem_of_getElem? hj') v hr) hunbound

theorem Passed.binds_of_definedIn (hv : f.Valid) {c : Config} {passed : List BlockId}
    {done rest : List Instr} {ins : Instr} (h : f.Passed c passed done)
    (hrest : c.rest = ins :: rest) (ht : ins.isTerminator = true) {v : ValueId}
    (hdef : f.DefinedIn c.block v) : c.machine.Binds v := by
  rcases hdef with ⟨blk, hblk, hp⟩ | ⟨j, hj, hr⟩
  · exact h.params blk hblk v hp
  · have hcode : f.code c.block = done ++ ins :: rest := by rw [h.code, hrest]
    rw [hcode, hv.eq_nil_of_isTerminator hcode ht, List.mem_append, List.mem_singleton] at hj
    rcases hj with hj | rfl
    · exact h.results j hj v hr
    · rw [Instr.result?_of_isTerminator ht] at hr
      cases hr

section Step

variable (hf : f.Consistent) (hs : f.Saturated)
include hf hs

theorem Passed.straight {b : BlockId} {ins : Instr} {rest : List Instr} {m : Machine} {e : Effect}
    {passed : List BlockId} {done : List Instr} (h : f.Passed ⟨b, ins :: rest, m⟩ passed done)
    (he : m.effect f ins = .ok e) : f.Passed ⟨b, rest, m.apply e⟩ passed (done ++ [ins]) where
  path := h.path
  code := by
    rw [h.code]
    simp
  params blk hblk v hp := (h.params blk hblk v hp).apply e
  results j hj v hr := by
    rcases List.mem_append.mp hj with hj | hj
    · exact (h.results j hj v hr).apply e
    · cases List.mem_singleton.mp hj
      refine Machine.binds_result he ?_ hr
      by_contra hcall
      obtain ⟨i, hi⟩ := hf.exists_mem_of_code (h.code ▸ List.mem_append_right _ List.mem_cons_self)
      rw [hs.call (i, ins) hi hcall] at hr
      cases hr
  blocks a ha v hdef := (h.blocks a ha v hdef).apply e

variable (hv : f.Valid)
include hv

theorem Passed.branch {b target : BlockId} {ins : Instr} {rest : List Instr} {m : Machine}
    {args : List ValueId} {bs : List (ValueId × Value)} {passed : List BlockId}
    {done : List Instr} (h : f.Passed ⟨b, ins :: rest, m⟩ passed done)
    (hbranch : (target, args) ∈ ins.branches) (he : m.effect f ins = .ok (.jump target bs)) :
    f.Passed ⟨target, f.code target, m.bindAll bs⟩ (passed ++ [b]) [] := by
  have hmem : ins ∈ f.code b := h.code ▸ List.mem_append_right _ List.mem_cons_self
  obtain ⟨i, hi⟩ := hf.exists_mem_of_code hmem
  have ht : ins.isTerminator = true := Instr.isTerminator_of_branches hbranch
  have hret : ins.isReturn = false := by
    cases ins with
    | ret values => cases hbranch
    | _ => rfl
  obtain ⟨target', args', hjump, hbranch'⟩ := Machine.effect_branch ht hret he
  obtain ⟨blk, xs, hblk, hxs, heq⟩ := Machine.jump_eq_ok.mp hjump
  obtain ⟨rfl, rfl⟩ := Effect.jump.inj heq
  constructor
  case path => exact .branch h.path hmem (Instr.mem_successors_of_branches hbranch)
  case code => rfl
  case params =>
    intro blk' hblk' v hp
    cases hblk.symm.trans hblk'
    refine Machine.binds_bindAll ?_ hp
    rw [Machine.length_getAll hxs, hs.branch (i, ins) hi _ hbranch' blk hblk, Block.paramIds,
      List.length_map]
  case results =>
    intro j hj
    cases hj
  case blocks =>
    intro a ha v hdef
    refine Machine.Binds.bindAll ?_ _
    rcases List.mem_append.mp ha with ha | ha
    · exact h.blocks a ha v hdef
    · cases List.mem_singleton.mp ha
      exact h.binds_of_definedIn hv rfl ht hdef

/-- A step keeps what is bound, and adds what its instruction or its target defines. -/
theorem Passed.next? {c d : Config} {passed : List BlockId} {done : List Instr}
    (h : f.Passed c passed done) (hn : f.next? c = some d) :
    ∃ passed' done', f.Passed d passed' done' := by
  obtain ⟨b, is, m⟩ := c
  obtain ⟨ins, rest, e, hrest, he, hcases⟩ := next?_eq_some.mp hn
  cases hrest
  rcases hcases with ⟨hstraight, rfl⟩ | ⟨target, args, bs, hbranch, rfl, rfl⟩
  · exact ⟨passed, done ++ [ins], h.straight hf hs he⟩
  · exact ⟨passed ++ [b], [], h.branch hf hs hv hbranch he⟩

theorem Passed.trace {c d : Config} {cs : List Config} {passed : List BlockId}
    {done : List Instr} (h : f.Passed c passed done) (ht : f.Trace c cs d) :
    ∃ passed' done', f.Passed d passed' done' :=
  ht.invariant (P := fun c => ∃ passed done, f.Passed c passed done) ⟨passed, done, h⟩
    fun _ _ _ ⟨_, _, ha⟩ hn => ha.next? hf hs hv hn

end Step

theorem Valid.definedIn_unique (hv : f.Valid) {a b : BlockId} {v : ValueId}
    (ha : f.DefinedIn a v) (hb : f.DefinedIn b v) : a = b := by
  have hdefs : ∀ {c : BlockId}, f.DefinedIn c v → ∃ blk, f.blocks[c.index]? = some blk ∧
      v ∈ definitions (f.blockOccurrences blk) := by
    rintro ⟨n⟩ (⟨blk, hblk, hp⟩ | ⟨ins, hi, hr⟩)
    · refine ⟨blk, hblk, ?_⟩
      rw [blockOccurrences_eq, definitions_append, definitions_params]
      exact List.mem_append_left _ hp
    · obtain ⟨k, hk⟩ := List.mem_iff_getElem?.mp hi
      obtain ⟨blk, hblk⟩ := exists_block hk
      refine ⟨blk, hblk, ?_⟩
      rw [blockOccurrences_eq, definitions_append, ← code_eq hblk]
      exact List.mem_append_right _ (mem_definitions_instrs.mpr ⟨ins, hi, hr⟩)
  obtain ⟨blk, hblk, hmem⟩ := hdefs ha
  obtain ⟨blk', hblk', hmem'⟩ := hdefs hb
  have hnodup := hv.nodup
  rw [definitions, occurrences, List.flatMap_assoc] at hnodup
  have hdisjoint := List.pairwise_iff_getElem.mp (List.nodup_flatMap.mp hnodup).2
  obtain ⟨hn, rfl⟩ := List.getElem?_eq_some_iff.mp hblk
  obtain ⟨hm, rfl⟩ := List.getElem?_eq_some_iff.mp hblk'
  rcases Nat.lt_trichotomy a.index b.index with hlt | heq | hlt
  · exact absurd hmem' (hdisjoint _ _ hn hm hlt hmem)
  · cases a
    cases b
    exact congrArg BlockId.mk heq
  · exact absurd hmem (hdisjoint _ _ hm hn hlt hmem')

/-- A run that ends for want of a value has come to a use of it around the block that defines it,
which is an earlier one in the layout. -/
theorem exists_path_of_undefinedValue (hf : f.Consistent) (hv : f.Valid) (hs : f.Saturated)
    {args : List Value}
    (hargs : ∀ entry ∈ f.block? .entry, entry.params.length ≤ args.length)
    {v : ValueId} (h : f.evaluate args = .error (.error (.undefinedValue v))) :
    ∃ passed b ins a, f.Path passed b ∧ ins ∈ f.code b ∧ ins.Uses v ∧ f.DefinedIn a v ∧
      a.index < b.index ∧ a ∉ passed := by
  have hending : (f.run args).ending = .error (.error (.undefinedValue v)) := map_eq_error.mp h
  unfold run at hending
  split at hending
  · cases hending
  · next entry rest hb =>
    have hentry : f.block? .entry = some entry := by
      rw [block?, hb]
      rfl
    obtain ⟨cs, d, ins, htrace, hi, heffect⟩ := trace_of_exec_error hending (by simp)
    obtain ⟨passed, done, hpassed⟩ :=
      (passed_start hb (hargs entry hentry)).trace hf hs hv htrace
    obtain ⟨huse, hnone⟩ := d.machine.blames_effect f ins v heffect
    have huse := Instr.mem_operands.mp huse
    obtain ⟨hcode, a, hlt, hdef, hnot⟩ := hpassed.avoids hv hi huse hnone
    exact ⟨passed, d.block, ins, a, hpassed.path, hcode, huse, hdef, hlt, hnot⟩

/-- Every value that an instruction uses is defined in a block that dominates the instruction's. -/
def Dominated (f : Function) : Prop :=
  ∀ b ins v, ins ∈ f.code b → ins.Uses v → ∃ a, f.DefinedIn a v ∧ f.Dominates a b

/-- Validity is sufficient where definitions dominate their uses: no run ends for want of a value,
whichever way it goes. -/
theorem evaluate_ne_undefinedValue (hf : f.Made) (hv : f.validate = .ok ()) (hs : f.Saturated)
    (hdom : f.Dominated) {args : List Value}
    (hargs : ∀ entry ∈ f.block? .entry, entry.params.length ≤ args.length)
    (v : ValueId) : f.evaluate args ≠ .error (.error (.undefinedValue v)) := by
  intro h
  have hvalid := validate_eq_ok.mp hv
  obtain ⟨passed, b, ins, a, hpath, hcode, huse, hdef, hlt, hnot⟩ :=
    exists_path_of_undefinedValue hf.consistent hvalid hs hargs h
  obtain ⟨a', hdef', hdominates⟩ := hdom b ins v hcode huse
  cases hvalid.definedIn_unique hdef hdef'
  rcases hdominates passed hpath with hmem | rfl
  · exact hnot hmem
  · exact Nat.lt_irrefl _ hlt

theorem dominates_entry (f : Function) (b : BlockId) : f.Dominates .entry b := by
  intro passed hpath
  induction hpath with
  | entry => exact Or.inr rfl
  | branch hpath _ _ ih =>
    refine Or.inl (List.mem_append.mpr ?_)
    rcases ih with hmem | rfl
    · exact Or.inl hmem
    · exact Or.inr (List.mem_singleton.mpr rfl)

/-- The value that is passed to the join is defined in the entry, which dominates the branches. -/
def joiningCommands : List Builder.Command :=
  [.createBlock none, .addParam ⟨0⟩ none .i1, .createBlock none, .createBlock none,
    .addParam ⟨2⟩ none .i32, .setCurrent ⟨0⟩, .constInt 7 .i32,
    .push (.condbr ⟨0⟩ ⟨1⟩ [] ⟨2⟩ [⟨2⟩]) none, .setCurrent ⟨1⟩, .push (.br ⟨2⟩ [⟨2⟩]) none,
    .setCurrent ⟨2⟩, .ret [⟨1⟩]]

def joining : Function :=
  match ((Builder.new "main" [] .void).run joiningCommands).2 with
  | .ok s => s.func
  | .error _ => .empty "main" [] .void

theorem made_joining : joining.Made := by
  have hrun : ((Builder.new "main" [] .void).run joiningCommands).2 =
      .ok ⟨joining, some ⟨2⟩⟩ := rfl
  exact .build (Prod.ext rfl hrun) rfl

theorem dominated_joining : joining.Dominated := by
  have hcond : joining.DefinedIn .entry ⟨0⟩ := Or.inl ⟨_, rfl, by decide⟩
  have hconst : joining.DefinedIn .entry ⟨2⟩ :=
    Or.inr ⟨.constInt ⟨2⟩ 7 .i32, List.mem_cons_self, rfl⟩
  have hparam : joining.DefinedIn ⟨2⟩ ⟨1⟩ := Or.inl ⟨_, rfl, by decide⟩
  rintro ⟨n⟩ ins v hi huse
  have hv := Instr.mem_operands.mpr huse
  match n with
  | 0 =>
    have hi : ins ∈ [Instr.constInt ⟨2⟩ 7 .i32, .condbr ⟨0⟩ ⟨1⟩ [] ⟨2⟩ [⟨2⟩]] := hi
    rcases List.mem_pair.mp hi with rfl | rfl
    · cases hv
    · rcases List.mem_pair.mp hv with rfl | rfl
      · exact ⟨.entry, hcond, joining.dominates_entry _⟩
      · exact ⟨.entry, hconst, joining.dominates_entry _⟩
  | 1 =>
    cases List.mem_singleton.mp hi
    cases List.mem_singleton.mp hv
    exact ⟨.entry, hconst, joining.dominates_entry _⟩
  | 2 =>
    cases List.mem_singleton.mp hi
    cases List.mem_singleton.mp hv
    exact ⟨⟨2⟩, hparam, fun _ _ => Or.inr rfl⟩
  | n + 3 => cases hi

theorem joining_ne_undefinedValue : joining.Made ∧ joining.validate = .ok () ∧
    joining.Saturated ∧ joining.Dominated ∧
    (∀ entry ∈ joining.block? .entry, entry.params.length ≤ [Value.int 1].length) ∧
    ∀ v, joining.evaluate [.int 1] ≠ .error (.error (.undefinedValue v)) := by
  have hvalid : joining.validate = .ok () := rfl
  have hsaturated : joining.Saturated := ⟨by decide, by decide⟩
  have hargs : ∀ entry ∈ joining.block? .entry, entry.params.length ≤ [Value.int 1].length := by
    decide
  exact ⟨made_joining, hvalid, hsaturated, dominated_joining, hargs,
    evaluate_ne_undefinedValue made_joining hvalid hsaturated dominated_joining hargs⟩

/-- The second block defines what the third returns. -/
def skippingCommands : List Builder.Command :=
  [.createBlock none, .addParam ⟨0⟩ none .i1, .createBlock none, .createBlock none,
    .setCurrent ⟨0⟩, .push (.condbr ⟨0⟩ ⟨1⟩ [] ⟨2⟩ []) none, .setCurrent ⟨1⟩,
    .constInt 7 .i32, .ret [], .setCurrent ⟨2⟩, .ret [⟨1⟩]]

def skipping : Function :=
  match ((Builder.new "main" [] .void).run skippingCommands).2 with
  | .ok s => s.func
  | .error _ => .empty "main" [] .void

theorem made_skipping : skipping.Made := by
  have hrun : ((Builder.new "main" [] .void).run skippingCommands).2 =
      .ok ⟨skipping, some ⟨2⟩⟩ := rfl
  exact .build (Prod.ext rfl hrun) rfl

/-- The third block uses a value that is defined before it in the layout, but not on the way
around the second block. -/
theorem skipping_undefinedValue : skipping.Made ∧ skipping.validate = .ok () ∧
    skipping.Forward ∧ skipping.Saturated ∧
    (∀ entry ∈ skipping.block? .entry, entry.params.length ≤ [Value.int 0].length) ∧
    skipping.evaluate [.int 0] = .error (.error (.undefinedValue ⟨1⟩)) := by
  have hforward : skipping.Forward := by
    unfold Forward
    decide
  exact ⟨made_skipping, rfl, hforward, ⟨by decide, by decide⟩, by decide, rfl⟩

end Function

end ShaderIR
