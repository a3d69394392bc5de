import ShaderIR.Proofs.Function.Insertion
import ShaderIR.Proofs.Preserve.Growth

/-!
# The place of a cursor

A cursor that has been placed in a function stays at an index of one of its blocks, whatever it
inserts and wherever it moves. It steps over each instruction that it places, so what it places
between two moves is one piece of code, put in where the cursor stood. All handles that were
listed before keep their order.
-/

set_option autoImplicit false

namespace ShaderIR

theorem handles_append (start m n : Nat) :
    handles start (m + n) = handles start m ++ handles (start + m) n := by
  rw [handles, handles, handles, ← List.map_append, ← List.range'_append, Nat.one_mul]

namespace Function

theorem foldl_allocate_editBody (f : Function) (b : BlockId) (g : List InstrId → List InstrId)
    (ds : List Draft) :
    ds.foldl allocate (f.editBody b g) = (ds.foldl allocate f).editBody b g := by
  induction ds generalizing f with
  | nil => rfl
  | cons d ds ih =>
    have hd : (f.editBody b g).allocate d = (f.allocate d).editBody b g := by
      unfold allocate editBody
      split <;> rfl
    rw [List.foldl_cons, hd, ih, List.foldl_cons]

theorem editBody_editBody {f : Function} {b : BlockId} {blk : Block}
    (hb : f.block? b = some blk) {g h j : List InstrId → List InstrId}
    (heq : h (g blk.body) = j blk.body) : (f.editBody b g).editBody b h = f.editBody b j := by
  have hblocks : ((f.editBody b g).editBody b h).blocks = (f.editBody b j).blocks := by
    refine List.ext_getElem? fun n => ?_
    show ((f.editBody b g).editBody b h).block? ⟨n⟩ = (f.editBody b j).block? ⟨n⟩
    rw [block?_editBody, block?_editBody, block?_editBody]
    by_cases hbn : b = ⟨n⟩
    · subst hbn
      simp only [hb, Option.map_some, if_pos, heq]
    · simp only [if_neg hbn, Option.map_id']
  exact congrArg (fun blocks => { f with blocks := blocks }) hblocks

theorem splice_nil (f : Function) (b : BlockId) (k : Nat) : f.splice b k [] = f := by
  have hsame : (fun is : List InstrId => is.take k ++ handles f.arena.size 0 ++ is.drop k) =
      fun is => is := by
    funext is
    simp [handles]
  show f.editBody b (fun is => is.take k ++ handles f.arena.size 0 ++ is.drop k) = f
  rw [hsame]
  exact congrArg (fun blocks => { f with blocks := blocks }) (List.modify_id b.index f.blocks)

theorem splice_splice {f : Function} {b : BlockId} {blk : Block} (hb : f.block? b = some blk)
    {k : Nat} (hk : k ≤ blk.body.length) (code more : List Draft) :
    (f.splice b k code).splice b (k + code.length) more = f.splice b k (code ++ more) := by
  have hsize : (f.splice b k code).arena.size = f.arena.size + code.length := by
    rw [arena_splice]
    simp
  have hblk : ((code ++ more).foldl allocate f).block? b = some blk := by
    rw [block?, blocks_foldl_allocate]
    exact hb
  have hlength : (blk.body.take k ++ handles f.arena.size code.length).length =
      k + code.length := by
    rw [List.length_append, List.length_take, Nat.min_eq_left hk, length_handles]
  -- all instructions can enter the arena first, and then both runs of handles the block
  rw [splice, hsize, splice, foldl_allocate_editBody, ← List.foldl_append, splice]
  refine editBody_editBody hblk ?_
  rw [List.take_left' hlength, List.drop_left' hlength, List.length_append, handles_append]
  simp only [List.append_assoc]

theorem splice_withNextValue (f : Function) (n : Nat) (b : BlockId) (k : Nat) (ds : List Draft) :
    { f with nextValue := n }.splice b k ds = { f.splice b k ds with nextValue := n } := by
  have hall : ∀ g : Function, ds.foldl allocate { g with nextValue := n } =
      { ds.foldl allocate g with nextValue := n } := by
    induction ds with
    | nil => exact fun _ => rfl
    | cons d ds ih =>
      intro g
      have hd : allocate { g with nextValue := n } d = { g.allocate d with nextValue := n } := by
        unfold allocate
        split <;> rfl
      rw [List.foldl_cons, hd, ih, List.foldl_cons]
  rw [splice, hall]
  rfl

theorem emit_emit {f : Function} {b : BlockId} {blk : Block} (hb : f.block? b = some blk) {k : Nat}
    (hk : k ≤ blk.body.length) (code more : List Draft) (n m : Nat) :
    (f.emit b k code n).emit b (k + code.length) more m = f.emit b k (code ++ more) m :=
  calc
    _ = { f.splice b k code with nextValue := m }.splice b (k + code.length) more := by
      rw [emit, emit, splice_withNextValue f n]
    _ = { (f.splice b k code).splice b (k + code.length) more with nextValue := m } :=
      splice_withNextValue _ m b _ more
    _ = { f.splice b k (code ++ more) with nextValue := m } := by rw [splice_splice hb hk]
    _ = f.emit b k (code ++ more) m := (splice_withNextValue f m b k _).symm

theorem emit_nil (f : Function) (b : BlockId) (k : Nat) : f.emit b k [] f.nextValue = f :=
  f.splice_nil b k

theorem Consistent.blockInstrs_emit {f : Function} (hf : f.Consistent) {b : BlockId} {blk : Block}
    (hb : f.block? b = some blk) {k : Nat} (hk : k ≤ blk.body.length) (code : List Draft)
    (next : Nat) (c : BlockId) :
    (f.emit b k code next).blockInstrs c =
      if b = c then
        (f.blockInstrs c).take k ++ placed f.arena.size code ++ (f.blockInstrs c).drop k
      else f.blockInstrs c := by
  have hblock : (f.emit b k code next).block? c = (f.block? c).map _ :=
    block?_splice { f with nextValue := next } b k code c
  unfold blockInstrs
  rw [hblock]
  by_cases hbc : b = c
  · subst hbc
    rw [hb, Option.map_some, if_pos rfl, if_pos rfl]
    exact hf.resolve_emit_placed hb hk code next
  · cases hc : f.block? c with
    | none => rw [Option.map_none, if_neg hbc]
    | some blk' =>
      rw [Option.map_some, if_neg hbc, if_neg hbc]
      exact hf.resolve_emit_old code next b (List.mem_of_getElem? hc) fun i hi => hi

theorem getElem?_bodyOf_emit {f : Function} {b : BlockId} {blk : Block}
    (hb : f.block? b = some blk) {k : Nat} (hk : k ≤ blk.body.length) (code : List Draft)
    (next : Nat) : ((f.emit b k code next).bodyOf b)[k + code.length]? = (f.bodyOf b)[k]? := by
  have hbody : (f.emit b k code next).bodyOf b = _ :=
    bodyOf_splice (f := { f with nextValue := next }) hb k code b
  have hlength : ((f.bodyOf b).take k ++ handles f.arena.size code.length).length =
      k + code.length := by
    rw [List.length_append, List.length_take, bodyOf_eq hb, Nat.min_eq_left hk, length_handles]
  rw [hbody, if_pos rfl]
  show ((f.bodyOf b).take k ++ handles f.arena.size code.length ++ (f.bodyOf b).drop k)[_]? = _
  rw [List.getElem?_append_right (Nat.le_of_eq hlength), hlength, Nat.sub_self,
    List.getElem?_drop, Nat.add_zero]

end Function

namespace Cursor

/-- What a command places: an instruction of its own, which takes the next fresh value, or the one
that it is given. -/
def placed? (f : Function) (cmd : Command) : Option Draft :=
  match draft? f cmd with
  | some make => some (make f.freshValue)
  | none =>
    match cmd with
    | .store value ptr => some (.store value ptr)
    | .call callee args _ => some (.call none callee args none)
    | .insert ins ty => some ⟨ins, ty⟩
    | _ => none

/-- What a list of commands places, in the order of the commands. -/
def placements (c : Cursor) : List Command → List Draft
  | [] => []
  | cmd :: cmds =>
    (placed? c.func cmd).toList ++
      match c.step cmd with
      | .ok (_, d) => d.placements cmds
      | .error _ => []

/-- The ways for a command to succeed: it places an instruction and steps over it, or it moves the
cursor before a live instruction, or there is no such instruction. -/
inductive Step (c : Cursor) (cmd : Command) : Reply → Cursor → Prop
  | placed {r : Reply} {d : Draft} {next : Nat} :
      placed? c.func cmd = some d → r ≠ .flag true → next ≤ c.func.nextValue + 1 →
      Step c cmd r (c.past d next)
  | moved {i : InstrId} {b : BlockId} {k : Nat} :
      cmd = .move i → c.func.position? i = some (b, k) → Step c cmd (.flag true) ⟨c.func, b, k⟩
  | stayed {i : InstrId} :
      cmd = .move i → c.func.position? i = none → Step c cmd (.flag false) c

/-- A cursor stands at an index of a block, or at its end. -/
structure InBounds (c : Cursor) : Prop where
  consistent : c.func.Consistent
  point : ∃ blk, c.func.block? c.block = some blk ∧ c.index ≤ blk.body.length

theorem PlacedIn.inBounds {f : Function} {c : Cursor} (hf : f.Consistent) (h : PlacedIn f c) :
    c.func = f ∧ c.InBounds := by
  cases h with
  | @blockStart b blk hb => exact ⟨rfl, hf, blk, hb, Nat.zero_le _⟩
  | @before i _ hc =>
    obtain ⟨⟨b, k⟩, hp, rfl⟩ := Option.map_eq_some_iff.mp hc
    obtain ⟨blk, hb, hk⟩ := hf.position?_eq_some.mp hp
    exact ⟨rfl, hf, blk, hb, Nat.le_of_lt (List.getElem?_eq_some_iff.mp hk).1⟩

theorem step_move_of_some {c : Cursor} {i : InstrId} {b : BlockId} {k : Nat}
    (hp : c.func.position? i = some (b, k)) :
    c.step (.move i) = .ok (.flag true, ⟨c.func, b, k⟩) := by
  have hbefore : before? c.func i = some ⟨c.func, b, k⟩ := by rw [before?, hp, Option.map_some]
  unfold step
  simp only [draft?, hbefore]

theorem step_move_of_none {c : Cursor} {i : InstrId} (hp : c.func.position? i = none) :
    c.step (.move i) = .ok (.flag false, c) := by
  have hbefore : before? c.func i = none := by rw [before?, hp, Option.map_none]
  unfold step
  simp only [draft?, hbefore]

section Step

variable {c : Cursor} (h : c.InBounds)
include h

theorem insert_eq_past (d : Draft) :
    c.insert d = .ok (c.func.nextHandle, c.past d c.func.nextValue) := by
  obtain ⟨blk, hb, hle⟩ := h.point
  exact insert_eq_ok.mpr ⟨blk, hb, hle, rfl, rfl⟩

theorem step_cases (cmd : Command) :
    (c.step cmd = .error .overflow ∧ idLimit ≤ c.func.nextValue + 1) ∨
      ∃ r d, c.step cmd = .ok (r, d) ∧ Step c cmd r d := by
  cases hcmd : draft? c.func cmd with
  | some make =>
    have hstep : c.step cmd = c.define make >>= fun p => .ok (.value p.1, p.2) := by
      unfold step
      rw [hcmd]
    rw [hstep]
    by_cases hids : c.func.nextValue + 1 < idLimit
    · have hreserved : InBounds { c with func := c.func.reserve 1 } :=
        ⟨h.consistent.withNextValue _, h.point⟩
      have hdefine : c.define make = .ok (c.func.freshValue,
          c.past (make c.func.freshValue) (c.func.nextValue + 1)) :=
        define_eq_ok.mpr ⟨hids, rfl, _, insert_eq_past hreserved _⟩
      have hplaced : placed? c.func cmd = some (make c.func.freshValue) := by
        unfold placed?
        rw [hcmd]
      rw [hdefine]
      exact Or.inr ⟨_, _, rfl, .placed hplaced (by rintro ⟨⟩) (Nat.le_refl _)⟩
    · rw [define, if_neg hids]
      exact Or.inl ⟨rfl, Nat.not_lt.mp hids⟩
  | none =>
    cases cmd with
    | store value ptr =>
      refine Or.inr ⟨_, _, bind_eq_ok.mpr ⟨_, insert_eq_past h _, rfl⟩, ?_⟩
      exact .placed rfl (by rintro ⟨⟩) (Nat.le_succ _)
    | call callee args ty =>
      cases ty with
      | some t => cases hcmd
      | none =>
        refine Or.inr ⟨_, _, bind_eq_ok.mpr ⟨_, insert_eq_past h _, rfl⟩, ?_⟩
        exact .placed rfl (by rintro ⟨⟩) (Nat.le_succ _)
    | insert ins ty =>
      refine Or.inr ⟨_, _, bind_eq_ok.mpr ⟨_, insert_eq_past h _, rfl⟩, ?_⟩
      exact .placed rfl (by rintro ⟨⟩) (Nat.le_succ _)
    | move i =>
      cases hp : c.func.position? i with
      | none => exact Or.inr ⟨_, _, step_move_of_none hp, .stayed rfl hp⟩
      | some p => exact Or.inr ⟨_, _, step_move_of_some hp, .moved rfl hp⟩
    | constInt | undef | binary | cast | alloca | gep | load => cases hcmd

theorem step_of_ok {cmd : Command} {r : Reply} {d : Cursor} (hstep : c.step cmd = .ok (r, d)) :
    Step c cmd r d := by
  rcases step_cases h cmd with ⟨herror, -⟩ | ⟨r', d', hok, hs⟩
  · cases hstep.symm.trans herror
  · cases hstep.symm.trans hok
    exact hs

theorem InBounds.step {cmd : Command} {r : Reply} {d : Cursor} (hs : Step c cmd r d) :
    d.InBounds := by
  cases hs with
  | @placed _ e next =>
    obtain ⟨blk, hb, hle⟩ := h.point
    obtain ⟨blk', hblk', hlength⟩ := exists_block?_past hb e next
    refine ⟨h.consistent.emit hb c.index [e] next, blk', hblk', ?_⟩
    show c.index + 1 ≤ blk'.body.length
    omega
  | moved _ hp =>
    obtain ⟨blk, hb, hk⟩ := h.consistent.position?_eq_some.mp hp
    exact ⟨h.consistent, blk, hb, Nat.le_of_lt (List.getElem?_eq_some_iff.mp hk).1⟩
  | stayed => exact h

end Step

section Run

variable {c d : Cursor} {cmds : List Command} {rs : List Reply}

theorem InBounds.run (h : c.InBounds) (cmds : List Command) :
    (∃ rs d, c.run cmds = (rs, .ok d) ∧ d.InBounds) ∨
      (c.run cmds).2 = .error .overflow ∧ idLimit ≤ c.func.nextValue + cmds.length := by
  induction cmds generalizing c with
  | nil => exact Or.inl ⟨[], c, rfl, h⟩
  | cons cmd cmds ih =>
    rw [Cursor.run, List.length_cons]
    rcases step_cases h cmd with ⟨hstep, hids⟩ | ⟨r, e, hstep, hs⟩
    · rw [hstep]
      exact Or.inr ⟨rfl, by omega⟩
    · have hnext : e.func.nextValue ≤ c.func.nextValue + 1 := by
        cases hs with
        | placed _ _ hle =>
          exact Nat.le_trans (Nat.le_of_eq (Function.nextValue_emit _ _ _ _ _)) hle
        | moved => exact Nat.le_succ _
        | stayed => exact Nat.le_succ _
      rw [hstep]
      rcases ih (h.step hs) with ⟨rs, d, hrun, hd⟩ | ⟨hrun, hids⟩
      · exact Or.inl ⟨r :: rs, d, by simp only [hrun], hd⟩
      · exact Or.inr ⟨hrun, by omega⟩

theorem upTo_step {cmd : Command} {r : Reply} (hs : Step c cmd r d) {n : Nat}
    (hn : n ≤ c.func.arena.size) : n ≤ d.func.arena.size ∧
      ∀ b, (d.func.block? b).map (Block.upTo n) = (c.func.block? b).map (Block.upTo n) := by
  cases hs with
  | @placed _ e next =>
    refine ⟨?_, Function.upTo_emit hn c.block c.index [e] next⟩
    rw [past, Function.arena_size_emit]
    exact Nat.le_add_right_of_le hn
  | moved => exact ⟨hn, fun _ => rfl⟩
  | stayed => exact ⟨hn, fun _ => rfl⟩

theorem upTo_run (h : c.InBounds) (hrun : c.run cmds = (rs, .ok d)) {n : Nat}
    (hn : n ≤ c.func.arena.size) (b : BlockId) :
    (d.func.block? b).map (Block.upTo n) = (c.func.block? b).map (Block.upTo n) := by
  induction cmds generalizing c rs with
  | nil =>
    cases hrun
    rfl
  | cons cmd cmds ih =>
    obtain ⟨r, rs', e, hstep, hrest, rfl⟩ := run_cons_eq_ok hrun
    have hs := step_of_ok h hstep
    obtain ⟨hn', hsame⟩ := upTo_step hs hn
    rw [ih (h.step hs) hrest hn', hsame]

theorem run_eq_emit (h : c.InBounds) (hrun : c.run cmds = (rs, .ok d))
    (hstay : Reply.flag true ∉ rs) :
    d = ⟨c.func.emit c.block c.index (c.placements cmds) d.func.nextValue, c.block,
      c.index + (c.placements cmds).length⟩ := by
  induction cmds generalizing c rs with
  | nil =>
    cases hrun
    rw [placements, Function.emit_nil]
    rfl
  | cons cmd cmds ih =>
    obtain ⟨r, rs', e, hstep, hrest, rfl⟩ := run_cons_eq_ok hrun
    have hs := step_of_ok h hstep
    have hrun' := ih (h.step hs) hrest fun hmem => hstay (List.mem_cons_of_mem r hmem)
    have hplacements : c.placements (cmd :: cmds) =
        (placed? c.func cmd).toList ++ e.placements cmds := by
      rw [placements, hstep]
    rw [hplacements]
    cases hs with
    | @placed _ x next hx =>
      -- the rest of the code goes where the cursor has stepped to, right behind this instruction
      obtain ⟨blk, hb, hle⟩ := h.point
      rw [hx]
      refine hrun'.trans (congrArg₂ (fun g k => Cursor.mk g c.block k) ?_ ?_)
      · exact Function.emit_emit hb hle [x] _ next d.func.nextValue
      · rw [List.length_append, ← Nat.add_assoc]
        rfl
    | moved => exact absurd List.mem_cons_self hstay
    | stayed hcmd =>
      rw [hcmd]
      exact hrun'

end Run

/-- What a cursor has done that has placed some code and not moved otherwise. -/
structure Lays (c : Cursor) (code : List Draft) (d : Cursor) : Prop where
  func : d.func = c.func.emit c.block c.index code d.func.nextValue
  block : d.block = c.block
  index : d.index = c.index + code.length
  /-- The code stands where the cursor stood, in one piece and under new handles. -/
  here : d.func.blockInstrs c.block = (c.func.blockInstrs c.block).take c.index ++
    ShaderIR.placed c.func.arena.size code ++ (c.func.blockInstrs c.block).drop c.index
  others : ∀ b, b ≠ c.block → d.func.blockInstrs b = c.func.blockInstrs b
  /-- Behind it stands what the cursor stood before. -/
  next : (d.func.bodyOf d.block)[d.index]? = (c.func.bodyOf c.block)[c.index]?

/-- What holds of a cursor, and of whatever it does next, while it edits a function that was `f`. -/
structure Edits (f : Function) (c : Cursor) : Prop where
  point : c.index ≤ (c.func.bodyOf c.block).length
  /-- Without the new handles, every block lists what it listed. -/
  restored : c.func.blocks.map (Block.upTo f.arena.size) = f.blocks
  dead : ∀ i, c.func.instr? i = none → c.step (.move i) = .ok (.flag false, c)
  live : ∀ i ins, c.func.instr? i = some ins → ∃ b k,
    c.step (.move i) = .ok (.flag true, ⟨c.func, b, k⟩) ∧ (c.func.bodyOf b)[k]? = some i
  /-- Commands among which no move succeeds. -/
  lays : ∀ cmds rs d, c.run cmds = (rs, .ok d) → Reply.flag true ∉ rs →
    c.Lays (c.placements cmds) d

theorem InBounds.lays {c d : Cursor} {cmds : List Command} {rs : List Reply} (h : c.InBounds)
    (hrun : c.run cmds = (rs, .ok d)) (hstay : Reply.flag true ∉ rs) :
    c.Lays (c.placements cmds) d := by
  have heq := run_eq_emit h hrun hstay
  have hfunc : d.func = c.func.emit c.block c.index (c.placements cmds) d.func.nextValue :=
    congrArg Cursor.func heq
  have hblock : d.block = c.block := by rw [heq]
  have hindex : d.index = c.index + (c.placements cmds).length := by rw [heq]
  obtain ⟨blk, hb, hle⟩ := h.point
  have hinstrs := h.consistent.blockInstrs_emit hb hle (c.placements cmds) d.func.nextValue
  rw [← hfunc] at hinstrs
  constructor
  case func => exact hfunc
  case block => exact hblock
  case index => exact hindex
  case here => rw [hinstrs, if_pos rfl]
  case others =>
    intro b hne
    rw [hinstrs, if_neg (Ne.symm hne)]
  case next =>
    rw [hblock, hindex, hfunc]
    exact Function.getElem?_bodyOf_emit hb hle _ _

theorem InBounds.edits {f : Function} {c : Cursor} (h : c.InBounds)
    (hrestored : c.func.blocks.map (Block.upTo f.arena.size) = f.blocks) : c.Edits f := by
  obtain ⟨blk, hb, hle⟩ := h.point
  constructor
  case point => rwa [Function.bodyOf_eq hb]
  case restored => exact hrestored
  case dead =>
    intro i hi
    have hnone : c.func.position? i = none := by
      rw [Function.position?, hi]
      rfl
    exact step_move_of_none hnone
  case live =>
    intro i ins hi
    obtain ⟨b, k, hp⟩ := h.consistent.exists_position? hi
    obtain ⟨blk', hb', hk⟩ := h.consistent.position?_eq_some.mp hp
    refine ⟨b, k, step_move_of_some hp, ?_⟩
    rwa [Function.bodyOf_eq hb']
  case lays => exact fun cmds rs d hrun hstay => h.lays hrun hstay

/-- A cursor that is placed at the start of a block or before an instruction comes to the end of
any list of commands in bounds, unless the identifiers run out: its code stands in the order of
the commands where it was placed, and around it everything is where it was. -/
theorem edits_of_run {f : Function} {c : Cursor} (hf : f.Made) (hc : PlacedIn f c)
    (cmds : List Command) :
    (∃ rs d, c.run cmds = (rs, .ok d) ∧ d.Edits f) ∨
      (c.run cmds).2 = .error .overflow ∧ idLimit ≤ f.nextValue + cmds.length := by
  obtain ⟨rfl, hbounds⟩ := hc.inBounds hf.consistent
  rcases hbounds.run cmds with ⟨rs, d, hrun, hd⟩ | hids
  · refine Or.inl ⟨rs, d, hrun, hd.edits (List.ext_getElem? fun n => ?_)⟩
    rw [List.getElem?_map]
    exact (upTo_run hbounds hrun (Nat.le_refl _) ⟨n⟩).trans (hf.consistent.upTo_block? ⟨n⟩)
  · exact Or.inr hids

def turns : List Command :=
  [.constInt .i32 1, .move ⟨99⟩, .alloca .i32 none, .move ⟨7⟩, .constInt .i32 2]

/-- The commands are carried out in front of the store of the sparse function. -/
theorem sparse_edits_of_run : Preserve.sparse.Made ∧ ∃ c, PlacedIn Preserve.sparse c ∧
    ∃ rs d, c.run turns = (rs, .ok d) ∧ d.Edits Preserve.sparse ∧
      d.func.blocks.map Block.body = [[⟨0⟩, ⟨1⟩, ⟨2⟩, ⟨3⟩, ⟨4⟩, ⟨9⟩, ⟨7⟩, ⟨8⟩, ⟨5⟩, ⟨6⟩]] := by
  have hplaced : PlacedIn Preserve.sparse ⟨Preserve.sparse, ⟨0⟩, 5⟩ := .before (i := ⟨5⟩) rfl
  refine ⟨Preserve.made_sparse, _, hplaced, ?_⟩
  obtain ⟨rs, d, hrun, hbodies⟩ : ∃ rs d, Cursor.run ⟨Preserve.sparse, ⟨0⟩, 5⟩ turns = (rs, .ok d) ∧
      d.func.blocks.map Block.body = [[⟨0⟩, ⟨1⟩, ⟨2⟩, ⟨3⟩, ⟨4⟩, ⟨9⟩, ⟨7⟩, ⟨8⟩, ⟨5⟩, ⟨6⟩]] :=
    ⟨_, _, rfl, rfl⟩
  rcases edits_of_run Preserve.made_sparse hplaced turns with ⟨_, _, hrun', hd⟩ | hids
  · cases hrun.symm.trans hrun'
    exact ⟨rs, d, hrun, hd, hbodies⟩
  · exact absurd hids.2 (by decide)

end Cursor

end ShaderIR
