import ShaderIR.Function.Printer
import ShaderIR.Proofs.Text.Reading

/-!
# Reading functions

The text of a function determines the function, as far as the text shows it. An instruction is
read from its result and the word that names its kind; the kind says how to read on. The lines of a
block end where a line is not indented as far, and the blocks at the brace.
-/

set_option autoImplicit false

namespace ShaderIR

open Text

namespace Instr

/-- What the first word of an instruction says after its result. -/
inductive Kind where
  | const | undef
  | binary (op : BinaryOp)
  | cast (op : CastOp)
  | alloca | gep | load | store | call | br | condbr | ret
deriving DecidableEq

def Kind.word : Kind → String
  | const => "const"
  | undef => "undef"
  | binary op => op.text
  | cast op => op.text
  | alloca => "alloca"
  | gep => "getelementptr"
  | load => "load"
  | store => "store"
  | call => "call"
  | br => "br"
  | condbr => "condbr"
  | ret => "ret"

def Kind.all : List Kind :=
  [.const, .undef, .alloca, .gep, .load, .store, .call, .br, .condbr, .ret,
    .binary .add, .binary .sub, .binary .mul, .binary .udiv, .binary .urem, .binary .and,
    .binary .or, .binary .xor, .binary .fadd, .binary .fsub, .binary .fmul, .binary .eq,
    .binary .ne, .binary .ult, .binary .slt, .cast .trunc, .cast .zext, .cast .sext,
    .cast .fptrunc, .cast .fpext, .cast .sitofp, .cast .fptosi]

theorem Kind.mem_all (k : Kind) : k ∈ all := by
  cases k with
  | binary op => cases op <;> decide
  | cast op => cases op <;> decide
  | _ => decide

theorem Kind.word_all : ∀ k ∈ all, IsWord k.word ∧
    k.word.toList.head?.any (fun c => !(c == '%')) = true ∧
    ∀ l ∈ all, k.word = l.word → k = l := by
  decide +kernel

theorem Kind.readable : Readable inWord word :=
  readable_of_word (fun k => (word_all k k.mem_all).1)
    fun h => (word_all _ (mem_all _)).2.2 _ (mem_all _) h

def kind : Instr → Kind
  | constInt .. | constFloat .. => .const
  | undef .. => .undef
  | binary _ op .. => .binary op
  | cast _ op .. => .cast op
  | alloca .. => .alloca
  | gep .. => .gep
  | load .. => .load
  | store .. => .store
  | call .. => .call
  | br .. => .br
  | condbr .. => .condbr
  | ret .. => .ret

def resultText : Option ValueId → String
  | some v => v.text ++ " = "
  | none => ""

def tail (typeOf : ValueId → Option Ty) : Instr → String
  | constInt _ value ty => " " ++ ty.text ++ " " ++ toString value.toInt
  | constFloat _ value ty => " " ++ ty.text ++ " " ++ Decimal.realText value
  | undef _ ty => " " ++ ty.text
  | binary _ _ lhs rhs ty => " " ++ ty.text ++ " " ++ lhs.text ++ ", " ++ rhs.text
  | cast _ _ v ty =>
    " " ++ ((typeOf v).map Ty.text).getD "?" ++ " " ++ v.text ++ " to " ++ ty.text
  | alloca _ ty name =>
    " " ++ ty.text ++
      (match name with
      | some n => ", name \"" ++ n ++ "\""
      | none => "")
  | gep _ base indices inbounds ty =>
    (if inbounds then " inbounds " else " ") ++ valueList (base :: indices) ++ " : " ++ ty.text
  | load _ ptr ty => " " ++ ty.text ++ ", " ++ ptr.text
  | store ptr value => " " ++ value.text ++ ", " ++ ptr.text
  | call _ callee args ty =>
    " " ++ (ty.getD .void).text ++ " @" ++ callee ++ "(" ++ valueList args ++ ")"
  | br target args => " " ++ target.text ++ "(" ++ valueList args ++ ")"
  | condbr cond thenTo thenArgs elseTo elseArgs =>
    " " ++ cond.text ++ ", " ++ thenTo.text ++ "(" ++ valueList thenArgs ++ "), " ++
      elseTo.text ++ "(" ++ valueList elseArgs ++ ")"
  | ret values => if values.isEmpty then "" else " " ++ valueList values

theorem text_eq (typeOf : ValueId → Option Ty) (ins : Instr) :
    ins.text typeOf = resultText ins.result? ++ (ins.kind.word ++ ins.tail typeOf) := by
  apply String.toList_inj.mp
  -- Both sides are the same characters, once the parts of each are side by side.
  delta text tail
  cases ins
  case' gep inbounds _ => cases inbounds
  case' call r _ _ _ => cases r
  case' alloca _ name => cases name
  case' ret values => cases values
  all_goals simp only [resultText, result?, kind, Kind.word, String.toList_append,
    List.append_assoc, List.isEmpty_nil, List.isEmpty_cons, if_true, if_false, Bool.false_eq_true]
  all_goals rfl

/-- What the text of an instruction shows: of a number with a point its digits, and of the type of
a call that there is none only as `void`. -/
inductive Alike : Instr → Instr → Prop where
  | refl (ins : Instr) : Alike ins ins
  | constFloat (r : ValueId) {x y : Float} (ty : Ty)
      (h : Decimal.realText x = Decimal.realText y) :
      Alike (.constFloat r x ty) (.constFloat r y ty)
  | call (r : Option ValueId) (callee : String) (args : List ValueId) {ty ty' : Option Ty}
      (h : ty.getD .void = ty'.getD .void) :
      Alike (.call r callee args ty) (.call r callee args ty')

def names : Instr → List String
  | alloca _ _ name => name.toList
  | call _ callee _ _ => [callee]
  | _ => []

section Tail

variable {τ σ : ValueId → Option Ty} {s t : List Char}

theorem read_const {a b : Instr} (hkind : a.kind = .const) (hkind' : b.kind = .const)
    (hresult : a.result? = b.result?)
    (h : (a.tail τ).toList ++ ("\n".toList ++ s) = (b.tail σ).toList ++ ("\n".toList ++ t)) :
    a.Alike b ∧ s = t := by
  delta tail at h
  cases a with
  | constInt r n ty =>
    cases b with
    | constInt r' n' ty' =>
      cases hresult
      simp only [String.toList_append, List.append_assoc, List.append_cancel_left_eq] at h
      obtain ⟨rfl, h₁⟩ := Ty.readable.before rfl h
      obtain ⟨hn, hst⟩ := read_word (isWord_int _) (isWord_int _) rfl h₁
      obtain rfl := Int64.toInt_inj.mp (Int.repr_inj.mp hn)
      exact ⟨.refl _, hst⟩
    | constFloat r' x ty' =>
      simp only [String.toList_append, List.append_assoc, List.append_cancel_left_eq] at h
      obtain ⟨-, h₁⟩ := Ty.readable.before rfl h
      obtain ⟨hn, -⟩ := read_word (isWord_int _) (Decimal.isReal_realText x).word rfl h₁
      exact absurd hn.symm ((Decimal.isReal_realText x).ne_int _)
    | _ => cases hkind'
  | constFloat r x ty =>
    cases b with
    | constInt r' n ty' =>
      simp only [String.toList_append, List.append_assoc, List.append_cancel_left_eq] at h
      obtain ⟨-, h₁⟩ := Ty.readable.before rfl h
      obtain ⟨hx, -⟩ := read_word (Decimal.isReal_realText x).word (isWord_int _) rfl h₁
      exact absurd hx ((Decimal.isReal_realText x).ne_int _)
    | constFloat r' y ty' =>
      cases hresult
      simp only [String.toList_append, List.append_assoc, List.append_cancel_left_eq] at h
      obtain ⟨rfl, h₁⟩ := Ty.readable.before rfl h
      obtain ⟨hx, hst⟩ := read_word (Decimal.isReal_realText x).word
        (Decimal.isReal_realText y).word rfl h₁
      exact ⟨.constFloat r ty hx, hst⟩
    | _ => cases hkind'
  | _ => cases hkind

theorem read_alloca {r r' : ValueId} {ty ty' : Ty} {name name' : Option String}
    (hname : ∀ n ∈ (alloca r ty name).names, IsWord n)
    (hname' : ∀ n ∈ (alloca r' ty' name').names, IsWord n)
    (h : ((alloca r ty name).tail τ).toList ++ ("\n".toList ++ s) =
      ((alloca r' ty' name').tail σ).toList ++ ("\n".toList ++ t)) :
    ty = ty' ∧ name = name' ∧ s = t := by
  have hne : ∀ (a b : Ty) (x y : List Char), a.text.toList ++ ("\n".toList ++ x) ≠
      b.text.toList ++ (", name \"".toList ++ y) := by
    intro a b x y heq
    obtain ⟨-, hmark⟩ := Ty.readable (breaks_append rfl) (breaks_append rfl) heq
    cases (List.cons.inj hmark).1
  cases name with
  | none =>
    cases name' with
    | none =>
      simp only [tail, String.toList_append, String.toList_empty, List.append_nil,
        List.append_assoc, List.append_cancel_left_eq] at h
      obtain ⟨rfl, hst⟩ := Ty.readable.before rfl h
      exact ⟨rfl, rfl, hst⟩
    | some n' =>
      simp only [tail, String.toList_append, String.toList_empty, List.append_nil,
        List.append_assoc, List.append_cancel_left_eq] at h
      exact absurd h (hne ty ty' s _)
  | some n =>
    cases name' with
    | none =>
      simp only [tail, String.toList_append, String.toList_empty, List.append_nil,
        List.append_assoc, List.append_cancel_left_eq] at h
      exact absurd h.symm (hne ty' ty t _)
    | some n' =>
      simp only [tail, String.toList_append, List.append_assoc, List.append_cancel_left_eq] at h
      obtain ⟨rfl, h₁⟩ := Ty.readable.before rfl h
      obtain ⟨rfl, h₂⟩ := read_word (hname n List.mem_cons_self) (hname' n' List.mem_cons_self)
        rfl h₁
      exact ⟨rfl, rfl, List.append_cancel_left h₂⟩

theorem read_gep {r r' base base' : ValueId} {indices indices' : List ValueId}
    {inbounds inbounds' : Bool} {ty ty' : Ty}
    (h : ((gep r base indices inbounds ty).tail τ).toList ++ ("\n".toList ++ s) =
      ((gep r' base' indices' inbounds' ty').tail σ).toList ++ ("\n".toList ++ t)) :
    base = base' ∧ indices = indices' ∧ inbounds = inbounds' ∧ ty = ty' ∧ s = t := by
  have hne : ∀ (v : ValueId) (vs : List ValueId) (x y : List Char),
      " inbounds ".toList ++ x ≠ " ".toList ++ ((valueList (v :: vs)).toList ++ y) := by
    intro v vs x y heq
    rw [valueList, List.map_cons, toList_commaList, List.append_assoc] at heq
    exact ValueId.ne_append (breaks_cons rfl) v _ (List.cons.inj heq).2
  simp only [tail, String.toList_append, List.append_assoc] at h
  have hinbounds : inbounds = inbounds' := by
    cases inbounds <;> cases inbounds'
    case false.true => exact absurd h.symm (hne base _ _ _)
    case true.false => exact absurd h (hne base' _ _ _)
    all_goals rfl
  subst hinbounds
  obtain ⟨hvalues, h₁⟩ := readable_valueList.before rfl (List.append_cancel_left h)
  obtain ⟨rfl, hst⟩ := Ty.readable.before rfl h₁
  obtain ⟨rfl, rfl⟩ := List.cons.inj hvalues
  exact ⟨rfl, rfl, rfl, rfl, hst⟩

theorem tail_ret_cons (v : ValueId) (vs : List ValueId) :
    (ret (v :: vs)).tail τ = " " ++ valueList (v :: vs) := rfl

theorem read_ret {values values' : List ValueId}
    (h : ((ret values).tail τ).toList ++ ("\n".toList ++ s) =
      ((ret values').tail σ).toList ++ ("\n".toList ++ t)) : values = values' ∧ s = t := by
  have hne : ∀ (v : ValueId) (vs : List ValueId) (x y : List Char),
      "\n".toList ++ x ≠ (" " ++ valueList (v :: vs)).toList ++ y := by
    intro v vs x y heq
    rw [String.toList_append, List.append_assoc] at heq
    cases (List.cons.inj heq).1
  cases values with
  | nil =>
    cases values' with
    | nil => exact ⟨rfl, List.append_cancel_left h⟩
    | cons w ws => exact absurd h (hne w ws _ _)
  | cons v vs =>
    cases values' with
    | nil => exact absurd h.symm (hne v vs _ _)
    | cons w ws =>
      simp only [tail_ret_cons, String.toList_append, List.append_assoc,
        List.append_cancel_left_eq] at h
      exact readable_valueList.before rfl h

theorem read_tail {a b : Instr} (hkind : a.kind = b.kind) (hresult : a.result? = b.result?)
    (ha : ∀ n ∈ a.names, IsWord n) (hb : ∀ n ∈ b.names, IsWord n)
    (h : (a.tail τ).toList ++ ("\n".toList ++ s) = (b.tail σ).toList ++ ("\n".toList ++ t)) :
    a.Alike b ∧ s = t := by
  cases a with
  | constInt r n ty => exact read_const rfl hkind.symm hresult h
  | constFloat r x ty => exact read_const rfl hkind.symm hresult h
  | undef r ty =>
    cases b with
    | undef r' ty' =>
      cases hresult
      simp only [tail, String.toList_append, List.append_assoc, List.append_cancel_left_eq] at h
      obtain ⟨rfl, hst⟩ := Ty.readable.before rfl h
      exact ⟨.refl _, hst⟩
    | _ => cases hkind
  | binary r op v w ty =>
    cases b with
    | binary r' op' v' w' ty' =>
      cases hresult
      cases hkind
      simp only [tail, String.toList_append, List.append_assoc, List.append_cancel_left_eq] at h
      obtain ⟨rfl, h₁⟩ := Ty.readable.before rfl h
      obtain ⟨rfl, h₂⟩ := ValueId.readable.before rfl h₁
      obtain ⟨rfl, hst⟩ := ValueId.readable.before rfl h₂
      exact ⟨.refl _, hst⟩
    | _ => cases hkind
  | cast r op v ty =>
    cases b with
    | cast r' op' v' ty' =>
      cases hresult
      cases hkind
      simp only [tail, String.toList_append, List.append_assoc, List.append_cancel_left_eq] at h
      obtain ⟨-, h₁⟩ := Ty.readable_option.before rfl h
      obtain ⟨rfl, h₂⟩ := ValueId.readable.before rfl h₁
      obtain ⟨rfl, hst⟩ := Ty.readable.before rfl h₂
      exact ⟨.refl _, hst⟩
    | _ => cases hkind
  | load r p ty =>
    cases b with
    | load r' p' ty' =>
      cases hresult
      simp only [tail, String.toList_append, List.append_assoc, List.append_cancel_left_eq] at h
      obtain ⟨rfl, h₁⟩ := Ty.readable.before rfl h
      obtain ⟨rfl, hst⟩ := ValueId.readable.before rfl h₁
      exact ⟨.refl _, hst⟩
    | _ => cases hkind
  | store p v =>
    cases b with
    | store p' v' =>
      simp only [tail, String.toList_append, List.append_assoc, List.append_cancel_left_eq] at h
      obtain ⟨rfl, h₁⟩ := ValueId.readable.before rfl h
      obtain ⟨rfl, hst⟩ := ValueId.readable.before rfl h₁
      exact ⟨.refl _, hst⟩
    | _ => cases hkind
  | br target args =>
    cases b with
    | br target' args' =>
      simp only [tail, String.toList_append, List.append_assoc, List.append_cancel_left_eq] at h
      obtain ⟨rfl, h₁⟩ := BlockId.readable.before rfl h
      obtain ⟨rfl, hst⟩ := readable_valueList.before rfl h₁
      exact ⟨.refl _, List.append_cancel_left hst⟩
    | _ => cases hkind
  | condbr v yes args no others =>
    cases b with
    | condbr v' yes' args' no' others' =>
      simp only [tail, String.toList_append, List.append_assoc, List.append_cancel_left_eq] at h
      obtain ⟨rfl, h₁⟩ := ValueId.readable.before rfl h
      obtain ⟨rfl, h₂⟩ := BlockId.readable.before rfl h₁
      obtain ⟨rfl, h₃⟩ := readable_valueList.before rfl h₂
      obtain ⟨rfl, h₄⟩ := BlockId.readable.before rfl h₃
      obtain ⟨rfl, hst⟩ := readable_valueList.before rfl h₄
      exact ⟨.refl _, List.append_cancel_left hst⟩
    | _ => cases hkind
  | alloca r ty name =>
    cases b with
    | alloca r' ty' name' =>
      cases hresult
      obtain ⟨rfl, rfl, hst⟩ := read_alloca ha hb h
      exact ⟨.refl _, hst⟩
    | _ => cases hkind
  | gep r base indices inbounds ty =>
    cases b with
    | gep r' base' indices' inbounds' ty' =>
      cases hresult
      obtain ⟨rfl, rfl, rfl, rfl, hst⟩ := read_gep h
      exact ⟨.refl _, hst⟩
    | _ => cases hkind
  | call r callee args ty =>
    cases b with
    | call r' callee' args' ty' =>
      cases hresult
      simp only [tail, String.toList_append, List.append_assoc, List.append_cancel_left_eq] at h
      obtain ⟨hty, h₁⟩ := Ty.readable.before rfl h
      obtain ⟨rfl, h₂⟩ := read_word (ha _ List.mem_cons_self) (hb _ List.mem_cons_self) rfl h₁
      obtain ⟨rfl, hst⟩ := readable_valueList.before rfl h₂
      exact ⟨.call r callee args hty, List.append_cancel_left hst⟩
    | _ => cases hkind
  | ret values =>
    cases b with
    | ret values' =>
      obtain ⟨rfl, hst⟩ := read_ret h
      exact ⟨.refl _, hst⟩
    | _ => cases hkind

theorem read_result {r r' : Option ValueId} {k l : Kind}
    (h : (resultText r).toList ++ (k.word.toList ++ s) =
      (resultText r').toList ++ (l.word.toList ++ t)) :
    r = r' ∧ k.word.toList ++ s = l.word.toList ++ t := by
  have hne : ∀ (k : Kind) (v : ValueId) (x y : List Char),
      k.word.toList ++ x ≠ (v.text ++ " = ").toList ++ y := by
    intro k v x y heq
    rw [String.toList_append, List.append_assoc] at heq
    exact v.ne_append (breaks_append (Kind.word_all k k.mem_all).2.1) _ heq
  cases r with
  | none =>
    cases r' with
    | none => exact ⟨rfl, h⟩
    | some w => exact absurd h (hne k w _ _)
  | some v =>
    cases r' with
    | none => exact absurd h.symm (hne l v _ _)
    | some w =>
      simp only [resultText, String.toList_append, List.append_assoc] at h
      obtain ⟨rfl, h₁⟩ := ValueId.readable.before rfl h
      exact ⟨rfl, h₁⟩

theorem breaks_tail (a : Instr) : Breaks inWord ((a.tail τ).toList ++ ("\n".toList ++ s)) := by
  cases a with
  | gep r base indices inbounds ty =>
    simp only [tail, String.toList_append, List.append_assoc]
    cases inbounds <;> exact breaks_append rfl
  | ret values =>
    cases values with
    | nil => exact breaks_append (x := "\n") rfl
    | cons v vs =>
      rw [tail_ret_cons, String.toList_append, List.append_assoc]
      exact breaks_append rfl
  | _ =>
    simp only [tail, String.toList_append, List.append_assoc]
    exact breaks_append rfl

theorem read_text {a b : Instr} (ha : ∀ n ∈ a.names, IsWord n) (hb : ∀ n ∈ b.names, IsWord n)
    (h : (a.text τ).toList ++ ("\n".toList ++ s) = (b.text σ).toList ++ ("\n".toList ++ t)) :
    a.Alike b ∧ s = t := by
  rw [text_eq, text_eq] at h
  simp only [String.toList_append, List.append_assoc] at h
  obtain ⟨hresult, h₁⟩ := read_result h
  obtain ⟨hkind, h₂⟩ := Kind.readable (breaks_tail a) (breaks_tail b) h₁
  exact read_tail hkind hresult ha hb h₂

end Tail

end Instr

/-- Letters, digits, underscores and points can stand in words. -/
theorem Text.isWord_of_letters {s : String}
    (h : ∀ c ∈ s.toList, (c.isAlphanum || c == '_' || c == '.') = true) : IsWord s :=
  fun c hc => inWord_of_marks (p := fun c => c.isAlphanum || c == '_' || c == '.') (by decide)
    (h c hc)

namespace Function

def live (f : Function) (blk : Block) : List Instr := (f.resolve blk.body).map Prod.snd

/-- Every name that the text of a function shows is a word. -/
structure Legible (f : Function) : Prop where
  name : IsWord f.name
  params : ∀ p ∈ f.params, IsWord p.name
  blocks : ∀ blk ∈ f.blocks, ∀ n ∈ blk.name, IsWord n
  instrs : ∀ blk ∈ f.blocks, ∀ ins ∈ f.live blk, ∀ n ∈ ins.names, IsWord n

structure AlikeBlocks (f g : Function) (b c : Block) : Prop where
  label : b.label = c.label
  params : b.params.map (fun p => (p.id, p.ty)) = c.params.map fun p => (p.id, p.ty)
  instrs : List.Forall₂ Instr.Alike (f.live b) (g.live c)

/-- What the text of a function shows. -/
structure Alike (f g : Function) : Prop where
  name : f.name = g.name
  returnTy : f.returnTy = g.returnTy
  params : f.params = g.params
  blocks : List.Forall₂ (AlikeBlocks f g) f.blocks g.blocks

/-- A text does not go on with the indentation of an instruction. -/
def Outdented (s : List Char) : Prop := ∀ x, s ≠ "    ".toList ++ x

section Read

variable {f g : Function} {s t : List Char}

theorem read_lines {is js : List Instr} (his : ∀ ins ∈ is, ∀ n ∈ ins.names, IsWord n)
    (hjs : ∀ ins ∈ js, ∀ n ∈ ins.names, IsWord n) (hs : Outdented s) (ht : Outdented t)
    (h : (is.flatMap fun ins => (f.instrLine ins).toList) ++ s =
      (js.flatMap fun ins => (g.instrLine ins).toList) ++ t) :
    List.Forall₂ Instr.Alike is js ∧ s = t := by
  have hline : ∀ (f : Function) (ins : Instr) (x : List Char), (f.instrLine ins).toList ++ x =
      "    ".toList ++ ((ins.text f.typeOf?).toList ++ ("\n".toList ++ x)) := by
    intro f ins x
    simp only [instrLine, String.toList_append, List.append_assoc]
  refine read_flatMap (F := fun _ => True) (fun a ha b hb x y _ _ heq => ?_)
    (fun a _ x => ⟨trivial, fun heq => ?_⟩) (fun b _ y => ⟨trivial, fun heq => ?_⟩)
    trivial trivial h
  · rw [hline, hline] at heq
    exact Instr.read_text (his a ha) (hjs b hb) (List.append_cancel_left heq)
  · rw [hline] at heq
    exact ht _ heq.symm
  · rw [hline] at heq
    exact hs _ heq

theorem toList_blockText (f : Function) (blk : Block) (x : List Char) :
    (f.blockText blk).toList ++ x = "  ".toList ++ (blk.label.toList ++ ("(".toList ++
      ((commaList (blk.params.map fun p => p.ty.text ++ " " ++ p.id.text)).toList ++
        ("):\n".toList ++
          (((f.live blk).flatMap fun ins => (f.instrLine ins).toList) ++ x))))) := by
  simp only [blockText, blockHeadText, live, String.toList_append, String.toList_join,
    List.append_assoc, List.flatMap_map]

theorem isWord_label {blk : Block} (h : ∀ n ∈ blk.name, IsWord n) : IsWord blk.label := by
  unfold Block.label
  cases hname : blk.name with
  | none => exact BlockId.isWord_text blk.id
  | some n => exact h n hname

theorem outdented_block {blk : Block} (h : ∀ n ∈ blk.name, IsWord n) (x : List Char) :
    Outdented ((f.blockText blk).toList ++ x) := by
  intro y heq
  rw [toList_blockText] at heq
  have hblank : ∀ c : Char, (c == ' ') = true → inWord c = false := fun c hc => by
    rw [beq_iff_eq.mp hc]
    rfl
  exact (breaks_word (isWord_label h) hblank (breaks_append rfl)).ne_append (x := "  ".toList)
    (c := ' ') rfl rfl y (List.append_cancel_left heq)

theorem read_blockParams {ps qs : List BlockParam}
    (h : (commaList (ps.map fun p => p.ty.text ++ " " ++ p.id.text)).toList ++
        ("):\n".toList ++ s) =
      (commaList (qs.map fun p => p.ty.text ++ " " ++ p.id.text)).toList ++
        ("):\n".toList ++ t)) :
    ps.map (fun p => (p.id, p.ty)) = qs.map (fun p => (p.id, p.ty)) ∧ s = t := by
  have hne : ∀ (p : BlockParam) (x y : List Char),
      (p.ty.text ++ " " ++ p.id.text).toList ++ x ≠ "):\n".toList ++ y := by
    intro p x y heq
    simp only [String.toList_append, List.append_assoc] at heq
    exact Ty.ne_append (breaks_append rfl) p.ty _ heq.symm
  obtain ⟨hall, hst⟩ := read_commaList (R := fun p q => (p.id, p.ty) = (q.id, q.ty))
    (fun p _ q _ x y hx hy heq => by
      simp only [String.toList_append, List.append_assoc] at heq
      obtain ⟨hty, h₁⟩ := Ty.readable.before rfl heq
      obtain ⟨hid, hxy⟩ := ValueId.readable hx hy h₁
      exact ⟨Prod.ext hid hty, hxy⟩)
    (fun p _ x => hne p x t) (fun q _ y => (hne q y s).symm) (breaks_append rfl)
    (breaks_append rfl) h
  exact ⟨by simpa [← List.forall₂_eq_eq_eq] using hall, List.append_cancel_left hst⟩

theorem read_block {b c : Block} (hf : f.Legible) (hg : g.Legible) (hb : b ∈ f.blocks)
    (hc : c ∈ g.blocks) (hs : Outdented s) (ht : Outdented t)
    (h : (f.blockText b).toList ++ s = (g.blockText c).toList ++ t) :
    AlikeBlocks f g b c ∧ s = t := by
  rw [toList_blockText, toList_blockText] at h
  obtain ⟨hlabel, h₁⟩ := read_word (isWord_label (hf.blocks b hb)) (isWord_label (hg.blocks c hc))
    rfl (List.append_cancel_left h)
  obtain ⟨hparams, h₂⟩ := read_blockParams h₁
  obtain ⟨hinstrs, hst⟩ := read_lines (hf.instrs b hb) (hg.instrs c hc) hs ht h₂
  exact ⟨⟨hlabel, hparams, hinstrs⟩, hst⟩

theorem read_blocks (hf : f.Legible) (hg : g.Legible)
    (h : (f.blocks.flatMap fun b => (f.blockText b).toList) ++ "\x7d\n".toList =
      (g.blocks.flatMap fun b => (g.blockText b).toList) ++ "\x7d\n".toList) :
    List.Forall₂ (AlikeBlocks f g) f.blocks g.blocks := by
  have hne : ∀ (f : Function) (b : Block) (x : List Char),
      (f.blockText b).toList ++ x ≠ "\x7d\n".toList := by
    intro f b x heq
    rw [toList_blockText] at heq
    cases (List.cons.inj heq).1
  have hend : Outdented "\x7d\n".toList := by
    intro x heq
    cases (List.cons.inj heq).1
  exact (read_flatMap (fun b hb c hc x y hx hy heq => read_block hf hg hb hc hx hy heq)
    (fun b hb x => ⟨outdented_block (hf.blocks b hb) x, hne f b x⟩)
    (fun c hc y => ⟨outdented_block (hg.blocks c hc) y, (hne g c y).symm⟩) hend hend h).1

theorem read_params {ps qs : List Param} (hps : ∀ p ∈ ps, IsWord p.name)
    (hqs : ∀ p ∈ qs, IsWord p.name)
    (h : (commaList (ps.map fun p => p.name ++ ": " ++ p.ty.text)).toList ++
        (") \x7b\n".toList ++ s) =
      (commaList (qs.map fun p => p.name ++ ": " ++ p.ty.text)).toList ++
        (") \x7b\n".toList ++ t)) : ps = qs ∧ s = t := by
  have hclose : ∀ c : Char, (c == ')') = true → inWord c = false := fun c hc => by
    rw [beq_iff_eq.mp hc]
    rfl
  have hne : ∀ (p : Param) (x y : List Char), IsWord p.name →
      ") \x7b\n".toList ++ y ≠ (p.name ++ ": " ++ p.ty.text).toList ++ x := by
    intro p x y hp heq
    simp only [String.toList_append, List.append_assoc] at heq
    exact (breaks_word hp hclose (breaks_append rfl)).ne_append (x := ") \x7b\n".toList)
      (c := ')') rfl rfl y heq.symm
  obtain ⟨hall, hst⟩ := read_commaList (R := Eq)
    (fun p hp q hq x y hx hy heq => by
      simp only [String.toList_append, List.append_assoc] at heq
      obtain ⟨hname, h₁⟩ := read_word (hps p hp) (hqs q hq) rfl heq
      obtain ⟨hty, hxy⟩ := Ty.readable hx hy h₁
      obtain ⟨_, _⟩ := p
      exact ⟨by subst hname; subst hty; rfl, hxy⟩)
    (fun p hp x => (hne p x t (hps p hp)).symm) (fun q hq y => hne q y s (hqs q hq))
    (breaks_append rfl) (breaks_append rfl) h
  exact ⟨List.forall₂_eq_eq_eq ▸ hall, List.append_cancel_left hst⟩

/-- The text of a function determines the function, as far as the text shows it. -/
theorem alike_of_text_eq (hf : f.Legible) (hg : g.Legible) (h : f.text = g.text) : f.Alike g := by
  have htext : ∀ f : Function, f.text.toList = "\ndefine ".toList ++ (f.returnTy.text.toList ++
      (" @".toList ++ (f.name.toList ++ ("(".toList ++
        ((commaList (f.params.map fun p => p.name ++ ": " ++ p.ty.text)).toList ++
          (") \x7b\n".toList ++ ((f.blocks.flatMap fun b => (f.blockText b).toList) ++
            "\x7d\n".toList))))))) := by
    intro f
    simp only [text, headText, String.toList_append, String.toList_join, List.append_assoc,
      List.flatMap_map]
  have hlist := congrArg String.toList h
  rw [htext, htext] at hlist
  obtain ⟨hreturn, h₁⟩ := Ty.readable.before rfl (List.append_cancel_left hlist)
  obtain ⟨hname, h₂⟩ := read_word hf.name hg.name rfl h₁
  obtain ⟨hparams, h₃⟩ := read_params hf.params hg.params h₂
  exact ⟨hname, hreturn, hparams, read_blocks hf hg h₃⟩

end Read

def calling (label : Option String) (ty : Option Ty) : Function where
  id := ⟨0⟩
  name := "main"
  params := [⟨"in.0", .i32⟩]
  returnTy := .void
  blocks := [⟨.entry, [⟨⟨0⟩, .pointer .i32, none⟩], [⟨0⟩, ⟨1⟩, ⟨2⟩], label⟩]
  arena := #[some (.alloca ⟨1⟩ (.array .i32 2) (some "slot_0")),
    some (.call none "use" [⟨0⟩, ⟨1⟩] ty), some (.ret [])]
  defs := ∅
  types := ∅
  nextValue := 2

theorem legible_calling {label : Option String} {ty : Option Ty}
    (h : ∀ n ∈ label, IsWord n) : (calling label ty).Legible where
  name := (by decide : IsWord "main")
  params := List.forall_mem_singleton.mpr (by decide)
  blocks := List.forall_mem_singleton.mpr h
  instrs := List.forall_mem_singleton.mpr (List.forall_mem_cons.mpr ⟨by decide,
    List.forall_mem_cons.mpr ⟨by simp [Instr.names]; decide, List.forall_mem_singleton.mpr nofun⟩⟩)

/-- The text does not show whether a block has a name, nor whether a call has the type `void` or
none. -/
theorem calling_alike : (calling none none).text = (calling (some "bb0") (some .void)).text ∧
    (calling none none).Alike (calling (some "bb0") (some .void)) ∧
    (calling none none).blocks ≠ (calling (some "bb0") (some .void)).blocks := by
  have htext : (calling none none).text = (calling (some "bb0") (some .void)).text := by
    decide +kernel
  exact ⟨htext, alike_of_text_eq (legible_calling nofun)
    (legible_calling (by rintro _ ⟨⟩; decide)) htext, by simp [calling]⟩

end Function

end ShaderIR
