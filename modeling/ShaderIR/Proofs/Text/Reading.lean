import Mathlib.Data.List.Forall2
import Std.Data.String.ToInt
import ShaderIR.Instr

/-!
# Reading texts

A text is made of words with marks between them. A word ends where a mark begins, so two equal
texts that begin with words begin with the same one. From words this is carried to types, and to
lists with commas: what stands at the start of a text can be read off it, whatever follows.
-/

set_option autoImplicit false

namespace ShaderIR

namespace Text

def marks : List Char := [' ', ',', '(', ')', ':', '"', ']', '\n']

def inWord (c : Char) : Bool := c ∉ marks

/-- A list of words goes on with a comma. -/
def inList (c : Char) : Bool := inWord c || c == ','

theorem inWord_of_marks {p : Char → Bool} (hp : marks.any p = false) {c : Char}
    (hc : p c = true) : inWord c = true := by
  refine decide_eq_true fun hmem => ?_
  rw [List.any_eq_false] at hp
  exact hp c hmem hc

/-- A text without marks. -/
def IsWord (s : String) : Prop := ∀ c ∈ s.toList, inWord c = true

instance (s : String) : Decidable (IsWord s) :=
  List.decidableBAll (fun c => inWord c = true) s.toList

/-- A text does not begin with a character of a kind. -/
def Breaks (p : Char → Bool) (s : List Char) : Prop := ∀ c ∈ s.head?, p c = false

section Breaks

variable {p q : Char → Bool} {s : List Char}

theorem breaks_cons {c : Char} (h : p c = false) : Breaks p (c :: s) := by
  rintro _ ⟨⟩
  exact h

theorem breaks_append {x : String} (h : x.toList.head?.any (fun c => !p c) = true) :
    Breaks p (x.toList ++ s) := by
  cases hx : x.toList with
  | nil => simp [hx] at h
  | cons c x =>
    rw [hx] at h
    exact breaks_cons (by simpa using h)

theorem Breaks.mono (h : Breaks q s) (hpq : ∀ c, p c = true → q c = true) : Breaks p s := by
  intro c hc
  have := h c hc
  cases hp : p c with
  | false => rfl
  | true => rw [hpq c hp] at this; cases this

theorem Breaks.ne_append (h : Breaks p s) {x : List Char} {c : Char} (hx : x.head? = some c)
    (hc : p c = true) (y : List Char) : s ≠ x ++ y := by
  rintro rfl
  have hhead : (x ++ y).head? = some c := by rw [List.head?_append, hx]; rfl
  rw [h c hhead] at hc
  cases hc

theorem Breaks.inWord (h : Breaks inList s) : Breaks inWord s :=
  h.mono fun _ hc => by rw [inList, hc]; rfl

end Breaks

theorem read_while {p : Char → Bool} {u v s t : List Char} (hu : ∀ c ∈ u, p c = true)
    (hv : ∀ c ∈ v, p c = true) (hs : Breaks p s) (ht : Breaks p t) (h : u ++ s = v ++ t) :
    u = v ∧ s = t := by
  induction u generalizing v with
  | nil =>
    cases v with
    | nil => exact ⟨rfl, h⟩
    | cons c v => exact absurd h (hs.ne_append rfl (hv c List.mem_cons_self) t)
  | cons c u ih =>
    cases v with
    | nil => exact absurd h.symm (ht.ne_append rfl (hu c List.mem_cons_self) s)
    | cons d v =>
      obtain ⟨rfl, hrest⟩ := List.cons.inj h
      obtain ⟨rfl, hst⟩ := ih (fun x hx => hu x (List.mem_cons_of_mem _ hx))
        (fun x hx => hv x (List.mem_cons_of_mem _ hx)) hrest
      exact ⟨rfl, hst⟩

theorem breaks_word {p : Char → Bool} {w : String} {s : List Char} (hw : IsWord w)
    (hp : ∀ c, p c = true → inWord c = false) (hs : Breaks p s) : Breaks p (w.toList ++ s) := by
  cases hx : w.toList with
  | nil => exact hs
  | cons c x =>
    refine breaks_cons ?_
    have hc : inWord c = true := hw c (by rw [hx]; exact List.mem_cons_self)
    cases hpc : p c with
    | false => rfl
    | true => rw [hp c hpc] at hc; cases hc

/-- Texts that can be read at the start of a text, unless characters of a kind go on after
them. -/
def Readable {α : Type} (p : Char → Bool) (text : α → String) : Prop :=
  ∀ {a b : α} {s t : List Char}, Breaks p s → Breaks p t →
    (text a).toList ++ s = (text b).toList ++ t → a = b ∧ s = t

theorem Readable.before {α : Type} {p : Char → Bool} {text : α → String} (hread : Readable p text)
    {x : String} (hx : x.toList.head?.any (fun c => !p c) = true) {a b : α} {s t : List Char}
    (h : (text a).toList ++ (x.toList ++ s) = (text b).toList ++ (x.toList ++ t)) :
    a = b ∧ s = t := by
  obtain ⟨hab, hst⟩ := hread (breaks_append hx) (breaks_append hx) h
  exact ⟨hab, List.append_cancel_left hst⟩

theorem readable_of_word {α : Type} {text : α → String} (hword : ∀ a, IsWord (text a))
    (hinj : ∀ {a b}, text a = text b → a = b) : Readable inWord text := by
  intro a b s t hs ht h
  obtain ⟨hab, hst⟩ := read_while (hword a) (hword b) hs ht h
  exact ⟨hinj (String.toList_inj.mp hab), hst⟩

theorem read_word {u v x : String} {s t : List Char} (hu : IsWord u) (hv : IsWord v)
    (hx : x.toList.head?.any (fun c => !inWord c) = true)
    (h : u.toList ++ (x.toList ++ s) = v.toList ++ (x.toList ++ t)) : u = v ∧ s = t := by
  have hread : Readable inWord fun w : {w : String // IsWord w} => w.1 :=
    readable_of_word (fun w => w.2) Subtype.ext
  obtain ⟨huv, hst⟩ := hread.before hx (a := ⟨u, hu⟩) (b := ⟨v, hv⟩) h
  exact ⟨congrArg Subtype.val huv, hst⟩

section Lists

variable {α β : Type} {R : α → β → Prop} {as : List α} {bs : List β} {s t : List Char}

theorem follows_flatMap {f : α → List Char} {follows : List Char → Prop}
    (hf : ∀ a ∈ as, ∀ x, follows (f a ++ x)) (hs : follows s) : follows (as.flatMap f ++ s) := by
  cases as with
  | nil => exact hs
  | cons a as =>
    rw [List.flatMap_cons, List.append_assoc]
    exact hf a List.mem_cons_self _

/-- Parts of a text that can be told apart, and from the end, can be read one after another. A
part is only read where what follows it is as it should be. -/
theorem read_flatMap {f : α → List Char} {g : β → List Char} {F : List Char → Prop}
    (hread : ∀ a ∈ as, ∀ b ∈ bs, ∀ x y, F x → F y → f a ++ x = g b ++ y →
      R a b ∧ x = y)
    (hf : ∀ a ∈ as, ∀ x, F (f a ++ x) ∧ f a ++ x ≠ t)
    (hg : ∀ b ∈ bs, ∀ y, F (g b ++ y) ∧ s ≠ g b ++ y)
    (hs : F s) (ht : F t) (h : as.flatMap f ++ s = bs.flatMap g ++ t) :
    List.Forall₂ R as bs ∧ s = t := by
  induction as generalizing bs with
  | nil =>
    cases bs with
    | nil => exact ⟨.nil, h⟩
    | cons b bs =>
      rw [List.flatMap_cons, List.append_assoc] at h
      exact absurd h (hg b List.mem_cons_self _).2
  | cons a as ih =>
    cases bs with
    | nil =>
      rw [List.flatMap_cons, List.append_assoc] at h
      exact absurd h (hf a List.mem_cons_self _).2
    | cons b bs =>
      rw [List.forall_mem_cons] at hf hg
      simp only [List.forall_mem_cons] at hread
      rw [List.flatMap_cons, List.flatMap_cons, List.append_assoc, List.append_assoc] at h
      obtain ⟨hab, h⟩ := hread.1.1 _ _ (follows_flatMap (fun a ha x => (hf.2 a ha x).1) hs)
        (follows_flatMap (fun b hb y => (hg.2 b hb y).1) ht) h
      obtain ⟨hall, hst⟩ := ih (fun a ha b hb => (hread.2 a ha).2 b hb) hf.2 hg.2 h
      exact ⟨.cons hab hall, hst⟩

theorem toList_commaList (x : String) (xs : List String) :
    (commaList (x :: xs)).toList = x.toList ++ xs.flatMap fun y => ", ".toList ++ y.toList := by
  induction xs generalizing x with
  | nil => simp [commaList]
  | cons y ys ih =>
    rw [commaList, String.toList_append, String.toList_append, ih, List.flatMap_cons]
    simp only [List.append_assoc]

theorem read_commaList {f : α → String} {g : β → String}
    (hread : ∀ a ∈ as, ∀ b ∈ bs, ∀ x y, Breaks inWord x → Breaks inWord y →
      (f a).toList ++ x = (g b).toList ++ y → R a b ∧ x = y)
    (hf : ∀ a ∈ as, ∀ x, (f a).toList ++ x ≠ t) (hg : ∀ b ∈ bs, ∀ y, s ≠ (g b).toList ++ y)
    (hs : Breaks inList s) (ht : Breaks inList t)
    (h : (commaList (as.map f)).toList ++ s = (commaList (bs.map g)).toList ++ t) :
    List.Forall₂ R as bs ∧ s = t := by
  have hcomma : ∀ {u : List Char} (x y : List Char), Breaks inList u →
      u ≠ (", ".toList ++ x) ++ y := fun x y hu => hu.ne_append (c := ',') rfl rfl y
  cases as with
  | nil =>
    cases bs with
    | nil => exact ⟨.nil, h⟩
    | cons b bs =>
      rw [List.map_cons, toList_commaList, List.append_assoc] at h
      exact absurd h (hg b List.mem_cons_self _)
  | cons a as =>
    cases bs with
    | nil =>
      rw [List.map_cons, toList_commaList, List.append_assoc] at h
      exact absurd h (hf a List.mem_cons_self _)
    | cons b bs =>
      simp only [List.forall_mem_cons] at hread
      rw [List.map_cons, List.map_cons, toList_commaList, toList_commaList, List.append_assoc,
        List.append_assoc, List.flatMap_map, List.flatMap_map] at h
      have hstart : ∀ x y : List Char, Breaks inWord ((", ".toList ++ x) ++ y) := by
        intro x y
        rw [List.append_assoc]
        exact breaks_append rfl
      obtain ⟨hab, h⟩ := hread.1.1 _ _ (follows_flatMap (fun _ _ => hstart _) hs.inWord)
        (follows_flatMap (fun _ _ => hstart _) ht.inWord) h
      obtain ⟨hall, hst⟩ := read_flatMap (fun a ha b hb x y hx hy h => (hread.2 a ha).2 b hb x y hx
        hy (by simpa only [List.append_assoc, List.append_cancel_left_eq] using h))
        (fun a _ x => ⟨hstart _ x, (hcomma _ x ht).symm⟩)
        (fun b _ y => ⟨hstart _ y, hcomma _ y hs⟩) hs.inWord ht.inWord h
      exact ⟨.cons hab hall, hst⟩

end Lists

def inInteger (c : Char) : Bool := c.isDigit || c == '-'

theorem inWord_of_inInteger {c : Char} (h : inInteger c = true) : inWord c = true :=
  inWord_of_marks (by decide) h

theorem inInteger_nat (n : Nat) : ∀ c ∈ (toString n).toList, inInteger c = true := by
  intro c hc
  rw [Nat.toString_eq_ofList_toDigits, String.toList_ofList] at hc
  rw [inInteger, Nat.isDigit_of_mem_toDigits (by decide) (by decide) hc]
  rfl

theorem inInteger_int (n : Int) : ∀ c ∈ (toString n).toList, inInteger c = true := by
  intro c hc
  rw [Int.toString_eq_repr, Int.repr_eq_if] at hc
  split at hc
  · exact inInteger_nat _ c hc
  · rw [String.toList_append, List.mem_append] at hc
    rcases hc with hc | hc
    · obtain rfl : c = '-' := by simpa using hc
      decide
    · exact inInteger_nat _ c hc

theorem isWord_nat (n : Nat) : IsWord (toString n) :=
  fun c hc => inWord_of_inInteger (inInteger_nat n c hc)

theorem isWord_int (n : Int) : IsWord (toString n) :=
  fun c hc => inWord_of_inInteger (inInteger_int n c hc)

theorem isWord_append {u v : String} (hu : IsWord u) (hv : IsWord v) : IsWord (u ++ v) := by
  intro c hc
  rw [String.toList_append, List.mem_append] at hc
  exact hc.elim (hu c) (hv c)

end Text

open Text

variable {s t : List Char}

theorem ValueId.isWord_text (v : ValueId) : IsWord v.text :=
  isWord_append (by decide) (isWord_nat v.index)

theorem BlockId.isWord_text (b : BlockId) : IsWord b.text :=
  isWord_append (by decide) (isWord_nat b.index)

theorem ValueId.text_inj {v w : ValueId} (h : v.text = w.text) : v = w := by
  obtain ⟨v⟩ := v
  obtain ⟨w⟩ := w
  exact congrArg _ (Nat.repr_inj.mp ((String.append_right_inj _).mp h))

theorem BlockId.text_inj {b c : BlockId} (h : b.text = c.text) : b = c := by
  obtain ⟨b⟩ := b
  obtain ⟨c⟩ := c
  exact congrArg _ (Nat.repr_inj.mp ((String.append_right_inj _).mp h))

theorem ValueId.readable : Readable inWord text := readable_of_word isWord_text text_inj

theorem BlockId.readable : Readable inWord text := readable_of_word isWord_text text_inj

theorem ValueId.ne_append (hs : Breaks (· == '%') s) (v : ValueId) (x : List Char) :
    s ≠ v.text.toList ++ x :=
  hs.ne_append (by rw [text, String.toList_append]; rfl) rfl x

theorem Instr.readable_valueList : Readable inList valueList := by
  intro vs ws s t hs ht h
  have hsign : ∀ c : Char, (c == '%') = true → inList c = true := fun c hc => by
    rw [beq_iff_eq.mp hc]
    rfl
  obtain ⟨hall, hst⟩ := read_commaList (R := Eq)
    (fun _ _ _ _ _ _ hx hy h => ValueId.readable hx hy h)
    (fun v _ x => (v.ne_append (ht.mono hsign) x).symm)
    (fun w _ y => w.ne_append (hs.mono hsign) y) hs ht h
  exact ⟨List.forall₂_eq_eq_eq ▸ hall, hst⟩

namespace Ty

/-- A type without the pointers around it. -/
def core : Ty → Ty
  | pointer t => t.core
  | t => t

theorem core_array (elem : Ty) (len : Nat) : (array elem len).core = array elem len := rfl

def stars : Ty → Nat
  | pointer t => t.stars + 1
  | _ => 0

theorem eq_of_core {t u : Ty} (hcore : t.core = u.core) (hstars : t.stars = u.stars) : t = u := by
  induction t generalizing u with
  | pointer t ih =>
    cases u with
    | pointer u => exact congrArg pointer (ih hcore (Nat.succ.inj hstars))
    | _ => cases hstars
  | _ =>
    cases u with
    | pointer u => cases hstars
    | _ => exact hcore

theorem toList_text (t : Ty) :
    t.text.toList = t.core.text.toList ++ List.replicate t.stars '*' := by
  induction t with
  | pointer t ih =>
    rw [text, String.toList_append, ih, core, stars, List.replicate_succ', List.append_assoc]
    rfl
  | _ => exact (List.append_nil _).symm

def plain : List Ty :=
  [void, scalar .i1, scalar .i8, scalar .i16, scalar .i32, scalar .i64, scalar .f16, scalar .f32,
    scalar .f64]

theorem core_cases (t : Ty) : t.core ∈ plain ∨ ∃ elem len, t.core = array elem len := by
  induction t with
  | void => exact .inl (by decide)
  | scalar s => cases s <;> exact .inl (by decide)
  | array elem len => exact .inr ⟨elem, len, rfl⟩
  | pointer t ih => exact ih

theorem plain_text : ∀ t ∈ plain, t.text.toList.all Char.isAlphanum = true ∧
    t.text.toList.head?.any Char.isAlphanum = true ∧
    ∀ u ∈ plain, t.text = u.text → t = u := by
  decide

theorem toList_array (elem : Ty) (len : Nat) : (array elem len).text.toList =
    "[".toList ++ ((toString len).toList ++ (" x ".toList ++
      (elem.core.text.toList ++ (List.replicate elem.stars '*' ++ "]".toList)))) := by
  rw [text]
  simp only [String.toList_append, toList_text elem, List.append_assoc]

theorem array_ne_plain {elem t : Ty} {len : Nat} (ht : t ∈ plain) (x : List Char) :
    (array elem len).text.toList ++ s ≠ t.text.toList ++ x := by
  obtain ⟨c, hhead, hc⟩ := (Option.any_eq_true _ _).mp (plain_text t ht).2.1
  rw [toList_array, List.append_assoc]
  exact (breaks_append (x := "[") (p := Char.isAlphanum) rfl).ne_append hhead hc x

theorem read_stars {m n : Nat} (hs : Breaks (· == '*') s) (ht : Breaks (· == '*') t)
    (h : List.replicate m '*' ++ s = List.replicate n '*' ++ t) : m = n ∧ s = t := by
  obtain ⟨hmn, hst⟩ := read_while (by simp) (by simp) hs ht h
  exact ⟨by simpa using congrArg List.length hmn, hst⟩

theorem breaks_stars (n : Nat) (hs : Breaks Char.isAlphanum s) :
    Breaks Char.isAlphanum (List.replicate n '*' ++ s) := by
  cases n with
  | zero => exact hs
  | succ n => exact breaks_cons rfl

theorem read_plain {a b : Ty} (ha : a ∈ plain) (hs : Breaks Char.isAlphanum s)
    (ht : Breaks Char.isAlphanum t) (h : a.text.toList ++ s = b.core.text.toList ++ t) :
    a = b.core ∧ s = t := by
  rcases core_cases b with hb | ⟨elem, len, hb⟩
  · obtain ⟨htext, hst⟩ := read_while (List.all_eq_true.mp (plain_text a ha).1)
      (List.all_eq_true.mp (plain_text _ hb).1) hs ht h
    exact ⟨(plain_text a ha).2.2 _ hb (String.toList_inj.mp htext), hst⟩
  · rw [hb] at h
    exact absurd h.symm (array_ne_plain ha s)

theorem read_core {a b : Ty} (hs : Breaks Char.isAlphanum s) (ht : Breaks Char.isAlphanum t)
    (h : a.core.text.toList ++ s = b.core.text.toList ++ t) : a.core = b.core ∧ s = t := by
  induction a generalizing b s t with
  | void => exact read_plain (by decide) hs ht h
  | scalar x => exact read_plain ((core_cases (scalar x)).resolve_right nofun) hs ht h
  | pointer a ih => exact ih hs ht h
  | array elem len ih =>
    rcases core_cases b with hb | ⟨elem', len', hb⟩
    · exact absurd h (array_ne_plain hb t)
    · rw [hb, core_array, toList_array, toList_array] at h
      simp only [List.append_assoc, List.append_cancel_left_eq] at h
      obtain ⟨hlen, h₁⟩ := read_word (isWord_nat len) (isWord_nat len') rfl h
      obtain ⟨hcore, h₂⟩ := ih (breaks_stars _ (breaks_append rfl))
        (breaks_stars _ (breaks_append rfl)) h₁
      obtain ⟨hstars, h₃⟩ := read_stars (breaks_append rfl) (breaks_append rfl) h₂
      rw [hb, core_array, Nat.repr_inj.mp hlen, eq_of_core hcore hstars]
      exact ⟨rfl, List.append_cancel_left h₃⟩

theorem readable : Readable inWord text := by
  intro a b s t hs ht h
  rw [toList_text a, toList_text b, List.append_assoc, List.append_assoc] at h
  have halnum : ∀ c : Char, c.isAlphanum = true → inWord c = true := fun _ =>
    inWord_of_marks (by decide)
  obtain ⟨hcore, h₁⟩ := read_core (breaks_stars _ (hs.mono halnum))
    (breaks_stars _ (ht.mono halnum)) h
  obtain ⟨hstars, hst⟩ := read_stars (hs.mono (by simp; decide)) (ht.mono (by simp; decide)) h₁
  exact ⟨eq_of_core hcore hstars, hst⟩

/-- The characters that types begin with. -/
def opens (c : Char) : Bool := c.isAlphanum || c == '['

theorem ne_append (hs : Breaks opens s) (a : Ty) (x : List Char) : s ≠ a.text.toList ++ x := by
  obtain ⟨c, hc, hopens⟩ : ∃ c, a.text.toList.head? = some c ∧ opens c = true := by
    rw [toList_text, List.head?_append]
    rcases core_cases a with ha | ⟨elem, len, ha⟩
    · obtain ⟨c, hc, halnum⟩ := (Option.any_eq_true _ _).mp (plain_text _ ha).2.1
      exact ⟨c, by rw [hc]; rfl, by rw [opens, halnum]; rfl⟩
    · exact ⟨'[', by rw [ha, toList_array]; rfl, rfl⟩
  exact hs.ne_append hc hopens x

theorem readable_option : Readable inWord fun o : Option Ty => (o.map text).getD "?" := by
  intro a b s t hs ht h
  cases a with
  | none =>
    cases b with
    | none => exact ⟨rfl, List.append_cancel_left h⟩
    | some b => exact absurd h (ne_append (breaks_append rfl) b t)
  | some a =>
    cases b with
    | none => exact absurd h.symm (ne_append (breaks_append rfl) a s)
    | some b =>
      obtain ⟨rfl, hst⟩ := readable hs ht h
      exact ⟨rfl, hst⟩

end Ty

namespace Decimal

/-- A word that is not the text of an integer. -/
structure IsReal (s : String) : Prop where
  word : IsWord s
  real : ∃ c ∈ s.toList, inInteger c = false

theorem IsReal.ne_int {s : String} (h : IsReal s) (n : Int) : s ≠ toString n := by
  rintro rfl
  obtain ⟨c, hc, hreal⟩ := h.real
  rw [inInteger_int n c hc] at hreal
  cases hreal

theorem IsReal.after {s t : String} (ht : IsReal t) (hs : IsWord s) : IsReal (s ++ t) where
  word := isWord_append hs ht.word
  real := by
    obtain ⟨c, hc, hreal⟩ := ht.real
    exact ⟨c, by rw [String.toList_append]; exact List.mem_append_right _ hc, hreal⟩

theorem IsReal.before {s t : String} (hs : IsReal s) (ht : IsWord t) : IsReal (s ++ t) where
  word := isWord_append hs.word ht
  real := by
    obtain ⟨c, hc, hreal⟩ := hs.real
    exact ⟨c, by rw [String.toList_append]; exact List.mem_append_left _ hc, hreal⟩

theorem isWord_zeros (n : Nat) : IsWord (zeros n) := by
  intro c hc
  rw [zeros, String.toList_ofList] at hc
  rw [List.eq_of_mem_replicate hc]
  rfl

section Layout

variable {ds : List Char} (hds : ∀ c ∈ ds, c.isDigit = true)
include hds

theorem isWord_digits {es : List Char} (h : es ⊆ ds) : IsWord (String.ofList es) := by
  intro c hc
  rw [String.toList_ofList] at hc
  exact inWord_of_inInteger (by rw [inInteger, hds c (h hc)]; rfl)

theorem isReal_positional (exponent : Int) : IsReal (realLayout.positional ds exponent) := by
  have hpoint : IsReal "." := ⟨by decide, '.', by decide, by decide⟩
  have hwhole : IsReal ".0" := ⟨by decide, '.', by decide, by decide⟩
  have hzero : IsReal "0." := ⟨by decide, '.', by decide, by decide⟩
  have hall := isWord_digits hds (List.Subset.refl ds)
  unfold Layout.positional
  extract_lets point
  split
  · exact hwhole.after (isWord_append hall (isWord_zeros _))
  · split
    · exact (hpoint.after (isWord_digits hds (List.take_subset _ _))).before
        (isWord_digits hds (List.drop_subset _ _))
    · exact (hzero.before (isWord_zeros _)).before hall

theorem isReal_scientific (power : Int) : IsReal (realLayout.scientific ds power) := by
  have hmark : IsReal "e" := ⟨by decide, 'e', by decide, by decide⟩
  refine IsReal.before (hmark.after (isWord_append (isWord_digits hds (List.take_subset _ _)) ?_))
    (isWord_int power)
  split
  · decide
  · exact isWord_append (by decide) (isWord_digits hds (List.drop_subset _ _))

end Layout

theorem isReal_magnitude (d : Digits) : IsReal (realLayout.magnitude d) := by
  have hds : ∀ c ∈ Nat.toDigits 10 d.digits, c.isDigit = true := fun _ =>
    Nat.isDigit_of_mem_toDigits (by decide) (by decide)
  rw [Layout.magnitude]
  split
  · exact isReal_positional hds _
  · exact isReal_scientific hds _

theorem isReal_realText (x : Float) : IsReal (realText x) := by
  unfold realText Layout.ofBits
  extract_lets sign exponent fraction
  have hsign : IsWord sign := by
    unfold sign
    split <;> decide
  split
  · split
    · exact IsReal.after ⟨by decide, 'i', by decide, by decide⟩ hsign
    · exact ⟨by decide, 'N', by decide, by decide⟩
  · split
    · exact IsReal.after ⟨by decide, '.', by decide, by decide⟩
        (isWord_append hsign (by decide))
    · exact (isReal_magnitude _).after hsign

end Decimal

end ShaderIR
