/-!
# Segments of a list in text form

A list of names is written with commas between them. White space around a name and
empty places do not count. White space is the Unicode property of that name.
-/

set_option autoImplicit false

namespace ShaderIR.Text

/-- White space in the sense of Unicode. -/
def isBlank (c : Char) : Bool :=
  let n := c.toNat
  (9 ≤ n && n ≤ 13) || n == 0x20 || n == 0x85 || n == 0xa0 || n == 0x1680 ||
    (0x2000 ≤ n && n ≤ 0x200a) || n == 0x2028 || n == 0x2029 || n == 0x202f ||
    n == 0x205f || n == 0x3000

def trim (cs : List Char) : List Char :=
  ((cs.dropWhile isBlank).reverse.dropWhile isBlank).reverse

/-- The parts between commas; there is always at least one. -/
def commaParts : List Char → List (List Char)
  | [] => [[]]
  | c :: cs =>
    if c = ',' then [] :: commaParts cs
    else match commaParts cs with
      | [] => [[c]]
      | p :: ps => (c :: p) :: ps

/-- The names of a list in text form, in order. -/
def segments (s : String) : List String :=
  (((commaParts s.toList).map trim).filter fun p => !p.isEmpty).map String.ofList

def commaList : List String → String
  | [] => ""
  | [s] => s
  | s :: t :: rest => s ++ ", " ++ commaList (t :: rest)

theorem commaParts_ne_nil (cs : List Char) : commaParts cs ≠ [] := by
  cases cs with
  | nil => simp [commaParts]
  | cons c cs =>
    rw [commaParts]
    split
    · simp
    · split <;> simp

theorem intercalate_commaParts (cs : List Char) :
    List.intercalate [','] (commaParts cs) = cs := by
  induction cs with
  | nil => rfl
  | cons c cs ih =>
    obtain ⟨p, ps, hp⟩ := List.exists_cons_of_ne_nil (commaParts_ne_nil cs)
    rw [hp] at ih
    rw [commaParts]
    split
    · next h => subst h; rw [hp, ← ih]; simp [List.intercalate, List.intersperse]
    · rw [hp]
      simp only
      rw [← ih]
      cases ps <;> simp [List.intercalate, List.intersperse]

end ShaderIR.Text
