/-!
# The shortest decimal of a binary number

A positive binary number stands for the reals that round to it. Its shortest decimal is
the multiple of the largest power of ten in that interval; of several, the one next to the
number, and of two equally near ones the larger. All arithmetic is exact.
-/

set_option autoImplicit false

namespace ShaderIR.Decimal

/-- The number `mantissa * 2 ^ shift / 2 ^ 1074`, with a mantissa of at most 53 bits. -/
structure Binary where
  mantissa : Nat
  shift : Nat

/-- The number `digits * 10 ^ exponent`. -/
structure Digits where
  digits : Nat
  exponent : Int

namespace Binary

/-- The leading bit of a mantissa of 53 bits. -/
def leading : Nat := Nat.pow 2 52

/-- The number of the exponent field and the fraction field of a 64-bit float. -/
def ofFields (exponent fraction : Nat) : Binary :=
  if exponent = 0 then ⟨fraction, 0⟩ else ⟨leading + fraction, exponent - 1⟩

/-- The number, in units of `2 ^ (-1076)`. -/
def middle (b : Binary) : Nat := 4 * b.mantissa * Nat.pow 2 b.shift

/-- The upper end of the reals that round to the number, in the same units. -/
def upper (b : Binary) : Nat := (4 * b.mantissa + 2) * Nat.pow 2 b.shift

/-- The lower end: half as far where the numbers below are twice as dense. -/
def lower (b : Binary) : Nat :=
  if b.mantissa = leading ∧ b.shift ≠ 0 then (4 * b.mantissa - 1) * Nat.pow 2 b.shift
  else (4 * b.mantissa - 2) * Nat.pow 2 b.shift

/-- Whether a real given in units of `2 ^ (-1076)` and multiplied by `scale` rounds to the
number. The ends do exactly if the mantissa is even. -/
def admits (b : Binary) (scale x : Nat) : Bool :=
  if b.mantissa % 2 = 0 then b.lower * scale ≤ x && x ≤ b.upper * scale
  else b.lower * scale < x && x < b.upper * scale

/-- The distance of the multiples of `10 ^ p`, in units of `2 ^ (-1076)` and multiplied by
`gridScale p` to make it whole. -/
def gridUnit (p : Int) : Nat := Nat.pow 2 1076 * Nat.pow 10 p.toNat

def gridScale (p : Int) : Nat := Nat.pow 10 (-p).toNat

/-- The admitted multiple of `10 ^ p` nearest to the number, if there is one. -/
def onGrid (b : Binary) (p : Int) : Option Nat :=
  let unit := gridUnit p
  let scale := gridScale p
  let x := b.middle * scale
  let k := x / unit
  match b.admits scale (k * unit), b.admits scale ((k + 1) * unit) with
  | true, true => some (if 2 * x < (2 * k + 1) * unit then k else k + 1)
  | true, false => some k
  | false, true => some (k + 1)
  | false, false => none

/-- The first grid with a hit, downwards from `10 ^ p`. -/
def search (b : Binary) : Nat → Int → Digits
  | 0, p => ⟨b.middle * gridScale p / gridUnit p, p⟩
  | n + 1, p =>
    match b.onGrid p with
    | some k => ⟨k, p⟩
    | none => search b n (p - 1)

/-- A power of ten above the number, and less than a hundred times as large. -/
def magnitude (b : Binary) : Int :=
  ((b.mantissa.log2 + b.shift + 1 : Nat) - 1074 : Int) * 30103 / 100000 + 1

/-- Nineteen grids below a power of ten above the number are finer than its interval. -/
def shortest (b : Binary) : Digits := b.search 20 b.magnitude

end Binary

end ShaderIR.Decimal
