import ShaderIR.Decimal.Shortest

/-!
# Texts of floating-point numbers

A number is written with its shortest digits, positionally where its magnitude lies
between two powers of ten, and otherwise as one digit, a fraction and a power of ten.
-/

set_option autoImplicit false

namespace ShaderIR.Decimal

structure Layout where
  /-- The least power of ten written positionally. -/
  least : Int
  /-- The greatest power of ten written positionally. -/
  greatest : Int
  /-- What follows a whole number. -/
  wholeEnd : String
  exponentMark : String
  infinity : String
  notANumber : String

def zeros (n : Nat) : String := String.ofList (List.replicate n '0')

namespace Layout

def positional (l : Layout) (ds : List Char) (exponent : Int) : String :=
  let point : Int := ds.length + exponent
  if 0 ≤ exponent then String.ofList ds ++ zeros exponent.toNat ++ l.wholeEnd
  else if 0 < point then
    String.ofList (ds.take point.toNat) ++ "." ++ String.ofList (ds.drop point.toNat)
  else "0." ++ zeros (-point).toNat ++ String.ofList ds

def scientific (l : Layout) (ds : List Char) (power : Int) : String :=
  String.ofList (ds.take 1) ++ (if ds.length ≤ 1 then "" else "." ++ String.ofList (ds.drop 1)) ++
    l.exponentMark ++ toString power

def magnitude (l : Layout) (d : Digits) : String :=
  let ds := Nat.toDigits 10 d.digits
  let power : Int := ds.length + d.exponent - 1
  if l.least ≤ power ∧ power ≤ l.greatest then l.positional ds d.exponent
  else l.scientific ds power

/-- The text of the 64-bit float with the given bits. -/
def ofBits (l : Layout) (bits : Nat) : String :=
  let sign := if (bits >>> 63) % 2 = 1 then "-" else ""
  let exponent := (bits >>> 52) % 2048
  let fraction := bits % Binary.leading
  if exponent = 2047 then
    if fraction = 0 then sign ++ l.infinity else l.notANumber
  else if exponent = 0 ∧ fraction = 0 then sign ++ "0" ++ l.wholeEnd
  else sign ++ l.magnitude (Binary.ofFields exponent fraction).shortest

end Layout

/-- Numbers from 0.0001 up to 10^16 are positional and show that they are not integers;
all others have an exponent. -/
def realLayout : Layout where
  least := -4
  greatest := 15
  wholeEnd := ".0"
  exponentMark := "e"
  infinity := "inf"
  notANumber := "NaN"

def realText (x : Float) : String := realLayout.ofBits x.toBits.toNat

example : realText 1.0 = "1.0" := by decide +kernel
example : realText 0.1 = "0.1" := by decide +kernel
example : realText 1e16 = "1e16" := by decide +kernel
example : realText 9999999999999998.0 = "9999999999999998.0" := by decide +kernel
example : realText 0.00015 = "0.00015" := by decide +kernel
example : realText 0.000015 = "1.5e-5" := by decide +kernel
example : realText (-0.0) = "-0.0" := by decide +kernel
example : realLayout.ofBits 1 = "5e-324" := by decide +kernel

end ShaderIR.Decimal
