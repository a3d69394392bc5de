import ShaderIR.Text.Unprinted

/-!
# Quoted texts

A quoted text stands between double quotes. A quote, a backslash and the common controls
are written with a backslash, any other character without a picture by its number in
hexadecimal digits, and all else as it is.
-/

set_option autoImplicit false

namespace ShaderIR.Text

def hexDigits (n : Nat) : String := String.ofList (Nat.toDigits 16 n)

def quotedChar (c : Char) : String :=
  if c = '"' then "\\\""
  else if c = '\\' then "\\\\"
  else if c = '\n' then "\\n"
  else if c = '\t' then "\\t"
  else if c = '\r' then "\\r"
  else if c = Char.ofNat 0 then "\\0"
  else if isUnprinted c then "\\u\x7b" ++ hexDigits c.toNat ++ "\x7d"
  else String.singleton c

def quoted (s : String) : String :=
  s.toList.foldl (fun t c => t ++ quotedChar c) "\"" ++ "\""

def quotedOption : Option String → String
  | some s => "Some(" ++ quoted s ++ ")"
  | none => "None"

end ShaderIR.Text
