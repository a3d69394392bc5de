import ShaderIR.Function.Basic

/-!
# Texts of functions

A function is written with its parameters, then block by block with the parameters and
the live instructions of each.
-/

set_option autoImplicit false

namespace ShaderIR

namespace Function

def headText (f : Function) : String :=
  "\ndefine " ++ f.returnTy.text ++ " @" ++ f.name ++ "(" ++
    Text.commaList (f.params.map fun p => p.name ++ ": " ++ p.ty.text) ++ ") \x7b\n"

def blockHeadText (blk : Block) : String :=
  "  " ++ blk.label ++ "(" ++
    Text.commaList (blk.params.map fun p => p.ty.text ++ " " ++ p.id.text) ++ "):\n"

def instrLine (f : Function) (ins : Instr) : String := "    " ++ ins.text f.typeOf? ++ "\n"

def blockText (f : Function) (blk : Block) : String :=
  blockHeadText blk ++ String.join ((f.resolve blk.body).map fun p => f.instrLine p.2)

def text (f : Function) : String :=
  f.headText ++ String.join (f.blocks.map f.blockText) ++ "\x7d\n"

end Function

end ShaderIR
