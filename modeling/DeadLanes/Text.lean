import DeadLanes.Module

namespace DeadLanes

-- Functions and modules as text. Every line ends in a line break.

def hexText (n : Nat) : String := "0x" ++ String.ofList (Nat.toDigits 16 n)

def joinLines (lines : List String) : String := String.join (lines.map (· ++ "\n"))

namespace Func

def blockLines (name : TypeRef → String) (b : Label) (block : List Placed) : List String :=
  (b.text ++ ":") :: block.map fun p => "    " ++ p.inst.textWith name

def lines (f : Func) (name : TypeRef → String) : List String :=
  ("fn " ++ f.name ++ " \x7b") ::
    ((f.labels.zip f.blocks).flatMap fun (b, block) => blockLines name b block) ++ ["\x7d"]

def text (f : Func) (types : TypeTable) : String := joinLines (f.lines types.name)

def rawText (f : Func) : String := joinLines (f.lines TypeRef.text)

end Func

def Global.text (types : TypeTable) (v : Value) (g : Global) : String :=
  let ty := types.name g.ty
  v.text ++ " = " ++ match g.kind with
    | .constant bits => "const " ++ ty ++ " " ++ hexText bits.toNat
    | .composite parts => " ".intercalate (("constcomp " ++ ty) :: parts.map Value.text)
    | .undef => "undef " ++ ty
    | .variable _ => "var " ++ ty

def Module.text (m : Module) : String :=
  joinLines (m.globals.entries.map fun (v, g) => g.text m.types v) ++
    String.join (m.funcs.map fun f => "\n" ++ f.text m.types)

end DeadLanes
