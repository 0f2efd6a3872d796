import DeadLanes.Name
import DeadLanes.Inst.Opcode

namespace DeadLanes

inductive Operand where
  | value (v : Value)
  | label (b : Label)
  | literal (n : Nat)
  deriving DecidableEq

namespace Operand

def text : Operand → String
  | value v => v.text
  | label b => b.text
  | literal n => n.repr

def value? : Operand → Option Value
  | value v => some v
  | _ => none

def label? : Operand → Option Label
  | label b => some b
  | _ => none

def literal? : Operand → Option Nat
  | literal n => some n
  | _ => none

end Operand

-- A result and its type come together or not at all. What the operands of an
-- opcode should look like is for the checker; any list can be held.
structure Inst where
  opcode : Opcode
  defines : Option (Value × TypeRef)
  operands : List Operand
  deriving DecidableEq

-- The selector of a shuffle lane whose content does not matter.
def anyLane : Nat := 0xFFFFFFFF

namespace Inst

def result? (i : Inst) : Option Value := i.defines.map (·.1)

def ty? (i : Inst) : Option TypeRef := i.defines.map (·.2)

def values (i : Inst) : List Value := i.operands.filterMap Operand.value?

def slots (i : Inst) : List (Nat × Value) :=
  i.operands.zipIdx.filterMap fun (o, position) => o.value?.map (position, ·)

def literals (i : Inst) : List Nat := i.operands.filterMap Operand.literal?

def successors (i : Inst) : List Label :=
  if i.opcode.terminator then i.operands.filterMap Operand.label? else []

def setOperand (i : Inst) (position : Nat) (o : Operand) : Inst :=
  { i with operands := i.operands.set position o }

def addOperands (i : Inst) (os : List Operand) : Inst :=
  { i with operands := i.operands ++ os }

def asInsert? (i : Inst) : Option (Value × Value × Nat) :=
  match i.opcode, i.operands with
  | .insert, [.value obj, .value base, .literal lane] => some (obj, base, lane)
  | _, _ => none

def asExtract? (i : Inst) : Option (Value × Nat) :=
  match i.opcode, i.operands with
  | .extract, [.value src, .literal lane] => some (src, lane)
  | _, _ => none

def asShuffle? (i : Inst) : Option (Value × Value × List Nat) :=
  match i.opcode, i.operands with
  | .shuffle, .value a :: .value b :: sels => (sels.mapM Operand.literal?).map (a, b, ·)
  | _, _ => none

-- Operands two by two; a pair that is not a value and a block is passed over.
def pairs : List Operand → List (Value × Label)
  | .value v :: .label b :: rest => (v, b) :: pairs rest
  | _ :: _ :: rest => pairs rest
  | _ => []

def incoming (i : Inst) : List (Value × Label) :=
  if i.opcode = .phi then pairs i.operands else []

def words (name : TypeRef → String) (i : Inst) : List String :=
  let target := match i.defines with
    | some (v, _) => [v.text, "="]
    | none => []
  let type := match i.defines with
    | some (_, t) => [name t]
    | none => []
  target ++ [i.opcode.mnemonic] ++ type ++ i.operands.map Operand.text

def textWith (name : TypeRef → String) (i : Inst) : String := " ".intercalate (i.words name)

def text (i : Inst) : String := i.textWith TypeRef.text

end Inst

end DeadLanes
