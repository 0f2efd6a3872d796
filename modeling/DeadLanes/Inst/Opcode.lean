namespace DeadLanes

inductive Opcode where
  | undef
  | const
  | constComposite
  | load
  | store
  | accessChain
  | copy
  | fadd
  | fsub
  | fmul
  | iadd
  | isub
  | imul
  | slt
  | ine
  | scale
  | dot
  | extInst
  | insert
  | extract
  | construct
  | shuffle
  | phi
  | call
  | br
  | brc
  | ret
  | retv
  | unreachable
  deriving DecidableEq

namespace Opcode

def all : List Opcode :=
  [undef, const, constComposite, load, store, accessChain, copy, fadd, fsub, fmul, iadd, isub,
    imul, slt, ine, scale, dot, extInst, insert, extract, construct, shuffle, phi, call, br, brc,
    ret, retv, unreachable]

def mnemonic : Opcode → String
  | undef => "undef"
  | const => "const"
  | constComposite => "constcomp"
  | load => "load"
  | store => "store"
  | accessChain => "accesschain"
  | copy => "copy"
  | fadd => "fadd"
  | fsub => "fsub"
  | fmul => "fmul"
  | iadd => "iadd"
  | isub => "isub"
  | imul => "imul"
  | slt => "islt"
  | ine => "ine"
  | scale => "vtimess"
  | dot => "dot"
  | extInst => "extinst"
  | insert => "insert"
  | extract => "extract"
  | construct => "construct"
  | shuffle => "shuffle"
  | phi => "phi"
  | call => "call"
  | br => "br"
  | brc => "brc"
  | ret => "ret"
  | retv => "retv"
  | unreachable => "unreachable"

def ofMnemonic? (s : String) : Option Opcode := all.find? (·.mnemonic = s)

-- The long name, which the trace of the analysis uses.
def title : Opcode → String
  | undef => "Undef"
  | const => "Constant"
  | constComposite => "ConstantComposite"
  | load => "Load"
  | store => "Store"
  | accessChain => "AccessChain"
  | copy => "CopyObject"
  | fadd => "FAdd"
  | fsub => "FSub"
  | fmul => "FMul"
  | iadd => "IAdd"
  | isub => "ISub"
  | imul => "IMul"
  | slt => "SLessThan"
  | ine => "INotEqual"
  | scale => "VectorTimesScalar"
  | dot => "Dot"
  | extInst => "ExtInst"
  | insert => "CompositeInsert"
  | extract => "CompositeExtract"
  | construct => "CompositeConstruct"
  | shuffle => "VectorShuffle"
  | phi => "Phi"
  | call => "FunctionCall"
  | br => "Branch"
  | brc => "BranchConditional"
  | ret => "Return"
  | retv => "ReturnValue"
  | unreachable => "Unreachable"

def sideEffect : Opcode → Bool
  | store | call => true
  | _ => false

def terminator : Opcode → Bool
  | br | brc | ret | retv | unreachable => true
  | _ => false

-- Never produces a result. A call may go either way.
def resultless : Opcode → Bool
  | store => true
  | op => op.terminator

-- An unused instruction of this kind can be removed without a trace.
-- Extended instructions are mathematical functions and count as such.
def isPure (op : Opcode) : Bool := !op.sideEffect && !op.terminator

def flags (op : Opcode) : Nat :=
  op.sideEffect.toNat + 2 * op.terminator.toNat + 4 * op.resultless.toNat

end Opcode

end DeadLanes
