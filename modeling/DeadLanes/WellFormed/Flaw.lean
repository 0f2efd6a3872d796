import DeadLanes.Inst
import DeadLanes.Fault

namespace DeadLanes

inductive Flaw where
  | undefinedValue (v : Value)
  | redefined (v : Value)
  | missingTerminator (b : Label)
  | earlyTerminator (b : Label)
  | unknownBlock (b : Label)
  | phiPredecessors (v : Value) (b : Label)
  | misplacedPhi (v : Value)
  | laneOutOfRange (v : Value) (lane lanes : Nat)
  | badSelector (v : Value) (sel : Nat)
  | badOperands (op : Opcode) (v : Value)
  | typeMismatch (op : Opcode) (v : Value)
  | badResult (op : Opcode)
  deriving DecidableEq

def Flaw.text : Flaw → String
  | .undefinedValue v => "use of undefined value " ++ v.text
  | .redefined v => "value " ++ v.text ++ " is defined more than once"
  | .missingTerminator b => "block " ++ b.text ++ " has no terminator"
  | .earlyTerminator b => "block " ++ b.text ++ " has a terminator before its end"
  | .unknownBlock b => "reference to nonexistent block " ++ b.text
  | .phiPredecessors v b =>
    "phi " ++ v.text ++ " in " ++ b.text ++ " doesn't match the block's predecessors"
  | .misplacedPhi v => "phi " ++ v.text ++ " is not at the start of its block"
  | .laneOutOfRange v lane lanes =>
    "lane " ++ lane.repr ++ " is out of range for " ++ v.text ++ " (" ++ lanes.repr ++ " lanes)"
  | .badSelector v sel => "shuffle " ++ v.text ++ " selector " ++ sel.repr ++ " is out of range"
  | .badOperands op v => "malformed operands for " ++ op.mnemonic ++ " (result " ++ v.text ++ ")"
  | .typeMismatch op v => "type mismatch in " ++ op.mnemonic ++ " (result " ++ v.text ++ ")"
  | .badResult op => "bad result for " ++ op.mnemonic

def Flaw.report (func : String) (flaw : Flaw) : String :=
  "malformed IR in function '" ++ func ++ "': " ++ flaw.text

-- Why a function is not accepted: it has a flaw, or a question the checker had
-- to ask is itself a fault.
inductive Rejection where
  | flaw (flaw : Flaw)
  | fault (fault : Fault)
  deriving DecidableEq

end DeadLanes
