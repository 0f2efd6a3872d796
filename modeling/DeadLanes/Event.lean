import DeadLanes.Func.FlowGraph
import DeadLanes.Lane.LaneSet
import DeadLanes.Text

namespace DeadLanes

inductive Level where
  | trace
  | debug
  | warn
  deriving DecidableEq

def Level.text : Level → String
  | trace => "TRACE"
  | debug => "DEBUG"
  | warn => "WARN"

-- What the pass tells about its work. `func` is the name of the function.
inductive Event where
  | control (f : Func)
  | roots (func : String) (count : Nat)
  | grew (v : Value) (live : LaneSet) (op : Opcode)
  | fixpoint (func : String) (visits : Nat)
  | bypassed (func : String) (v : Value) (uses : Nat) (base : Value)
  | erased (func : String) (inst : Inst)
  | orphaned (func : String) (inst : Inst)
  | settled (func : String) (rounds : Nat) (changed : Bool)
  | gaveUp (func : String) (rounds : Nat)

namespace Event

def level : Event → Level
  | control _ | bypassed .. | erased .. | orphaned .. | settled .. => .debug
  | roots .. | grew .. | fixpoint .. => .trace
  | gaveUp .. => .warn

def text : Event → String
  | control f => "CFG for " ++ f.name ++ ":\n" ++ f.flowGraph.dot ++ "\n" ++ f.rawText
  | roots func count => func ++ ": " ++ count.repr ++ " roots"
  | grew v live op => "  " ++ v.text ++ " <- " ++ live.text ++ " (from " ++ op.title ++ ")"
  | fixpoint func visits => func ++ ": fixpoint after " ++ visits.repr ++ " visits"
  | bypassed func v uses base =>
    func ++ ": dead insert " ++ v.text ++ ", " ++ uses.repr ++ " use(s) now use " ++ base.text
  | erased func inst => func ++ ": erased " ++ inst.text
  | orphaned func inst => func ++ ": erased " ++ inst.text ++ " (no uses left)"
  | settled func rounds changed =>
    func ++ ": done after " ++ rounds.repr ++ " round(s), changed = " ++ toString changed
  | gaveUp func rounds => func ++ ": still changing after " ++ rounds.repr ++ " rounds; stopping"

def line (e : Event) : String := e.level.text ++ " " ++ e.text

end Event

end DeadLanes
