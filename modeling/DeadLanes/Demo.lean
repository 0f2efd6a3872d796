import DeadLanes.Module.Draft
import DeadLanes.Pass

namespace DeadLanes.Demo

-- Two small modules, before the pass and after it.

inductive Style where
  | plain
  | bold
  | red

def Style.paint (color : Bool) (style : Style) (s : String) : String :=
  if color then
    match style with
    | plain => s
    | bold => "\x1b[1m" ++ s ++ "\x1b[0m"
    | red => "\x1b[31m" ++ s ++ "\x1b[0m"
  else s

def build (name : String) (body : Attempt Draft Unit) : Attempt Module Unit := fun m =>
  match body (.start m name) with
  | (.error e, d) => (.error e, d.module)
  | (.ok (), d) =>
    match d.finish with
    | (.error (.fault e), m) => (.error e, m)
    | (.error (.flaw _), m) => (.error .unknownIndex, m)
    | (.ok _, m) => (.ok (), m)

-- v = In2; v.x = In0 + In1; v.x = 0.0; OutColor = v.xyxy
def insertAfterInsert : Attempt Module Unit := do
  let f32 ← Module.onTypes (TypeTable.enter (.float 32))
  let v2 ← Module.onTypes (TypeTable.enterVector f32 2)
  let v4 ← Module.onTypes (TypeTable.enterVector f32 4)
  let in2 ← Module.addVariable v2 .input
  let in0 ← Module.addVariable f32 .input
  let in1 ← Module.addVariable f32 .input
  let zero ← Module.addFloat32 0x00000000
  let out ← Module.addVariable v4 .output
  build "main" do
    let _ ← Draft.addBlock
    let v ← Draft.load in2
    let x ← Draft.load in0
    let y ← Draft.load in1
    let sum ← Draft.arith .fadd x y
    let first ← Draft.insert sum v 0
    let second ← Draft.insert zero first 0
    let wide ← Draft.shuffle second second [0, 1, 0, 1]
    Draft.effect .store [.value out, .value wide]
    Draft.effect .ret []

-- v = vec2(0.0, 1.0); for (i = 0; i < n; i++) v = vec2(v.x + 1.0, 0.5);
-- OutColor = vec4(v.x)
def deadLaneInLoop : Attempt Module Unit := do
  let f32 ← Module.onTypes (TypeTable.enter (.float 32))
  let i32 ← Module.onTypes (TypeTable.enter (.int 32 true))
  let v2 ← Module.onTypes (TypeTable.enterVector f32 2)
  let v4 ← Module.onTypes (TypeTable.enterVector f32 4)
  let zero ← Module.addFloat32 0x00000000
  let one ← Module.addFloat32 0x3f800000
  let start ← Module.addComposite v2 [zero, one]
  let half ← Module.addFloat32 0x3f000000
  let count ← Module.addVariable i32 .uniform
  let i0 ← Module.addInt32 0
  let i1 ← Module.addInt32 1
  let out ← Module.addVariable v4 .output
  build "main" do
    let entry ← Draft.addBlock
    let header ← Draft.addBlock
    let body ← Draft.addBlock
    let exit ← Draft.addBlock
    Draft.effect .br [.label header]
    Draft.switchTo header
    let v ← Draft.define .phi v2 (Draft.pairUp [(start, entry)])
    let i ← Draft.define .phi i32 (Draft.pairUp [(i0, entry)])
    let n ← Draft.load count
    let more ← Draft.compare .slt i n
    Draft.effect .brc [.value more, .label body, .label exit]
    Draft.switchTo body
    let x ← Draft.extract v 0
    let stepped ← Draft.arith .fadd x one
    let first ← Draft.insert stepped v 0
    let second ← Draft.insert half first 1
    let next ← Draft.arith .iadd i i1
    Draft.effect .br [.label header]
    Draft.addIncoming v second body
    Draft.addIncoming i next body
    Draft.switchTo exit
    let lane ← Draft.extract v 0
    let wide ← Draft.define .construct v4 [.value lane, .value lane, .value lane, .value lane]
    Draft.effect .store [.value out, .value wide]
    Draft.effect .ret []

def compareLines (color : Bool) (types : TypeTable) (before after : Func) : List String :=
  let kept := after.lines types.name
  (before.lines types.name).map fun line =>
    if line ∈ kept then "  " ++ line else Style.red.paint color ("- " ++ line)

def present (color : Bool) (title : String) (m : Module) : Except Fault (List String) := do
  let o := m.clean {}
  let changed ← o.changed
  let compared := (m.funcs.zip o.subject.funcs).flatMap fun (before, after) =>
    compareLines color m.types before after
  return [Style.bold.paint color ("===== " ++ title ++ " ====="), m.text,
    Style.bold.paint color ("----- after (changed = " ++ toString changed ++ ") -----")] ++ compared ++ [""]

def scene (color : Bool) (title : String) (m : Attempt Module Unit) : Except Fault String :=
  match m .new with
  | (.error e, _) => .error e
  | (.ok (), m) => (present color title m).map joinLines

def report (color : Bool) : Except Fault String := do
  let first ← scene color "insert after insert" insertAfterInsert
  let second ← scene color "dead lane in a loop" deadLaneInLoop
  return first ++ second

end DeadLanes.Demo
