import DeadLanes.WellFormed.Check

namespace DeadLanes

-- A function under construction. Result types follow from the operands where
-- the opcode allows it, so operands have to be defined first.
structure Draft where
  module : Module
  func : Func
  current : Option Label
  defs : List (Value × InstRef × TypeRef)

inductive Arith where
  | fadd
  | fsub
  | fmul
  | iadd
  | isub
  | imul
  | scale
  deriving DecidableEq

def Arith.opcode : Arith → Opcode
  | fadd => .fadd
  | fsub => .fsub
  | fmul => .fmul
  | iadd => .iadd
  | isub => .isub
  | imul => .imul
  | scale => .scale

inductive Compare where
  | slt
  | ine
  deriving DecidableEq

def Compare.opcode : Compare → Opcode
  | slt => .slt
  | ine => .ine

namespace Draft

def start (m : Module) (name : String) : Draft := ⟨m, .new name, none, []⟩

def inModule (act : Attempt Module α) : Attempt Draft α :=
  act.on (·.module) fun m d => { d with module := m }

def inFunc (act : Attempt Func α) : Attempt Draft α :=
  act.on (·.func) fun f d => { d with func := f }

def addBlock : Attempt Draft Label := do
  let b ← inFunc (Attempt.step Func.addBlock)
  Attempt.modify fun d => { d with current := d.current.or (some b) }
  return b

def switchTo (b : Label) : Attempt Draft Unit := do
  let d ← Attempt.state
  Attempt.demand (d.func.hasBlock b = true) (.noBlock b)
  Attempt.modify fun d => { d with current := some b }

def tyOf (v : Value) : Attempt Draft TypeRef := do
  let d ← Attempt.state
  Attempt.need (((d.defs.lookup v).map (·.2)).or (d.module.globals.ty? v)) (.untyped v)

def place (i : Inst) : Attempt Draft InstRef := do
  let d ← Attempt.state
  let b ← Attempt.need d.current .noCurrentBlock
  inFunc (Func.append b i)

-- An instruction with a fresh result. The value is used up even if there is no
-- block to place the instruction in.
def define (op : Opcode) (ty : TypeRef) (operands : List Operand) : Attempt Draft Value := do
  let v ← inModule Module.fresh
  let r ← place ⟨op, some (v, ty), operands⟩
  Attempt.modify fun d => { d with defs := (v, r, ty) :: d.defs }
  return v

def effect (op : Opcode) (operands : List Operand) : Attempt Draft Unit := do
  let _ ← place ⟨op, none, operands⟩
  return ()

def load (ptr : Value) : Attempt Draft Value := do
  let ty ← tyOf ptr
  let d ← Attempt.state
  let pointee ← Attempt.ofExcept (d.module.types.pointeeOf ty)
  let ty ← Attempt.need pointee (.notPointer ptr)
  define .load ty [.value ptr]

def copy (v : Value) : Attempt Draft Value := do
  define .copy (← tyOf v) [.value v]

def arith (op : Arith) (a b : Value) : Attempt Draft Value := do
  define op.opcode (← tyOf a) [.value a, .value b]

def compare (op : Compare) (a b : Value) : Attempt Draft Value := do
  let ty ← inModule (Module.onTypes (TypeTable.enter .bool))
  define op.opcode ty [.value a, .value b]

def elemOf (v : Value) : Attempt Draft TypeRef := do
  let ty ← tyOf v
  let d ← Attempt.state
  let info ← Attempt.ofExcept (d.module.types.vectorInfo ty)
  let (elem, _) ← Attempt.need info (.notVector v)
  return elem

def dot (a b : Value) : Attempt Draft Value := do
  define .dot (← elemOf a) [.value a, .value b]

def insert (obj base : Value) (lane : Nat) : Attempt Draft Value := do
  define .insert (← tyOf base) [.value obj, .value base, .literal lane]

def extract (src : Value) (lane : Nat) : Attempt Draft Value := do
  define .extract (← elemOf src) [.value src, .literal lane]

def shuffle (a b : Value) (sels : List Nat) : Attempt Draft Value := do
  let elem ← elemOf a
  let ty ← inModule (Module.onTypes (TypeTable.enterVector elem (cut sels.length)))
  define .shuffle ty (.value a :: .value b :: sels.map .literal)

def pairUp (incoming : List (Value × Label)) : List Operand :=
  incoming.flatMap fun (v, b) => [.value v, .label b]

def addIncoming (phi v : Value) (pred : Label) : Attempt Draft Unit := do
  let d ← Attempt.state
  let (r, _) ← Attempt.need (d.defs.lookup phi) (.undefined phi)
  let i ← Attempt.need (d.func.inst? r) (.undefined phi)
  Attempt.demand (i.opcode = .phi) (.notPhi phi)
  inFunc (Attempt.modify (·.revise r (·.addOperands [.value v, .label pred])))

inductive Step where
  | block
  | switchTo (b : Label)
  | tyOf (v : Value)
  | undef (ty : TypeRef)
  | const (ty : TypeRef) (bits : Nat)
  | load (ptr : Value)
  | accessChain (ty : TypeRef) (base : Value) (indices : List Value)
  | copy (v : Value)
  | arith (op : Arith) (a b : Value)
  | compare (op : Compare) (a b : Value)
  | dot (a b : Value)
  | extInst (ty : TypeRef) (number : Nat) (args : List Value)
  | insert (obj base : Value) (lane : Nat)
  | extract (src : Value) (lane : Nat)
  | construct (ty : TypeRef) (parts : List Value)
  | shuffle (a b : Value) (sels : List Nat)
  | phi (ty : TypeRef) (incoming : List (Value × Label))
  | addIncoming (phi v : Value) (pred : Label)
  | call (ty : TypeRef) (args : List Value)
  | callVoid (args : List Value)
  | store (ptr v : Value)
  | br (target : Label)
  | brc (cond : Value) (yes no : Label)
  | ret
  | retv (v : Value)
  | unreachable
  deriving DecidableEq

inductive Reply where
  | done
  | value (v : Value)
  | label (b : Label)
  | ty (t : TypeRef)
  deriving DecidableEq

def giving (act : Attempt Draft Value) : Attempt Draft Reply := do
  return .value (← act)

def doing (act : Attempt Draft Unit) : Attempt Draft Reply := do
  act
  return .done

def step : Step → Attempt Draft Reply
  | .block => do return .label (← addBlock)
  | .switchTo b => doing (Draft.switchTo b)
  | .tyOf v => do return .ty (← Draft.tyOf v)
  | .undef ty => giving (define .undef ty [])
  | .const ty bits => giving (define .const ty [.literal bits])
  | .load ptr => giving (Draft.load ptr)
  | .accessChain ty base indices => giving (define .accessChain ty ((base :: indices).map .value))
  | .copy v => giving (Draft.copy v)
  | .arith op a b => giving (Draft.arith op a b)
  | .compare op a b => giving (Draft.compare op a b)
  | .dot a b => giving (Draft.dot a b)
  | .extInst ty number args => giving (define .extInst ty (.literal number :: args.map .value))
  | .insert obj base lane => giving (Draft.insert obj base lane)
  | .extract src lane => giving (Draft.extract src lane)
  | .construct ty parts => giving (define .construct ty (parts.map .value))
  | .shuffle a b sels => giving (Draft.shuffle a b sels)
  | .phi ty incoming => giving (define .phi ty (pairUp incoming))
  | .addIncoming phi v pred => doing (Draft.addIncoming phi v pred)
  | .call ty args => giving (define .call ty (args.map .value))
  | .callVoid args => doing (effect .call (args.map .value))
  | .store ptr v => doing (effect .store [.value ptr, .value v])
  | .br target => doing (effect .br [.label target])
  | .brc cond yes no => doing (effect .brc [.value cond, .label yes, .label no])
  | .ret => doing (effect .ret [])
  | .retv v => doing (effect .retv [.value v])
  | .unreachable => doing (effect .unreachable [])

-- Steps one after the other; one that faults does not stop the rest.
def steps (d : Draft) : List Step → List (Except Fault Reply) × Draft
  | [] => ([], d)
  | s :: rest =>
    let (answer, d) := step s d
    let (answers, d) := d.steps rest
    (answer :: answers, d)

def scope (d : Draft) : Scope := ⟨d.module.types, d.module.globals, d.func⟩

-- Adds the function to the module if the checker accepts it. Values and types
-- that the draft has made stay with the module in any case.
def finish (d : Draft) : Except Rejection Nat × Module :=
  match d.scope.check with
  | .ok () =>
    let (index, m) := d.module.addFunc d.func
    (.ok index, m)
  | .error r => (.error r, d.module)

end Draft

end DeadLanes
