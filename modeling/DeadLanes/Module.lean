import DeadLanes.Ty.Table
import DeadLanes.Func

namespace DeadLanes

inductive GlobalKind where
  | constant (bits : BitVec 64)
  | composite (parts : List Value)
  | undef
  -- the type of the global is a pointer to the variable
  | variable (storage : Storage)
  deriving DecidableEq

structure Global where
  ty : TypeRef
  kind : GlobalKind
  deriving DecidableEq

structure Globals where
  entries : List (Value × Global)

namespace Globals

def empty : Globals := ⟨[]⟩

def get? (g : Globals) (v : Value) : Option Global := g.entries.lookup v

def ty? (g : Globals) (v : Value) : Option TypeRef := (g.get? v).map (·.ty)

def contains (g : Globals) (v : Value) : Bool := (g.get? v).isSome

def values (g : Globals) : List Value := g.entries.map (·.1)

end Globals

-- Functions with the types and globals they share. Values are handed out here,
-- so that no two functions define the same one.
structure Module where
  types : TypeTable
  globals : Globals
  funcs : List Func
  next : Nat

namespace Module

def new : Module := ⟨.empty, .empty, [], 1⟩

def onTypes (m : Attempt TypeTable α) : Attempt Module α :=
  m.on (·.types) fun types m => { m with types := types }

def fresh : Attempt Module Value := do
  let m ← Attempt.state
  Attempt.demand (m.next + 1 < wordBound) .overflow
  Attempt.modify fun m => { m with next := m.next + 1 }
  return ⟨m.next⟩

def addGlobal (global : Global) : Attempt Module Value := do
  let v ← fresh
  Attempt.modify fun m => { m with globals := ⟨m.globals.entries ++ [(v, global)]⟩ }
  return v

def addConstant (ty : TypeRef) (bits : BitVec 64) : Attempt Module Value :=
  addGlobal ⟨ty, .constant bits⟩

def addFloat32 (bits : BitVec 32) : Attempt Module Value := do
  addConstant (← onTypes (TypeTable.enter (.float 32))) (bits.zeroExtend 64)

def addInt32 (value : Int) : Attempt Module Value := do
  addConstant (← onTypes (TypeTable.enter (.int 32 true))) ((BitVec.ofInt 32 value).zeroExtend 64)

def addComposite (ty : TypeRef) (parts : List Value) : Attempt Module Value :=
  addGlobal ⟨ty, .composite parts⟩

def addUndef (ty : TypeRef) : Attempt Module Value := addGlobal ⟨ty, .undef⟩

def addVariable (pointee : TypeRef) (storage : Storage) : Attempt Module Value := do
  let ty ← onTypes (TypeTable.enter (.pointer pointee storage))
  addGlobal ⟨ty, .variable storage⟩

def addFunc (m : Module) (f : Func) : Nat × Module :=
  (m.funcs.length, { m with funcs := m.funcs ++ [f] })

def func (m : Module) (index : Nat) : Except Fault Func :=
  match m.funcs[index]? with
  | some f => .ok f
  | none => .error .unknownIndex

def setFunc (m : Module) (index : Nat) (f : Func) : Module :=
  { m with funcs := m.funcs.set index f }

end Module

-- What the values of a function are looked up in.
structure Scope where
  types : TypeTable
  globals : Globals
  func : Func

namespace Scope

def ty? (s : Scope) (v : Value) : Option TypeRef := (s.func.ty? v).or (s.globals.ty? v)

def width? (s : Scope) (v : Value) : Option Nat := (s.ty? v).bind s.types.lanes?

-- A value without a type is no vector; a type that the table lacks is a fault.
def known (s : Scope) (v : Value) : Bool := (s.ty? v).all s.types.contains

def width (s : Scope) (v : Value) : Except Fault (Option Nat) :=
  if s.known v then .ok (s.width? v) else .error .unknownIndex

end Scope

end DeadLanes
