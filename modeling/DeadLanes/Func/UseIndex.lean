import DeadLanes.Func

namespace DeadLanes

structure Use where
  user : InstRef
  position : Nat
  deriving DecidableEq

-- Who defines a value and who uses it. Later entries of `defs` are hidden by
-- earlier ones. Globals have no definition.
structure UseIndex where
  defs : List (Value × InstRef)
  uses : List (Value × Use)

namespace UseIndex

-- The index of a function as it stands. Should a value be defined twice, the
-- last definition counts.
def build (f : Func) : UseIndex :=
  { defs := (f.placed.filterMap fun p => p.inst.result?.map (·, p.ref)).reverse
    uses := f.placed.flatMap fun p => p.inst.slots.map fun (position, v) => (v, ⟨p.ref, position⟩) }

def def? (x : UseIndex) (v : Value) : Option InstRef := x.defs.lookup v

def usesOf (x : UseIndex) (v : Value) : List Use := (x.uses.filter (·.1 = v)).map (·.2)

def useCount (x : UseIndex) (v : Value) : Nat := (x.usesOf v).length

def users (x : UseIndex) (v : Value) : List InstRef := ((x.usesOf v).map (·.user)).eraseDups

def useCountExcept (x : UseIndex) (v : Value) (r : InstRef) : Nat :=
  ((x.usesOf v).filter (·.user ≠ r)).length

def move (x : UseIndex) (old fresh : Value) : UseIndex :=
  { x with uses := x.uses.filter (·.1 ≠ old) ++ (x.usesOf old).map (fresh, ·) }

def dropUses (x : UseIndex) (v : Value) : UseIndex :=
  { x with uses := x.uses.filter (·.1 ≠ v) }

def forget (x : UseIndex) (r : InstRef) (i : Inst) : UseIndex :=
  { defs := x.defs.filter fun d => some d.1 ≠ i.result?
    uses := x.uses.filter fun u => ¬ (u.2.user = r ∧ u.1 ∈ i.values) }

end UseIndex

structure Indexed where
  func : Func
  index : UseIndex

namespace Indexed

def ofFunc (f : Func) : Indexed := ⟨f, .build f⟩

-- Writes a value into one operand. An index that is out of date may name one
-- that is gone.
def redirect (fresh : Value) (u : Use) : Attempt Func Unit := fun f =>
  match f.inst? u.user with
  | none => (.error .erasedUser, f)
  | some i =>
    if u.position < i.operands.length then (.ok (), f.revise u.user (·.setOperand u.position (.value fresh)))
    else (.error .unknownIndex, f)

def redirectAll (fresh : Value) : List Use → Attempt Func Unit
  | [] => pure ()
  | u :: rest => do
    redirect fresh u
    redirectAll fresh rest

def replaceUses (old fresh : Value) : Attempt Indexed Nat := fun x =>
  if old = fresh then (.ok 0, x) else
  let moved := x.index.usesOf old
  match redirectAll fresh moved x.func with
  | (.ok (), f) => (.ok moved.length, ⟨f, x.index.move old fresh⟩)
  | (.error e, f) => (.error e, ⟨f, x.index.dropUses old⟩)

-- Erases an instruction, if it is still there. Nothing looks after the uses of
-- its result.
def erase (x : Indexed) (r : InstRef) : Option Inst × Indexed :=
  match x.func.inst? r with
  | none => (none, x)
  | some i => (some i, ⟨x.func.erase r, x.index.forget r i⟩)

end Indexed

end DeadLanes
