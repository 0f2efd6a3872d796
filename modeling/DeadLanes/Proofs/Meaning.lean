import DeadLanes.Proofs.LaneRules

namespace DeadLanes

-- What functions do when they are run. Only the opcodes that move lanes about
-- have a fixed meaning; everything else is up to an interpretation.

inductive Datum (α : Type) where
  | atom (a : α)
  | lanes (parts : List (Datum α))

namespace Datum

def lane : Datum α → Nat → Datum α
  | atom a, _ => atom a
  | lanes parts, k => parts[k]?.getD (lanes [])

def tabulate (count : Nat) (part : Nat → Datum α) : Datum α := lanes ((List.range count).map part)

-- The lanes that a value contributes to a composite. A value that is no vector
-- is one lane.
def spread (width : Option Nat) (x : Datum α) : List (Datum α) :=
  match width with
  | some count => (List.range count).map x.lane
  | none => [x]

-- Two values that look alike to whoever reads only the given lanes.
def Agree (read : LaneSet) (x y : Datum α) : Prop :=
  match read with
  | .all => x = y
  | .lanes mask => ∀ k, mask.getLsbD k = true → x.lane k = y.lane k

end Datum

structure Effect (α : Type) where
  opcode : Opcode
  defines : Option (Value × TypeRef)
  literals : List Nat
  args : List (Datum α)

structure Interp (α : Type) where
  start : Value → Datum α
  blank : Value → Nat → Datum α
  -- results of all other opcodes; they may depend on what happened so far
  compute : Opcode → Value → TypeRef → List Nat → List (Datum α) → List (Effect α) → Datum α
  choose : List (Datum α) → Nat

abbrev Env (α : Type) := Value → Datum α

-- How a value is stored when it is produced at some time. Only an observer
-- who tampers with dead lanes stores anything but the value itself.
abbrev Store (α : Type) := Value → Datum α → Datum α

def Env.put (env : Env α) (v : Value) (x : Datum α) : Env α := fun w => if w = v then x else env w

def Env.define (env : Env α) (store : Store α) (i : Inst) (result : Value → TypeRef → Datum α) : Env α :=
  match i.defines with
  | some (v, ty) => env.put v (store v (result v ty))
  | none => env

namespace Interp

def undefined (m : Interp α) (width : Option Nat) (v : Value) : Datum α :=
  match width with
  | some count => .tabulate count (m.blank v)
  | none => m.blank v 0

def selected (m : Interp α) (v : Value) (lanesA : Nat) (a b : Datum α) (sels : List Nat) : Datum α :=
  .lanes (sels.zipIdx.map fun (sel, c) =>
    if sel = anyLane then m.blank v c
    else if sel < lanesA then a.lane sel else b.lane (sel - lanesA))

def produce (m : Interp α) (s : Scope) (env : Env α) (past : List (Effect α)) (i : Inst) (v : Value) (ty : TypeRef) :
    Datum α :=
  let other := m.compute i.opcode v ty i.literals (i.values.map env) past
  match i.opcode with
  | .undef => m.undefined (s.types.lanes? ty) v
  | .constComposite | .construct => .lanes (i.values.flatMap fun w => (env w).spread (s.width? w))
  | .insert =>
    match i.asInsert?, s.types.lanes? ty with
    | some (obj, base, lane), some count =>
      .tabulate count fun k => if k = lane then env obj else (env base).lane k
    | _, _ => other
  | .extract =>
    match i.asExtract? with
    | some (src, lane) => (env src).lane lane
    | none => other
  | .shuffle =>
    match i.asShuffle? with
    | some (a, b, sels) => m.selected v ((s.width? a).getD 0) (env a) (env b) sels
    | none => other
  | _ => other

-- The result `v` of a phi when control comes from `origin`, nowhere at the start.
def merge (m : Interp α) (s : Scope) (env : Env α) (origin : Option Label) (i : Inst) (v : Value) (ty : TypeRef) :
    Datum α :=
  match i.incoming.find? fun pair => some pair.2 = origin with
  | some (w, _) => env w
  | none => m.undefined (s.types.lanes? ty) v

-- Phis read what was there before any of them was written.
def mergeAll (m : Interp α) (s : Scope) (store : Store α) (env : Env α) (origin : Option Label) (phis : List Inst) :
    Env α :=
  phis.foldl (fun next i => Env.define next store i (m.merge s env origin i)) env

structure Frame (α : Type) where
  env : Env α
  effects : List (Effect α)

def performed (i : Inst) (x : Frame α) : List (Effect α) :=
  if i.opcode.sideEffect then x.effects ++ [⟨i.opcode, i.defines, i.literals, i.values.map x.env⟩] else x.effects

def exec (m : Interp α) (s : Scope) (store : Store α) (x : Frame α) (i : Inst) : Frame α :=
  { env := x.env.define store i (m.produce s x.env (performed i x) i)
    effects := performed i x }

-- Where a terminator goes. One that goes nowhere ends the run.
def target (m : Interp α) (env : Env α) (i : Inst) : Option Label :=
  match i.opcode with
  | .br => i.successors.head?
  | .brc => i.successors[m.choose (i.values.map env)]?
  | _ => none

end Interp

structure Machine (α : Type) where
  env : Env α
  effects : List (Effect α)
  entered : List Label
  -- the edge that control is on; it begins nowhere at the start of the run
  ahead : Option (Option Label × Label)
  answer : Option (Opcode × List (Datum α))

def Machine.seen (x : Machine α) : List Label × List (Effect α) × Option (Opcode × List (Datum α)) :=
  (x.entered, x.effects, x.answer)

namespace Interp

def isPhi (i : Inst) : Bool := i.opcode = .phi

def through (m : Interp α) (s : Scope) (store : Store α) (env : Env α) (effects : List (Effect α))
    (origin : Option Label) (is : List Inst) : Frame α :=
  (is.dropWhile isPhi).foldl (m.exec s store) ⟨m.mergeAll s store env origin (is.takeWhile isPhi), effects⟩

def leave (m : Interp α) (b : Label) (entered : List Label) (x : Frame α) (last : Option Inst) : Machine α :=
  let exit := last.bind (m.target x.env)
  { env := x.env
    effects := x.effects
    entered := entered ++ [b]
    ahead := exit.map (some b, ·)
    answer := if exit.isSome then none else last.map fun i => (i.opcode, i.values.map x.env) }

-- One block is run. The time of a store is the number of the block.
def step (m : Interp α) (s : Scope) (store : Nat → Store α) (x : Machine α) : Machine α :=
  match x.ahead with
  | none => x
  | some (origin, b) =>
    match s.func.blocks[b.index]? with
    | none => { x with ahead := none }
    | some block =>
      let is := block.map (·.inst)
      m.leave b x.entered (m.through s (store (x.entered.length + 1)) x.env x.effects origin is) is.getLast?

def run (m : Interp α) (s : Scope) (store : Nat → Store α) : Nat → Machine α
  | 0 => ⟨fun v => store 0 v (m.start v), [], [], some (none, Func.entry), none⟩
  | n + 1 => m.step s store (m.run s store n)

def faithful : Nat → Store α := fun _ _ x => x

end Interp

def Scope.PhisTyped (s : Scope) : Prop :=
  ∀ i ∈ s.func.insts, ∀ pair ∈ i.incoming, s.ty? pair.1 = i.ty?

instance (s : Scope) : Decidable s.PhisTyped :=
  inferInstanceAs (Decidable (∀ i ∈ s.func.insts, ∀ pair ∈ i.incoming, s.ty? pair.1 = i.ty?))

end DeadLanes
