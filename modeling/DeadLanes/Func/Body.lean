import DeadLanes.Func

namespace DeadLanes

-- What a function body asks of the arena that its instructions are kept in. It
-- knows nothing of the handles but that they can be told apart.
structure Arena (σ κ : Type) where
  empty : σ
  insert : Inst → σ → κ × σ
  remove : κ → σ → Option Inst × σ
  get? : σ → κ → Option Inst
  contains : σ → κ → Bool
  len : σ → Nat

-- A function body as it is stored: the instructions in an arena, and for each
-- block the handles in program order.
structure Body (σ κ : Type) where
  blocks : List (List κ)
  arena : σ

namespace Body

inductive Request (κ : Type) where
  | addBlock
  | append (label : Label) (inst : Inst)
  | insertBefore (before : κ) (inst : Inst)
  | erase (r : κ)
  deriving DecidableEq

inductive Response (κ : Type) where
  | block (label : Label)
  | handle (r : κ)
  | inst (i : Inst)
  | nothing
  | fault (f : Fault)
  deriving DecidableEq

variable {σ κ : Type} [DecidableEq κ] (a : Arena σ κ)

def new : Body σ κ := ⟨[], a.empty⟩

def inst? (b : Body σ κ) (r : κ) : Option Inst := a.get? b.arena r

def contains (b : Body σ κ) (r : κ) : Bool := a.contains b.arena r

def size (b : Body σ κ) : Nat := a.len b.arena

def locate (b : Body σ κ) (r : κ) : Option (Nat × Nat) :=
  if a.contains b.arena r then
    b.blocks.zipIdx.findSome? fun (block, index) => (block.idxOf? r).map fun position => (index, position)
  else none

def blockOf? (b : Body σ κ) (r : κ) : Option Label := (b.locate a r).map fun place => .nth place.1

def addBlock (b : Body σ κ) : Label × Body σ κ := (.nth b.blocks.length, { b with blocks := b.blocks ++ [[]] })

-- The arena takes the instruction before it turns out whether there is such a block.
def append (label : Label) (i : Inst) : Attempt (Body σ κ) κ := fun b =>
  let (r, arena) := a.insert i b.arena
  if label.index < b.blocks.length then (.ok r, ⟨b.blocks.modify label.index (· ++ [r]), arena⟩)
  else (.error .unknownIndex, { b with arena := arena })

def insertBefore (b : Body σ κ) (before : κ) (i : Inst) : Option κ × Body σ κ :=
  match b.locate a before with
  | none => (none, b)
  | some (index, position) =>
    let (r, arena) := a.insert i b.arena
    (some r, ⟨b.blocks.modify index (·.insertIdx position r), arena⟩)

def erase (b : Body σ κ) (r : κ) : Option Inst × Body σ κ :=
  match b.locate a r with
  | none => (none, b)
  | some (index, position) =>
    let (i, arena) := a.remove r b.arena
    (i, ⟨b.blocks.modify index (·.eraseIdx position), arena⟩)

namespace Response

def ofAttempt : Except Fault κ → Response κ
  | .ok r => handle r
  | .error f => fault f

def ofHandle : Option κ → Response κ
  | some r => handle r
  | none => nothing

def ofInst : Option Inst → Response κ
  | some i => inst i
  | none => nothing

end Response

def step (b : Body σ κ) : Request κ → Response κ × Body σ κ
  | .addBlock => (.block b.addBlock.1, b.addBlock.2)
  | .append label i => (.ofAttempt (append a label i b).1, (append a label i b).2)
  | .insertBefore before i => (.ofHandle (b.insertBefore a before i).1, (b.insertBefore a before i).2)
  | .erase r => (.ofInst (b.erase a r).1, (b.erase a r).2)

end Body

def Func.step (f : Func) : Body.Request InstRef → Body.Response InstRef × Func
  | .addBlock => (.block f.addBlock.1, f.addBlock.2)
  | .append label i => (.ofAttempt (append label i f).1, (append label i f).2)
  | .insertBefore before i =>
    match f.insertBefore before i with
    | some (r, g) => (.handle r, g)
    | none => (.nothing, f)
  | .erase r => (.ofInst (f.inst? r), f.erase r)

def Body.replay (step : β → Request κ → Response κ × β) (start : β) (requests : List (Request κ)) :
    List (Request κ × Response κ) × β :=
  requests.foldl (fun past request => (past.1 ++ [(request, (step past.2 request).1)], (step past.2 request).2)) ([], start)

end DeadLanes
