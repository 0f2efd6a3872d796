import DeadLanes.Lane.Liveness

namespace DeadLanes

-- A function that is being cleaned up, with its index kept up to date, and
-- what there is to tell so far.
structure Work where
  body : Indexed
  log : List Event

namespace Work

def tell (e : Event) (w : Work) : Work := { w with log := w.log ++ [e] }

def name (w : Work) : String := w.body.func.name

def onBody (act : Attempt Indexed α) : Attempt Work α :=
  act.on (·.body) fun body w => { w with body := body }

-- Inserts into lanes nobody reads, with their results, in program order.
def deadInserts (view : LaneView) (live : Value → LaneSet) (f : Func) : List (InstRef × Value) :=
  f.placed.filterMap fun p =>
    if p.inst.opcode = .insert then
      (p.inst.result?.filter fun v => (LaneRule.of view p.inst).deadInsert (live v)).map (p.ref, ·)
    else none

def emptyVectors (view : LaneView) (live : Value → LaneSet) (f : Func) : List InstRef :=
  (f.placed.filter fun p => p.inst.opcode.isPure && p.inst.result?.any fun v =>
    (view.tracked v).isSome && (live v).isEmpty).map (·.ref)

def insertsKnown (view : LaneView) (f : Func) : Bool :=
  f.insts.all fun i => i.opcode ≠ .insert || LaneRule.answerable view i

def resultsKnown (view : LaneView) (f : Func) : Bool :=
  f.insts.all fun i => !i.opcode.isPure || i.result?.all view.known

-- Points the users of a dead insert at its base. The base is read only now,
-- since an insert that was bypassed before may have been the base.
def bypass (r : InstRef) (v : Value) : Attempt Work Bool := do
  let w ← Attempt.state
  match (w.body.func.inst? r).bind Inst.asInsert? with
  | none => return false
  | some (_, base, _) => do
    let uses ← onBody (Indexed.replaceUses v base)
    if uses = 0 then return false
    else do
      Attempt.modify (tell (.bypassed w.name v uses base))
      return true

def bypassAll : List (InstRef × Value) → Attempt Work Bool
  | [] => return false
  | (r, v) :: rest => do
    let first ← bypass r v
    let later ← bypassAll rest
    return first || later

def inward (x : Indexed) (group : List InstRef) (r : InstRef) : Bool :=
  match (x.func.inst? r).bind Inst.result? with
  | some v => (x.index.usesOf v).all fun u => group.contains u.user
  | none => false

def kept (x : Indexed) (group : List InstRef) : List InstRef := group.filter (inward x group)

-- The greatest part of the group in which every member is used by members only.
def closed (x : Indexed) (group : List InstRef) : List InstRef :=
  if _smaller : (kept x group).length < group.length then closed x (kept x group) else group
termination_by group.length

def eraseEach : List InstRef → Work → List Value × Work
  | [], w => ([], w)
  | r :: rest, w =>
    match w.body.erase r with
    | (none, _) => eraseEach rest w
    | (some i, body) =>
      let (values, w) := eraseEach rest (tell (.erased w.name i) { w with body := body })
      (i.values ++ values, w)

def orphan (v : Value) (w : Work) : Work × List Value :=
  match w.body.index.def? v with
  | none => (w, [])
  | some r =>
    match w.body.erase r with
    | (none, _) => (w, [])
    | (some i, body) =>
      if i.opcode.isPure ∧ w.body.index.useCountExcept v r = 0 then
        (tell (.orphaned w.name i) { w with body := body }, i.values)
      else (w, [])

-- Erasing goes on with the operands of what was erased. Each erased
-- instruction takes its operands along, so there is an end to it.
def orphans : Flow Value Work where
  visit := orphan
  room w := w.body.func.demandCount
  paid v w := by
    simp only [orphan]
    split
    · simp
    · rename_i r _
      split
      · simp
      · rename_i i body erased
        have gone : w.body.func.inst? r = some i ∧ body.func = w.body.func.erase r := by
          simp only [Indexed.erase] at erased
          split at erased
          · simp at erased
          · rename_i here
            simp only [Prod.mk.injEq, Option.some.injEq] at erased
            exact ⟨erased.1 ▸ here, erased.2 ▸ rfl⟩
        split
        · simp only [tell, gone.2]
          exact Func.demandCount_erase gone.1
        · simp

def eraseUnused (candidates : List InstRef) (w : Work) : Bool × Work :=
  let group := closed w.body candidates.eraseDups
  if group = [] then (false, w)
  else
    let (values, w) := eraseEach (w.body.func.refs.filter group.contains) w
    (true, (orphans.run values w).2)

-- Acts on live lanes. Dead inserts are bypassed; if `deleteDead`, they go, and
-- so do vectors without a live lane and what that leaves without a use. Tells
-- whether anything changed.
def apply (view : LaneView) (live : Value → LaneSet) (deleteDead : Bool) : Attempt Work Bool := do
  let w ← Attempt.state
  Attempt.demand (insertsKnown view w.body.func = true) .unknownIndex
  let dead := deadInserts view live w.body.func
  let moved ← bypassAll dead
  if deleteDead then do
    let w ← Attempt.state
    Attempt.demand (resultsKnown view w.body.func = true) .unknownIndex
    let erased ← Attempt.step (eraseUnused (dead.map (·.1) ++ emptyVectors view live w.body.func))
    return moved || erased
  else return moved

end Work

end DeadLanes
