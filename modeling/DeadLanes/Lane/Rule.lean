import DeadLanes.Inst
import DeadLanes.Fault
import DeadLanes.Lane.LaneSet

namespace DeadLanes

structure LaneView where
  width : Value → Option Nat
  known : Value → Bool

def LaneView.tracked (view : LaneView) (v : Value) : Option Nat :=
  (view.width v).filter (· ≤ trackedLanes)

theorem LaneView.tracked_le {view : LaneView} {v : Value} {n : Nat} (h : view.tracked v = some n) :
    n ≤ trackedLanes := by
  simpa using (Option.filter_eq_some_iff.mp h).2

-- How a demand on the result of an instruction turns into demands on its
-- operands. Every rule but the last is exact about lanes.
inductive LaneRule where
  | insert (obj base : Value) (lane lanes : Nat)
  | extract (src : Value) (lane : Nat)
  | construct (parts : List (Value × Nat))
  | shuffle (a b : Value) (lanesA : Nat) (sels : List Nat)
  | phi (incoming : List Value)
  | terminal
  | fallback (operands : List Value)
  deriving DecidableEq

namespace LaneRule

def lanewise? (view : LaneView) (i : Inst) : Option LaneRule :=
  match i.opcode, i.result?.bind view.tracked with
  | .undef, _ | .const, _ | .constComposite, _ => some terminal
  | .insert, some lanes => i.asInsert?.map fun (obj, base, lane) => insert obj base lane lanes
  | .extract, _ =>
    (i.asExtract?.filter fun (src, _) => (view.tracked src).isSome).map fun (src, lane) => extract src lane
  | .construct, some _ => some (construct (i.values.map fun v => (v, (view.width v).getD 1)))
  | .shuffle, some _ =>
    i.asShuffle?.bind fun (a, b, sels) => (view.width a).map fun lanesA => shuffle a b lanesA sels
  | .phi, some _ => some (phi (i.incoming.map (·.1)))
  | _, _ => none

def of (view : LaneView) (i : Inst) : LaneRule :=
  (lanewise? view i).getD (fallback i.values)

-- The values whose types choosing the rule looks up.
def asked (view : LaneView) (i : Inst) : List Value :=
  let operands := match i.opcode, i.result?.bind view.tracked with
    | .extract, _ => (i.asExtract?.map (·.1)).toList
    | .construct, some _ => i.values
    | .shuffle, some _ => (i.asShuffle?.map (·.1)).toList
    | _, _ => []
  i.result?.toList ++ operands

def answerable (view : LaneView) (i : Inst) : Bool := (asked view i).all view.known

def ofKnown (view : LaneView) (i : Inst) : Except Fault LaneRule :=
  if answerable view i then .ok (of view i) else .error .unknownIndex

def isExact : LaneRule → Bool
  | fallback _ => false
  | _ => true

def deadInsert : LaneRule → LaneSet → Bool
  | insert _ _ lane _, live => !live.contains lane
  | _, _ => false

def partDemands (live : LaneSet) : Nat → List (Value × Nat) → List (Value × LaneSet)
  | _, [] => []
  | offset, (part, width) :: rest => (part, live.slice offset width) :: partDemands live (offset + width) rest

-- A selector at a live place adds the lane it picks on one side of a shuffle.
-- The place is counted in a word.
def pickMore (live : LaneSet) (pick : Nat → Option Nat) (set : LaneSet) (place : Nat × Nat) : LaneSet :=
  if place.1 = anyLane ∨ live.contains (cut place.2) = false then set
  else match pick place.1 with
    | some lane => set.union (.single lane)
    | none => set

def picked (live : LaneSet) (pick : Nat → Option Nat) (sels : List Nat) : LaneSet :=
  sels.zipIdx.foldl (pickMore live pick) .empty

-- What each operand must provide for the `live` lanes of the result to be
-- right, in operand order. An operand may be named more than once.
def demands (rule : LaneRule) (live : LaneSet) : List (Value × LaneSet) :=
  if live.isEmpty then [] else
  match rule with
  | insert obj base lane lanes =>
    if live.contains lane then [(obj, .all), (base, live.without lane lanes)] else [(base, live)]
  | extract src lane => [(src, .single lane)]
  | construct parts => partDemands live 0 parts
  | shuffle a b lanesA sels =>
    [(a, picked live (fun sel => if sel < lanesA then some sel else none) sels),
      (b, picked live (fun sel => if sel < lanesA then none else some (sel - lanesA)) sels)]
  | phi incoming => incoming.map (·, live)
  | terminal => []
  | fallback operands => operands.map (·, .all)

-- Lane offsets within a construct are 32-bit quantities.
def overflows : LaneRule → LaneSet → Bool
  | construct parts, live => !live.isEmpty && decide (wordBound ≤ parts.foldr (fun part rest => part.2 + rest) 0)
  | _, _ => false

def checkedDemands (rule : LaneRule) (live : LaneSet) : Except Fault (List (Value × LaneSet)) :=
  if rule.overflows live then .error .overflow else .ok (rule.demands live)

end LaneRule

-- Whether an instruction makes its operands live on its own account. Only
-- those without an exact rule do: where they have an effect, end a block, have
-- no result or have any use of it.
def Inst.isRoot (i : Inst) (rule : LaneRule) (used : Bool) : Bool :=
  !rule.isExact && (i.opcode.sideEffect || i.opcode.terminator || i.result?.isNone || used)

end DeadLanes
