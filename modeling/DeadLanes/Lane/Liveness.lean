import DeadLanes.Event
import DeadLanes.Func.UseIndex
import DeadLanes.Lane.LaneMap
import DeadLanes.Lane.Room
import DeadLanes.Lane.Rule
import DeadLanes.Worklist

namespace DeadLanes

-- Which lanes of each value are read. Demands flow from the roots backwards,
-- from an instruction to the definitions of its operands, until nothing grows.

def Scope.view (s : Scope) : LaneView := ⟨s.width?, s.known⟩

structure Liveness where
  sets : LaneMap Value
  visits : Nat

def Liveness.live (l : Liveness) (v : Value) : LaneSet := l.sets.get v

def Liveness.listed (l : Liveness) : List (Value × LaneSet) :=
  (l.sets.sorted Value.id).filter fun entry => !entry.2.isEmpty

structure Analysis where
  func : Func
  index : UseIndex
  view : LaneView

namespace Analysis

def ofScope (s : Scope) : Analysis := ⟨s.func, .build s.func, s.view⟩

def ruleOf (a : Analysis) (i : Inst) : LaneRule := .of a.view i

def used (a : Analysis) (i : Inst) : Bool := i.result?.any fun v => 0 < a.index.useCount v

def isRoot (a : Analysis) (i : Inst) : Bool := i.isRoot (a.ruleOf i) (a.used i)

def roots (a : Analysis) : List Placed := a.func.placed.filter fun p => a.isRoot p.inst

-- While the sets grow: the sets, what there is to tell, and the first question
-- that could not be answered. Such a fault voids the result.
structure State where
  sets : LaneMap Value
  trail : List Event
  fault : Option Fault

-- The result of a root is live as a whole, too.
def initial (a : Analysis) : State :=
  { sets := (a.roots.filterMap fun p => p.inst.result?.filter fun v => (a.view.tracked v).isSome).foldl
      (fun m v => m.set v .all) .empty
    trail := []
    fault := none }

def asked (a : Analysis) (s : State) (i : Inst) : LaneSet :=
  if a.isRoot i then .all
  else match i.result? with
    | some v => s.sets.get v
    | none => .empty

def absorb (a : Analysis) (op : Opcode) (v : Value) (asked : LaneSet) (s : State) : State × Option InstRef :=
  let lanes := asked.normalized (a.view.tracked v)
  let before := s.sets.get v
  if lanes.isEmpty ∨ before.union lanes = before then (s, none)
  else
    let grown := (before.union lanes).normalized (a.view.tracked v)
    ({ s with sets := s.sets.set v grown, trail := s.trail ++ [.grew v grown op] }, a.index.def? v)

def absorbAll (a : Analysis) (op : Opcode) : List (Value × LaneSet) → State → State × List InstRef
  | [], s => (s, [])
  | (v, lanes) :: rest, s =>
    let (s, report) := a.absorb op v lanes s
    let (s, reports) := a.absorbAll op rest s
    (s, report.toList ++ reports)

def trouble (a : Analysis) (i : Inst) (live : LaneSet) : Option Fault :=
  if (a.ruleOf i).overflows live then some .overflow
  else if ((a.ruleOf i).demands live).all fun d => a.view.known d.1 then none
  else some .unknownIndex

def visit (a : Analysis) (r : InstRef) (s : State) : State × List InstRef :=
  match a.func.inst? r with
  | none => (s, [])
  | some i =>
    let live := a.asked s i
    a.absorbAll i.opcode ((a.ruleOf i).demands live) { s with fault := s.fault.or (a.trouble i live) }

def room (a : Analysis) (s : State) : Nat :=
  s.sets.roomOver (fun v set => set.canonicalRoom (a.view.tracked v)) (a.index.defs.map (·.1))

theorem absorb_paid (a : Analysis) (op : Opcode) (v : Value) (asked : LaneSet) (s : State) :
    a.room (a.absorb op v asked s).1 + (a.absorb op v asked s).2.toList.length ≤ a.room s := by
  simp only [absorb]
  split
  · simp
  · rename_i grew
    rw [not_or] at grew
    have spent := LaneSet.canonicalRoom_union (fun n h => LaneView.tracked_le h)
      (LaneSet.normalized_normalized asked (a.view.tracked v)) (by simpa [LaneSet.isEmpty] using grew.1) grew.2
    cases found : a.index.def? v with
    | none =>
      simp only [room, Option.toList_none, List.length_nil, Nat.add_zero]
      exact LaneMap.roomOver_set_le (Nat.le_of_succ_le spent)
    | some r =>
      have here : v ∈ a.index.defs.map (·.1) := by
        obtain ⟨l₁, l₂, split, _⟩ := List.lookup_eq_some_iff.mp found
        simp [split]
      simp only [room, Option.toList_some, List.length_singleton]
      exact LaneMap.roomOver_set_lt here spent

theorem absorbAll_paid (a : Analysis) (op : Opcode) (demands : List (Value × LaneSet)) (s : State) :
    a.room (a.absorbAll op demands s).1 + (a.absorbAll op demands s).2.length ≤ a.room s := by
  induction demands generalizing s with
  | nil => simp [absorbAll]
  | cons demand rest ih =>
    have first := a.absorb_paid op demand.1 demand.2 s
    have later := ih (a.absorb op demand.1 demand.2 s).1
    simp only [absorbAll, List.length_append]
    omega

def flow (a : Analysis) : Flow InstRef State where
  visit := a.visit
  room := a.room
  paid r s := by
    simp only [visit]
    split
    · simp
    · exact a.absorbAll_paid _ _ { s with fault := _ }

def solve (a : Analysis) (seeds : List InstRef) : List InstRef × State := a.flow.run seeds a.initial

-- The analysis as a request: it faults where a type is not in the table or a
-- lane offset does not fit. Also answers what there is to tell.
def runFrom (a : Analysis) (seeds : List InstRef) : Except Fault (Liveness × List Event) :=
  if a.func.insts.all (LaneRule.answerable a.view) then
    let (visits, s) := a.solve seeds
    match s.fault with
    | some f => .error f
    | none => .ok (⟨s.sets, visits.length⟩,
        [.roots a.func.name seeds.length] ++ s.trail ++ [.fixpoint a.func.name visits.length])
  else .error .unknownIndex

def run (a : Analysis) : Except Fault (Liveness × List Event) := a.runFrom (a.roots.map (·.ref))

end Analysis

def Scope.liveness (s : Scope) : Except Fault (Liveness × List Event) := (Analysis.ofScope s).run

end DeadLanes
