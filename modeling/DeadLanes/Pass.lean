import DeadLanes.Lane.Cleanup

namespace DeadLanes

-- The pass: find the live lanes, act on them, and do so again until nothing
-- changes.

structure Config where
  -- erase what is dead; without it dead inserts are only bypassed
  deleteDead : Bool := true
  maxRounds : Nat := 16

namespace Pass

def round (types : TypeTable) (globals : Globals) (deleteDead : Bool) : Attempt Work Bool := do
  Attempt.modify fun w => { w with body := .ofFunc w.body.func }
  let w ← Attempt.state
  let scope : Scope := ⟨types, globals, w.body.func⟩
  let (found, events) ← Attempt.ofExcept scope.liveness
  Attempt.modify fun w => { w with log := w.log ++ events }
  Work.apply scope.view found.live deleteDead

def rounds (types : TypeTable) (globals : Globals) (config : Config) (changed : Bool) :
    Nat → Attempt Work Bool
  | 0 => do
    Attempt.modify fun w => w.tell (.gaveUp w.name config.maxRounds)
    return changed
  | left + 1 => do
    let again ← round types globals config.deleteDead
    if again then rounds types globals config true left
    else do
      Attempt.modify fun w => w.tell (.settled w.name (config.maxRounds - left) changed)
      return changed

def run (types : TypeTable) (globals : Globals) (config : Config) : Attempt Work Bool := do
  Attempt.modify fun w => w.tell (.control w.body.func)
  rounds types globals config false config.maxRounds

end Pass

structure Outcome (α : Type) where
  subject : α
  changed : Except Fault Bool
  log : List Event

def Outcome.ofWork (done : Except Fault Bool × Work) : Outcome Indexed :=
  ⟨done.2.body, done.1, done.2.log⟩

def Scope.clean (s : Scope) (config : Config) : Outcome Func :=
  let o := Outcome.ofWork (Pass.run s.types s.globals config ⟨.ofFunc s.func, []⟩)
  ⟨o.subject.func, o.changed, o.log⟩

def Scope.applyLive (s : Scope) (index : UseIndex) (live : Value → LaneSet) (deleteDead : Bool) :
    Outcome Indexed :=
  .ofWork (Work.apply s.view live deleteDead ⟨⟨s.func, index⟩, []⟩)

def cleanEach (types : TypeTable) (globals : Globals) (config : Config) : List Func → Outcome (List Func)
  | [] => ⟨[], .ok false, []⟩
  | f :: rest =>
    let first := Scope.clean ⟨types, globals, f⟩ config
    match first.changed with
    | .error e => ⟨first.subject :: rest, .error e, first.log⟩
    | .ok changed =>
      let later := cleanEach types globals config rest
      ⟨first.subject :: later.subject, later.changed.map (changed || ·), first.log ++ later.log⟩

def Module.clean (m : Module) (config : Config) : Outcome Module :=
  let o := cleanEach m.types m.globals config m.funcs
  ⟨{ m with funcs := o.subject }, o.changed, o.log⟩

end DeadLanes
