import DeadLanes.Name

namespace DeadLanes

-- A request that breaks the rules of the interface it was made to. Malformed
-- functions are not faults: the checker answers for those.
inductive Fault where
  | unknownIndex
  | overflow
  | erasedUser
  | untyped (v : Value)
  | undefined (v : Value)
  | notPointer (v : Value)
  | notVector (v : Value)
  | notPhi (v : Value)
  | noBlock (b : Label)
  | noCurrentBlock
  | notScalar (t : TypeRef)
  | tooFewLanes (lanes : Nat)
  deriving DecidableEq

def Fault.message : Fault → String
  | .unknownIndex => "index names nothing"
  | .overflow => "number does not fit into 32 bits"
  | .erasedUser => "recorded use belongs to an erased instruction"
  | .untyped v => "type of " ++ v.text ++ " isn't known yet"
  | .undefined v => v.text ++ " isn't defined"
  | .notPointer v => "load through non-pointer " ++ v.text
  | .notVector v => v.text ++ " is not a vector"
  | .notPhi v => v.text ++ " isn't a phi"
  | .noBlock b => "no block " ++ b.text
  | .noCurrentBlock => "no block to append to; call block() first"
  | .notScalar t => "vector element type " ++ t.text ++ " must be a scalar"
  | .tooFewLanes n => "vectors have at least 2 lanes, not " ++ n.repr

-- A step over a state that may fault. What it did before the fault stays done.
def Attempt (σ α : Type) : Type := σ → Except Fault α × σ

namespace Attempt

def done (a : α) : Attempt σ α := fun s => (.ok a, s)

def fail (f : Fault) : Attempt σ α := fun s => (.error f, s)

def andThen (m : Attempt σ α) (next : α → Attempt σ β) : Attempt σ β := fun s =>
  match m s with
  | (.ok a, s') => next a s'
  | (.error f, s') => (.error f, s')

instance : Monad (Attempt σ) where
  pure := done
  bind := andThen

def state : Attempt σ σ := fun s => (.ok s, s)

def modify (g : σ → σ) : Attempt σ Unit := fun s => (.ok (), g s)

def step (g : σ → α × σ) : Attempt σ α := fun s => (.ok (g s).1, (g s).2)

def ofExcept : Except Fault α → Attempt σ α
  | .ok a => done a
  | .error f => fail f

def demand (p : Prop) [Decidable p] (f : Fault) : Attempt σ Unit :=
  if p then done () else fail f

def need (o : Option α) (f : Fault) : Attempt σ α :=
  match o with
  | some a => done a
  | none => fail f

def on (view : σ → τ) (put : τ → σ → σ) (m : Attempt τ α) : Attempt σ α := fun s =>
  ((m (view s)).1, put (m (view s)).2 s)

@[simp] theorem pure_apply (a : α) (s : σ) : (pure a : Attempt σ α) s = (.ok a, s) := rfl

@[simp] theorem fail_apply (f : Fault) (s : σ) : (fail f : Attempt σ α) s = (.error f, s) := rfl

theorem bind_ok {m : Attempt σ α} {next : α → Attempt σ β} {s s' : σ} {a : α}
    (h : m s = (.ok a, s')) : (m >>= next) s = next a s' := by
  simp only [bind, andThen, h]

theorem bind_error {m : Attempt σ α} {next : α → Attempt σ β} {s s' : σ} {f : Fault}
    (h : m s = (.error f, s')) : (m >>= next) s = (.error f, s') := by
  simp only [bind, andThen, h]

theorem state_bind (next : σ → Attempt σ β) (s : σ) : ((state : Attempt σ σ) >>= next) s = next s s := rfl

theorem modify_bind (g : σ → σ) (next : Unit → Attempt σ β) (s : σ) : (modify g >>= next) s = next () (g s) := rfl

theorem demand_bind {p : Prop} [Decidable p] (holds : p) (f : Fault) (next : Unit → Attempt σ β) (s : σ) :
    (demand p f >>= next) s = next () s := by
  rw [demand, if_pos holds]
  rfl

end Attempt

end DeadLanes
