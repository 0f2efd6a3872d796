import DeadLanes.Ty
import DeadLanes.Fault

namespace DeadLanes

-- Types by reference. No type is entered twice, so two references are equal
-- exactly when the types behind them are.
structure TypeTable where
  entries : List Ty
  distinct : entries.Nodup

namespace TypeTable

def empty : TypeTable := ⟨[], .nil⟩

-- The place of `ty`, which is entered at the end if it is new. As a reference
-- this holds in a table of up to `wordBound` types; `enter` cuts it to a word.
def intern (t : TypeTable) (ty : Ty) : TypeRef × TypeTable :=
  if present : ty ∈ t.entries then (⟨t.entries.idxOf ty⟩, t)
  else
    have distinct : (t.entries ++ [ty]).Nodup := by
      refine List.nodup_append.mpr ⟨t.distinct, by simp, ?_⟩
      intro a old b new
      rw [List.mem_singleton.mp new]
      exact fun equal => present (equal ▸ old)
    (⟨t.entries.length⟩, ⟨t.entries ++ [ty], distinct⟩)

def get? (t : TypeTable) (r : TypeRef) : Option Ty := t.entries[r.index]?

def contains (t : TypeTable) (r : TypeRef) : Bool := r.index < t.entries.length

-- Looking up an unknown reference: `none` here, a fault in the requests below.
def vector? (t : TypeTable) (r : TypeRef) : Option (TypeRef × Nat) :=
  (t.get? r).bind Ty.vector?

def lanes? (t : TypeTable) (r : TypeRef) : Option Nat := (t.vector? r).map (·.2)

def get (t : TypeTable) (r : TypeRef) : Except Fault Ty :=
  match t.get? r with
  | some ty => .ok ty
  | none => .error .unknownIndex

def vectorInfo (t : TypeTable) (r : TypeRef) : Except Fault (Option (TypeRef × Nat)) :=
  (t.get r).map Ty.vector?

def laneCount (t : TypeTable) (r : TypeRef) : Except Fault (Option Nat) :=
  (t.vectorInfo r).map (·.map (·.2))

def pointeeOf (t : TypeTable) (r : TypeRef) : Except Fault (Option TypeRef) :=
  (t.get r).map Ty.pointee?

theorem get_of_contains {t : TypeTable} {r : TypeRef} (known : t.contains r = true) :
    ∃ ty, t.get? r = some ty ∧ t.get r = .ok ty := by
  have bound : r.index < t.entries.length := by simpa [contains] using known
  exact ⟨t.entries[r.index], by simp [get?, bound], by simp [get, get?, bound]⟩

-- Names nest through references. A chain of references that does not repeat
-- is shorter than the table, so the depth `name` allows never cuts one off.
def nameWithin (t : TypeTable) : Nat → TypeRef → String
  | 0, r => r.text
  | depth + 1, r =>
    match t.get? r with
    | none => r.text
    | some .void => "void"
    | some .bool => "bool"
    | some (.int width signed) => (if signed then "i" else "u") ++ width.repr
    | some (.float width) => "f" ++ width.repr
    | some (.vector elem lanes) => "v" ++ lanes.repr ++ t.nameWithin depth elem
    | some (.pointer pointee storage) =>
      "ptr<" ++ storage.text ++ ", " ++ t.nameWithin depth pointee ++ ">"

def name (t : TypeTable) (r : TypeRef) : String := t.nameWithin (t.entries.length + 1) r

-- Requests on a table that is being filled. Vectors are checked here: their
-- elements are scalars and there are at least two of them.
def enter (ty : Ty) : Attempt TypeTable TypeRef := do
  let r ← Attempt.step (·.intern ty)
  return .nth r.index

def enterVector (elem : TypeRef) (lanes : Nat) : Attempt TypeTable TypeRef := do
  let t ← Attempt.state
  let ty ← Attempt.ofExcept (t.get elem)
  Attempt.demand (ty.scalar = true) (.notScalar elem)
  Attempt.demand (2 ≤ lanes) (.tooFewLanes lanes)
  enter (.vector elem lanes)

end TypeTable

end DeadLanes
