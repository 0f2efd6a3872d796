import DeadLanes.Ty.Table

namespace DeadLanes

-- A type table as it is stored: the types in a list, and beside it where each
-- of them is, not cut to a word here either.
structure Interner where
  types : List Ty
  places : List (Ty × TypeRef)

namespace Interner

def empty : Interner := ⟨[], []⟩

def intern (s : Interner) (ty : Ty) : TypeRef × Interner :=
  match s.places.lookup ty with
  | some r => (r, s)
  | none => (⟨s.types.length⟩, ⟨s.types ++ [ty], (ty, ⟨s.types.length⟩) :: s.places⟩)

end Interner

def internAll (intern : τ → Ty → TypeRef × τ) (start : τ) (tys : List Ty) : List TypeRef × τ :=
  tys.foldl (fun past ty => (past.1 ++ [(intern past.2 ty).1], (intern past.2 ty).2)) ([], start)

def TypeTable.fill (tys : List Ty) : List TypeRef × TypeTable := internAll TypeTable.intern .empty tys

def Interner.fill (tys : List Ty) : List TypeRef × Interner := internAll Interner.intern .empty tys

end DeadLanes
