import DeadLanes.Lane.LaneSet

namespace DeadLanes

theorem lookup_filter_ne [DecidableEq κ] (entries : List (κ × α)) (k j : κ) :
    (entries.filter fun e => e.1 ≠ k).lookup j = if j = k then none else entries.lookup j := by
  induction entries with
  | nil => simp
  | cons entry rest ih =>
    obtain ⟨i, a⟩ := entry
    rw [List.filter_cons, List.lookup_cons]
    by_cases dropped : i = k
    · subst dropped
      rw [if_neg (by simp), ih]
      by_cases same : j = i
      · simp [same]
      · simp [same, beq_eq_false_iff_ne.mpr same]
    · rw [if_pos (by simpa using dropped), List.lookup_cons, ih]
      by_cases same : j = i
      · subst same
        simp [dropped]
      · simp [beq_eq_false_iff_ne.mpr same]

-- Lane sets by key. A key without an entry has the empty set.
structure LaneMap (κ : Type) where
  entries : List (κ × LaneSet)

namespace LaneMap

variable [DecidableEq κ]

def empty : LaneMap κ := ⟨[]⟩

def get (m : LaneMap κ) (k : κ) : LaneSet := (m.entries.lookup k).getD .empty

def set (m : LaneMap κ) (k : κ) (s : LaneSet) : LaneMap κ :=
  ⟨(k, s) :: m.entries.filter fun entry => entry.1 ≠ k⟩

def sorted (m : LaneMap κ) (rank : κ → Nat) : List (κ × LaneSet) :=
  m.entries.mergeSort fun a b => rank a.1 ≤ rank b.1

@[simp] theorem get_empty (k : κ) : (empty : LaneMap κ).get k = .empty := rfl

@[simp] theorem get_set_self (m : LaneMap κ) (k : κ) (s : LaneSet) : (m.set k s).get k = s := by
  simp [get, set]

theorem get_set_other (m : LaneMap κ) {k j : κ} (s : LaneSet) (other : j ≠ k) :
    (m.set k s).get j = m.get j := by
  have miss : (j == k) = false := by simp [other]
  simp only [get, set, List.lookup_cons, miss]
  rw [lookup_filter_ne, if_neg other]

theorem get_set (m : LaneMap κ) (k j : κ) (s : LaneSet) :
    (m.set k s).get j = if j = k then s else m.get j := by
  split
  · rename_i same
    rw [same, get_set_self]
  · rename_i other
    exact get_set_other m s other

def roomOver (room : κ → LaneSet → Nat) (keys : List κ) (m : LaneMap κ) : Nat :=
  keys.foldr (fun k rest => room k (m.get k) + rest) 0

theorem roomOver_set_le {room : κ → LaneSet → Nat} {keys : List κ} {m : LaneMap κ} {k : κ} {s : LaneSet}
    (less : room k s ≤ room k (m.get k)) : roomOver room keys (m.set k s) ≤ roomOver room keys m := by
  unfold roomOver
  induction keys with
  | nil => simp
  | cons j js ih =>
    have head : room j ((m.set k s).get j) ≤ room j (m.get j) := by
      by_cases h : j = k
      · subst h; simpa using less
      · exact Nat.le_of_eq (by rw [get_set_other m s h])
    simp only [List.foldr_cons]
    omega

theorem roomOver_set_lt {room : κ → LaneSet → Nat} {keys : List κ} {m : LaneMap κ} {k : κ} {s : LaneSet}
    (here : k ∈ keys) (less : room k s + 1 ≤ room k (m.get k)) :
    roomOver room keys (m.set k s) + 1 ≤ roomOver room keys m := by
  induction keys with
  | nil => cases here
  | cons j js ih =>
    have tail : roomOver room js (m.set k s) ≤ roomOver room js m := roomOver_set_le (by omega)
    by_cases h : j = k
    · subst h
      simp only [roomOver, List.foldr_cons, get_set_self] at tail ⊢
      omega
    · have rest := ih ((List.mem_cons.mp here).resolve_left fun e => h e.symm)
      simp only [roomOver, List.foldr_cons, get_set_other m s h] at rest ⊢
      omega

end LaneMap

end DeadLanes
