import DeadLanes.Worklist
import DeadLanes.Lane.LaneMap
import DeadLanes.Lane.Room

namespace DeadLanes

-- Lane sets spread along the edges of a graph. Visiting a node joins its set
-- into each successor and reports the successors whose sets grew. Only nodes
-- that are seeded or grow are ever visited.
structure LaneGraph where
  edges : List (Nat × Nat)

namespace LaneGraph

-- Successors in the order of the edges. A node may be its own successor: a set
-- joined into itself does not grow, so that reports nothing.
def successors (g : LaneGraph) (node : Nat) : List Nat :=
  (g.edges.filter fun edge => edge.1 = node).map (·.2)

def pour (mine : LaneSet) : List Nat → LaneMap Nat → LaneMap Nat × List Nat
  | [], m => (m, [])
  | node :: rest, m =>
    let grown := (m.get node).union mine
    let later := pour mine rest (m.set node grown)
    if grown = m.get node then later else (later.1, node :: later.2)

def roomOf (g : LaneGraph) (m : LaneMap Nat) : Nat :=
  m.roomOver (fun _ s => s.room) (g.edges.map (·.2))

theorem pour_paid (g : LaneGraph) (mine : LaneSet) {nodes : List Nat} (within : ∀ n ∈ nodes, n ∈ g.edges.map (·.2))
    (m : LaneMap Nat) :
    g.roomOf (pour mine nodes m).1 + (pour mine nodes m).2.length ≤ g.roomOf m := by
  induction nodes generalizing m with
  | nil => simp [pour]
  | cons node rest ih =>
    have later := ih (fun n h => within n (List.mem_cons_of_mem _ h)) (m.set node ((m.get node).union mine))
    simp only [pour]
    split
    · rename_i same
      have kept : g.roomOf (m.set node ((m.get node).union mine)) ≤ g.roomOf m :=
        LaneMap.roomOver_set_le (Nat.le_of_eq (by rw [same]))
      omega
    · rename_i grew
      have spent : g.roomOf (m.set node ((m.get node).union mine)) + 1 ≤ g.roomOf m :=
        LaneMap.roomOver_set_lt (within node List.mem_cons_self) (LaneSet.room_union grew)
      simp only [List.length_cons]
      omega

def flow (g : LaneGraph) : Flow Nat (LaneMap Nat) where
  visit node m := pour (m.get node) (g.successors node) m
  room := g.roomOf
  paid node m := by
    refine pour_paid g _ (fun n h => ?_) m
    obtain ⟨edge, member, rfl⟩ := List.mem_map.mp h
    exact List.mem_map.mpr ⟨edge, (List.mem_filter.mp member).1, rfl⟩

def spread (g : LaneGraph) (m : LaneMap Nat) (seeds : List Nat) : List Nat × LaneMap Nat :=
  g.flow.run seeds m

end LaneGraph

end DeadLanes
