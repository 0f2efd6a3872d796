import DeadLanes.Lane.Spread
import DeadLanes.Proofs.LaneOrder

namespace DeadLanes

-- Where lane sets end up when they spread along the edges of a graph. Both the
-- sets and the nodes that are visited are the least that the edges allow, so
-- the order in which nodes are taken does not show.

theorem LaneSet.room_le (s : LaneSet) : s.room ≤ 65 := by
  cases s with
  | all => exact Nat.zero_le 65
  | lanes mask =>
    have lanes : absent 64 mask ≤ (List.range 64).length := List.countP_le_length
    rw [List.length_range] at lanes
    rw [room]
    omega

namespace LaneGraph

variable {g : LaneGraph}

-- Sets and visited nodes that belong together: seeds are visited, so is every
-- node whose set is not the one it started with, and a visited node has passed
-- its set on. A node that is neither keeps its set to itself.
structure Closure (g : LaneGraph) (start : Nat → LaneSet) (seeds : List Nat) (p : (Nat → LaneSet) × Set Nat) : Prop where
  includes : start ≤ p.1
  seeded : ∀ n ∈ seeds, n ∈ p.2
  changed : ∀ n, p.1 n ≠ start n → n ∈ p.2
  flows : ∀ edge ∈ g.edges, edge.1 ∈ p.2 → p.1 edge.1 ≤ p.1 edge.2

theorem Closure.congr {h : LaneGraph} {start : Nat → LaneSet} {seeds others : List Nat} {p : (Nat → LaneSet) × Set Nat}
    (edges : ∀ edge, edge ∈ h.edges ↔ edge ∈ g.edges) (nodes : ∀ n, n ∈ others ↔ n ∈ seeds)
    (closure : g.Closure start seeds p) : h.Closure start others p :=
  ⟨closure.includes, fun n member => closure.seeded n ((nodes n).mp member), closure.changed,
    fun edge member => closure.flows edge ((edges edge).mp member)⟩

theorem mem_successors {node n : Nat} : n ∈ g.successors node ↔ (node, n) ∈ g.edges := by
  simp only [successors, List.mem_map, List.mem_filter, decide_eq_true_eq]
  constructor
  · intro given
    obtain ⟨⟨a, b⟩, ⟨member, rfl⟩, rfl⟩ := given
    exact member
  · intro member
    exact ⟨(node, n), ⟨member, rfl⟩, rfl⟩

theorem union_union_right (s t : LaneSet) : (s.union t).union t = s.union t :=
  LaneSet.union_eq_left.mpr (LaneSet.right_within_union s t)

theorem get_pour (mine : LaneSet) (nodes : List Nat) (m : LaneMap Nat) (n : Nat) :
    (pour mine nodes m).1.get n = if n ∈ nodes then (m.get n).union mine else m.get n := by
  induction nodes generalizing m with
  | nil => rfl
  | cons node rest ih =>
    have first : (pour mine (node :: rest) m).1 = (pour mine rest (m.set node ((m.get node).union mine))).1 := by
      simp only [pour]
      split <;> rfl
    rw [first, ih, LaneMap.get_set]
    by_cases same : n = node
    · subst same
      simp only [if_true, union_union_right, ite_self, List.mem_cons_self]
    · simp only [same, if_false, List.mem_cons, false_or]

theorem mem_reported_pour {mine : LaneSet} {nodes : List Nat} {m : LaneMap Nat} {n : Nat} :
    n ∈ (pour mine nodes m).2 ↔ (pour mine nodes m).1.get n ≠ m.get n := by
  induction nodes generalizing m with
  | nil => simp [pour]
  | cons node rest ih =>
    simp only [pour]
    split
    · rename_i same
      rw [ih, same]
      have kept : (m.set node (m.get node)).get n = m.get n := by
        rw [LaneMap.get_set]
        split
        · rename_i here
          rw [here]
        · rfl
      rw [kept]
    · rename_i grew
      rw [List.mem_cons, ih, LaneMap.get_set]
      by_cases here : n = node
      · subst here
        have final := get_pour mine rest (m.set n ((m.get n).union mine)) n
        rw [LaneMap.get_set_self, union_union_right, ite_self] at final
        simp only [true_or, final, ne_eq, true_iff]
        exact grew
      · simp only [here, false_or, if_false]

structure Progress (g : LaneGraph) (start : Nat → LaneSet) (seeds past : List Nat) (waiting : Nat → Prop)
    (m : LaneMap Nat) : Prop where
  includes : ∀ n, start n ≤ m.get n
  seeded : ∀ n ∈ seeds, n ∈ past ∨ waiting n
  changed : ∀ n, m.get n ≠ start n → n ∈ past ∨ waiting n
  flows : ∀ edge ∈ g.edges, edge.1 ∈ past → waiting edge.1 ∨ m.get edge.1 ≤ m.get edge.2
  below : ∀ p, g.Closure start seeds p → (∀ n, m.get n ≤ p.1 n) ∧ ∀ n, n ∈ past ∨ waiting n → n ∈ p.2

theorem visit_progress (start : Nat → LaneSet) (seeds past : List Nat) (waiting : Nat → Prop) (i : Nat) (m : LaneMap Nat)
    (progress : g.Progress start seeds past waiting m) (waits : waiting i) :
    g.Progress start seeds (past ++ [i]) (fun n => (waiting n ∧ n ≠ i) ∨ n ∈ (g.flow.visit i m).2) (g.flow.visit i m).1 := by
  have poured : ∀ n, (g.flow.visit i m).1.get n = if (i, n) ∈ g.edges then (m.get n).union (m.get i) else m.get n := by
    intro n
    rw [← ite_congr (propext mem_successors) (fun _ => rfl) (fun _ => rfl)]
    exact get_pour (m.get i) (g.successors i) m n
  have reported : ∀ n, n ∈ (g.flow.visit i m).2 ↔ (g.flow.visit i m).1.get n ≠ m.get n := fun n => mem_reported_pour
  generalize g.flow.visit i m = after at poured reported
  have grows : ∀ n, m.get n ≤ after.1.get n := by
    intro n
    rw [poured]
    split
    · exact LaneSet.left_within_union _ _
    · exact le_refl _
  have own : after.1.get i = m.get i := by rw [poured, LaneSet.union_self, ite_self]
  have known : ∀ n, n ∈ past ∨ waiting n → n ∈ past ++ [i] ∨ (waiting n ∧ n ≠ i) ∨ n ∈ after.2 := by
    intro n before
    rw [List.mem_append, List.mem_singleton]
    rcases before with seen | waits
    · exact .inl (.inl seen)
    · by_cases same : n = i
      · exact .inl (.inr same)
      · exact .inr (.inl ⟨waits, same⟩)
  refine ⟨fun n => le_trans (progress.includes n) (grows n), fun n member => known n (progress.seeded n member), ?_, ?_, ?_⟩
  · intro n differs
    by_cases same : after.1.get n = m.get n
    · exact known n (progress.changed n (same ▸ differs))
    · exact .inr (.inr ((reported n).mpr same))
  · intro edge member seen
    by_cases visited : edge.1 = i
    · right
      rw [visited, own, poured, if_pos (visited ▸ member)]
      exact LaneSet.right_within_union _ _
    · have earlier : edge.1 ∈ past := by simpa [visited] using seen
      rcases progress.flows edge member earlier with waits | below
      · exact .inl (.inl ⟨waits, visited⟩)
      · by_cases same : after.1.get edge.1 = m.get edge.1
        · exact .inr (same ▸ le_trans below (grows edge.2))
        · exact .inl (.inr ((reported edge.1).mpr same))
  · intro p closure
    obtain ⟨sets, nodes⟩ := progress.below p closure
    have inside : ∀ n, after.1.get n ≤ p.1 n := by
      intro n
      rw [poured]
      split
      · rename_i edge
        exact LaneSet.union_within (sets n) (le_trans (sets i) (closure.flows (i, n) edge (nodes i (.inr waits))))
      · exact sets n
    refine ⟨inside, fun n given => ?_⟩
    rw [List.mem_append, List.mem_singleton] at given
    rcases given with (seen | rfl) | ⟨waits, -⟩ | grew
    · exact nodes n (.inl seen)
    · exact nodes n (.inr waits)
    · exact nodes n (.inr waits)
    · -- A set that grew is above the one at the start, and so is any that holds it.
      apply closure.changed n
      intro same
      refine (reported n).mp grew (le_antisymm ?_ (grows n))
      exact le_trans (inside n) (same ▸ progress.includes n)

theorem spread_progress (g : LaneGraph) (m : LaneMap Nat) (seeds : List Nat) :
    g.Progress m.get seeds (g.spread m seeds).1 (fun _ => False) (g.spread m seeds).2 := by
  refine Flow.drain_history (f := g.flow) (P := g.Progress m.get seeds) (visit_progress m.get seeds) []
    (Worklist.empty.pushAll seeds) m ⟨fun _ => le_refl _, ?_, fun n differs => absurd rfl differs, nofun, ?_⟩
  · exact fun n member => .inr (Worklist.mem_pushAll.mpr (.inr member))
  · intro p closure
    refine ⟨closure.includes, fun n given => ?_⟩
    rcases given with seen | waits
    · cases seen
    · exact closure.seeded n ((Worklist.mem_pushAll.mp waits).resolve_left List.not_mem_nil)

theorem roomOf_le (g : LaneGraph) (m : LaneMap Nat) : g.roomOf m ≤ 65 * g.edges.length := by
  have bound : ∀ nodes : List Nat, m.roomOver (fun _ s => s.room) nodes ≤ 65 * nodes.length := by
    intro nodes
    induction nodes with
    | nil => exact Nat.zero_le _
    | cons n rest ih =>
      have one := (m.get n).room_le
      rw [LaneMap.roomOver] at ih ⊢
      rw [List.foldr_cons, List.length_cons]
      omega
  have targets := bound (g.edges.map (·.2))
  rwa [List.length_map] at targets

theorem length_spread_le (g : LaneGraph) (m : LaneMap Nat) (seeds : List Nat) :
    (g.spread m seeds).1.length ≤ seeds.length + 65 * g.edges.length := by
  have visits := g.flow.length_drain (Worklist.empty.pushAll seeds) m
  have queued := Worklist.length_pushAll Worklist.empty seeds
  have room := g.roomOf_le m
  rw [show (Worklist.empty : Worklist Nat).waiting = [] from rfl, List.length_nil, Nat.zero_add] at queued
  rw [show g.flow.room m = g.roomOf m from rfl] at visits
  rw [spread, Flow.run]
  omega

theorem spread_least (g : LaneGraph) (m : LaneMap Nat) (seeds : List Nat) :
    IsLeast {p | g.Closure m.get seeds p} ((g.spread m seeds).2.get, {n | n ∈ (g.spread m seeds).1}) := by
  have progress := g.spread_progress m seeds
  refine ⟨⟨progress.includes, ?_, ?_, ?_⟩, fun p closure => ?_⟩
  · exact fun n member => (progress.seeded n member).resolve_right id
  · exact fun n differs => (progress.changed n differs).resolve_right id
  · exact fun edge member seen => (progress.flows edge member seen).resolve_left id
  · obtain ⟨sets, nodes⟩ := progress.below p closure
    exact ⟨sets, fun n seen => nodes n (.inl seen)⟩

-- Spreading comes to an end with the least sets and visited nodes that belong
-- together. How edges and seeds are ordered or repeated makes no difference.
theorem spread_isLeast (g : LaneGraph) (m : LaneMap Nat) (seeds : List Nat) :
    (g.spread m seeds).1.length ≤ seeds.length + 65 * g.edges.length ∧
    IsLeast {p | g.Closure m.get seeds p} ((g.spread m seeds).2.get, {n | n ∈ (g.spread m seeds).1}) ∧
    ∀ (h : LaneGraph) (start : LaneMap Nat) (others : List Nat), (∀ edge, edge ∈ h.edges ↔ edge ∈ g.edges) →
      (∀ n, start.get n = m.get n) → (∀ n, n ∈ others ↔ n ∈ seeds) →
      (h.spread start others).2.get = (g.spread m seeds).2.get ∧
        ∀ n, n ∈ (h.spread start others).1 ↔ n ∈ (g.spread m seeds).1 := by
  have least := g.spread_least m seeds
  refine ⟨g.length_spread_le m seeds, least, fun h start others edges same nodes => ?_⟩
  have again := h.spread_least start others
  have closures : {p | h.Closure start.get others p} = {p | g.Closure m.get seeds p} := by
    rw [show start.get = m.get from funext same]
    ext p
    exact ⟨.congr (fun edge => (edges edge).symm) (fun n => (nodes n).symm), .congr edges nodes⟩
  rw [closures] at again
  obtain ⟨sets, visited⟩ := Prod.mk.inj (again.unique least)
  exact ⟨sets, fun n => Set.ext_iff.mp visited n⟩

-- A cycle that is entered from a seed, and a node that points into it but is
-- neither a seed nor grows, so that its lane goes nowhere.
def ring : LaneGraph := ⟨[(0, 1), (1, 2), (2, 1), (2, 2), (3, 2)]⟩

def ringStart : LaneMap Nat := ⟨[(0, .single 0), (3, .single 1)]⟩

def tangled : LaneGraph := ⟨[(3, 2), (2, 2), (2, 1), (1, 2), (0, 1), (1, 2)]⟩

theorem spread_isLeast_ring :
    (ring.spread ringStart [0]).1 = [0, 1, 2] ∧ (ring.spread ringStart [0]).2.get 2 = .single 0 ∧
    (∀ edge, edge ∈ tangled.edges ↔ edge ∈ ring.edges) ∧
    (tangled.spread ringStart [0, 0]).2.get = (ring.spread ringStart [0]).2.get ∧
      ∀ n, n ∈ (tangled.spread ringStart [0, 0]).1 ↔ n ∈ (ring.spread ringStart [0]).1 := by
  have edges : ∀ edge, edge ∈ tangled.edges ↔ edge ∈ ring.edges := by
    intro edge
    simp only [tangled, ring, List.mem_cons, List.not_mem_nil, or_false]
    tauto
  exact ⟨by decide +kernel, by decide +kernel, edges,
    (ring.spread_isLeast ringStart [0]).2.2 tangled ringStart [0, 0] edges (fun _ => rfl) (by simp)⟩

end LaneGraph

end DeadLanes
