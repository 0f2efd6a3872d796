import DeadLanes.Proofs.Fixpoint

namespace DeadLanes

-- How many visits the analysis takes. An instruction is visited as a root, and
-- again only when the set of its result grew; the room that the sets have at
-- the start pays for that.

-- How often the set of the result can grow: lane by lane where lanes are
-- tracked, else all at once.
def Inst.height (view : LaneView) (i : Inst) : Nat := (i.result?.bind view.tracked).getD 1

theorem LaneSet.canonicalRoom_empty_le (count : Option Nat) : empty.canonicalRoom count ≤ max 1 (count.getD 1) := by
  cases count with
  | none => exact Nat.le_refl 1
  | some n =>
    have lanes : absent n 0#64 ≤ (List.range n).length := List.countP_le_length
    rw [List.length_range] at lanes
    exact max_le_max (Nat.le_refl 1) lanes

theorem LaneMap.roomOver_eq_sum (room : Value → LaneSet → Nat) (keys : List Value) (m : LaneMap Value) :
    m.roomOver room keys = (keys.map fun k => room k (m.get k)).sum := by
  rw [roomOver, List.sum_eq_foldr, List.foldr_map]

namespace Analysis

variable {a : Analysis}

def budget (a : Analysis) (i : Inst) : Nat :=
  (if a.isRoot i then 1 else 0) +
    (i.result?.map fun v => (a.initial.sets.get v).canonicalRoom (a.view.tracked v)).getD 0

theorem budget_le {i : Inst} (member : i ∈ a.func.insts) : a.budget i ≤ 1 + i.height a.view := by
  have once : (if a.isRoot i then 1 else 0) ≤ 1 := by split <;> omega
  cases result : i.result? with
  | none =>
    simp only [budget, Inst.height, result, Option.map_none, Option.getD_none, Option.bind_none]
    omega
  | some v =>
    simp only [budget, Inst.height, result, Option.map_some, Option.getD_some, Option.bind_some]
    rcases a.initial_get v with ⟨full, -⟩ | ⟨none, seedless⟩
    · rw [full, LaneSet.canonicalRoom]
      omega
    · rw [none]
      have room := LaneSet.canonicalRoom_empty_le (a.view.tracked v)
      by_cases root : a.isRoot i = true
      · have untracked : a.view.tracked v = Option.none := by
          rw [← Option.not_isSome_iff_eq_none]
          exact fun tracked => seedless ⟨i, member, root, result, tracked⟩
        rw [untracked] at room ⊢
        rw [if_pos root]
        exact Nat.add_le_add_left room 1
      · rw [if_neg root]
        omega

theorem budget_sum (a : Analysis) (ps : List Placed) :
    (ps.filter fun p => a.isRoot p.inst).length +
      ((ps.filterMap (·.inst.result?)).map fun v => (a.initial.sets.get v).canonicalRoom (a.view.tracked v)).sum =
    (ps.map fun p => a.budget p.inst).sum := by
  induction ps with
  | nil => rfl
  | cons p rest ih =>
    rw [List.map_cons, List.sum_cons, ← ih, List.filter_cons, List.filterMap_cons, budget]
    cases a.isRoot p.inst <;> cases p.inst.result? <;> simp <;> omega

theorem room_initial (index : a.index = .build a.func) :
    a.roots.length + a.room a.initial = (a.func.insts.map a.budget).sum := by
  have keys : a.index.defs.map (·.1) = (a.func.placed.filterMap (·.inst.result?)).reverse := by
    rw [index, UseIndex.build, List.map_reverse, List.map_filterMap]
    simp only [Option.map_map, Function.comp_def, Option.map_id']
  rw [room, LaneMap.roomOver_eq_sum, keys, List.map_reverse, List.sum_reverse, roots, budget_sum, Func.insts, List.map_map]
  rfl

theorem solve_visits_le (index : a.index = .build a.func) {seeds : List InstRef}
    (order : seeds.Perm (a.roots.map (·.ref))) :
    (a.solve seeds).1.length ≤ (a.func.insts.map fun i => 1 + i.height a.view).sum := by
  have visits := a.flow.length_drain (Worklist.empty.pushAll seeds) a.initial
  have queued := Worklist.length_pushAll Worklist.empty seeds
  rw [order.length_eq, List.length_map, show (Worklist.empty : Worklist InstRef).waiting = [] from rfl, List.length_nil,
    Nat.zero_add] at queued
  calc (a.solve seeds).1.length
    _ ≤ (Worklist.empty.pushAll seeds).waiting.length + a.room a.initial := Nat.le_of_add_right_le visits
    _ ≤ a.roots.length + a.room a.initial := Nat.add_le_add_right queued _
    _ = (a.func.insts.map a.budget).sum := room_initial index
    _ ≤ (a.func.insts.map fun i => 1 + i.height a.view).sum := List.sum_le_sum fun i member => budget_le member

theorem visits_runFrom {seeds : List InstRef} {found : Liveness} {events : List Event}
    (ran : a.runFrom seeds = .ok (found, events)) : found.visits = (a.solve seeds).1.length := by
  unfold runFrom at ran
  split at ran
  · dsimp only at ran
    split at ran
    · cases ran
    · cases ran
      rfl
  · cases ran

end Analysis

namespace Scope

-- Whatever the loops and in whatever order the roots are taken, the analysis of
-- an accepted function makes no more visits than it has instructions and lanes
-- of their results, where a result that is not tracked counts as one lane.
theorem liveness_visits_le {s : Scope} (accepted : s.check = .ok ()) (typed : s.Typed) {seeds : List InstRef}
    (order : seeds.Perm ((Analysis.ofScope s).roots.map (·.ref))) :
    ∃ found events, (Analysis.ofScope s).runFrom seeds = .ok (found, events) ∧
      found.visits ≤ (s.func.insts.map fun i => 1 + i.height s.view).sum := by
  have sound := (check_ok.mp accepted).sound typed
  obtain ⟨found, events, ran, -⟩ := Analysis.runFrom_ok sound order
  refine ⟨found, events, ran, ?_⟩
  rw [Analysis.visits_runFrom ran]
  exact Analysis.solve_visits_le sound.index order

-- A loop that swaps the lanes of a vector, of which one is read afterwards. Phi
-- and shuffle are visited for one lane and then for the other.
def rotating : Scope :=
  { types := looped.types
    globals := ⟨[(⟨1⟩, ⟨⟨1⟩, .undef⟩), (⟨2⟩, ⟨⟨2⟩, .constant 1⟩), (⟨3⟩, ⟨⟨3⟩, .variable .output⟩)]⟩
    func := .ofBlocks "rotating" [
      [⟨.br, none, [.label ⟨1⟩]⟩],
      [⟨.phi, some (⟨10⟩, ⟨1⟩), [.value ⟨1⟩, .label ⟨0⟩, .value ⟨11⟩, .label ⟨1⟩]⟩,
        ⟨.shuffle, some (⟨11⟩, ⟨1⟩), [.value ⟨10⟩, .value ⟨10⟩, .literal 1, .literal 0]⟩,
        ⟨.brc, none, [.value ⟨2⟩, .label ⟨1⟩, .label ⟨2⟩]⟩],
      [⟨.extract, some (⟨12⟩, ⟨0⟩), [.value ⟨10⟩, .literal 0]⟩, ⟨.store, none, [.value ⟨3⟩, .value ⟨12⟩]⟩,
        ⟨.ret, none, []⟩]] }

theorem liveness_visits_le_rotating :
    (rotating.func.insts.map fun i => 1 + i.height rotating.view).sum = 16 ∧
    rotating.liveness.toOption.map (·.1.visits) = some 9 ∧
    ∃ found events, (Analysis.ofScope rotating).runFrom ((Analysis.ofScope rotating).roots.map (·.ref)) = .ok (found, events) ∧
      found.visits ≤ (rotating.func.insts.map fun i => 1 + i.height rotating.view).sum :=
  ⟨by decide +kernel, by decide +kernel, liveness_visits_le (by decide +kernel) (by decide +kernel) (.refl _)⟩

end Scope

end DeadLanes
