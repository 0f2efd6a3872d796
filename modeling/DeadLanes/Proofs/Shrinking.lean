import DeadLanes.Proofs.Clearing
import DeadLanes.Proofs.Phases

namespace DeadLanes

-- What the analysis finds from one round to the next. Lanes that were dead stay
-- dead, and rounds that only bypass have nothing to do a second time.

theorem Func.DeadInsert.discard {view other : LaneView} {live less : Value → LaneSet} {f : Func} {r : InstRef} {v base : Value}
    (dead : f.DeadInsert view live r v base) {gone : List InstRef} (stays : r ∉ gone)
    (tracked : other.tracked v = view.tracked v) (fewer : less v ≤ live v) :
    (f.discard gone).DeadInsert other less r v base := by
  obtain ⟨⟨i, obj, lane, placed, result, parsed, unread⟩, count⟩ := dead.shrink fewer
  exact ⟨⟨i, obj, lane, Func.mem_placed_discard.mpr ⟨placed, stays⟩, result, parsed, unread⟩, tracked ▸ count⟩

namespace Scope

structure Shrinks (s t : Scope) (live less : Value → LaneSet) : Prop where
  lanes : ∀ v, less v ≤ live v
  refs : t.func.refs ⊆ s.func.refs
  dead : ∀ r ∈ t.func.refs, ∀ v base, s.func.DeadInsert s.view live r v base →
    ∃ later, t.func.DeadInsert t.view less r v later

theorem Shrinks.refl (s : Scope) (live : Value → LaneSet) : s.Shrinks s live live :=
  ⟨fun _ => le_refl _, fun _ present => present, fun _ _ _ base dead => ⟨base, dead⟩⟩

theorem Shrinks.trans {s t u : Scope} {live less least : Value → LaneSet} (first : s.Shrinks t live less)
    (second : t.Shrinks u less least) : s.Shrinks u live least := by
  refine ⟨fun v => le_trans (second.lanes v) (first.lanes v), fun r present => first.refs (second.refs present),
    fun r present v base dead => ?_⟩
  obtain ⟨middle, dead⟩ := first.dead r (second.refs present) v base dead
  exact second.dead r present v middle dead

def round (s : Scope) (deleteDead : Bool) : Outcome Func :=
  let o := Outcome.ofWork (Pass.round s.types s.globals deleteDead ⟨.ofFunc s.func, []⟩)
  ⟨o.subject.func, o.changed, o.log⟩

def next (s : Scope) (deleteDead : Bool) : Scope := { s with func := (s.round deleteDead).subject }

def afterRounds (s : Scope) (deleteDead : Bool) : Nat → Scope
  | 0 => s
  | n + 1 => (s.afterRounds deleteDead n).next deleteDead

variable {s : Scope} {live : Value → LaneSet} {ρ : Value → Value} {gone : List InstRef}

theorem round_of_ran {deleteDead changed : Bool} {last : Work}
    (ran : Pass.round s.types s.globals deleteDead ⟨.ofFunc s.func, []⟩ = (.ok changed, last)) :
    s.round deleteDead = ⟨last.body.func, .ok changed, last.log⟩ := by
  rw [round, Outcome.ofWork, ran]

theorem WellFormed.shrinks (well : s.WellFormed) (one : (Analysis.ofScope s).Solves live)
    (redirects : Redirects (s.func.DeadBase s.view live) ρ) (idle : (s.renamed ρ).func.Idle gone)
    {less : Value → LaneSet} (two : (Analysis.ofScope ((s.renamed ρ).discarded gone)).Solves less) :
    s.Shrinks ((s.renamed ρ).discarded gone) live less := by
  have raises := well.raises one.held one.closed redirects
  have held : (Analysis.ofScope (s.renamed ρ)).Held live := held_renamed.mpr one.held
  have distinct : (s.renamed ρ).func.results.Nodup := by
    rw [renamed, Func.results_mapValues]
    exact well.distinct
  have fewer : ∀ v, less v ≤ live v := fun v =>
    le_trans (two.below _ (remaining_held held) (remaining_closed distinct idle held (raises.closed one.held one.closed)) v)
      (remaining_le v)
  refine ⟨fewer, fun r present => ?_, fun r present v base dead => ?_⟩
  · obtain ⟨i, placed⟩ := Func.mem_refs.mp present
    obtain ⟨p, before, same⟩ := List.mem_map.mp (s.func.placed_mapValues ρ ▸ (Func.mem_placed_discard.mp placed).1)
    cases same
    exact Func.mem_refs.mpr ⟨p.inst, before⟩
  · obtain ⟨i, placed⟩ := Func.mem_refs.mp present
    have later := dead.mapValues ρ
    obtain ⟨j, _, _, there, result, -⟩ := later.placed
    cases Func.placed_unique there (Func.mem_placed_discard.mp placed).1 rfl
    have tracked := tracked_discarded distinct idle (Func.mem_insts_iff_placed.mpr ⟨r, placed⟩)
      (List.mem_append_left _ (Option.mem_toList.mpr result))
    rw [view_renamed] at tracked
    exact ⟨_, later.discard (Func.mem_placed_discard.mp placed).2 tracked (fewer v)⟩

theorem WellFormed.round_shrinks (well : s.WellFormed) (typed : s.Typed) (deleteDead : Bool) :
    ∃ found events again later, s.liveness = .ok (found, events) ∧ (∃ changed, (s.round deleteDead).changed = .ok changed) ∧
      (s.next deleteDead).WellFormed ∧ (s.next deleteDead).Typed ∧ (s.next deleteDead).liveness = .ok (again, later) ∧
      s.Shrinks (s.next deleteDead) found.live again.live := by
  obtain ⟨found, events, ran, one⟩ := well.liveness_solves typed
  obtain ⟨inserts, results⟩ := typed.looked_up
  obtain ⟨ρ, gone, changed, last, redirects, applied, -, func, idle, -⟩ :=
    @Work.apply_exact s.view found.live ⟨.ofFunc s.func, events⟩ (Indexed.inSync_ofFunc s.func) well.distinct inserts
      results deleteDead
  have round := round_of_ran ((Pass.round_eq rfl ran deleteDead).trans applied)
  have after : s.next deleteDead = (s.renamed ρ).discarded gone := by
    rw [next, round, func]
    rfl
  obtain ⟨well', typed'⟩ := well.upkeep_renamed typed one redirects
  have well'' : ((s.renamed ρ).discarded gone).WellFormed := well'.discard idle
  have typed'' : ((s.renamed ρ).discarded gone).Typed := typed'.discard well'.distinct idle
  obtain ⟨again, later, reran, two⟩ := well''.liveness_solves typed''
  rw [after, round]
  exact ⟨found, events, again, later, ran, ⟨changed, rfl⟩, well'', typed'', reran, well.shrinks one redirects idle two⟩

theorem WellFormed.after_rounds (well : s.WellFormed) (typed : s.Typed) (deleteDead : Bool) (n : Nat) :
    (s.afterRounds deleteDead n).WellFormed ∧ (s.afterRounds deleteDead n).Typed := by
  induction n with
  | zero => exact ⟨well, typed⟩
  | succ n ih =>
    obtain ⟨_, _, _, _, -, -, well, typed, -⟩ := ih.1.round_shrinks ih.2 deleteDead
    exact ⟨well, typed⟩

-- However many rounds there are, no value ever gets a lane back, and an insert
-- that was dead once is dead as long as it is there.
theorem rounds_shrink (accepted : s.check = .ok ()) (typed : s.Typed) (deleteDead : Bool) {j k : Nat} (le : j ≤ k) :
    (∃ changed, ((s.afterRounds deleteDead k).round deleteDead).changed = .ok changed) ∧
    ∃ found events again later, (s.afterRounds deleteDead j).liveness = .ok (found, events) ∧
      (s.afterRounds deleteDead k).liveness = .ok (again, later) ∧
      (s.afterRounds deleteDead j).Shrinks (s.afterRounds deleteDead k) found.live again.live := by
  have well := check_ok.mp accepted
  obtain ⟨wellK, typedK⟩ := well.after_rounds typed deleteDead k
  obtain ⟨_, _, _, _, -, answers, -⟩ := wellK.round_shrinks typedK deleteDead
  refine ⟨answers, ?_⟩
  induction k, le using Nat.le_induction with
  | base =>
    obtain ⟨found, events, _, _, ran, -⟩ := wellK.round_shrinks typedK deleteDead
    exact ⟨found, events, found, events, ran, ran, .refl _ _⟩
  | succ k _ ih =>
    obtain ⟨well, typed⟩ := well.after_rounds typed deleteDead k
    obtain ⟨middle, _, again, later, found', changed, -, -, reran, second⟩ := well.round_shrinks typed deleteDead
    obtain ⟨found, events, _, _, ran, again', first⟩ := ih well typed changed
    cases found'.symm.trans again'
    exact ⟨found, events, again, later, ran, reran, first.trans second⟩

theorem rounds_shrink_linked :
    linked.liveness.toOption.map (fun answer => answer.1.live ⟨32⟩) = some .all ∧
    (linked.afterRounds true 2).liveness.toOption.map (fun answer => answer.1.live ⟨32⟩) = some (.single 0) ∧
    (∃ changed, ((linked.afterRounds true 2).round true).changed = .ok changed) ∧
    ∃ found events again later, (linked.afterRounds true 0).liveness = .ok (found, events) ∧
      (linked.afterRounds true 2).liveness = .ok (again, later) ∧
      (linked.afterRounds true 0).Shrinks (linked.afterRounds true 2) found.live again.live :=
  ⟨by decide +kernel, by decide +kernel, rounds_shrink (by decide +kernel) (by decide +kernel) true (Nat.zero_le 2)⟩

theorem WellFormed.applyLive_rewires (well : s.WellFormed) (typed : s.Typed) {index : UseIndex}
    (sync : Indexed.InSync ⟨s.func, index⟩) :
    ∃ found events moved again later, s.liveness = .ok (found, events) ∧
      (s.applyLive index found.live false).changed = .ok moved ∧
      ({ s with func := (s.applyLive index found.live false).subject.func } : Scope).liveness = .ok (again, later) ∧
      ∀ v, (∀ base, ¬ s.func.DeadBase s.view found.live v base) → again.live v = found.live v := by
  obtain ⟨found, events, ran, one⟩ := well.liveness_solves typed
  obtain ⟨inserts, results⟩ := typed.looked_up
  obtain ⟨ρ, gone, moved, last, redirects, applied, -, func, -, keeps, -⟩ :=
    @Work.apply_exact s.view found.live ⟨⟨s.func, index⟩, []⟩ sync well.distinct inserts results false
  rw [keeps rfl, Func.discard_nil] at func
  obtain ⟨well', typed'⟩ := well.upkeep_renamed typed one redirects
  obtain ⟨again, later, reran, two⟩ := well'.liveness_solves typed'
  obtain ⟨less, kept⟩ := well.reanalysis one redirects two
  refine ⟨found, events, moved, again, later, ran, congrArg Prod.fst applied, ?_, fun v plain => ?_⟩
  · rw [applyLive, Outcome.ofWork, applied, func]
    exact reran
  · have still := kept v
    rw [redirects.stays plain] at still
    exact le_antisymm (less v) still

theorem WellFormed.rewired_quiet (well : s.WellFormed) (typed : s.Typed) (k : Nat) :
    (∃ changed, (s.clean { deleteDead := false, maxRounds := k }).changed = .ok changed) ∧
      ((s.cleaned { deleteDead := false, maxRounds := k }).clean { deleteDead := false, maxRounds := k }).changed = .ok false ∧
      ((s.cleaned { deleteDead := false, maxRounds := k }).clean { deleteDead := false, maxRounds := k }).subject =
        (s.cleaned { deleteDead := false, maxRounds := k }).func := by
  cases k with
  | zero => exact ⟨⟨false, rfl⟩, rfl, rfl⟩
  | succ k =>
    obtain ⟨live, ρ, one, redirects, bypasses, -⟩ := well.round_phases typed
    obtain ⟨changed, first, func⟩ := well.clean_rewires typed one redirects bypasses (Nat.le_add_left 1 k)
    have rewired : s.cleaned { deleteDead := false, maxRounds := k + 1 } = s.renamed ρ := by
      rw [Scope.cleaned, func]
      rfl
    obtain ⟨last, ran, same⟩ := well.round_renamed typed one redirects (w := (s.renamed ρ).opening) rfl
    have rounds : Pass.rounds s.types s.globals { deleteDead := false, maxRounds := k + 1 } false (k + 1) (s.renamed ρ).opening = _ :=
      Pass.rounds_succ _ ran
    rw [rewired, clean_eq (s := s.renamed ρ) rounds]
    exact ⟨⟨changed, first⟩, rfl, same⟩

theorem rewiring_stable (accepted : s.check = .ok ()) (typed : s.Typed) {index : UseIndex}
    (sync : Indexed.InSync ⟨s.func, index⟩) :
    (∃ found events moved again later, s.liveness = .ok (found, events) ∧
      (s.applyLive index found.live false).changed = .ok moved ∧
      ({ s with func := (s.applyLive index found.live false).subject.func } : Scope).liveness = .ok (again, later) ∧
      ∀ v, (∀ base, ¬ s.func.DeadBase s.view found.live v base) → again.live v = found.live v) ∧
    ∀ k, (∃ changed, (s.clean { deleteDead := false, maxRounds := k }).changed = .ok changed) ∧
      ((s.cleaned { deleteDead := false, maxRounds := k }).clean { deleteDead := false, maxRounds := k }).changed = .ok false ∧
      ((s.cleaned { deleteDead := false, maxRounds := k }).clean { deleteDead := false, maxRounds := k }).subject =
        (s.cleaned { deleteDead := false, maxRounds := k }).func := by
  have well := check_ok.mp accepted
  exact ⟨well.applyLive_rewires typed sync, well.rewired_quiet typed⟩

theorem rewiring_stable_knotted :
    (knotted.clean { deleteDead := false, maxRounds := 1 }).changed = .ok true ∧
    (∃ found events moved again later, knotted.liveness = .ok (found, events) ∧
      (knotted.applyLive (.build knotted.func) found.live false).changed = .ok moved ∧
      ({ knotted with func := (knotted.applyLive (.build knotted.func) found.live false).subject.func } : Scope).liveness =
        .ok (again, later) ∧
      ∀ v, (∀ base, ¬ knotted.func.DeadBase knotted.view found.live v base) → again.live v = found.live v) ∧
    ∀ k, (∃ changed, (knotted.clean { deleteDead := false, maxRounds := k }).changed = .ok changed) ∧
      ((knotted.cleaned { deleteDead := false, maxRounds := k }).clean
        { deleteDead := false, maxRounds := k }).changed = .ok false ∧
      ((knotted.cleaned { deleteDead := false, maxRounds := k }).clean { deleteDead := false, maxRounds := k }).subject =
        (knotted.cleaned { deleteDead := false, maxRounds := k }).func :=
  ⟨by decide +kernel, rewiring_stable (by decide +kernel) (by decide +kernel) (Indexed.inSync_ofFunc knotted.func)⟩

end Scope

end DeadLanes
