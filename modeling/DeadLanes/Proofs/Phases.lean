import DeadLanes.Proofs.Convergence
import DeadLanes.Proofs.Reanalysis
import DeadLanes.Proofs.Twins

namespace DeadLanes

-- Bypassing dead inserts in rounds of their own, before anything is erased,
-- makes no difference to what is left in the end.

theorem LaneRule.deadInsert_mapValues (rule : LaneRule) (ρ : Value → Value) (live : LaneSet) :
    (rule.mapValues ρ).deadInsert live = rule.deadInsert live := by
  cases rule <;> rfl

theorem Func.DeadInsert.shrink {view : LaneView} {live more : Value → LaneSet} {f : Func} {r : InstRef} {v base : Value}
    (dead : f.DeadInsert view live r v base) (less : more v ≤ live v) : f.DeadInsert view more r v base := by
  obtain ⟨i, obj, lane, placed, result, parsed, unread⟩ := dead.placed
  refine ⟨⟨i, obj, lane, placed, result, parsed, ?_⟩, dead.tracked⟩
  exact Bool.eq_false_iff.mpr fun read => Bool.eq_false_iff.mp unread (LaneSet.contains_of_le less read)

namespace Scope

variable {s : Scope} {live more : Value → LaneSet} {ρ : Value → Value}

theorem WellFormed.deadInserts_renamed (well : s.WellFormed) (one : (Analysis.ofScope s).Solves live)
    (redirects : Redirects (s.func.DeadBase s.view live) ρ) (two : (Analysis.ofScope (s.renamed ρ)).Solves more) :
    Work.deadInserts s.view more (s.func.mapValues ρ) = Work.deadInserts s.view live s.func := by
  have typed := (well.raises one.held one.closed redirects).typed
  obtain ⟨less, kept⟩ := well.reanalysis one redirects two
  have width : ∀ w, s.view.width (ρ w) = s.view.width w := fun w => by simp only [view, width?, typed]
  rw [Work.deadInserts, Work.deadInserts, Func.placed_mapValues, List.filterMap_map]
  refine List.filterMap_congr fun p placed => ?_
  simp only [Function.comp, Inst.opcode_mapValues, Inst.result?_mapValues, LaneRule.of_mapValues (fun w _ => width w) rfl,
    LaneRule.deadInsert_mapValues]
  cases result : p.inst.result? with
  | none => rfl
  | some v =>
    have same : (LaneRule.of s.view p.inst).deadInsert (more v) = (LaneRule.of s.view p.inst).deadInsert (live v) := by
      have chosen := LaneRule.of_chosen s.view p.inst
      cases rule : LaneRule.of s.view p.inst with
      | insert obj base lane lanes =>
        rw [rule] at chosen
        cases chosen with
        | insert parsed tracked =>
          refine congrArg (!·) (Bool.eq_iff_iff.mpr ⟨LaneSet.contains_of_le (less v), fun read => ?_⟩)
          have plain : ∀ b, ¬ s.func.DeadBase s.view live v b := by
            intro b dead
            obtain ⟨r, dead⟩ := dead
            obtain ⟨_, _, again, unread⟩ := dead.parsed well.distinct placed result
            cases parsed.symm.trans again
            cases unread.symm.trans read
          have still := kept v
          rw [redirects.stays plain] at still
          exact LaneSet.contains_of_le still read
      | _ => rfl
    simp only [Option.filter_some, same]

theorem WellFormed.candidates_renamed (well : s.WellFormed) (one : (Analysis.ofScope s).Solves live)
    (redirects : Redirects (s.func.DeadBase s.view live) ρ) (two : (Analysis.ofScope (s.renamed ρ)).Solves more)
    (r : InstRef) :
    r ∈ (Work.deadInserts s.view live s.func).map (·.1) ++ Work.emptyVectors s.view live (s.func.mapValues ρ) ↔
      r ∈ (Work.deadInserts s.view live s.func).map (·.1) ++ Work.emptyVectors s.view more (s.func.mapValues ρ) := by
  obtain ⟨less, kept⟩ := well.reanalysis one redirects two
  simp only [List.mem_append, Work.mem_emptyVectors]
  constructor
  · refine Or.imp_right fun found => ?_
    obtain ⟨i, placed, idle, v, result, tracked, none⟩ := found
    exact ⟨i, placed, idle, v, result, tracked, LaneSet.le_empty.mp (none ▸ less v)⟩
  · refine fun found => found.elim .inl fun found => ?_
    obtain ⟨i, placed, idle, v, result, tracked, none⟩ := found
    obtain ⟨p, before, same⟩ := List.mem_map.mp (s.func.placed_mapValues ρ ▸ placed)
    cases same
    by_cases dead : ∃ base, s.func.DeadBase s.view live v base
    · obtain ⟨base, q, dead⟩ := dead
      obtain ⟨j, _, _, there, again, -⟩ := dead.placed
      cases Func.defined_once well.distinct there before again result
      exact .inl (List.mem_map_of_mem (f := (·.1)) (Work.deadInsert_listed dead))
    · have still := kept v
      rw [redirects.stays (not_exists.mp dead), none] at still
      exact .inr ⟨_, placed, idle, v, result, tracked, LaneSet.le_empty.mp still⟩

theorem WellFormed.idle_renamed (well : s.WellFormed) (one : (Analysis.ofScope s).Solves live)
    (redirects : Redirects (s.func.DeadBase s.view live) ρ) (two : (Analysis.ofScope (s.renamed ρ)).Solves more) :
    ∀ d ∈ Work.deadInserts s.view more (s.func.mapValues ρ), ∃ base,
      (s.func.mapValues ρ).DeadInsert s.view more d.1 d.2 base ∧ (d.2 = base ∨ (s.func.mapValues ρ).Unused d.2) := by
  rw [well.deadInserts_renamed one redirects two]
  intro d member
  obtain ⟨base, dead⟩ := Work.mem_deadInserts member
  refine ⟨ρ base, (dead.mapValues ρ).shrink ((well.reanalysis one redirects two).1 d.2), ?_⟩
  rw [← redirects.past d.2 base ⟨d.1, dead⟩]
  by_cases own : d.2 = ρ d.2
  · exact .inl own
  · refine .inr fun i member named => own ?_
    obtain ⟨j, -, rfl⟩ := Func.mem_insts_mapValues.mp member
    obtain ⟨w, -, same⟩ := Inst.mem_values_mapValues.mp named
    rw [← same, redirects.settled]

end Scope

namespace Work

variable {view : LaneView} {live : Value → LaneSet} {w x : Work}

theorem apply_twins (same : w.body = x.body) (sync : w.body.InSync) (distinct : w.body.func.results.Nodup)
    (inserts : insertsKnown view w.body.func = true) (results : resultsKnown view w.body.func = true) (deleteDead : Bool) :
    ∃ changed y z, apply view live deleteDead w = (.ok changed, y) ∧ apply view live deleteDead x = (.ok changed, z) ∧
      y.body.func = z.body.func := by
  obtain ⟨moved, middle, ran, synced, steps, -⟩ := bypassAll_dead sync
  obtain ⟨answer, y, z, one, two, body⟩ := (bypassAll_blind (deadInserts view live w.body.func)).outcome same
  cases one.symm.trans ran
  cases deleteDead with
  | false =>
    exact ⟨moved, middle, z, apply_keeping inserts ran, apply_keeping (same ▸ inserts) (same ▸ two), congrArg Indexed.func body⟩
  | true =>
    have known := resultsKnown_bypasses steps results
    have twins : middle.body.Twins z.body := ⟨congrArg Indexed.func body, synced, body ▸ synced, steps.results ▸ distinct⟩
    obtain ⟨erased, after⟩ := eraseUnused_twins twins (fun r => Iff.refl (r ∈ (deadInserts view live w.body.func).map (·.1) ++
      emptyVectors view live middle.body.func))
    refine ⟨_, _, _, apply_erasing inserts ran known rfl, ?_, after.func⟩
    rw [erased]
    exact apply_erasing (same ▸ inserts) (same ▸ two) (body ▸ known) (same ▸ body ▸ rfl)

end Work

namespace Pass

variable {s : Scope} {w x : Work}

theorem round_twins (well : s.WellFormed) (typed : s.Typed) (one : w.body.func = s.func) (two : x.body.func = s.func)
    (deleteDead : Bool) : ∃ again y z, round s.types s.globals deleteDead w = (.ok again, y) ∧
      round s.types s.globals deleteDead x = (.ok again, z) ∧ y.body.func = z.body.func := by
  obtain ⟨found, events, ran, -⟩ := well.liveness_ok typed
  obtain ⟨inserts, results⟩ := typed.looked_up
  rw [round_eq one ran, round_eq two ran]
  exact Work.apply_twins (w := ⟨.ofFunc s.func, w.log ++ events⟩) (x := ⟨.ofFunc s.func, x.log ++ events⟩) rfl
    (Indexed.inSync_ofFunc s.func) well.distinct inserts results deleteDead

theorem rounds_twins (config : Config) (changed other : Bool) (left : Nat)
    (well : ({ s with func := w.body.func } : Scope).WellFormed) (typed : ({ s with func := w.body.func } : Scope).Typed)
    (same : x.body.func = w.body.func) :
    ∃ answer also y z, rounds s.types s.globals config changed left w = (.ok answer, y) ∧
      rounds s.types s.globals config other left x = (.ok also, z) ∧ y.body.func = z.body.func := by
  induction left generalizing changed other w x with
  | zero => exact ⟨_, _, _, _, rfl, rfl, same.symm⟩
  | succ left ih =>
    obtain ⟨again, y, z, one, two, func⟩ :=
      round_twins (s := { s with func := w.body.func }) well typed rfl same config.deleteDead
    obtain ⟨_, _, ran, tidies, -⟩ := round_ok (s := { s with func := w.body.func }) well typed rfl config.deleteDead
    cases ran.symm.trans one
    rw [rounds_succ config one, rounds_succ config two]
    cases again with
    | false => exact ⟨_, _, _, _, rfl, rfl, func⟩
    | true =>
      obtain ⟨well, typed⟩ := tidies.upkeep well typed
      exact ih true true well typed func.symm

end Pass

namespace Scope

variable {s : Scope} {live : Value → LaneSet} {ρ : Value → Value}

theorem WellFormed.upkeep_renamed (well : s.WellFormed) (typed : s.Typed) (one : (Analysis.ofScope s).Solves live)
    (redirects : Redirects (s.func.DeadBase s.view live) ρ) : (s.renamed ρ).WellFormed ∧ (s.renamed ρ).Typed := by
  have same := (well.raises one.held one.closed redirects).typed
  exact ⟨well.mapValues same, typed.mapValues same⟩

theorem WellFormed.round_renamed (well : s.WellFormed) (typed : s.Typed) (one : (Analysis.ofScope s).Solves live)
    (redirects : Redirects (s.func.DeadBase s.view live) ρ) {w : Work} (func : w.body.func = s.func.mapValues ρ) :
    ∃ next, Pass.round s.types s.globals false w = (.ok false, next) ∧ next.body.func = s.func.mapValues ρ := by
  obtain ⟨well', typed'⟩ := well.upkeep_renamed typed one redirects
  obtain ⟨found, events, ran, two⟩ := well'.liveness_solves typed'
  have idle := well.idle_renamed one redirects two
  obtain ⟨inserts, -⟩ := typed'.looked_up
  rw [s.view_renamed] at inserts
  obtain ⟨next, still, -, kept⟩ := Work.bypassAll_idle (w := ⟨.ofFunc (s.func.mapValues ρ), w.log ++ events⟩)
    (Indexed.inSync_ofFunc _) idle
  refine ⟨next, (Pass.round_eq (s := s.renamed ρ) func ran false).trans ?_, kept⟩
  rw [s.view_renamed]
  exact Work.apply_keeping inserts still

theorem erased_of_moved {w middle : Work} {view : LaneView} (sync : w.body.InSync) {moved : Bool}
    (ran : Work.bypassAll (Work.deadInserts view live w.body.func) w = (.ok moved, middle)) (did : moved = true) :
    (Work.eraseUnused ((Work.deadInserts view live w.body.func).map (·.1) ++
      Work.emptyVectors view live middle.body.func) middle).1 = true := by
  obtain ⟨_, _, again, synced, steps, -, unused⟩ := Work.bypassAll_dead sync
  cases again.symm.trans ran
  obtain ⟨d, member, -, none⟩ := unused did
  obtain ⟨base, dead⟩ := steps.deadInsert (Work.mem_deadInserts member)
  obtain ⟨i, _, _, placed, result, -⟩ := dead.placed
  rw [Work.eraseUnused_answer, Bool.not_eq_true', decide_eq_false_iff_not]
  refine Work.closed_of_unused synced placed (List.mem_eraseDups.mpr (List.mem_append_left _ ?_)) result none
  exact List.mem_map_of_mem (f := (·.1)) member

theorem WellFormed.apply_phases (well : s.WellFormed) (typed : s.Typed) (one : (Analysis.ofScope s).Solves live)
    (redirects : Redirects (s.func.DeadBase s.view live) ρ) {log : List Event} {moved : Bool} {middle : Work}
    (ran : Work.bypassAll (Work.deadInserts s.view live s.func) ⟨.ofFunc s.func, log⟩ = (.ok moved, middle))
    (synced : middle.body.InSync) (func : middle.body.func = s.func.mapValues ρ) {x : Work}
    (other : x.body.func = s.func.mapValues ρ) :
    ∃ again y z, Work.apply s.view live true ⟨.ofFunc s.func, log⟩ = (.ok again, y) ∧
      Pass.round s.types s.globals true x = (.ok again, z) ∧ y.body.func = z.body.func := by
  obtain ⟨inserts, -⟩ := typed.looked_up
  obtain ⟨well', typed'⟩ := well.upkeep_renamed typed one redirects
  obtain ⟨found, events, analysed, two⟩ := well'.liveness_solves typed'
  obtain ⟨inserts', results'⟩ := typed'.looked_up
  rw [s.view_renamed] at inserts' results'
  obtain ⟨next, still, synced', kept⟩ := Work.bypassAll_idle (w := ⟨.ofFunc (s.func.mapValues ρ), x.log ++ events⟩)
    (Indexed.inSync_ofFunc _) (well.idle_renamed one redirects two)
  have kept : next.body.func = s.func.mapValues ρ := kept
  have twins : middle.body.Twins next.body := by
    refine ⟨func.trans kept.symm, synced, synced', ?_⟩
    rw [func, Func.results_mapValues]
    exact well.distinct
  have chosen : ∀ r, r ∈ (Work.deadInserts s.view live s.func).map (·.1) ++ Work.emptyVectors s.view live middle.body.func ↔
      r ∈ (Work.deadInserts s.view found.live (s.func.mapValues ρ)).map (·.1) ++
        Work.emptyVectors s.view found.live next.body.func := by
    rw [func, kept, well.deadInserts_renamed one redirects two]
    exact well.candidates_renamed one redirects two
  obtain ⟨erased, after⟩ := Work.eraseUnused_twins twins chosen
  have first := Work.apply_erasing (w := ⟨.ofFunc s.func, log⟩) inserts ran (func ▸ results') rfl
  have second := Work.apply_erasing (w := ⟨.ofFunc (s.func.mapValues ρ), x.log ++ events⟩) inserts' still (kept ▸ results') rfl
  refine ⟨_, _, _, first, (Pass.round_eq (s := s.renamed ρ) other analysed true).trans ?_, after.func⟩
  rw [s.view_renamed]
  refine second.trans (congrArg (fun b => (Except.ok b, _)) ?_)
  rw [Bool.false_or]
  cases moved with
  | false => exact erased.symm
  | true => exact erased.symm.trans (erased_of_moved (w := ⟨.ofFunc s.func, log⟩) (Indexed.inSync_ofFunc s.func) ran rfl)

theorem WellFormed.round_phases (well : s.WellFormed) (typed : s.Typed) : ∃ live ρ, (Analysis.ofScope s).Solves live ∧
    Redirects (s.func.DeadBase s.view live) ρ ∧
    (∀ w : Work, w.body.func = s.func → ∃ moved next, Pass.round s.types s.globals false w = (.ok moved, next) ∧
      next.body.func = s.func.mapValues ρ) ∧
    ∀ w x : Work, w.body.func = s.func → x.body.func = s.func.mapValues ρ → ∃ again y z,
      Pass.round s.types s.globals true w = (.ok again, y) ∧ Pass.round s.types s.globals true x = (.ok again, z) ∧
        y.body.func = z.body.func := by
  obtain ⟨found, events, ran, one⟩ := well.liveness_solves typed
  obtain ⟨inserts, results⟩ := typed.looked_up
  obtain ⟨moved, next, ρ, bypassed, synced, func, redirects⟩ :=
    @Work.bypassAll_redirects s.view found.live ⟨.ofFunc s.func, []⟩ (Indexed.inSync_ofFunc s.func) well.distinct
  have any : ∀ log, ∃ middle, Work.bypassAll (Work.deadInserts s.view found.live s.func) ⟨.ofFunc s.func, log⟩ =
      (.ok moved, middle) ∧ middle.body = next.body := by
    intro log
    obtain ⟨answer, y, z, first, second, body⟩ := (Work.bypassAll_blind (Work.deadInserts s.view found.live s.func)).outcome
      (w := ⟨.ofFunc s.func, []⟩) (x := ⟨.ofFunc s.func, log⟩) rfl
    cases first.symm.trans bypassed
    exact ⟨z, second, body.symm⟩
  refine ⟨found.live, ρ, one, redirects, fun w same => ?_, fun w x same other => ?_⟩
  · obtain ⟨middle, ended, body⟩ := any (w.log ++ events)
    refine ⟨moved, middle, (Pass.round_eq same ran false).trans (Work.apply_keeping inserts ended), ?_⟩
    exact body ▸ func
  · obtain ⟨middle, ended, body⟩ := any (w.log ++ events)
    rw [Pass.round_eq same ran true]
    exact well.apply_phases typed one redirects ended (body ▸ synced) (body ▸ func) other

end Scope

namespace Pass

variable {s : Scope}

theorem rounds_quiet (config : Config) {f : Func} (quiet : ∀ w : Work, w.body.func = f → ∃ next,
    round s.types s.globals config.deleteDead w = (.ok false, next) ∧ next.body.func = f)
    (changed : Bool) (left : Nat) {w : Work} (func : w.body.func = f) :
    ∃ answer last, rounds s.types s.globals config changed left w = (.ok answer, last) ∧ last.body.func = f := by
  cases left with
  | zero => exact ⟨_, _, rfl, func⟩
  | succ left =>
    obtain ⟨next, ran, same⟩ := quiet w func
    exact ⟨_, _, rounds_succ config ran, same⟩

end Pass

namespace Scope

variable {s : Scope} {live : Value → LaneSet} {ρ : Value → Value}

theorem WellFormed.clean_rewires (well : s.WellFormed) (typed : s.Typed) (one : (Analysis.ofScope s).Solves live)
    (redirects : Redirects (s.func.DeadBase s.view live) ρ)
    (bypasses : ∀ w : Work, w.body.func = s.func → ∃ moved next, Pass.round s.types s.globals false w = (.ok moved, next) ∧
      next.body.func = s.func.mapValues ρ) {k : Nat} (allowed : 1 ≤ k) :
    ∃ a, (s.clean { deleteDead := false, maxRounds := k }).changed = .ok a ∧
      (s.clean { deleteDead := false, maxRounds := k }).subject = s.func.mapValues ρ := by
  have quiet : ∀ w : Work, w.body.func = s.func.mapValues ρ → ∃ next,
      Pass.round s.types s.globals false w = (.ok false, next) ∧ next.body.func = s.func.mapValues ρ :=
    fun w func => well.round_renamed typed one redirects func
  obtain ⟨left, rfl⟩ := Nat.exists_eq_succ_of_ne_zero (Nat.ne_zero_of_lt allowed)
  obtain ⟨moved, next, ran, func⟩ := bypasses s.opening rfl
  have rounds : Pass.rounds s.types s.globals { deleteDead := false, maxRounds := left + 1 } false (left + 1) s.opening = _ :=
    Pass.rounds_succ _ ran
  cases moved with
  | false =>
    rw [clean_eq rounds]
    exact ⟨false, rfl, func⟩
  | true =>
    obtain ⟨answer, last, rest, func⟩ := Pass.rounds_quiet { deleteDead := false, maxRounds := left + 1 } quiet true left func
    rw [clean_eq (rounds.trans rest)]
    exact ⟨answer, rfl, func⟩

theorem WellFormed.clean_renamed (well : s.WellFormed) (typed : s.Typed)
    (erases : ∀ w x : Work, w.body.func = s.func → x.body.func = s.func.mapValues ρ → ∃ again y z,
      Pass.round s.types s.globals true w = (.ok again, y) ∧ Pass.round s.types s.globals true x = (.ok again, z) ∧
        y.body.func = z.body.func) {m : Nat} (allowed : 1 ≤ m) :
    ∃ b c, ((s.renamed ρ).clean { maxRounds := m }).changed = .ok b ∧ (s.clean { maxRounds := m }).changed = .ok c ∧
      ((s.renamed ρ).clean { maxRounds := m }).subject = (s.clean { maxRounds := m }).subject := by
  obtain ⟨left, rfl⟩ := Nat.exists_eq_succ_of_ne_zero (Nat.ne_zero_of_lt allowed)
  obtain ⟨again, y, z, ranY, ranZ, func⟩ := erases s.opening (s.renamed ρ).opening rfl rfl
  have roundsY : Pass.rounds s.types s.globals { maxRounds := left + 1 } false (left + 1) s.opening = _ :=
    Pass.rounds_succ _ ranY
  have roundsZ : Pass.rounds s.types s.globals { maxRounds := left + 1 } false (left + 1) (s.renamed ρ).opening = _ :=
    Pass.rounds_succ _ ranZ
  cases again with
  | false =>
    rw [clean_eq roundsY, clean_eq (s := s.renamed ρ) roundsZ]
    exact ⟨false, false, rfl, rfl, func.symm⟩
  | true =>
    obtain ⟨_, _, ran, tidies, -⟩ := Pass.round_ok well typed rfl true (w := s.opening)
    cases ran.symm.trans ranY
    obtain ⟨well, typed⟩ := tidies.upkeep well typed
    obtain ⟨c, b, _, _, restY, restZ, func⟩ :=
      Pass.rounds_twins { maxRounds := left + 1 } true true left well typed func.symm
    rw [clean_eq (roundsY.trans restY), clean_eq (s := s.renamed ρ) (roundsZ.trans restZ)]
    exact ⟨b, c, rfl, rfl, func.symm⟩

theorem clean_in_phases (accepted : s.check = .ok ()) (typed : s.Typed) {k m : Nat} (first : 1 ≤ k) (second : 1 ≤ m) :
    let rewired := s.cleaned { deleteDead := false, maxRounds := k }
    (∃ a b c, (s.clean { deleteDead := false, maxRounds := k }).changed = .ok a ∧
      (rewired.clean { maxRounds := m }).changed = .ok b ∧ (s.clean { maxRounds := m }).changed = .ok c) ∧
    (rewired.clean { maxRounds := m }).subject = (s.clean { maxRounds := m }).subject := by
  have well := check_ok.mp accepted
  obtain ⟨live, ρ, one, redirects, bypasses, erases⟩ := well.round_phases typed
  obtain ⟨a, ran, func⟩ := well.clean_rewires typed one redirects bypasses first
  obtain ⟨b, c, ranB, ranC, same⟩ := well.clean_renamed typed erases second
  have rewired : s.cleaned { deleteDead := false, maxRounds := k } = s.renamed ρ := by
    rw [Scope.cleaned, func]
    rfl
  dsimp only
  rw [rewired]
  exact ⟨⟨a, b, c, ran, ranB, ranC⟩, same⟩

theorem clean_in_phases_knotted :
    (knotted.cleaned { deleteDead := false, maxRounds := 3 }).func.insts.map (·.opcode) = knotted.func.insts.map (·.opcode) ∧
    (knotted.clean { maxRounds := 2 }).subject.insts.map (·.opcode) =
      [.insert, .undef, .construct, .extract, .store, .extract, .store, .ret] ∧
    (∃ a b c, (knotted.clean { deleteDead := false, maxRounds := 3 }).changed = .ok a ∧
      ((knotted.cleaned { deleteDead := false, maxRounds := 3 }).clean { maxRounds := 2 }).changed = .ok b ∧
      (knotted.clean { maxRounds := 2 }).changed = .ok c) ∧
    ((knotted.cleaned { deleteDead := false, maxRounds := 3 }).clean { maxRounds := 2 }).subject =
      (knotted.clean { maxRounds := 2 }).subject :=
  ⟨by decide +kernel, by decide +kernel,
    clean_in_phases (s := knotted) (by decide +kernel) (by decide +kernel) (k := 3) (m := 2) (by decide) (by decide)⟩

end Scope

end DeadLanes
