import DeadLanes.Proofs.Rounds

namespace DeadLanes

-- Nothing goes wrong with accepted functions: whatever a clean-up is told about
-- live lanes, it ends, and what it leaves is accepted. The one thing it relies
-- on that acceptance does not tell is that types are in the table.

theorem Func.ty?_mem {f : Func} {v : Value} {t : TypeRef} (typed : f.ty? v = some t) :
    ∃ i ∈ f.insts, i.defines = some (v, t) := by
  obtain ⟨front, back, split, -⟩ := List.lookup_eq_some_iff.mp typed
  have member : (v, t) ∈ f.definitions.reverse := by simp [split]
  exact List.mem_filterMap.mp (List.mem_reverse.mp member)

theorem Globals.ty?_mem {g : Globals} {v : Value} {t : TypeRef} (typed : g.ty? v = some t) :
    ∃ entry ∈ g.entries, entry.2.ty = t := by
  obtain ⟨global, found, same⟩ := Option.map_eq_some_iff.mp typed
  obtain ⟨front, back, split, -⟩ := List.lookup_eq_some_iff.mp found
  exact ⟨(v, global), by simp [split], same⟩

namespace Scope

def ResultsKnown (s : Scope) : Prop := ∀ i ∈ s.func.insts, ∀ t ∈ i.ty?, s.types.contains t = true

def GlobalsKnown (s : Scope) : Prop := ∀ entry ∈ s.globals.entries, s.types.contains entry.2.ty = true

instance (s : Scope) : Decidable s.ResultsKnown :=
  inferInstanceAs (Decidable (∀ i ∈ s.func.insts, ∀ t ∈ i.ty?, s.types.contains t = true))

instance (s : Scope) : Decidable s.GlobalsKnown :=
  inferInstanceAs (Decidable (∀ entry ∈ s.globals.entries, s.types.contains entry.2.ty = true))

variable {s : Scope}

theorem ResultsKnown.contains (results : s.ResultsKnown) (globals : s.GlobalsKnown) {v : Value} {t : TypeRef}
    (typed : s.ty? v = some t) : s.types.contains t = true := by
  rcases Option.or_eq_some_iff.mp typed with own | ⟨-, global⟩
  · obtain ⟨i, member, defined⟩ := Func.ty?_mem own
    exact results i member t (by rw [Inst.ty?, defined]; rfl)
  · obtain ⟨entry, member, rfl⟩ := Globals.ty?_mem global
    exact globals entry member

theorem ResultsKnown.typed (results : s.ResultsKnown) (globals : s.GlobalsKnown) : s.Typed := by
  intro i _ v _
  rw [known, Option.all_eq_true]
  exact fun t typed => results.contains globals typed

theorem WellFormed.applyLive_ok (well : s.WellFormed) (typed : s.Typed) {index : UseIndex}
    (sync : Indexed.InSync ⟨s.func, index⟩) (live : Value → LaneSet) (deleteDead : Bool) :
    ∃ changed, (s.applyLive index live deleteDead).changed = .ok changed ∧
      (s.applyLive index live deleteDead).subject.InSync ∧
      ({ s with func := (s.applyLive index live deleteDead).subject.func } : Scope).WellFormed := by
  obtain ⟨inserts, results⟩ := typed.looked_up
  obtain ⟨-, middle, changed, next, -, applied, synced, bypasses, discards, -, -⟩ :=
    @Work.apply_ok s.view live ⟨⟨s.func, index⟩, []⟩ sync well.distinct inserts results deleteDead
  rw [applyLive, Outcome.ofWork, applied]
  obtain ⟨well, typed⟩ := bypasses.upkeep well typed
  exact ⟨changed, rfl, synced, (Func.Discards.upkeep (s := { s with func := middle.body.func }) discards well typed).1⟩

theorem applyLive_accepted (accepted : s.check = .ok ()) (typed : s.Typed) :
    (∀ (index : UseIndex) (live : Value → LaneSet) (deleteDead : Bool), Indexed.InSync ⟨s.func, index⟩ →
      ∃ changed, (s.applyLive index live deleteDead).changed = .ok changed ∧
        (s.applyLive index live deleteDead).subject.InSync ∧
        ({ s with func := (s.applyLive index live deleteDead).subject.func } : Scope).check = .ok ()) ∧
    ∀ config, ∃ changed, (s.clean config).changed = .ok changed ∧
      ({ s with func := (s.clean config).subject } : Scope).check = .ok () := by
  have well := check_ok.mp accepted
  constructor
  · intro index live deleteDead sync
    obtain ⟨changed, answer, synced, left⟩ := well.applyLive_ok typed sync live deleteDead
    exact ⟨changed, answer, synced, check_ok.mpr left⟩
  · intro config
    obtain ⟨changed, last, cleaned, runs⟩ := clean_ok well typed config
    rw [cleaned]
    exact ⟨changed, rfl, check_ok.mpr (runs.tidied.upkeep well typed).1⟩

theorem applyLive_accepted_looped :
    let index : UseIndex := { UseIndex.build looped.func with uses := (UseIndex.build looped.func).uses.reverse }
    Indexed.InSync ⟨looped.func, index⟩ ∧
    (∃ changed, (looped.applyLive index (fun _ => .empty) true).changed = .ok changed ∧
      (looped.applyLive index (fun _ => .empty) true).subject.InSync ∧
      ({ looped with func := (looped.applyLive index (fun _ => .empty) true).subject.func } : Scope).check = .ok ()) ∧
    ∀ config, ∃ changed, (looped.clean config).changed = .ok changed ∧
      ({ looped with func := (looped.clean config).subject } : Scope).check = .ok () := by
  intro index
  have sync : Indexed.InSync ⟨looped.func, index⟩ := ⟨fun _ => rfl, List.reverse_perm _⟩
  obtain ⟨any, runs⟩ := applyLive_accepted (s := looped) (by decide +kernel) (by decide +kernel)
  exact ⟨sync, any index (fun _ => .empty) true sync, runs⟩

theorem WellFormed.unanswerable (well : s.WellFormed) (unknown : ¬ s.ResultsKnown) :
    s.liveness = .error .unknownIndex := by
  refine if_neg fun answers => unknown fun i member t typed => ?_
  obtain ⟨⟨v, _⟩, defined, rfl⟩ := Option.map_eq_some_iff.mp typed
  have asked : v ∈ LaneRule.asked s.view i :=
    List.mem_append_left _ (Option.mem_toList.mpr (Inst.result?_eq_some.mpr ⟨_, defined⟩))
  have known : s.known v = true := List.all_eq_true.mp (List.all_eq_true.mp answers i member) v asked
  rwa [Scope.known, well.ty?_result member defined] at known

theorem clean_fault {fault : Fault} (ran : s.liveness = .error fault) {config : Config} (allowed : 0 < config.maxRounds) :
    (s.clean config).changed = .error fault := by
  obtain ⟨left, count⟩ := Nat.exists_eq_succ_of_ne_zero (Nat.ne_zero_of_lt allowed)
  have round : Pass.round s.types s.globals config.deleteDead s.opening = (.error fault, s.opening) := by
    rw [Pass.round, Attempt.modify_bind, Attempt.state_bind]
    dsimp only
    rw [show (⟨s.types, s.globals, (Indexed.ofFunc s.opening.body.func).func⟩ : Scope).liveness = _ from ran]
    rfl
  have run : Pass.run s.types s.globals config ⟨.ofFunc s.func, []⟩ = (.error fault, s.opening) := by
    rw [Pass.run, Attempt.modify_bind, count]
    exact Attempt.bind_error round
  rw [clean, Outcome.ofWork, run]

-- Where the types of all globals are in the table, the analysis and the runs
-- of an accepted function fault exactly if the type of some result is not.
theorem clean_total (accepted : s.check = .ok ()) (globals : s.GlobalsKnown) :
    (s.ResultsKnown → (∃ found, s.liveness = .ok found) ∧ ∀ config, ∃ changed, (s.clean config).changed = .ok changed) ∧
    (¬ s.ResultsKnown → s.liveness = .error .unknownIndex ∧
      ∀ config : Config, 0 < config.maxRounds → (s.clean config).changed = .error .unknownIndex) := by
  have well := check_ok.mp accepted
  constructor
  · intro results
    have typed := results.typed globals
    obtain ⟨found, events, ran, -⟩ := well.liveness_ok typed
    refine ⟨⟨_, ran⟩, fun config => ?_⟩
    obtain ⟨changed, last, cleaned, -⟩ := clean_ok well typed config
    exact ⟨changed, by rw [cleaned]⟩
  · intro unknown
    have fault := well.unanswerable unknown
    exact ⟨fault, fun config allowed => clean_fault fault allowed⟩

theorem clean_total_looped :
    looped.ResultsKnown ∧ (∃ found, looped.liveness = .ok found) ∧
      ∀ config, ∃ changed, (looped.clean config).changed = .ok changed := by
  have results : looped.ResultsKnown := by decide +kernel
  exact ⟨results, (clean_total (by decide +kernel) (by decide +kernel)).1 results⟩

-- A load whose type is not in the table. Nothing is wrong with it as far as the
-- checker looks.
def foreign : Scope :=
  { types := ⟨[.float 32, .pointer ⟨0⟩ .output], by decide⟩
    globals := ⟨[(⟨1⟩, ⟨⟨1⟩, .variable .output⟩)]⟩
    func := .ofBlocks "foreign" [[⟨.load, some (⟨10⟩, ⟨99⟩), [.value ⟨1⟩]⟩, ⟨.ret, none, []⟩]] }

theorem foreign_accepted_faults : foreign.check = .ok () ∧ foreign.liveness = .error .unknownIndex ∧
    (foreign.clean {}).changed = .error .unknownIndex := by
  refine ⟨by decide +kernel, ?_, by decide +kernel⟩
  rw [liveness, Analysis.run, Analysis.runFrom, if_neg (by decide +kernel)]

end Scope

end DeadLanes
