import DeadLanes.Proofs.Convergence
import DeadLanes.Proofs.Shrinking

namespace DeadLanes

-- What a run says of itself. A value that gave way has lost its uses for good,
-- and an instruction that went does not come back, so whatever was altered once
-- can be seen in the end.

namespace Func

def listing (f : Func) : List (List Inst) := f.blocks.map (·.map (·.inst))

inductive Edit (f : Func) : Func → Prop where
  | bypass : Bypass view live f g → Edit f g
  | discard : Discard f g → Edit f g

abbrev Edits := Relation.ReflTransGen Edit

-- No value comes into use, and there are no more instructions than before.
structure Trims (f g : Func) : Prop where
  unused : ∀ v, f.Unused v → g.Unused v
  length : g.placed.length ≤ f.placed.length

variable {view : LaneView} {live : Value → LaneSet} {f g h : Func}

theorem Trims.refl (f : Func) : f.Trims f := ⟨fun _ => id, Nat.le_refl _⟩

theorem Trims.trans (first : f.Trims g) (second : g.Trims h) : f.Trims h :=
  ⟨fun v unused => second.unused v (first.unused v unused), Nat.le_trans second.length first.length⟩

theorem Trims.of_listing (same : g.listing = f.listing) : f.Trims g := by
  have insts : g.insts = f.insts := by
    have flat := congrArg List.flatten same
    rwa [listing, listing, ← List.map_flatten, ← List.map_flatten] at flat
  refine ⟨fun v unused => ?_, ?_⟩
  · rw [Unused, insts]
    exact unused
  · have length := congrArg List.length insts
    rw [Func.insts, Func.insts, List.length_map, List.length_map] at length
    exact Nat.le_of_eq length

theorem Edit.trims (edit : Edit f g) : f.Trims g := by
  cases edit with
  | bypass step =>
    refine ⟨fun v => step.unused, ?_⟩
    cases step with
    | insert dead differs => rw [placed_mapValues, List.length_map]
  | discard step =>
    cases step with
    | group idle =>
      refine ⟨fun v unused i member => unused i (insts_discard_subset f _ member), ?_⟩
      rw [placed_discard]
      exact List.length_filter_le _ _

theorem Edit.same_or_less (edit : Edit f g) : g = f ∨ ¬ g.Trims f := by
  cases edit with
  | bypass step =>
    cases step with
    | @insert r v base dead differs =>
      by_cases unused : f.Unused v
      · exact .inl (mapValues_of_unused unused base)
      · exact .inr fun back => unused (back.unused v (unused_mapValues differs))
  | discard step =>
    cases step with
    | @group gone idle =>
      by_cases absent : ∀ r ∈ gone, r ∉ f.refs
      · exact .inl (discard_of_absent absent)
      · simp only [not_forall, Classical.not_not] at absent
        obtain ⟨r, listed, present⟩ := absent
        exact .inr fun back => Nat.not_lt.mpr back.length (length_discard_lt listed present)

theorem Edits.trims (steps : Edits f g) : f.Trims g := by
  induction steps with
  | refl => exact .refl f
  | tail _ edit ih => exact ih.trans edit.trims

theorem Edits.same_or_less (steps : Edits f g) : g = f ∨ ¬ g.Trims f := by
  induction steps with
  | refl => exact .inl rfl
  | tail earlier edit ih =>
    rcases edit.same_or_less with same | less
    · exact same ▸ ih
    · exact .inr fun back => less (back.trans (Edits.trims earlier))

theorem Edits.lasting (first : Edits f g) (second : Edits g h) (altered : g ≠ f) : h.listing ≠ f.listing := by
  intro same
  have back : g.Trims f := second.trims.trans (.of_listing same.symm)
  exact (first.same_or_less.resolve_left altered) back

theorem Edits.listing_ne (steps : Edits f g) (altered : g ≠ f) : g.listing ≠ f.listing := steps.lasting .refl altered

theorem Bypasses.edits (steps : Bypasses view live f g) : Edits f g := Relation.ReflTransGen.mono (fun _ _ => .bypass) _ _ steps

theorem Discards.edits (steps : Discards f g) : Edits f g := Relation.ReflTransGen.mono (fun _ _ => .discard) _ _ steps

end Func

theorem Scope.Tidies.edits {s : Scope} {g : Func} (tidies : s.Tidies g) : Func.Edits s.func g := by
  obtain ⟨live, between, -, -, bypasses, discards⟩ := tidies
  exact bypasses.edits.trans discards.edits

theorem Scope.Tidied.edits {s : Scope} {g : Func} (tidied : s.Tidied g) : Func.Edits s.func g := by
  induction tidied with
  | refl => exact .refl
  | tail _ tidies ih => exact ih.trans tidies.edits

theorem Pass.Runs.altered {s : Scope} {config : Config} {changed answer : Bool} {left : Nat} {w last : Work}
    (runs : Pass.Runs s config changed left w answer last) (well : ({ s with func := w.body.func } : Scope).WellFormed)
    (typed : ({ s with func := w.body.func } : Scope).Typed) :
    answer = true ↔ changed = true ∨ last.body.func ≠ w.body.func := by
  cases runs with
  | spent => simp
  | settled _ same _ => simp [same]
  | @again _ next _ _ _ _ ran tidies _ later =>
    have eased := Pass.round_eases (s := { s with func := w.body.func }) well typed rfl ran
    have moved : next.body.func ≠ w.body.func := fun same => Nat.lt_irrefl _ (same ▸ eased)
    have ends : last.body.func ≠ w.body.func :=
      fun same => tidies.edits.lasting later.tidied.edits moved (congrArg Func.listing same)
    exact iff_of_true (later.answered rfl) (.inr ends)

namespace Work

variable {view : LaneView} {live : Value → LaneSet} {w middle next : Work}

theorem bypassAll_append {earlier later : List (InstRef × Value)} {first second : Bool}
    (ran : bypassAll earlier w = (.ok first, middle)) (finished : bypassAll later middle = (.ok second, next)) :
    bypassAll (earlier ++ later) w = (.ok (first || second), next) := by
  induction earlier generalizing w first with
  | nil =>
    cases ran
    exact finished
  | cons d rest ih =>
    rcases step : bypass d.1 d.2 w with ⟨fault | moved, after⟩
    · rw [bypassAll, Attempt.bind_error step] at ran
      cases ran
    · rw [bypassAll, Attempt.bind_ok step] at ran
      rcases others : bypassAll rest after with ⟨fault | more, end'⟩
      · rw [Attempt.bind_error others] at ran
        cases ran
      · rw [Attempt.bind_ok others] at ran
        cases ran
        rw [List.cons_append, bypassAll, Attempt.bind_ok step, Attempt.bind_ok (ih others), Bool.or_assoc]
        rfl

theorem bypassAll_parts {earlier later : List (InstRef × Value)} (sync : w.body.InSync)
    (each : ∀ d ∈ earlier ++ later, ∃ base, w.body.func.DeadInsert view live d.1 d.2 base) :
    Func.Bypasses view live w.body.func (bypassAll earlier w).2.body.func ∧
      Func.Bypasses view live (bypassAll earlier w).2.body.func (bypassAll (earlier ++ later) w).2.body.func := by
  obtain ⟨first, middle, ran, synced, steps, -⟩ :=
    bypassAll_ok sync fun d member => each d (List.mem_append_left later member)
  obtain ⟨second, last, finished, -, more, -⟩ :=
    bypassAll_ok synced fun d member => steps.deadInsert (each d (List.mem_append_right earlier member))
  rw [bypassAll_append ran finished, ran]
  exact ⟨steps, more⟩

end Work

namespace Scope

variable {s : Scope}

def partWay (s : Scope) (dead : List (InstRef × Value)) : Func := (Work.bypassAll dead ⟨.ofFunc s.func, []⟩).2.body.func

theorem WellFormed.round_edits (well : s.WellFormed) (typed : s.Typed) (deleteDead : Bool) :
    ∃ found events, s.liveness = .ok (found, events) ∧
      ∀ earlier, earlier <+: Work.deadInserts s.view found.live s.func →
        Func.Edits s.func (s.partWay earlier) ∧ Func.Edits (s.partWay earlier) (s.next deleteDead).func := by
  obtain ⟨found, events, live, -⟩ := well.liveness_ok typed
  obtain ⟨inserts, results⟩ := typed.looked_up
  refine ⟨found, events, live, fun earlier part => ?_⟩
  obtain ⟨later, dead⟩ := part
  have sync := Indexed.inSync_ofFunc s.func
  obtain ⟨moved, middle, changed, last, bypassed, applied, -, -, discards, -⟩ :=
    Work.apply_ok (w := ⟨.ofFunc s.func, [] ++ events⟩) sync well.distinct inserts results deleteDead
  have each : ∀ d ∈ earlier ++ later, ∃ base, s.func.DeadInsert s.view found.live d.1 d.2 base :=
    fun d member => Work.mem_deadInserts (dead ▸ member)
  have parts := Work.bypassAll_parts (w := ⟨.ofFunc s.func, []⟩) sync each
  have body := (Work.bypassAll_blind (earlier ++ later) ⟨.ofFunc s.func, []⟩ ⟨.ofFunc s.func, [] ++ events⟩ rfl).2
  have all : (Work.bypassAll (earlier ++ later) ⟨.ofFunc s.func, [] ++ events⟩).2 = middle := by
    rw [dead]
    exact congrArg Prod.snd bypassed
  rw [all] at body
  rw [next, round_of_ran ((Pass.round_eq rfl live deleteDead).trans applied)]
  exact ⟨parts.1.edits, (body ▸ parts.2).edits.trans discards.edits⟩

theorem WellFormed.next_edits (well : s.WellFormed) (typed : s.Typed) (deleteDead : Bool) :
    Func.Edits s.func (s.next deleteDead).func := by
  obtain ⟨_, _, -, steps⟩ := well.round_edits typed deleteDead
  obtain ⟨first, second⟩ := steps [] List.nil_prefix
  exact first.trans second

theorem WellFormed.rounds_edits (well : s.WellFormed) (typed : s.Typed) (deleteDead : Bool) {j k : Nat} (le : j ≤ k) :
    Func.Edits (s.afterRounds deleteDead j).func (s.afterRounds deleteDead k).func := by
  induction k, le using Nat.le_induction with
  | base => exact .refl
  | succ k _ ih =>
    obtain ⟨well, typed⟩ := well.after_rounds typed deleteDead k
    exact ih.trans (well.next_edits typed deleteDead)

-- A run reports a change exactly if some block lists other instructions after
-- it than before. Nothing that a round did, or a part of it, is undone by the
-- rest of the round or by later ones.
theorem clean_changed_iff (accepted : s.check = .ok ()) (typed : s.Typed) (config : Config) :
    (∃ changed, (s.clean config).changed = .ok changed ∧
      (changed = true ↔ (s.clean config).subject.listing ≠ s.func.listing)) ∧
    ∀ j, ∃ found events, (s.afterRounds config.deleteDead j).liveness = .ok (found, events) ∧
      ∀ earlier, earlier <+: Work.deadInserts (s.afterRounds config.deleteDead j).view found.live
          (s.afterRounds config.deleteDead j).func →
        ((s.afterRounds config.deleteDead j).partWay earlier).listing ≠ s.func.listing →
        ∀ k, j < k → (s.afterRounds config.deleteDead k).func.listing ≠ s.func.listing := by
  have well := check_ok.mp accepted
  constructor
  · obtain ⟨changed, last, cleaned, runs⟩ := clean_ok well typed config
    have flag := runs.altered well typed
    rw [cleaned]
    refine ⟨changed, rfl, flag.trans ?_⟩
    rw [or_iff_right Bool.false_ne_true]
    exact ⟨runs.tidied.edits.listing_ne, fun differs same => differs (congrArg Func.listing same)⟩
  · intro j
    obtain ⟨well', typed'⟩ := well.after_rounds typed config.deleteDead j
    obtain ⟨found, events, ran, steps⟩ := well'.round_edits typed' config.deleteDead
    refine ⟨found, events, ran, fun earlier part altered k later => ?_⟩
    obtain ⟨before, after⟩ := steps earlier part
    have start := well.rounds_edits typed config.deleteDead (Nat.zero_le j)
    have rest := well.rounds_edits typed config.deleteDead later
    exact Func.Edits.lasting (start.trans before) (after.trans rest) fun same => altered (congrArg Func.listing same)

-- Three dead inserts in a circle. What reads the first is led on to the last,
-- which by then is its own base, and no further.
def braided : Scope :=
  { types := linked.types
    globals := ⟨[(⟨1⟩, ⟨⟨2⟩, .variable .output⟩), (⟨2⟩, ⟨⟨0⟩, .constant 0⟩)]⟩
    func := .ofBlocks "braided" [
      [⟨.insert, some (⟨10⟩, ⟨1⟩), [.value ⟨2⟩, .value ⟨11⟩, .literal 1]⟩,
        ⟨.insert, some (⟨11⟩, ⟨1⟩), [.value ⟨2⟩, .value ⟨12⟩, .literal 1]⟩,
        ⟨.insert, some (⟨12⟩, ⟨1⟩), [.value ⟨2⟩, .value ⟨10⟩, .literal 1]⟩,
        ⟨.extract, some (⟨13⟩, ⟨0⟩), [.value ⟨10⟩, .literal 0]⟩,
        ⟨.store, none, [.value ⟨1⟩, .value ⟨13⟩]⟩,
        ⟨.ret, none, []⟩]] }

theorem clean_changed_iff_braided :
    (braided.clean { deleteDead := false }).subject.insts.map (·.values) =
      [[⟨2⟩, ⟨12⟩], [⟨2⟩, ⟨12⟩], [⟨2⟩, ⟨12⟩], [⟨12⟩], [⟨1⟩, ⟨13⟩], []] ∧
    (∃ changed, (braided.clean { deleteDead := false }).changed = .ok changed ∧
      (changed = true ↔ (braided.clean { deleteDead := false }).subject.listing ≠ braided.func.listing)) ∧
    ∀ j, ∃ found events, (braided.afterRounds false j).liveness = .ok (found, events) ∧
      ∀ earlier, earlier <+: Work.deadInserts (braided.afterRounds false j).view found.live (braided.afterRounds false j).func →
        ((braided.afterRounds false j).partWay earlier).listing ≠ braided.func.listing →
        ∀ k, j < k → (braided.afterRounds false k).func.listing ≠ braided.func.listing :=
  ⟨by decide +kernel, clean_changed_iff (by decide +kernel) (by decide +kernel) { deleteDead := false }⟩

end Scope

end DeadLanes
