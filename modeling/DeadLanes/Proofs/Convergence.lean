import DeadLanes.Proofs.Rounds

namespace DeadLanes

-- A run with more rounds than the function has instructions ends of its own
-- accord. What it leaves is as clean as the rules of the clean-up can make it.

namespace Func

instance (f : Func) (v : Value) : Decidable (f.Unused v) := inferInstanceAs (Decidable (∀ i ∈ f.insts, v ∉ i.values))

def usedResults (f : Func) : List Value := f.results.filter fun v => ¬ f.Unused v

-- What every round that changes something has less of afterwards. A round that
-- may not erase leaves all instructions, but it takes the uses of one away.
def load (f : Func) (deleteDead : Bool) : Nat := if deleteDead then f.placed.length else f.usedResults.length

theorem load_le_size (f : Func) (deleteDead : Bool) : f.load deleteDead ≤ f.size := by
  have placed : f.placed.length ≤ f.size := Nat.le_add_right _ _
  cases deleteDead with
  | true => exact placed
  | false =>
    have results : f.results.length ≤ f.placed.length := by
      rw [results_eq_placed]
      exact List.length_filterMap_le _ _
    exact (List.length_filter_le _ _).trans (results.trans placed)

theorem Bypasses.usedResults_lt {view : LaneView} {live : Value → LaneSet} {f g : Func} (steps : Bypasses view live f g)
    {v : Value} (result : v ∈ f.results) (used : ¬ f.Unused v) (unused : g.Unused v) :
    g.usedResults.length < f.usedResults.length := by
  have kept : g.usedResults = f.usedResults.filter fun u => ¬ g.Unused u := by
    rw [usedResults, usedResults, steps.results, List.filter_filter]
    refine List.filter_congr fun u _ => ?_
    have still : ¬ g.Unused u → ¬ f.Unused u := mt steps.unused
    simpa using still
  rw [kept]
  refine List.length_filter_lt_length_iff_exists.mpr ⟨v, ?_, by simpa using unused⟩
  exact List.mem_filter.mpr ⟨result, by simpa using used⟩

def Feeds (f : Func) (p q : Placed) : Prop := q ∈ f.placed ∧ ∃ v, p.inst.result? = some v ∧ v ∈ q.inst.values

end Func

def Hollow (view : LaneView) (live : Value → LaneSet) (i : Inst) : Prop :=
  i.opcode.isPure = true ∧ ∃ v, i.result? = some v ∧ (view.tracked v).isSome = true ∧ live v = .empty

def Wasted (view : LaneView) (live : Value → LaneSet) (i : Inst) : Prop :=
  ∃ v obj base lane, i.result? = some v ∧ (view.tracked v).isSome = true ∧ i.asInsert? = some (obj, base, lane) ∧
    (live v).contains lane = false

-- What the analysis finds where a clean-up has nothing left to do. An insert
-- stays without a reader only if it is its own base. A vector without a live
-- lane stays for a user, or a user of its users, that has to stay.
structure Scope.Spent (s : Scope) (live : Value → LaneSet) : Prop where
  inserts : ∀ i ∈ s.func.insts, i.opcode = .insert → ∃ v obj base lane, i.result? = some v ∧
    i.asInsert? = some (obj, base, lane) ∧ ((s.view.tracked v).isSome = true → (live v).contains lane = true ∨ base = v)
  vectors : ∀ p ∈ s.func.placed, Hollow s.view live p.inst → ∃ q ∈ s.func.placed,
    Relation.TransGen s.func.Feeds p q ∧ ¬ Hollow s.view live q.inst ∧ ¬ Wasted s.view live q.inst

namespace Work

variable {view : LaneView} {live : Value → LaneSet} {w : Work}

theorem mem_deadInserts_iff {f : Func} {r : InstRef} {i : Inst} (placed : ⟨r, i⟩ ∈ f.placed) :
    r ∈ (deadInserts view live f).map (·.1) ↔ Wasted view live i := by
  constructor
  · intro listed
    obtain ⟨d, member, rfl⟩ := List.mem_map.mp listed
    obtain ⟨base, dead⟩ := mem_deadInserts member
    obtain ⟨j, obj, lane, there, result, parsed, unread⟩ := dead.placed
    cases Func.placed_unique there placed rfl
    exact ⟨d.2, obj, base, lane, result, dead.tracked, parsed, unread⟩
  · intro wasted
    obtain ⟨v, obj, base, lane, result, tracked, parsed, unread⟩ := wasted
    exact List.mem_map_of_mem (f := (·.1)) (deadInsert_listed ⟨⟨i, obj, lane, placed, result, parsed, unread⟩, tracked⟩)

theorem mem_emptyVectors_iff {f : Func} {r : InstRef} {i : Inst} (placed : ⟨r, i⟩ ∈ f.placed) :
    r ∈ emptyVectors view live f ↔ Hollow view live i := by
  have chosen : (i.opcode.isPure && i.result?.any fun v => (view.tracked v).isSome && (live v).isEmpty) = true ↔
      Hollow view live i := by
    simp [Hollow, LaneSet.isEmpty, Option.any_eq_true]
  rw [← chosen]
  constructor
  · intro listed
    obtain ⟨q, member, same⟩ := List.mem_map.mp listed
    obtain ⟨there, good⟩ := List.mem_filter.mp member
    cases Func.placed_unique there placed same
    exact good
  · exact fun good => List.mem_map.mpr ⟨_, List.mem_filter.mpr ⟨placed, good⟩, rfl⟩

theorem mem_emptyVectors {f : Func} {r : InstRef} :
    r ∈ emptyVectors view live f ↔ ∃ i, ⟨r, i⟩ ∈ f.placed ∧ Hollow view live i := by
  constructor
  · intro listed
    obtain ⟨p, member, rfl⟩ := List.mem_map.mp listed
    have placed := (List.mem_filter.mp member).1
    exact ⟨p.inst, placed, (mem_emptyVectors_iff placed).mp listed⟩
  · intro found
    obtain ⟨i, placed, hollow⟩ := found
    exact (mem_emptyVectors_iff placed).mpr hollow

def candidates (view : LaneView) (live : Value → LaneSet) (f : Func) : List InstRef :=
  ((deadInserts view live f).map (·.1) ++ emptyVectors view live f).eraseDups

theorem mem_candidates_iff {f : Func} {p : Placed} (placed : p ∈ f.placed) :
    p.ref ∈ candidates view live f ↔ Wasted view live p.inst ∨ Hollow view live p.inst := by
  rw [candidates, List.mem_eraseDups, List.mem_append, mem_deadInserts_iff placed, mem_emptyVectors_iff placed]

theorem closed_escapes {x : Indexed} (sync : x.InSync) {group : List InstRef} (none : closed x group = [])
    (defines : ∀ p ∈ x.func.placed, p.ref ∈ group → ∃ v, p.inst.result? = some v) {p : Placed} (placed : p ∈ x.func.placed)
    (listed : p.ref ∈ group) : ∃ q ∈ x.func.placed, Relation.TransGen x.func.Feeds p q ∧ q.ref ∉ group := by
  classical
  apply Classical.byContradiction
  intro trapped
  have reached : ∀ q ∈ x.func.placed, Relation.ReflTransGen x.func.Feeds p q → q.ref ∈ group := by
    intro q there path
    rcases Relation.reflTransGen_iff_eq_or_transGen.mp path with rfl | steps
    · exact listed
    · exact Classical.byContradiction fun outside => trapped ⟨q, there, steps, outside⟩
  -- All that is reached is a group of its own, and so part of the greatest one.
  let part := (x.func.placed.filter fun q => Relation.ReflTransGen x.func.Feeds p q).map (·.ref)
  have member : ∀ q ∈ x.func.placed, Relation.ReflTransGen x.func.Feeds p q → q.ref ∈ part := fun q there path =>
    List.mem_map_of_mem (List.mem_filter.mpr ⟨there, decide_eq_true path⟩)
  have found : ∀ r ∈ part, ∃ q ∈ x.func.placed, Relation.ReflTransGen x.func.Feeds p q ∧ q.ref = r := by
    intro r here
    obtain ⟨q, chosen, same⟩ := List.mem_map.mp here
    obtain ⟨there, path⟩ := List.mem_filter.mp chosen
    exact ⟨q, there, of_decide_eq_true path, same⟩
  have sub : part ⊆ closed x group := by
    refine subset_closed (fun r here => ?_) fun r here => ?_
    · obtain ⟨q, there, path, rfl⟩ := found r here
      exact reached q there path
    · obtain ⟨q, there, path, rfl⟩ := found r here
      obtain ⟨v, result⟩ := defines q there (reached q there path)
      refine (inward_ok sync).mpr ⟨q.inst, v, there, result, fun u user named => ?_⟩
      exact member u user (path.tail ⟨user, v, result, named⟩)
  have inside := sub (member p placed .refl)
  rw [none] at inside
  cases inside

theorem apply_eases {next : Work} (sync : w.body.InSync) (ran : apply view live false w = (.ok true, next)) :
    next.body.func.usedResults.length < w.body.func.usedResults.length := by
  obtain ⟨moved, middle, bypassed, -, steps, -, unused⟩ := bypassAll_dead sync
  have known : insertsKnown view w.body.func = true := by
    apply Classical.byContradiction
    intro unknown
    rw [apply, Attempt.state_bind, Attempt.demand, if_neg unknown] at ran
    cases ran
  rw [apply_keeping known bypassed] at ran
  cases ran
  obtain ⟨d, member, used, none⟩ := unused rfl
  obtain ⟨base, dead⟩ := mem_deadInserts member
  obtain ⟨i, obj, lane, placed, result, -⟩ := dead.placed
  exact steps.usedResults_lt (Func.mem_results.mpr ⟨_, placed, result⟩) used none

theorem apply_idle (sync : w.body.InSync) (inserts : insertsKnown view w.body.func = true)
    (results : resultsKnown view w.body.func = true) (ran : (apply view live true w).1 = .ok false) :
    (∀ d ∈ deadInserts view live w.body.func, ∃ base, w.body.func.DeadInsert view live d.1 d.2 base ∧
      (d.2 = base ∨ w.body.func.Unused d.2)) ∧
    ∃ index, Indexed.InSync ⟨w.body.func, index⟩ ∧ closed ⟨w.body.func, index⟩ (candidates view live w.body.func) = [] := by
  obtain ⟨moved, ⟨⟨f, index⟩, log⟩, bypassed, synced, steps, same, -⟩ := bypassAll_dead sync
  rw [apply_erasing inserts bypassed (resultsKnown_bypasses steps results) rfl] at ran
  obtain ⟨noMove, noErase⟩ := Bool.or_eq_false_iff.mp (Except.ok.inj ran)
  obtain ⟨kept, idle⟩ := same noMove
  dsimp only at kept
  subst kept
  rw [eraseUnused_answer, Bool.not_eq_false', decide_eq_true_eq] at noErase
  exact ⟨idle, index, synced, noErase⟩

end Work

namespace Scope

variable {s : Scope} {live : Value → LaneSet}

theorem WellFormed.insert_parsed (well : s.WellFormed) {i : Inst} (member : i ∈ s.func.insts) (op : i.opcode = .insert) :
    ∃ v obj base lane, i.result? = some v ∧ i.asInsert? = some (obj, base, lane) := by
  have composed := well.composed i member
  simp only [Composed, op] at composed
  obtain ⟨obj, base, lane, _, _, parsed, -⟩ := composed
  have defines : i.defines.isSome = true := by simpa [op, Opcode.resultless, Opcode.terminator] using well.paired i member
  obtain ⟨⟨v, ty⟩, defined⟩ := Option.isSome_iff_exists.mp defines
  exact ⟨v, obj, base, lane, Inst.result?_eq_some.mpr ⟨ty, defined⟩, parsed⟩

theorem candidates_escape {index : UseIndex} (sync : Indexed.InSync ⟨s.func, index⟩)
    (none : Work.closed ⟨s.func, index⟩ (Work.candidates s.view live s.func) = []) {p : Placed} (placed : p ∈ s.func.placed)
    (chosen : Wasted s.view live p.inst ∨ Hollow s.view live p.inst) : ∃ q ∈ s.func.placed,
      Relation.TransGen s.func.Feeds p q ∧ ¬ Hollow s.view live q.inst ∧ ¬ Wasted s.view live q.inst := by
  have defines : ∀ q ∈ s.func.placed, q.ref ∈ Work.candidates s.view live s.func → ∃ v, q.inst.result? = some v := by
    intro q there listed
    rcases (Work.mem_candidates_iff there).mp listed with ⟨v, _, _, _, result, -⟩ | ⟨-, v, result, -⟩
    · exact ⟨v, result⟩
    · exact ⟨v, result⟩
  obtain ⟨q, there, steps, outside⟩ :=
    Work.closed_escapes sync none defines placed ((Work.mem_candidates_iff placed).mpr chosen)
  rw [Work.mem_candidates_iff there, not_or] at outside
  exact ⟨q, there, steps, outside.2, outside.1⟩

theorem WellFormed.spent (well : s.WellFormed) (typed : s.Typed) {log : List Event}
    (ran : (Work.apply s.view live true ⟨.ofFunc s.func, log⟩).1 = .ok false) : s.Spent live := by
  obtain ⟨inserts, results⟩ := typed.looked_up
  obtain ⟨idle, index, sync, none⟩ := Work.apply_idle (w := ⟨.ofFunc s.func, log⟩) (Indexed.inSync_ofFunc s.func) inserts results ran
  refine ⟨fun i member op => ?_, fun p placed hollow => candidates_escape sync none placed (.inr hollow)⟩
  obtain ⟨v, obj, base, lane, result, parsed⟩ := well.insert_parsed member op
  refine ⟨v, obj, base, lane, result, parsed, fun tracked => ?_⟩
  cases read : (live v).contains lane with
  | true => exact .inl rfl
  | false =>
    obtain ⟨r, placed⟩ := Func.mem_insts_iff_placed.mp member
    have wasted : Wasted s.view live i := ⟨v, obj, base, lane, result, tracked, parsed, read⟩
    obtain ⟨d, listed, rfl⟩ := List.mem_map.mp ((Work.mem_deadInserts_iff placed).mpr wasted)
    obtain ⟨other, dead, stuck⟩ := idle d listed
    obtain ⟨j, _, _, there, again, twice, -⟩ := dead.placed
    cases Func.placed_unique there placed rfl
    cases again.symm.trans result
    cases twice.symm.trans parsed
    rcases stuck with self | unused
    · exact .inr self.symm
    · -- A dead insert without a use would have been a group of its own.
      obtain ⟨q, -, steps, -⟩ := candidates_escape sync none placed (.inl wasted)
      obtain ⟨user, ⟨there, u, again, named⟩, -⟩ := Relation.TransGen.head'_iff.mp steps
      cases again.symm.trans result
      exact absurd named (unused user.inst (Func.mem_insts_iff_placed.mpr ⟨user.ref, there⟩))

end Scope

namespace Pass

variable {s : Scope} {config : Config} {changed answer : Bool} {left : Nat} {w next last : Work}

theorem quiet_spent (well : s.WellFormed) (typed : s.Typed) (quiet : Quiet s true) :
    ∃ found events, s.liveness = .ok (found, events) ∧ s.Spent found.live := by
  obtain ⟨found, events, ran, -⟩ := well.liveness_ok typed
  rw [Quiet, round_eq rfl ran] at quiet
  exact ⟨found, events, ran, well.spent typed quiet⟩

theorem round_eases (well : s.WellFormed) (typed : s.Typed) (func : w.body.func = s.func) {deleteDead : Bool}
    (ran : round s.types s.globals deleteDead w = (.ok true, next)) :
    next.body.func.load deleteDead < s.func.load deleteDead := by
  cases deleteDead with
  | true =>
    obtain ⟨again, after, same, -, -, fewer⟩ := round_ok well typed func true
    cases same.symm.trans ran
    exact fewer rfl rfl
  | false =>
    obtain ⟨found, events, live, -⟩ := well.liveness_ok typed
    rw [round_eq func live] at ran
    exact Work.apply_eases (Indexed.inSync_ofFunc s.func) ran

end Pass

def CameToRest (log : List Event) (rounds : Nat) (changed : Bool) : Prop :=
  ∃ func, log.getLast? = some (.settled func rounds changed)

namespace Pass

variable {s : Scope} {config : Config} {changed answer : Bool} {left : Nat} {w last : Work}

theorem Runs.settles (runs : Runs s config changed left w answer last)
    (well : ({ s with func := w.body.func } : Scope).WellFormed) (typed : ({ s with func := w.body.func } : Scope).Typed)
    (allowed : left ≤ config.maxRounds) (enough : w.body.func.load config.deleteDead < left) :
    Quiet { s with func := last.body.func } config.deleteDead ∧ ∃ rounds, CameToRest last.log rounds answer ∧
      rounds + left ≤ config.maxRounds + w.body.func.load config.deleteDead + 1 := by
  induction runs with
  | spent => exact absurd enough (Nat.not_lt_zero _)
  | @settled w next changed left ran same quiet =>
    refine ⟨same ▸ quiet, config.maxRounds - left, ⟨next.name, by simp [Work.tell]⟩, ?_⟩
    omega
  | @again w next left answer last changed ran tidies fewer later ih =>
    have eased : next.body.func.load config.deleteDead < w.body.func.load config.deleteDead :=
      round_eases (s := { s with func := w.body.func }) well typed rfl ran
    obtain ⟨well, typed⟩ := tidies.upkeep well typed
    obtain ⟨quiet, rounds, rest, bound⟩ := ih well typed (by omega) (by omega)
    exact ⟨quiet, rounds, rest, by omega⟩

end Pass

namespace Scope

variable {s : Scope}

def cleaned (s : Scope) (config : Config) : Scope := { s with func := (s.clean config).subject }

-- With more rounds than instructions a run ends in a round that changes
-- nothing, and a second run changes nothing either. What a run that erases
-- leaves has no insert without a reader but those that are their own base, and
-- no vector without a live lane but for the sake of users that stay.
theorem clean_converges (accepted : s.check = .ok ()) (typed : s.Typed) {config : Config}
    (enough : s.func.size < config.maxRounds) :
    (∃ changed rounds, (s.clean config).changed = .ok changed ∧ CameToRest (s.clean config).log rounds changed ∧
      rounds ≤ s.func.size + 1) ∧
    ((s.cleaned config).clean config).changed = .ok false ∧
    ((s.cleaned config).clean config).subject = (s.cleaned config).func ∧
    (config.deleteDead = true → ∃ found events, (s.cleaned config).liveness = .ok (found, events) ∧
      (s.cleaned config).Spent found.live) := by
  have well := check_ok.mp accepted
  have light := s.func.load_le_size config.deleteDead
  obtain ⟨changed, last, cleaned, runs⟩ := clean_ok well typed config
  have after : s.cleaned config = { s with func := last.body.func } := by rw [Scope.cleaned, cleaned]
  obtain ⟨quiet, rounds, rest, bound⟩ := runs.settles well typed (le_refl _) (Nat.lt_of_le_of_lt light enough)
  obtain ⟨well', typed'⟩ := runs.tidied.upkeep well typed
  obtain ⟨again, final, repeated, others⟩ := clean_ok (s := { s with func := last.body.func }) well' typed' config
  obtain ⟨more, same⟩ : _ ∧ _ := by
    obtain ⟨left, count⟩ := Nat.exists_eq_succ_of_ne_zero (Nat.ne_zero_of_lt enough)
    rw [count] at others
    exact others.first well' typed'
  have idle : again = false := Bool.eq_false_iff.mpr fun changes => more.mp changes quiet
  rw [after, repeated, cleaned]
  refine ⟨⟨changed, rounds, rfl, rest, ?_⟩, congrArg _ idle, same idle, fun deletes => ?_⟩
  · have load : s.opening.body.func.load config.deleteDead = s.func.load config.deleteDead := rfl
    omega
  · exact Pass.quiet_spent well' typed' (deletes ▸ quiet)

-- An insert that goes, one that stays for being its own base, and a vector
-- without a live lane that stays for a construct whose other lanes are read.
def knotted : Scope :=
  { types := ⟨[.float 32, .vector ⟨0⟩ 2, .vector ⟨0⟩ 4, .pointer ⟨0⟩ .output], by decide⟩
    globals := ⟨[(⟨1⟩, ⟨⟨3⟩, .variable .output⟩), (⟨2⟩, ⟨⟨1⟩, .undef⟩), (⟨3⟩, ⟨⟨0⟩, .constant 0⟩)]⟩
    func := .ofBlocks "knotted" [
      [⟨.insert, some (⟨10⟩, ⟨1⟩), [.value ⟨3⟩, .value ⟨2⟩, .literal 1]⟩,
        ⟨.insert, some (⟨11⟩, ⟨1⟩), [.value ⟨3⟩, .value ⟨11⟩, .literal 1]⟩,
        ⟨.undef, some (⟨12⟩, ⟨1⟩), []⟩,
        ⟨.construct, some (⟨13⟩, ⟨2⟩), [.value ⟨11⟩, .value ⟨12⟩]⟩,
        ⟨.extract, some (⟨14⟩, ⟨0⟩), [.value ⟨13⟩, .literal 0]⟩,
        ⟨.store, none, [.value ⟨1⟩, .value ⟨14⟩]⟩,
        ⟨.extract, some (⟨15⟩, ⟨0⟩), [.value ⟨10⟩, .literal 0]⟩,
        ⟨.store, none, [.value ⟨1⟩, .value ⟨15⟩]⟩,
        ⟨.ret, none, []⟩]] }

theorem clean_converges_knotted : knotted.func.size < 10 ∧
    ((knotted.cleaned { maxRounds := 10 }).func.insts.map (·.opcode) =
      [.insert, .undef, .construct, .extract, .store, .extract, .store, .ret]) ∧
    (∃ changed rounds, (knotted.clean { maxRounds := 10 }).changed = .ok changed ∧
      CameToRest (knotted.clean { maxRounds := 10 }).log rounds changed ∧ rounds ≤ knotted.func.size + 1) ∧
    ((knotted.cleaned { maxRounds := 10 }).clean { maxRounds := 10 }).changed = .ok false ∧
    ((knotted.cleaned { maxRounds := 10 }).clean { maxRounds := 10 }).subject =
      (knotted.cleaned { maxRounds := 10 }).func ∧
    ∃ found events, (knotted.cleaned { maxRounds := 10 }).liveness = .ok (found, events) ∧
      (knotted.cleaned { maxRounds := 10 }).Spent found.live := by
  have ⟨ends, quiet, same, spent⟩ :=
    @clean_converges knotted (by decide +kernel) (by decide +kernel) { maxRounds := 10 } (by decide +kernel)
  exact ⟨by decide +kernel, by decide +kernel, ends, quiet, same, spent rfl⟩

end Scope

end DeadLanes
