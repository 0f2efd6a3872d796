import DeadLanes.Pass
import DeadLanes.Proofs.Sweeping
import DeadLanes.Proofs.Upkeep

namespace DeadLanes

-- The rounds of a run, what each does to the function, and when there is
-- nothing left to do.

namespace Func

variable {view : LaneView} {live : Value → LaneSet} {s : Scope} {g : Func}

theorem Bypasses.upkeep (steps : Bypasses view live s.func g) (well : s.WellFormed) (typed : s.Typed) :
    ({ s with func := g } : Scope).WellFormed ∧ ({ s with func := g } : Scope).Typed := by
  induction steps with
  | refl => exact ⟨well, typed⟩
  | tail _ step ih =>
    obtain ⟨well, typed⟩ := ih
    cases step with
    | insert dead _ => exact ⟨well.mapValues (well.ty?_subst dead), typed.mapValues (well.ty?_subst dead)⟩

theorem Discards.upkeep (steps : Discards s.func g) (well : s.WellFormed) (typed : s.Typed) :
    ({ s with func := g } : Scope).WellFormed ∧ ({ s with func := g } : Scope).Typed := by
  induction steps with
  | refl => exact ⟨well, typed⟩
  | tail _ step ih =>
    obtain ⟨well, typed⟩ := ih
    cases step with
    | group idle => exact ⟨well.discard idle, typed.discard well.distinct idle⟩

end Func

namespace Scope

-- What a round does to the function: with live lanes that meet all demands,
-- dead inserts are bypassed and idle instructions left out.
def Tidies (s : Scope) (g : Func) : Prop :=
  ∃ live between, (Analysis.ofScope s).Held live ∧ (Analysis.ofScope s).Closed live ∧
    Func.Bypasses s.view live s.func between ∧ Func.Discards between g

def Tidied (s : Scope) : Func → Prop :=
  Relation.ReflTransGen (fun f g => ({ s with func := f } : Scope).Tidies g) s.func

theorem Typed.looked_up {s : Scope} (typed : s.Typed) :
    Work.insertsKnown s.view s.func = true ∧ Work.resultsKnown s.view s.func = true := by
  constructor
  · refine List.all_eq_true.mpr fun i member => Bool.or_eq_true_iff.mpr (.inr ?_)
    exact List.all_eq_true.mpr fun v asked => typed i member v (LaneRule.asked_mentions asked)
  · refine List.all_eq_true.mpr fun i member => Bool.or_eq_true_iff.mpr (.inr ?_)
    cases result : i.result? with
    | none => rfl
    | some v => exact typed i member v (List.mem_append_left _ (Option.mem_toList.mpr result))

theorem Tidies.upkeep {s : Scope} {g : Func} (tidies : s.Tidies g) (well : s.WellFormed) (typed : s.Typed) :
    ({ s with func := g } : Scope).WellFormed ∧ ({ s with func := g } : Scope).Typed := by
  obtain ⟨live, between, -, -, bypasses, discards⟩ := tidies
  obtain ⟨well, typed⟩ := bypasses.upkeep well typed
  exact Func.Discards.upkeep (s := { s with func := between }) discards well typed

end Scope

namespace Work

variable {view : LaneView} {live : Value → LaneSet} {w x : Work}

@[simp] theorem body_tell (e : Event) (w : Work) : (w.tell e).body = w.body := rfl

def Blind (act : Attempt Work α) : Prop :=
  ∀ w x : Work, w.body = x.body → (act w).1 = (act x).1 ∧ (act w).2.body = (act x).2.body

theorem Blind.outcome {act : Attempt Work α} (blind : Blind act) (same : w.body = x.body) :
    ∃ answer y z, act w = (answer, y) ∧ act x = (answer, z) ∧ y.body = z.body := by
  obtain ⟨answer, body⟩ := blind w x same
  exact ⟨(act w).1, (act w).2, (act x).2, rfl, by rw [answer], body⟩

theorem Blind.bind {act : Attempt Work α} {next : α → Attempt Work β} (first : Blind act) (later : ∀ a, Blind (next a)) :
    Blind (act >>= next) := by
  intro w x same
  obtain ⟨answer, y, z, one, two, body⟩ := first.outcome same
  cases answer with
  | error fault =>
    rw [Attempt.bind_error one, Attempt.bind_error two]
    exact ⟨rfl, body⟩
  | ok a =>
    rw [Attempt.bind_ok one, Attempt.bind_ok two]
    exact later a y z body

theorem Blind.answer {act : Attempt Work α} {next last : α → Attempt Work β} (first : Blind act) (same : w.body = x.body)
    (later : ∀ a (y z : Work), y.body = z.body → (next a y).1 = (last a z).1) :
    ((act >>= next) w).1 = ((act >>= last) x).1 := by
  obtain ⟨answer, y, z, one, two, body⟩ := first.outcome same
  cases answer with
  | error fault =>
    rw [Attempt.bind_error one, Attempt.bind_error two]
  | ok a =>
    rw [Attempt.bind_ok one, Attempt.bind_ok two]
    exact later a y z body

theorem Blind.pure (a : α) : Blind (pure a) := fun _ _ same => ⟨rfl, same⟩

theorem Blind.demand (p : Prop) [Decidable p] (f : Fault) : Blind (Attempt.demand p f) := by
  intro w x same
  unfold Attempt.demand
  split
  · exact ⟨rfl, same⟩
  · exact ⟨rfl, same⟩

theorem bypass_blind (r : InstRef) (v : Value) : Blind (bypass r v) := by
  intro w x same
  have named : w.name = x.name := congrArg (·.func.name) same
  rw [bypass, Attempt.state_bind, Attempt.state_bind, named, same]
  cases (x.body.func.inst? r).bind Inst.asInsert? with
  | none => exact Blind.pure false w x same
  | some parts =>
    obtain ⟨obj, base, lane⟩ := parts
    refine Blind.bind (fun y z alike => ?_) (fun uses => ?_) w x same
    · rw [onBody, Attempt.on, Attempt.on, alike]
      exact ⟨rfl, rfl⟩
    · intro y z alike
      split
      · exact ⟨rfl, alike⟩
      · exact ⟨rfl, alike⟩

theorem bypassAll_blind (dead : List (InstRef × Value)) : Blind (bypassAll dead) := by
  induction dead with
  | nil => exact .pure false
  | cons d rest ih => exact (bypass_blind d.1 d.2).bind fun _ => ih.bind fun _ => .pure _

theorem apply_blind (same : w.body = x.body) (deleteDead : Bool) :
    (apply view live deleteDead w).1 = (apply view live deleteDead x).1 := by
  rw [apply, Attempt.state_bind, Attempt.state_bind, same]
  refine (Blind.demand _ _).answer same fun _ w x same => (bypassAll_blind _).answer same fun moved y z body => ?_
  cases deleteDead with
  | false => rfl
  | true =>
    rw [if_pos rfl, Attempt.state_bind, Attempt.state_bind, body]
    apply (Blind.demand _ _).answer body
    intro _ y z body
    have erased : ∀ cs, (eraseUnused cs y).1 = (eraseUnused cs z).1 := fun cs => by
      rw [eraseUnused_answer, eraseUnused_answer, body]
    exact congrArg (fun e => Except.ok (moved || e)) (erased _)

end Work

namespace Pass

variable {s : Scope} {w : Work}

theorem round_eq (func : w.body.func = s.func) {found : Liveness} {events : List Event}
    (ran : s.liveness = .ok (found, events)) (deleteDead : Bool) :
    round s.types s.globals deleteDead w =
      Work.apply s.view found.live deleteDead ⟨.ofFunc s.func, w.log ++ events⟩ := by
  rw [round, Attempt.modify_bind, Attempt.state_bind]
  dsimp only
  rw [func, show (⟨s.types, s.globals, (Indexed.ofFunc s.func).func⟩ : Scope).liveness = _ from ran]
  rfl

theorem round_ok (well : s.WellFormed) (typed : s.Typed) (func : w.body.func = s.func) (deleteDead : Bool) :
    ∃ changed next, round s.types s.globals deleteDead w = (.ok changed, next) ∧ s.Tidies next.body.func ∧
      (changed = false → next.body.func = s.func) ∧
      (changed = true → deleteDead = true → next.body.func.placed.length < s.func.placed.length) := by
  obtain ⟨found, events, ran, closed, held⟩ := well.liveness_ok typed
  have sync : (Indexed.ofFunc s.func).InSync := Indexed.inSync_ofFunc s.func
  obtain ⟨inserts, results⟩ := typed.looked_up
  obtain ⟨-, middle, changed, next, -, applied, -, bypasses, discards, same, fewer⟩ :=
    Work.apply_ok (w := ⟨.ofFunc s.func, w.log ++ events⟩) sync well.distinct inserts results deleteDead
  exact ⟨changed, next, (round_eq func ran deleteDead).trans applied,
    ⟨found.live, middle.body.func, held, closed, bypasses, discards⟩, same, fewer⟩

theorem rounds_succ {types : TypeTable} {globals : Globals} (config : Config) {changed again : Bool} {left : Nat}
    {next : Work} (ran : round types globals config.deleteDead w = (.ok again, next)) :
    rounds types globals config changed (left + 1) w =
      if again then rounds types globals config true left next
      else (.ok changed, next.tell (.settled next.name (config.maxRounds - left) changed)) := by
  rw [rounds, Attempt.bind_ok ran]
  cases again <;> rfl

def Quiet (s : Scope) (deleteDead : Bool) : Prop :=
  (round s.types s.globals deleteDead ⟨.ofFunc s.func, []⟩).1 = .ok false

theorem round_quiet (well : s.WellFormed) (typed : s.Typed) (func : w.body.func = s.func) {deleteDead again : Bool}
    {next : Work} (ran : round s.types s.globals deleteDead w = (.ok again, next)) :
    Quiet s deleteDead ↔ again = false := by
  obtain ⟨found, events, live, -⟩ := well.liveness_ok typed
  have answer : (round s.types s.globals deleteDead ⟨.ofFunc s.func, []⟩).1 = .ok again := by
    rw [round_eq func live] at ran
    have told : (Work.apply s.view found.live deleteDead ⟨.ofFunc s.func, w.log ++ events⟩).1 = .ok again :=
      congrArg Prod.fst ran
    rw [round_eq (w := ⟨.ofFunc s.func, []⟩) rfl live, ← told]
    exact Work.apply_blind (by rfl) deleteDead
  rw [Quiet, answer]
  exact ⟨Except.ok.inj, congrArg _⟩

end Pass

namespace Scope

theorem Tidied.upkeep {s : Scope} {g : Func} (tidied : s.Tidied g) (well : s.WellFormed) (typed : s.Typed) :
    ({ s with func := g } : Scope).WellFormed ∧ ({ s with func := g } : Scope).Typed := by
  induction tidied with
  | refl => exact ⟨well, typed⟩
  | tail _ tidies ih => exact tidies.upkeep ih.1 ih.2

end Scope

def GaveUp (log : List Event) : Prop := ∃ func rounds, log.getLast? = some (.gaveUp func rounds)

theorem gaveUp_tell {w : Work} {e : Event} : GaveUp (w.tell e).log ↔ ∃ func rounds, e = .gaveUp func rounds := by
  simp [GaveUp, Work.tell]

namespace Pass

-- The rounds of a run that meets no fault, from some point on: how many are
-- left, whether the earlier ones changed anything, and how it ends.
inductive Runs (s : Scope) (config : Config) : Bool → Nat → Work → Bool → Work → Prop where
  | spent : Runs s config changed 0 w changed (w.tell (.gaveUp w.name config.maxRounds))
  | settled : round s.types s.globals config.deleteDead w = (.ok false, next) → next.body.func = w.body.func →
      Quiet { s with func := w.body.func } config.deleteDead →
      Runs s config changed (left + 1) w changed (next.tell (.settled next.name (config.maxRounds - left) changed))
  | again : round s.types s.globals config.deleteDead w = (.ok true, next) →
      ({ s with func := w.body.func } : Scope).Tidies next.body.func →
      (config.deleteDead = true → next.body.func.placed.length < w.body.func.placed.length) →
      Runs s config true left next answer last → Runs s config changed (left + 1) w answer last

variable {s : Scope} {config : Config} {changed answer : Bool} {left : Nat} {w last : Work}

theorem runs_ok (config : Config) (changed : Bool) (left : Nat) (well : ({ s with func := w.body.func } : Scope).WellFormed)
    (typed : ({ s with func := w.body.func } : Scope).Typed) :
    ∃ answer last, rounds s.types s.globals config changed left w = (.ok answer, last) ∧
      Runs s config changed left w answer last := by
  induction left generalizing changed w with
  | zero => exact ⟨changed, _, rfl, .spent⟩
  | succ left ih =>
    obtain ⟨again, next, ran, tidies, same, fewer⟩ :=
      round_ok (s := { s with func := w.body.func }) well typed rfl config.deleteDead
    have quiet := round_quiet (s := { s with func := w.body.func }) well typed rfl ran
    cases again with
    | false =>
      exact ⟨changed, _, rounds_succ config ran, .settled ran (same rfl) (quiet.mpr rfl)⟩
    | true =>
      obtain ⟨well, typed⟩ := tidies.upkeep well typed
      obtain ⟨answer, last, later, runs⟩ := ih true well typed
      exact ⟨answer, last, (rounds_succ config ran).trans later, .again ran tidies (fewer rfl) runs⟩

theorem Runs.tidied (runs : Runs s config changed left w answer last) :
    ({ s with func := w.body.func } : Scope).Tidied last.body.func := by
  induction runs with
  | spent => exact .refl
  | settled _ same _ => exact same ▸ .refl
  | again _ tidies _ _ ih => exact .head tidies ih

theorem Runs.answered (runs : Runs s config changed left w answer last) (before : changed = true) : answer = true := by
  induction runs with
  | spent => exact before
  | settled _ _ _ => exact before
  | again _ _ _ _ ih => exact ih rfl

theorem Runs.first (runs : Runs s config false (left + 1) w answer last)
    (well : ({ s with func := w.body.func } : Scope).WellFormed) (typed : ({ s with func := w.body.func } : Scope).Typed) :
    (answer = true ↔ ¬ Quiet { s with func := w.body.func } config.deleteDead) ∧
      (answer = false → last.body.func = w.body.func) := by
  cases runs with
  | settled _ same quiet => exact ⟨by simp [quiet], fun _ => same⟩
  | again ran _ _ later =>
    have quiet := round_quiet (s := { s with func := w.body.func }) well typed rfl ran
    have changed := later.answered rfl
    exact ⟨by simp [changed, quiet], by simp [changed]⟩

theorem Runs.quiet (runs : Runs s config changed left w answer last) :
    Quiet { s with func := last.body.func } config.deleteDead ∨ GaveUp last.log := by
  induction runs with
  | spent => exact .inr (gaveUp_tell.mpr ⟨_, _, rfl⟩)
  | settled _ same quiet => exact .inl (same ▸ quiet)
  | again _ _ _ _ ih => exact ih

theorem Runs.quiet_of_short (runs : Runs s config changed left w answer last) (deletes : config.deleteDead = true)
    (short : w.body.func.placed.length < left) : Quiet { s with func := last.body.func } config.deleteDead := by
  induction runs with
  | spent => exact absurd short (Nat.not_lt_zero _)
  | settled _ same quiet => exact same ▸ quiet
  | again _ _ fewer _ ih =>
    have less := fewer deletes
    exact ih (by omega)

theorem Runs.one_more (runs : Runs s config changed left w answer last)
    (well : ({ s with func := w.body.func } : Scope).WellFormed) (typed : ({ s with func := w.body.func } : Scope).Typed)
    (more : Config) (same : more.deleteDead = config.deleteDead) :
    ∃ also final, rounds s.types s.globals more changed (left + 1) w = (.ok also, final) ∧
      (GaveUp final.log ↔ ¬ Quiet { s with func := last.body.func } config.deleteDead) := by
  induction runs with
  | @spent changed w =>
    obtain ⟨again, next, ran, -⟩ := round_ok (s := { s with func := w.body.func }) well typed rfl more.deleteDead
    have quiet := round_quiet (s := { s with func := w.body.func }) well typed rfl ran
    rw [same] at quiet
    cases again with
    | false =>
      refine ⟨changed, _, rounds_succ more ran, ?_⟩
      simpa [gaveUp_tell] using quiet
    | true =>
      refine ⟨true, _, rounds_succ more ran, ?_⟩
      simpa [gaveUp_tell] using quiet
  | settled ran kept quiet =>
    refine ⟨_, _, rounds_succ more (same ▸ ran), ?_⟩
    simpa [gaveUp_tell, kept] using quiet
  | again ran tidies fewer _ ih =>
    obtain ⟨well, typed⟩ := tidies.upkeep well typed
    obtain ⟨also, final, later, gaveUp⟩ := ih well typed
    rw [← same] at ran
    exact ⟨also, final, (rounds_succ more ran).trans later, gaveUp⟩

end Pass

namespace Scope

variable {s : Scope}

def opening (s : Scope) : Work := Work.tell (.control s.func) ⟨.ofFunc s.func, []⟩

theorem clean_eq {config : Config} {answer : Bool} {last : Work}
    (ran : Pass.rounds s.types s.globals config false config.maxRounds s.opening = (.ok answer, last)) :
    s.clean config = ⟨last.body.func, .ok answer, last.log⟩ := by
  have all : Pass.run s.types s.globals config ⟨.ofFunc s.func, []⟩ = (.ok answer, last) := by
    rw [Pass.run, Attempt.modify_bind]
    exact ran
  rw [clean, Outcome.ofWork, all]

theorem clean_ok (well : s.WellFormed) (typed : s.Typed) (config : Config) :
    ∃ answer last, s.clean config = ⟨last.body.func, .ok answer, last.log⟩ ∧
      Pass.Runs s config false config.maxRounds s.opening answer last := by
  obtain ⟨answer, last, ran, runs⟩ :=
    Pass.runs_ok (s := s) (w := s.opening) config false config.maxRounds well typed
  exact ⟨answer, last, clean_eq ran, runs⟩

theorem WellFormed.clean_tidied (well : s.WellFormed) (typed : s.Typed) (config : Config) :
    ∃ changed, (s.clean config).changed = .ok changed ∧ s.Tidied (s.clean config).subject := by
  obtain ⟨answer, last, cleaned, runs⟩ := clean_ok well typed config
  rw [cleaned]
  exact ⟨answer, rfl, runs.tidied⟩

-- Cleaning a function a second time changes it only if the first run used up
-- its rounds while one more round would change something. That takes a
-- function of as many instructions as there are rounds.
theorem clean_idempotent (accepted : s.check = .ok ()) (typed : s.Typed) :
    ∃ changed again,
      (s.clean {}).changed = .ok changed ∧
      (clean { s with func := (s.clean {}).subject } {}).changed = .ok again ∧
      (again = false → (clean { s with func := (s.clean {}).subject } {}).subject = (s.clean {}).subject) ∧
      (again = true ↔ GaveUp (s.clean { maxRounds := 17 }).log) ∧
      (again = true → GaveUp (s.clean {}).log ∧ 16 ≤ s.func.insts.length) := by
  have well := check_ok.mp accepted
  obtain ⟨changed, last, cleaned, runs⟩ := clean_ok well typed {}
  obtain ⟨well', typed'⟩ := runs.tidied.upkeep well typed
  obtain ⟨again, final, repeated, others⟩ := clean_ok (s := { s with func := last.body.func }) well' typed' {}
  obtain ⟨also, end', ran, gaveUp⟩ := runs.one_more well typed { maxRounds := 17 } rfl
  obtain ⟨more, same⟩ := others.first well' typed'
  have longer : s.clean { maxRounds := 17 } = ⟨end'.body.func, .ok also, end'.log⟩ := clean_eq ran
  rw [longer, cleaned]
  dsimp only
  rw [repeated]
  refine ⟨changed, again, rfl, rfl, same, more.trans gaveUp.symm, fun changes => ?_⟩
  have left := more.mp changes
  refine ⟨runs.quiet.resolve_left left, Nat.not_lt.mp fun short => left (runs.quiet_of_short rfl ?_)⟩
  rwa [Func.insts, List.length_map] at short

theorem clean_idempotent_looped : ∃ changed again,
    (looped.clean {}).changed = .ok changed ∧
    (clean { looped with func := (looped.clean {}).subject } {}).changed = .ok again ∧
    (again = false → (clean { looped with func := (looped.clean {}).subject } {}).subject = (looped.clean {}).subject) ∧
    (again = true ↔ GaveUp (looped.clean { maxRounds := 17 }).log) ∧
    (again = true → GaveUp (looped.clean {}).log ∧ 16 ≤ looped.func.insts.length) :=
  clean_idempotent (by decide +kernel) (by decide +kernel)

-- Vectors in a row, each with a lane that only the scalar before the next one
-- reads. A round takes the last of these scalars away, and what it read is
-- dead only in the round after.
def links : Nat → Nat → List Inst
  | 0, v => [⟨.extract, some (⟨v + 1⟩, ⟨0⟩), [.value ⟨v⟩, .literal 0]⟩, ⟨.store, none, [.value ⟨1⟩, .value ⟨v + 1⟩]⟩,
      ⟨.ret, none, []⟩]
  | more + 1, v => ⟨.dot, some (⟨v + 1⟩, ⟨0⟩), [.value ⟨v⟩, .value ⟨v⟩]⟩ ::
      ⟨.insert, some (⟨v + 2⟩, ⟨1⟩), [.value ⟨v + 1⟩, .value ⟨v⟩, .literal 1]⟩ :: links more (v + 2)

def linked : Scope :=
  { types := ⟨[.float 32, .vector ⟨0⟩ 2, .pointer ⟨0⟩ .output], by decide⟩
    globals := ⟨[(⟨1⟩, ⟨⟨2⟩, .variable .output⟩), (⟨2⟩, ⟨⟨1⟩, .undef⟩)]⟩
    func := .ofBlocks "linked" [links 17 2] }

theorem linked_cleaned_again : linked.check = .ok () ∧ linked.Typed ∧
    (clean { linked with func := (linked.clean {}).subject } {}).changed = .ok true := by
  decide +kernel

end Scope

end DeadLanes
