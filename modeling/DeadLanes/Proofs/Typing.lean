import DeadLanes.Proofs.Totality

namespace DeadLanes

-- What acceptance says about the types of operands, and what it leaves open.
-- Element types are compared in inserts and extracts alone: a construct or a
-- shuffle is a matter of lane counts, and a phi takes any value.

theorem LaneSet.lost_iff {set : LaneSet} {lane : Nat} (here : set.contains lane = true) {count : Option Nat}
    (small : ∀ n ∈ count, n ≤ trackedLanes) : (set.normalized count).contains lane = false ↔
      ∃ n ∈ count, n ≤ lane ∧ ∃ other < n, set.contains other = false := by
  cases set with
  | all => simp [contains]
  | lanes mask =>
    cases count with
    | none =>
      have some' : lanes mask ≠ empty := by
        rintro same
        rw [same, contains_empty] at here
        cases here
      rw [normalized_none_of_nonempty some']
      simp [contains]
    | some n =>
      have small := small n rfl
      simp only [Option.mem_some, exists_eq_left']
      rw [normalized_some mask small]
      split
      · rename_i full
        have all := (masked_eq_below small).mp full
        constructor
        · intro lost
          cases lost
        · intro given
          obtain ⟨-, other, low, missing⟩ := given
          cases (all other low).symm.trans missing
      · rename_i partly
        have set : mask.getLsbD lane = true := here
        have word : lane < 64 := BitVec.lt_of_getLsbD set
        simp only [contains, BitVec.getLsbD_and, getLsbD_below, set, word, Bool.true_and, decide_true, Bool.and_true,
          decide_eq_false_iff_not, Nat.not_lt]
        refine ⟨fun high => ⟨high, ?_⟩, And.left⟩
        refine Classical.byContradiction fun none => partly ((masked_eq_below small).mpr fun other low => ?_)
        exact Bool.of_not_eq_false fun missing => none ⟨other, low, missing⟩

namespace Scope

def elem? (s : Scope) (t : Option TypeRef) : Option TypeRef := (t.bind s.types.vector?).map (·.1)

structure WellTyped (s : Scope) : Prop where
  constructs : ∀ i ∈ s.func.insts, i.opcode = .construct → ∀ elem ∈ s.elem? i.ty?, ∀ v ∈ i.values,
    s.ty? v = some elem ∨ s.elem? (s.ty? v) = some elem
  shuffles : ∀ i ∈ s.func.insts, ∀ parts ∈ i.asShuffle?, s.elem? (s.ty? parts.1) = s.elem? i.ty? ∧
    s.elem? (s.ty? parts.2.1) = s.elem? i.ty?
  phis : s.PhisTyped

def Loses (s : Scope) (live : LaneSet) (v : Value) (lane : Nat) : Prop :=
  live.contains lane = true ∧ (live.normalized (s.view.tracked v)).contains lane = false

-- Other operands, chosen for each instruction on its own. Constructs and shuffles
-- get values with as many lanes, inserts and extracts values of the same
-- type, and all other instructions, phis among them, any values at all.
structure Blurs (s : Scope) (ρ : Inst → Value → Value) : Prop where
  defined : ∀ i ∈ s.func.insts, ∀ v ∈ i.values, (s.ty? (ρ i v)).isSome = true
  widths : ∀ i ∈ s.func.insts, i.opcode = .construct ∨ i.opcode = .shuffle → ∀ v ∈ i.values, s.width? (ρ i v) = s.width? v
  fixed : ∀ i ∈ s.func.insts, i.opcode = .insert ∨ i.opcode = .extract → ∀ v ∈ i.values, s.ty? (ρ i v) = s.ty? v

def exchange (s : Scope) (ρ : Inst → Value → Value) : Scope :=
  { s with func := s.func.mapInsts fun i => i.mapValues (ρ i) }

variable {s : Scope}

theorem WellFormed.blurred (well : s.WellFormed) (results : s.ResultsKnown) (globals : s.GlobalsKnown)
    {ρ : Inst → Value → Value} (blurs : s.Blurs ρ) : (s.exchange ρ).WellFormed := by
  refine well.exchange blurs.defined fun i member => ?_
  have typed : (s.exchange ρ).ty? = s.ty? := s.ty?_exchange ρ
  have width : (s.exchange ρ).width? = s.width? := by
    funext v
    rw [width?, typed]
    rfl
  refine Composed.exchange (t := s.exchange ρ) (.refl s.types) ?_ ?_ ?_ (well.composed i member)
  · intro w named _
    obtain ⟨ty, known⟩ := Option.isSome_iff_exists.mp (blurs.defined i member w named)
    exact ⟨ty, typed ▸ known, results.contains globals known⟩
  · intro shape w named _
    rw [width]
    exact blurs.widths i member shape w named
  · intro shape w named ty known
    rw [typed, blurs.fixed i member shape w named, known]

theorem loses_iff {live : LaneSet} {v : Value} {lane : Nat} : s.Loses live v lane ↔
    live.contains lane = true ∧ ∃ n ∈ s.view.tracked v, n ≤ lane ∧ ∃ other < n, live.contains other = false :=
  and_congr_right fun here => LaneSet.lost_iff here fun _ => LaneView.tracked_le

theorem WellFormed.keeps (well : s.WellFormed) {i : Inst} (member : i ∈ s.func.insts) {v w : Value}
    (result : i.result? = some v) (same : s.ty? w = i.ty?) {lanes lane : Nat} (tracked : s.view.tracked v = some lanes)
    (low : lane < lanes) (live : LaneSet) : ¬ s.Loses live w lane := by
  obtain ⟨ty, defined⟩ := Inst.result?_eq_some.mp result
  have width : s.view.tracked w = some lanes := by
    rw [← tracked]
    simp only [LaneView.tracked, view, width?, same, well.ty?_result member defined, Inst.ty?, defined, Option.map_some]
  rw [loses_iff, width]
  intro given
  obtain ⟨-, n, counted, high, -⟩ := given
  cases counted
  exact absurd low (Nat.not_lt.mpr high)

def Tiled (s : Scope) (i : Inst) : Prop := ∃ elem lanes, i.ty?.bind s.types.vector? = some (elem, lanes) ∧
  (∀ v ∈ i.values, (s.ty? v).isSome = true) ∧ (i.values.map fun v => (s.width? v).getD 1).sum = lanes

def Picks (s : Scope) (i : Inst) : Prop := ∃ a b sels lanesA lanesB, i.asShuffle? = some (a, b, sels) ∧
  s.width? a = some lanesA ∧ s.width? b = some lanesB ∧ i.ty?.bind s.types.lanes? = some sels.length ∧
  ∀ sel ∈ sels, sel = anyLane ∨ sel < lanesA + lanesB

-- A phi passes what is demanded of it on to each value that flows in. What gets
-- lost there is lost to values of other types.
def Forwards (s : Scope) (i : Inst) : Prop := ∀ v, i.result? = some v → ∀ lanes, s.view.tracked v = some lanes →
  ∀ live lane, live.contains lane = true →
    (LaneRule.of s.view i).demands live = i.incoming.map (fun arm => (arm.1, live)) ∧
    ∀ arm ∈ i.incoming, (s.ty? arm.1).isSome = true ∧
      (s.Loses live arm.1 lane ↔ ∃ n ∈ s.view.tracked arm.1, n ≤ lane ∧ ∃ other < n, live.contains other = false) ∧
      (lane < lanes → s.Loses live arm.1 lane → s.ty? arm.1 ≠ i.ty?)

theorem WellFormed.tiled (well : s.WellFormed) {i : Inst} (member : i ∈ s.func.insts) (op : i.opcode = .construct) :
    s.Tiled i := by
  have composed := well.composed i member
  rw [Composed, op] at composed
  obtain ⟨elem, lanes, own, -, known, total, -⟩ := composed
  refine ⟨elem, lanes, own, fun v named => ?_, total⟩
  obtain ⟨ty, typed, -⟩ := known v named
  exact Option.isSome_of_eq_some typed

theorem WellFormed.picks (well : s.WellFormed) {i : Inst} (member : i ∈ s.func.insts) (op : i.opcode = .shuffle) :
    s.Picks i := by
  have composed := well.composed i member
  rw [Composed, op] at composed
  obtain ⟨a, b, sels, lanes, lanesA, lanesB, parsed, own, first, second, length, low⟩ := composed
  refine ⟨a, b, sels, lanesA, lanesB, parsed, first, second, ?_, fun sel chosen => (low sel chosen).imp_right And.right⟩
  rw [length, ← own]
  cases i.ty? <;> rfl

theorem WellFormed.forwards (well : s.WellFormed) {i : Inst} (member : i ∈ s.func.insts) (op : i.opcode = .phi) :
    s.Forwards i := by
  intro v result lanes tracked live lane here
  constructor
  · have some' : live.isEmpty = false := by
      cases nothing : live.isEmpty with
      | false => rfl
      | true =>
        rw [LaneSet.isEmpty_iff.mp nothing, LaneSet.contains_empty] at here
        cases here
    rw [LaneRule.of_phi op, result, Option.bind_some, tracked]
    simp only [LaneRule.demands, some', Bool.false_eq_true, if_false, List.map_map]
    rfl
  · intro arm incoming
    refine ⟨well.defined i member arm.1 (Inst.mem_values.mp (Inst.mem_incoming incoming)), ?_, ?_⟩
    · rw [loses_iff, and_iff_right here]
    · intro low lost same
      exact well.keeps member result same tracked low live lost

-- Acceptance pins down lane counts, and no more than that: operands with as many
-- lanes but other elements are accepted as well, and so is anything at a phi.
theorem accepted_fits_lanes (accepted : s.check = .ok ()) (results : s.ResultsKnown) (globals : s.GlobalsKnown) :
    (∀ i ∈ s.func.insts, (i.opcode = .construct → s.Tiled i) ∧ (i.opcode = .shuffle → s.Picks i) ∧
      (i.opcode = .phi → s.Forwards i)) ∧
    ∀ ρ, s.Blurs ρ → (s.exchange ρ).check = .ok () := by
  have well := check_ok.mp accepted
  constructor
  · intro i member
    exact ⟨well.tiled member, well.picks member, well.forwards member⟩
  · intro ρ blurs
    exact check_ok.mpr (well.blurred results globals blurs)

def joined (part arm : Value) : Scope :=
  { types := ⟨[.float 32, .int 32 true, .vector ⟨0⟩ 2, .vector ⟨1⟩ 2, .vector ⟨0⟩ 4], by decide⟩
    globals := ⟨[(⟨1⟩, ⟨⟨2⟩, .undef⟩), (⟨2⟩, ⟨⟨3⟩, .undef⟩)]⟩
    func := .ofBlocks "joined" [
      [⟨.construct, some (⟨10⟩, ⟨4⟩), [.value part, .value part]⟩, ⟨.br, none, [.label ⟨1⟩]⟩],
      [⟨.phi, some (⟨11⟩, ⟨4⟩), [.value arm, .label ⟨0⟩]⟩,
        ⟨.shuffle, some (⟨12⟩, ⟨2⟩), [.value part, .value part, .literal 0, .literal 3]⟩,
        ⟨.extract, some (⟨13⟩, ⟨0⟩), [.value ⟨11⟩, .literal 3]⟩,
        ⟨.retv, none, [.value ⟨13⟩]⟩]] }

theorem accepted_fits_lanes_joined :
    let s := joined ⟨1⟩ ⟨10⟩
    let ρ (i : Inst) (v : Value) : Value := if i.opcode = .phi then ⟨1⟩ else if v = ⟨1⟩ then ⟨2⟩ else v
    s.WellTyped ∧ s.Blurs ρ ∧ s.exchange ρ = joined ⟨2⟩ ⟨1⟩ ∧
    (∀ i ∈ s.func.insts, (i.opcode = .construct → s.Tiled i) ∧ (i.opcode = .shuffle → s.Picks i) ∧
      (i.opcode = .phi → s.Forwards i)) ∧ (s.exchange ρ).check = .ok () := by
  intro s ρ
  have blurs : s.Blurs ρ := ⟨by decide +kernel, by decide +kernel, by decide +kernel⟩
  obtain ⟨fits, blind⟩ := accepted_fits_lanes (s := s) (by decide +kernel) (by decide +kernel) (by decide +kernel)
  exact ⟨⟨by decide +kernel, by decide +kernel, by decide +kernel⟩, blurs, rfl, fits, blind ρ blurs⟩

theorem joined_misfits :
    let s := joined ⟨2⟩ ⟨1⟩
    s.check = .ok () ∧ s.ResultsKnown ∧ s.GlobalsKnown ∧
    (¬ ∀ i ∈ s.func.insts, i.opcode = .construct → ∀ elem ∈ s.elem? i.ty?, ∀ v ∈ i.values,
      s.ty? v = some elem ∨ s.elem? (s.ty? v) = some elem) ∧
    (¬ ∀ i ∈ s.func.insts, ∀ parts ∈ i.asShuffle?, s.elem? (s.ty? parts.1) = s.elem? i.ty? ∧
      s.elem? (s.ty? parts.2.1) = s.elem? i.ty?) ∧
    ¬ s.PhisTyped ∧
    ∃ found events, s.liveness = .ok (found, events) ∧ s.Loses (found.live ⟨11⟩) ⟨1⟩ 3 := by
  intro s
  have accepted : s.check = .ok () := by decide +kernel
  have results : s.ResultsKnown := by decide +kernel
  have globals : s.GlobalsKnown := by decide +kernel
  obtain ⟨found, events, ran, -⟩ := (check_ok.mp accepted).liveness_ok (results.typed globals)
  have live : found.live ⟨11⟩ = .lanes 8 := by
    have read : s.liveness.toOption.map (fun answer => answer.1.live ⟨11⟩) = some (.lanes 8) := by decide +kernel
    rw [ran] at read
    exact Option.some.inj read
  refine ⟨accepted, results, globals, by decide +kernel, by decide +kernel, by decide +kernel, found, events, ran, ?_⟩
  rw [live]
  exact ⟨by decide, by decide +kernel⟩

end Scope

end DeadLanes
