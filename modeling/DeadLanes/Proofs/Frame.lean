import DeadLanes.Proofs.Rounds

namespace DeadLanes

-- What a run leaves alone. Instructions go or stay as they are, but for operands
-- that name the base of an insert instead of the insert.

theorem forall₂_trans {R : α → α → Prop} [IsTrans α R] {xs ys zs : List α} (first : List.Forall₂ R xs ys)
    (second : List.Forall₂ R ys zs) : List.Forall₂ R xs zs := by
  induction first generalizing zs with
  | nil => exact second
  | cons head _ ih =>
    cases second with
    | cons next later => exact .cons (Trans.trans head next) (ih later)

inductive Operand.Moved (R : Value → Value → Prop) : Operand → Operand → Prop where
  | same (o : Operand) : Moved R o o
  | value : R v w → Moved R (.value v) (.value w)

structure Placed.Stems (R : Value → Value → Prop) (after before : Placed) : Prop where
  ref : after.ref = before.ref
  opcode : after.inst.opcode = before.inst.opcode
  defines : after.inst.defines = before.inst.defines
  operands : List.Forall₂ (Operand.Moved R) before.inst.operands after.inst.operands

-- Blocks stay, each with some of its instructions in their order. Whatever can
-- be seen to happen, or has no result that could lack a use, is among them.
structure Func.Frame (R : Value → Value → Prop) (f g : Func) : Prop where
  name : g.name = f.name
  labels : g.labels = f.labels
  blocks : List.Forall₂ (List.SublistForall₂ (Placed.Stems R)) g.blocks f.blocks
  stays : ∀ p ∈ f.placed, p.inst.opcode.sideEffect = true ∨ p.inst.opcode.terminator = true ∨ p.inst.result? = none →
    ∃ q ∈ g.placed, q.Stems R p
  graph : g.flowGraph = f.flowGraph

theorem Inst.result?_of_defines {i j : Inst} (same : i.defines = j.defines) : i.result? = j.result? := by
  rw [result?, same, result?]

theorem Opcode.resultless_of_pure {op : Opcode} (idle : op.isPure = true) : op.resultless = false := by
  cases op <;> first | rfl | cases idle

section

variable {R : Value → Value → Prop}

theorem Placed.Stems.refl (p : Placed) : p.Stems R p :=
  ⟨rfl, rfl, rfl, List.forall₂_same.mpr fun o _ => .same o⟩

instance : Std.Refl (Placed.Stems R) := ⟨.refl⟩

namespace Func

theorem Frame.refl (f : Func) : f.Frame R f :=
  ⟨rfl, rfl, List.forall₂_refl f.blocks, fun p placed _ => ⟨p, placed, .refl p⟩, rfl⟩

theorem frame_mapValues (f : Func) {ρ : Value → Value} (moves : ∀ v, ρ v = v ∨ R v (ρ v)) : f.Frame R (f.mapValues ρ) := by
  have operand : ∀ o : Operand, o.Moved R (o.mapValue ρ) := by
    intro o
    cases o with
    | value v =>
      rcases moves v with same | moved
      · rw [Operand.mapValue, same]
        exact .same _
      · exact .value moved
    | label b => exact .same _
    | literal n => exact .same _
  have stems : ∀ p : Placed, ({ p with inst := p.inst.mapValues ρ } : Placed).Stems R p := fun p =>
    ⟨rfl, rfl, rfl, List.forall₂_map_right_iff.mpr (List.forall₂_same.mpr fun o _ => operand o)⟩
  refine ⟨rfl, ?_, ?_, fun p placed _ => ⟨_, ?_, stems p⟩, f.flowGraph_mapValues ρ⟩
  · simp only [labels, mapValues, mapInsts, List.length_map]
  · refine List.forall₂_map_left_iff.mpr (List.forall₂_same.mpr fun block _ => ?_)
    refine List.sublistForall₂_iff.mpr ⟨block, ?_, .refl block⟩
    exact List.forall₂_map_left_iff.mpr (List.forall₂_same.mpr fun p _ => stems p)
  · rw [placed_mapValues]
    exact List.mem_map_of_mem placed

end Func

theorem Scope.WellFormed.frame_discard {s : Scope} (well : s.WellFormed) {gone : List InstRef} (idle : s.func.Idle gone) :
    s.func.Frame R (s.func.discard gone) := by
  refine ⟨rfl, ?_, ?_, fun p placed kept => ⟨p, Func.mem_placed_discard.mpr ⟨placed, fun listed => ?_⟩, .refl p⟩,
    well.flowGraph_discard idle⟩
  · simp only [Func.labels, Func.discard, List.length_map]
  · refine List.forall₂_map_left_iff.mpr (List.forall₂_same.mpr fun block _ => ?_)
    exact List.filter_sublist.sublistForall₂
  · have lone := (idle p placed listed).1
    obtain ⟨quiet, goesOn⟩ := Opcode.isPure_iff.mp lone
    rcases kept with effect | ends | none
    · cases quiet.symm.trans effect
    · cases goesOn.symm.trans ends
    · rcases well.paired p.inst (Func.mem_insts_iff_placed.mpr ⟨p.ref, placed⟩) with call | paired
      · rw [call] at quiet
        cases quiet
      · rw [Option.map_eq_none_iff.mp none, Opcode.resultless_of_pure lone] at paired
        cases paired

variable [IsTrans Value R]

instance : IsTrans Operand (Operand.Moved R) where
  trans _ _ _ first second := by
    cases first with
    | same => exact second
    | value one =>
      cases second with
      | same => exact .value one
      | value two => exact .value (Trans.trans one two)

theorem Placed.Stems.trans {p q r : Placed} (late : r.Stems R q) (early : q.Stems R p) : r.Stems R p :=
  ⟨late.ref.trans early.ref, late.opcode.trans early.opcode, late.defines.trans early.defines,
    forall₂_trans early.operands late.operands⟩

instance : IsTrans Placed (Placed.Stems R) := ⟨fun _ _ _ => .trans⟩

theorem Func.Frame.trans {f g h : Func} (first : f.Frame R g) (second : g.Frame R h) : f.Frame R h := by
  refine ⟨second.name.trans first.name, second.labels.trans first.labels, forall₂_trans second.blocks first.blocks,
    fun p placed kept => ?_, second.graph.trans first.graph⟩
  obtain ⟨q, there, early⟩ := first.stays p placed kept
  obtain ⟨r, here, late⟩ := second.stays q there (early.opcode ▸ Inst.result?_of_defines early.defines ▸ kept)
  exact ⟨r, here, late.trans early⟩

end

def Func.StartsFrom (view : LaneView) (f : Func) (v base : Value) : Prop :=
  ∃ i ∈ f.insts, ∃ obj lane, i.result? = some v ∧ i.asInsert? = some (obj, base, lane) ∧ (view.tracked v).isSome = true

namespace Func

variable {R : Value → Value → Prop} [IsTrans Value R] {view : LaneView} {live : Value → LaneSet} {f g : Func}

theorem Bypass.frame (step : Bypass view live f g) (bases : ∀ v w, f.StartsFrom view v w → R v w) :
    f.Frame R g ∧ ∀ v w, g.StartsFrom view v w → R v w := by
  cases step with
  | @insert r v base dead differs =>
    have near : R v base := by
      obtain ⟨i, obj, lane, placed, result, parsed, -⟩ := dead.placed
      exact bases v base ⟨i, mem_insts_iff_placed.mpr ⟨r, placed⟩, obj, lane, result, parsed, dead.tracked⟩
    have moves : ∀ u, Value.subst v base u = u ∨ R u (Value.subst v base u) := by
      intro u
      unfold Value.subst
      split
      · rename_i same
        exact .inr (same ▸ near)
      · exact .inl rfl
    refine ⟨f.frame_mapValues moves, fun u w starts => ?_⟩
    obtain ⟨i, member, obj, lane, result, parsed, tracked⟩ := starts
    obtain ⟨j, before, rfl⟩ := mem_insts_mapValues.mp member
    rw [Inst.asInsert?_mapValues] at parsed
    obtain ⟨⟨old, first, at'⟩, parsed, same⟩ := Option.map_eq_some_iff.mp parsed
    cases same
    have old := bases u first ⟨j, before, old, lane, result, parsed, tracked⟩
    rcases moves first with kept | moved
    · exact kept.symm ▸ old
    · exact Trans.trans old moved

theorem Bypasses.frame (steps : Bypasses view live f g) (bases : ∀ v w, f.StartsFrom view v w → R v w) :
    f.Frame R g ∧ ∀ v w, g.StartsFrom view v w → R v w := by
  induction steps with
  | refl => exact ⟨.refl f, bases⟩
  | tail _ step ih =>
    obtain ⟨frame, bases⟩ := ih
    obtain ⟨more, bases⟩ := step.frame bases
    exact ⟨frame.trans more, bases⟩

end Func

namespace Scope

variable {R : Value → Value → Prop} [IsTrans Value R] {s : Scope} {g : Func}

theorem WellFormed.frame_discards (well : s.WellFormed) (typed : s.Typed) (steps : Func.Discards s.func g) :
    s.func.Frame R g ∧ g.insts ⊆ s.func.insts := by
  induction steps with
  | refl => exact ⟨.refl s.func, fun _ member => member⟩
  | tail steps step ih =>
    obtain ⟨well, -⟩ := Func.Discards.upkeep steps well typed
    cases step with
    | group idle =>
      exact ⟨ih.1.trans (well.frame_discard idle), fun i member => ih.2 (Func.insts_discard_subset _ _ member)⟩

theorem WellFormed.tracked_result {t : Scope} (well : s.WellFormed) (other : t.WellFormed) (types : t.types = s.types)
    {i j : Inst} (member : i ∈ s.func.insts) (there : j ∈ t.func.insts) (same : j.defines = i.defines) {v : Value}
    (result : i.result? = some v) : t.view.tracked v = s.view.tracked v := by
  obtain ⟨ty, defined⟩ := Inst.result?_eq_some.mp result
  rw [LaneView.tracked, LaneView.tracked, ← well.lanes_result member defined,
    ← other.lanes_result there (same.trans defined), types]

theorem Tidies.frame (tidies : s.Tidies g) (well : s.WellFormed) (typed : s.Typed)
    (bases : ∀ v w, s.func.StartsFrom s.view v w → R v w) :
    s.func.Frame R g ∧ ∀ v w, g.StartsFrom ({ s with func := g } : Scope).view v w → R v w := by
  obtain ⟨well', -⟩ := tidies.upkeep well typed
  obtain ⟨live, between, -, -, bypasses, discards⟩ := tidies
  obtain ⟨first, bases⟩ := bypasses.frame bases
  obtain ⟨middle, known⟩ := bypasses.upkeep well typed
  obtain ⟨second, members⟩ : between.Frame R g ∧ g.insts ⊆ between.insts :=
    WellFormed.frame_discards (s := { s with func := between }) middle known discards
  refine ⟨first.trans second, fun v w starts => ?_⟩
  obtain ⟨i, member, obj, lane, result, parsed, tracked⟩ := starts
  obtain ⟨ρ, renamed⟩ := bypasses.mapValues
  obtain ⟨j, before, origin⟩ := Func.mem_insts_mapValues.mp (renamed ▸ members member)
  have defines : i.defines = j.defines := origin ▸ rfl
  have same := well.tracked_result well' rfl before member defines ((Inst.result?_of_defines defines).symm.trans result)
  exact bases v w ⟨i, members member, obj, lane, result, parsed, same ▸ tracked⟩

theorem Tidied.frame (tidied : s.Tidied g) (well : s.WellFormed) (typed : s.Typed)
    (bases : ∀ v w, s.func.StartsFrom s.view v w → R v w) :
    s.func.Frame R g ∧ ∀ v w, g.StartsFrom ({ s with func := g } : Scope).view v w → R v w := by
  induction tidied with
  | refl => exact ⟨.refl s.func, bases⟩
  | @tail middle g earlier tidies ih =>
    obtain ⟨well, typed⟩ := Tidied.upkeep earlier well typed
    obtain ⟨frame, bases⟩ := ih
    obtain ⟨more, bases⟩ := tidies.frame well typed bases
    exact ⟨frame.trans more, bases⟩

-- After a run there are the same blocks with the same edges between them, and
-- nothing is missing but pure instructions. Where an operand is another value,
-- a chain of inserts of the function as it was leads to that from base to base.
theorem clean_frame (accepted : s.check = .ok ()) (typed : s.Typed) (config : Config) :
    ∃ changed, (s.clean config).changed = .ok changed ∧
      s.func.Frame (Relation.TransGen (s.func.StartsFrom s.view)) (s.clean config).subject := by
  have well := check_ok.mp accepted
  obtain ⟨changed, ran, tidied⟩ := well.clean_tidied typed config
  exact ⟨changed, ran, (tidied.frame well typed fun _ _ starts => .single starts).1⟩

theorem clean_frame_looped :
    looped.func.insts[1]? = some ⟨.phi, some (⟨10⟩, ⟨1⟩), [.value ⟨1⟩, .label ⟨0⟩, .value ⟨12⟩, .label ⟨1⟩]⟩ ∧
    (looped.clean {}).subject.insts[1]? =
      some ⟨.phi, some (⟨10⟩, ⟨1⟩), [.value ⟨1⟩, .label ⟨0⟩, .value ⟨10⟩, .label ⟨1⟩]⟩ ∧
    ∃ changed, (looped.clean {}).changed = .ok changed ∧
      looped.func.Frame (Relation.TransGen (looped.func.StartsFrom looped.view)) (looped.clean {}).subject :=
  ⟨by decide +kernel, by decide +kernel, clean_frame (by decide +kernel) (by decide +kernel) {}⟩

end Scope

end DeadLanes
