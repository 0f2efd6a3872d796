import DeadLanes.Proofs.Edits
import DeadLanes.Proofs.Sufficiency

namespace DeadLanes

-- Accepted functions stay accepted while they are cleaned up.

theorem Func.flowGraph_congr {f g : Func} (F : List Placed → List Placed) (blocks : g.blocks = f.blocks.map F)
    (same : ∀ block ∈ f.blocks, exits (F block) = exits block) : g.flowGraph = f.flowGraph := by
  have labels : g.labels = f.labels := by simp [Func.labels, blocks]
  have edges : g.exitEdges = f.exitEdges := by
    rw [exitEdges, exitEdges, labels, blocks, List.zip_map_right, List.flatMap_map, List.flatMap_def, List.flatMap_def]
    refine congrArg List.flatten (List.map_congr_left fun pair member => ?_)
    dsimp only [Prod.map]
    rw [same pair.2 (List.of_mem_zip member).2, id]
  rw [flowGraph, flowGraph, labels, edges]

theorem exits_exchange (ρ : Inst → Value → Value) (block : List Placed) :
    exits (block.map fun p => { p with inst := p.inst.mapValues (ρ p.inst) }) = exits block := by
  unfold exits
  rw [List.getLast?_map]
  cases block.getLast? with
  | none => rfl
  | some p => exact p.inst.successors_mapValues (ρ p.inst)

theorem exits_mapValues (ρ : Value → Value) (block : List Placed) :
    exits (block.map fun p => { p with inst := p.inst.mapValues ρ }) = exits block :=
  exits_exchange (fun _ => ρ) block

namespace Func

variable (f : Func) (ρ : Inst → Value → Value)

theorem flowGraph_exchange : (f.mapInsts fun i => i.mapValues (ρ i)).flowGraph = f.flowGraph :=
  flowGraph_congr (·.map fun p => { p with inst := p.inst.mapValues (ρ p.inst) }) rfl fun block _ => exits_exchange ρ block

theorem flowGraph_mapValues (ρ : Value → Value) : (f.mapValues ρ).flowGraph = f.flowGraph :=
  f.flowGraph_exchange fun _ => ρ

end Func

theorem Opcode.isPure_iff {op : Opcode} : op.isPure = true ↔ op.sideEffect = false ∧ op.terminator = false := by
  simp [isPure]

theorem Shaped.map {is : List Inst} (shaped : Shaped is) {g : Inst → Inst} (same : ∀ i, (g i).opcode = i.opcode) :
    Shaped (is.map g) := by
  obtain ⟨phis, body, last, rfl, first, middle, ends⟩ := shaped
  refine ⟨phis.map g, body.map g, g last, by simp, ?_, ?_, by rw [same, ends]⟩
  · intro i member
    obtain ⟨j, here, rfl⟩ := List.mem_map.mp member
    rw [same, first j here]
  · intro i member
    obtain ⟨j, here, rfl⟩ := List.mem_map.mp member
    rw [same]
    exact middle j here

theorem Shaped.filter {block : List Placed} (shaped : Shaped (block.map (·.inst))) {gone : List InstRef}
    (pure' : ∀ p ∈ block, p.ref ∈ gone → p.inst.opcode.isPure = true) :
    Shaped ((block.filter (·.ref ∉ gone)).map (·.inst)) ∧
      (block.filter (·.ref ∉ gone)).getLast? = block.getLast? := by
  obtain ⟨phis, body, last, split, first, middle, ends⟩ := shaped
  obtain ⟨front, back, rfl, leading, rest⟩ := List.map_eq_append_iff.mp split
  obtain ⟨inner, final, rfl, trailing, single⟩ := List.map_eq_append_iff.mp rest
  obtain ⟨p, rfl, rfl⟩ := List.map_eq_singleton_iff.mp single
  have stays : p.ref ∉ gone := by
    intro listed
    have lone := (Opcode.isPure_iff.mp (pure' p (by simp) listed)).2
    cases ends.symm.trans lone
  have kept : [p].filter (fun q => decide (q.ref ∉ gone)) = [p] := by simp [stays]
  constructor
  · refine ⟨(front.filter (·.ref ∉ gone)).map (·.inst), (inner.filter (·.ref ∉ gone)).map (·.inst), p.inst, ?_, ?_, ?_,
      ends⟩
    · rw [List.filter_append, List.filter_append, kept]
      simp
    · intro i member
      obtain ⟨q, here, rfl⟩ := List.mem_map.mp member
      exact first _ (leading ▸ List.mem_map_of_mem (List.mem_filter.mp here).1)
    · intro i member
      obtain ⟨q, here, rfl⟩ := List.mem_map.mp member
      exact middle _ (trailing ▸ List.mem_map_of_mem (List.mem_filter.mp here).1)
  · rw [List.filter_append, List.filter_append, kept, ← List.append_assoc, ← List.append_assoc]
    simp

namespace TypeTable

-- Types that are in the one table are in the other, in the same place.
def Extends (t t' : TypeTable) : Prop := ∀ r ty, t.get? r = some ty → t'.get? r = some ty

variable {t t' : TypeTable}

theorem Extends.refl (t : TypeTable) : t.Extends t := fun _ _ found => found

theorem contains_iff {r : TypeRef} : t.contains r = true ↔ ∃ ty, t.get? r = some ty := by
  simp only [contains, get?, decide_eq_true_eq, ← Option.isSome_iff_exists, isSome_getElem?]

theorem Extends.contains (grown : t.Extends t') {r : TypeRef} (known : t.contains r = true) : t'.contains r = true := by
  obtain ⟨ty, found⟩ := contains_iff.mp known
  exact contains_iff.mpr ⟨ty, grown r ty found⟩

theorem Extends.vector? (grown : t.Extends t') {r : TypeRef} (known : t.contains r = true) : t'.vector? r = t.vector? r := by
  obtain ⟨ty, found⟩ := contains_iff.mp known
  rw [TypeTable.vector?, TypeTable.vector?, found, grown r ty found]

theorem Extends.vector_eq_some (grown : t.Extends t') {ty : Option TypeRef} {info : TypeRef × Nat}
    (vector : ty.bind t.vector? = some info) : ty.bind t'.vector? = some info := by
  obtain ⟨r, rfl, found⟩ := Option.bind_eq_some_iff.mp vector
  obtain ⟨entry, entered, -⟩ := Option.bind_eq_some_iff.mp found
  exact (grown.vector? (contains_iff.mpr ⟨entry, entered⟩)).trans found

end TypeTable

def Scope.Entered (s : Scope) (v : Value) : Prop := ∃ ty, s.ty? v = some ty ∧ s.types.contains ty = true

theorem Scope.entered_of_width {s : Scope} {v : Value} {lanes : Nat} (count : s.width? v = some lanes) : s.Entered v := by
  obtain ⟨elem, found⟩ := width_eq_some.mp count
  obtain ⟨ty, typed, vector⟩ := Option.bind_eq_some_iff.mp found
  obtain ⟨entry, entered, -⟩ := Option.bind_eq_some_iff.mp vector
  exact ⟨ty, typed, TypeTable.contains_iff.mpr ⟨entry, entered⟩⟩

-- Operands may be exchanged for others, and there may be more types, as long as
-- constructs and shuffles get values with as many lanes, and inserts and
-- extracts values of the same type.
theorem Composed.exchange {s t : Scope} (types : s.types.Extends t.types) {i : Inst} {ρ : Value → Value}
    (entered : ∀ w ∈ i.values, s.Entered w → t.Entered (ρ w))
    (widths : i.opcode = .construct ∨ i.opcode = .shuffle → ∀ w ∈ i.values, s.Entered w → t.width? (ρ w) = s.width? w)
    (fixed : i.opcode = .insert ∨ i.opcode = .extract → ∀ w ∈ i.values, ∀ ty, s.ty? w = some ty → t.ty? (ρ w) = some ty)
    (composed : Composed s i) : Composed t (i.mapValues ρ) := by
  unfold Composed at composed ⊢
  rw [Inst.opcode_mapValues]
  cases op : i.opcode with
  | insert =>
    rw [op] at composed
    have same := fixed (.inl op)
    obtain ⟨obj, base, lane, elem, lanes, parsed, own, typed, object, low⟩ := composed
    have values := Inst.asInsert?_values parsed
    obtain ⟨ty, result, -⟩ := Option.bind_eq_some_iff.mp own
    refine ⟨ρ obj, ρ base, lane, elem, lanes, by rw [Inst.asInsert?_mapValues, parsed]; rfl,
      types.vector_eq_some own, ?_, same obj (by simp [values]) elem object, low⟩
    exact (same base (by simp [values]) ty (typed.trans result)).trans result.symm
  | extract =>
    rw [op] at composed
    obtain ⟨src, lane, elem, lanes, parsed, source, typed, low⟩ := composed
    obtain ⟨ty, known, vector⟩ := Option.bind_eq_some_iff.mp source
    refine ⟨ρ src, lane, elem, lanes, by rw [Inst.asExtract?_mapValues, parsed]; rfl, ?_, typed, low⟩
    rw [fixed (.inr op) src (by simp [Inst.asExtract?_values parsed]) ty known]
    exact types.vector_eq_some vector
  | construct =>
    rw [op] at composed
    obtain ⟨elem, lanes, own, plain, known, total, small⟩ := composed
    refine ⟨elem, lanes, types.vector_eq_some own, by rw [Inst.literals_mapValues, plain], ?_, ?_, ?_⟩
    · intro v member
      obtain ⟨w, named, rfl⟩ := Inst.mem_values_mapValues.mp member
      exact entered w named (known w named)
    · rw [Inst.values_mapValues, List.map_map, ← total]
      refine congrArg List.sum (List.map_congr_left fun w named => ?_)
      exact congrArg (Option.getD · 1) (widths (.inl op) w named (known w named))
    · rw [Inst.values_mapValues, List.map_eq_nil_iff]
      exact small
  | shuffle =>
    rw [op] at composed
    have same := widths (.inr op)
    obtain ⟨a, b, sels, lanes, lanesA, lanesB, parsed, own, countA, countB, length, low⟩ := composed
    have values := Inst.asShuffle?_values parsed
    obtain ⟨info, found, rfl⟩ := Option.map_eq_some_iff.mp own
    refine ⟨ρ a, ρ b, sels, info.2, lanesA, lanesB, by rw [Inst.asShuffle?_mapValues, parsed]; rfl, ?_,
      (same a (by simp [values]) (Scope.entered_of_width countA)).trans countA,
      (same b (by simp [values]) (Scope.entered_of_width countB)).trans countB, length, low⟩
    exact Option.map_eq_some_iff.mpr ⟨info, types.vector_eq_some found, rfl⟩
  | _ => trivial

theorem Composed.mapValues {s t : Scope} (types : s.types.Extends t.types) {i : Inst} {ρ : Value → Value}
    (same : ∀ w ∈ i.values, ∀ ty, s.ty? w = some ty → t.ty? (ρ w) = some ty) (composed : Composed s i) :
    Composed t (i.mapValues ρ) := by
  refine composed.exchange types (fun w named entered => ?_) (fun _ w named entered => ?_) fun _ => same
  · obtain ⟨ty, typed, known⟩ := entered
    exact ⟨ty, same w named ty typed, types.contains known⟩
  · obtain ⟨ty, typed, known⟩ := entered
    simp only [Scope.width?, typed, same w named ty typed, Option.bind_some, TypeTable.lanes?, types.vector? known]

def LaneRule.mapValues (ρ : Value → Value) : LaneRule → LaneRule
  | insert obj base lane lanes => insert (ρ obj) (ρ base) lane lanes
  | extract src lane => extract (ρ src) lane
  | construct parts => construct (parts.map fun p => (ρ p.1, p.2))
  | shuffle a b lanesA sels => shuffle (ρ a) (ρ b) lanesA sels
  | phi incoming => phi (incoming.map ρ)
  | terminal => terminal
  | fallback operands => fallback (operands.map ρ)

namespace LaneRule

variable {view other : LaneView} {i : Inst} {ρ : Value → Value}

theorem lanewise?_mapValues (same : ∀ w ∈ i.values, other.width (ρ w) = view.width w)
    (own : i.result?.bind other.tracked = i.result?.bind view.tracked) :
    lanewise? other (i.mapValues ρ) = (lanewise? view i).map (mapValues ρ) := by
  unfold lanewise?
  rw [Inst.opcode_mapValues, Inst.result?_mapValues, own]
  split
  case h_4 => rw [Inst.asInsert?_mapValues, Option.map_map, Option.map_map]; rfl
  case h_5 =>
    rw [Inst.asExtract?_mapValues]
    cases parsed : i.asExtract? with
    | none => rfl
    | some pair =>
      have source := same pair.1 (by simp [Inst.asExtract?_values parsed])
      simp only [Option.map_some, LaneView.tracked, Option.filter_some, source]
      split <;> rfl
  case h_6 =>
    rw [Option.map_some, mapValues, Inst.values_mapValues, List.map_map, List.map_map]
    refine congrArg (fun parts => some (construct parts)) (List.map_congr_left fun w named => ?_)
    dsimp only [Function.comp]
    rw [same w named]
  case h_7 =>
    rw [Inst.asShuffle?_mapValues]
    cases parsed : i.asShuffle? with
    | none => rfl
    | some pick =>
      have left := same pick.1 (by simp [Inst.asShuffle?_values parsed])
      simp only [Option.map_some, Option.bind_some, left, Option.map_map]
      rfl
  case h_8 => rw [Inst.incoming_mapValues, List.map_map, Option.map_some, mapValues, List.map_map]; rfl
  all_goals rfl

theorem of_mapValues (same : ∀ w ∈ i.values, other.width (ρ w) = view.width w)
    (own : i.result?.bind other.tracked = i.result?.bind view.tracked) :
    of other (i.mapValues ρ) = (of view i).mapValues ρ := by
  rw [of, of, lanewise?_mapValues same own, Inst.values_mapValues]
  cases lanewise? view i <;> rfl

theorem partDemands_mapValues (live : LaneSet) (offset : Nat) (parts : List (Value × Nat)) :
    partDemands live offset (parts.map fun p => (ρ p.1, p.2)) =
      (partDemands live offset parts).map fun d => (ρ d.1, d.2) := by
  induction parts generalizing offset with
  | nil => rfl
  | cons p rest ih => rw [List.map_cons, partDemands, partDemands, ih, List.map_cons]

theorem demands_mapValues (rule : LaneRule) (live : LaneSet) :
    (rule.mapValues ρ).demands live = (rule.demands live).map fun d => (ρ d.1, d.2) := by
  unfold demands
  cases nothing : live.isEmpty with
  | true => rfl
  | false =>
    simp only [Bool.false_eq_true, if_false]
    cases rule with
    | insert obj base lane lanes =>
      dsimp only [mapValues]
      split <;> rfl
    | construct parts => exact partDemands_mapValues live 0 parts
    | phi incoming => simp [mapValues]
    | fallback operands => simp [mapValues]
    | _ => rfl

end LaneRule

theorem LaneRule.mapValues_id (rule : LaneRule) : rule.mapValues id = rule := by
  cases rule <;> simp [mapValues]

namespace Scope

variable {s : Scope}

theorem ty?_mapValues (s : Scope) (ρ : Value → Value) : ({ s with func := s.func.mapValues ρ } : Scope).ty? = s.ty? := by
  funext v
  rw [ty?, ty?, Func.ty?_mapValues]

theorem ty?_exchange (s : Scope) (ρ : Inst → Value → Value) :
    ({ s with func := s.func.mapInsts fun i => i.mapValues (ρ i) } : Scope).ty? = s.ty? := by
  funext v
  rw [ty?, ty?, Func.ty?_exchange]

theorem WellFormed.exchange (well : s.WellFormed) {ρ : Inst → Value → Value}
    (typed : ∀ i ∈ s.func.insts, ∀ v ∈ i.values, (s.ty? (ρ i v)).isSome = true)
    (composed : ∀ i ∈ s.func.insts,
      Composed { s with func := s.func.mapInsts fun i => i.mapValues (ρ i) } (i.mapValues (ρ i))) :
    ({ s with func := s.func.mapInsts fun i => i.mapValues (ρ i) } : Scope).WellFormed := by
  have origin : ∀ i ∈ (s.func.mapInsts fun i => i.mapValues (ρ i)).insts, ∃ j ∈ s.func.insts, j.mapValues (ρ j) = i := by
    intro i member
    rw [Func.insts_mapInsts] at member
    exact List.mem_map.mp member
  refine ⟨?_, ?_, ?_, ?_, ?_, ?_, ?_, ?_⟩
  · intro i member
    obtain ⟨j, here, rfl⟩ := origin i member
    exact well.paired j here
  · rw [Func.results_exchange]
    exact well.distinct
  · rw [Func.results_exchange]
    exact well.fresh
  · intro block member
    obtain ⟨before, here, rfl⟩ := List.mem_map.mp member
    have shaped := (well.shaped before here).map (g := fun i => i.mapValues (ρ i)) fun _ => rfl
    rw [List.map_map] at shaped ⊢
    exact shaped
  · intro i member v named
    obtain ⟨j, here, rfl⟩ := origin i member
    rw [ty?_exchange]
    obtain ⟨w, read, rfl⟩ := Inst.mem_values_mapValues.mp (Inst.mem_values.mpr named)
    exact typed j here w read
  · intro i member b named
    obtain ⟨j, here, rfl⟩ := origin i member
    obtain ⟨o, operand, same⟩ := List.mem_map.mp named
    cases o with
    | label c =>
      cases same
      exact (s.func.hasBlock_mapInsts _ b).trans (well.targets j here b operand)
    | _ => cases same
  · intro b block found i here phi
    obtain ⟨before, there, rfl⟩ := Option.map_eq_some_iff.mp ((List.getElem?_map ..).symm.trans found)
    rw [List.map_map] at here
    obtain ⟨p, member, rfl⟩ := List.mem_map.mp here
    obtain ⟨length, preds⟩ := well.phis b before there p.inst (List.mem_map_of_mem member) phi
    refine ⟨?_, ?_⟩
    · dsimp only [Function.comp]
      rw [Inst.incoming_mapValues, List.length_map]
      exact (List.length_map _).trans length
    · simp only [Function.comp, Inst.incoming_mapValues, List.map_map, Func.flowGraph_exchange]
      exact preds
  · intro i member
    obtain ⟨j, here, rfl⟩ := origin i member
    exact composed j here

theorem WellFormed.mapValues (well : s.WellFormed) {ρ : Value → Value} (typed : ∀ w, s.ty? (ρ w) = s.ty? w) :
    ({ s with func := s.func.mapValues ρ } : Scope).WellFormed := by
  refine well.exchange (ρ := fun _ => ρ) (fun i member v named => ?_) fun i member => ?_
  · rw [typed]
    exact well.defined i member v (Inst.mem_values.mp named)
  · refine Composed.mapValues (t := { s with func := s.func.mapValues ρ }) (.refl s.types) (fun w _ ty before => ?_)
      (well.composed i member)
    rw [ty?_mapValues, typed, before]

theorem Typed.mapValues (all : s.Typed) {ρ : Value → Value} (typed : ∀ w, s.ty? (ρ w) = s.ty? w) :
    ({ s with func := s.func.mapValues ρ } : Scope).Typed := by
  intro i member v named
  obtain ⟨j, here, rfl⟩ := Func.mem_insts_mapValues.mp member
  rw [known, ty?_mapValues]
  rcases List.mem_append.mp named with result | operand
  · exact all j here v (List.mem_append_left _ result)
  · obtain ⟨w, read, rfl⟩ := Inst.mem_values_mapValues.mp operand
    rw [typed]
    exact all j here w (List.mem_append_right _ read)

theorem PhisTyped.mapValues (phis : s.PhisTyped) {ρ : Value → Value} (typed : ∀ w, s.ty? (ρ w) = s.ty? w) :
    ({ s with func := s.func.mapValues ρ } : Scope).PhisTyped := by
  intro i member pair incoming
  obtain ⟨j, here, rfl⟩ := Func.mem_insts_mapValues.mp member
  rw [Inst.incoming_mapValues] at incoming
  obtain ⟨⟨w, p⟩, before, rfl⟩ := List.mem_map.mp incoming
  rw [ty?_mapValues, typed]
  exact phis j here (w, p) before

theorem WellFormed.own_of_dead (well : s.WellFormed) {view : LaneView} {live : Value → LaneSet} {r : InstRef}
    {v base : Value} (dead : s.func.DeadInsert view live r v base) : v ∉ s.globals.values := by
  obtain ⟨i, obj, lane, placed, result, -⟩ := dead.placed
  exact well.fresh v (Func.mem_results.mpr ⟨_, placed, result⟩)

theorem WellFormed.ty?_subst (well : s.WellFormed) {view : LaneView} {live : Value → LaneSet} {r : InstRef}
    {v base : Value} (dead : s.func.DeadInsert view live r v base) (w : Value) :
    s.ty? (Value.subst v base w) = s.ty? w := by
  unfold Value.subst
  split
  · rename_i same
    subst same
    obtain ⟨i, obj, lane, placed, result, parsed, -⟩ := dead.placed
    have member := Func.mem_insts_iff_placed.mpr ⟨r, placed⟩
    obtain ⟨ty, defined⟩ := Inst.result?_eq_some.mp result
    have composed := well.composed i member
    simp only [Composed, (Inst.asInsert?_eq_some.mp parsed).1] at composed
    obtain ⟨_, _, _, _, _, again, _, typed, _⟩ := composed
    cases parsed.symm.trans again
    rw [typed, well.ty?_result member defined, Inst.ty?, defined]
    rfl
  · rfl

def discarded (s : Scope) (gone : List InstRef) : Scope := { s with func := s.func.discard gone }

theorem ty?_discard (distinct : s.func.results.Nodup) {gone : List InstRef} (idle : s.func.Idle gone) {i : Inst}
    (member : i ∈ (s.func.discard gone).insts) {v : Value} (mentioned : v ∈ i.mentions) :
    ({ s with func := s.func.discard gone } : Scope).ty? v = s.ty? v := by
  obtain ⟨r, before, stays⟩ := Func.mem_insts_discard.mp member
  have others := distinct.sublist (s.func.results_discard_sublist gone)
  have defines : ∀ ty, (s.func.discard gone).ty? v = some ty ↔ s.func.ty? v = some ty := by
    intro ty
    rw [Func.ty?_eq_some others, Func.ty?_eq_some distinct]
    constructor
    · intro left
      obtain ⟨j, there, defined⟩ := left
      exact ⟨j, s.func.insts_discard_subset gone there, defined⟩
    · intro whole
      obtain ⟨j, inside, defined⟩ := whole
      obtain ⟨q, there⟩ := Func.mem_insts_iff_placed.mp inside
      refine ⟨j, Func.mem_insts_discard.mpr ⟨q, there, fun listed => ?_⟩, defined⟩
      have result : j.result? = some v := Inst.result?_eq_some.mpr ⟨ty, defined⟩
      rcases List.mem_append.mp mentioned with own | operand
      · cases Func.defined_once distinct there before result (Option.mem_toList.mp own)
        exact stays listed
      · exact stays ((idle _ there listed).2 v result _ before operand)
  rw [ty?, ty?]
  exact congrArg (Option.or · _) (Option.ext defines)

theorem width_discarded (distinct : s.func.results.Nodup) {gone : List InstRef} (idle : s.func.Idle gone) {i : Inst}
    (member : i ∈ (s.discarded gone).func.insts) {v : Value} (mentioned : v ∈ i.mentions) :
    (s.discarded gone).view.width v = s.view.width v := by
  simp only [view, width?, discarded, ty?_discard distinct idle member mentioned]

theorem WellFormed.shaped_discard (well : s.WellFormed) {gone : List InstRef} (idle : s.func.Idle gone)
    {block : List Placed} (member : block ∈ s.func.blocks) : Shaped ((block.filter (·.ref ∉ gone)).map (·.inst)) ∧
      (block.filter (·.ref ∉ gone)).getLast? = block.getLast? := by
  apply (well.shaped block member).filter
  intro p here listed
  exact (idle p (List.mem_flatten.mpr ⟨block, member, here⟩) listed).1

theorem WellFormed.flowGraph_discard (well : s.WellFormed) {gone : List InstRef} (idle : s.func.Idle gone) :
    (s.func.discard gone).flowGraph = s.func.flowGraph := by
  apply Func.flowGraph_congr (·.filter (·.ref ∉ gone)) rfl
  intro block member
  rw [exits, exits, (well.shaped_discard idle member).2]

theorem WellFormed.discard (well : s.WellFormed) {gone : List InstRef} (idle : s.func.Idle gone) :
    ({ s with func := s.func.discard gone } : Scope).WellFormed := by
  have members := s.func.insts_discard_subset gone
  have sublist := s.func.results_discard_sublist gone
  refine ⟨fun i member => well.paired i (members member), well.distinct.sublist sublist,
    fun v member => well.fresh v (sublist.subset member), ?_, ?_, ?_, ?_, ?_⟩
  · intro block member
    obtain ⟨before, here, rfl⟩ := List.mem_map.mp member
    exact (well.shaped_discard idle here).1
  · intro i member v named
    rw [ty?_discard well.distinct idle member (List.mem_append_right _ (Inst.mem_values.mpr named))]
    exact well.defined i (members member) v named
  · intro i member b named
    exact (s.func.hasBlock_discard gone b).trans (well.targets i (members member) b named)
  · intro b block found i here phi
    obtain ⟨before, there, rfl⟩ := Option.map_eq_some_iff.mp ((s.func.block_discard gone _).symm.trans found)
    dsimp only
    rw [well.flowGraph_discard idle]
    exact well.phis b before there i (List.map_subset _ (List.filter_subset_self _) here) phi
  · intro i member
    rw [← i.mapValues_id]
    refine Composed.mapValues (t := { s with func := s.func.discard gone }) (.refl s.types) (fun w named ty before => ?_)
      (well.composed i (members member))
    exact (ty?_discard well.distinct idle member (List.mem_append_right _ named)).trans before

theorem Typed.discard (all : s.Typed) (distinct : s.func.results.Nodup) {gone : List InstRef} (idle : s.func.Idle gone) :
    ({ s with func := s.func.discard gone } : Scope).Typed := by
  intro i member v named
  rw [known, ty?_discard distinct idle member named]
  exact all i (s.func.insts_discard_subset gone member) v named

theorem PhisTyped.discard (phis : s.PhisTyped) (distinct : s.func.results.Nodup) {gone : List InstRef}
    (idle : s.func.Idle gone) : ({ s with func := s.func.discard gone } : Scope).PhisTyped := by
  intro i member pair incoming
  rw [ty?_discard distinct idle member (List.mem_append_right _ (Inst.mem_incoming incoming))]
  exact phis i (s.func.insts_discard_subset gone member) pair incoming

end Scope

end DeadLanes
