import Mathlib
import DeadLanes.WellFormed.Check

namespace DeadLanes

namespace Check

theorem bind_ok {x : Except Rejection α} {next : α → Except Rejection β} {b : β} :
    (x >>= next) = .ok b ↔ ∃ a, x = .ok a ∧ next a = .ok b := by
  cases x with
  | error r => simp [bind, Except.bind]
  | ok a => simp [bind, Except.bind]

theorem exists_unit {p : Unit → Prop} : (∃ u, p u) ↔ p () := ⟨fun ⟨_, h⟩ => h, fun h => ⟨(), h⟩⟩

theorem then_ok {x : Verdict} {next : Except Rejection β} {b : β} :
    (x >>= fun _ => next) = .ok b ↔ x = .ok () ∧ next = .ok b := by
  rw [bind_ok, exists_unit]

theorem result_ok {i : Inst} :
    result i = .ok () ↔ i.opcode = .call ∨ i.defines.isSome = !i.opcode.resultless := ensure_ok

theorem results_ok {before : List Value} {is : List Inst} :
    results before is = .ok () ↔ (∀ i ∈ is, result i = .ok ()) ∧
      (is.filterMap Inst.result?).Nodup ∧ ∀ v ∈ is.filterMap Inst.result?, v ∉ before := by
  induction is generalizing before with
  | nil => simp [results]
  | cons i rest ih =>
    rw [results, then_ok, List.forall_mem_cons]
    cases defined : i.result? with
    | none => simp only [List.filterMap_cons, defined, ih, and_assoc]
    | some v =>
      rw [List.filterMap_cons_some defined, List.nodup_cons, List.forall_mem_cons, then_ok, ensure_ok, ih]
      simp only [List.mem_cons, not_or]
      constructor
      · intro given
        obtain ⟨good, fresh, goods, distinct, others⟩ := given
        exact ⟨⟨good, goods⟩, ⟨fun again => (others v again).1 rfl, distinct⟩, fresh,
          fun w member => (others w member).2⟩
      · intro given
        obtain ⟨⟨good, goods⟩, ⟨once, distinct⟩, fresh, others⟩ := given
        exact ⟨good, fresh, goods, distinct,
          fun w member => ⟨fun same => once (same ▸ member), others w member⟩⟩

end Check

-- Phis, then instructions that are neither phis nor terminators, then one
-- terminator.
def Shaped (is : List Inst) : Prop :=
  ∃ phis body last, is = phis ++ (body ++ [last]) ∧ (∀ i ∈ phis, i.opcode = .phi) ∧
    (∀ i ∈ body, i.opcode ≠ .phi ∧ i.opcode.terminator = false) ∧ last.opcode.terminator = true

namespace Check

theorem not_phi_of_terminator {op : Opcode} (ends : op.terminator = true) : op ≠ .phi := by
  rintro rfl
  cases ends

theorem shape_ok_body {b : Label} {is : List Inst} :
    shape b true is = .ok () ↔ ∃ body last, is = body ++ [last] ∧
      (∀ i ∈ body, i.opcode ≠ .phi ∧ i.opcode.terminator = false) ∧ last.opcode.terminator = true := by
  induction is with
  | nil => simp [shape]
  | cons i rest ih =>
    cases rest with
    | nil =>
      rw [shape, then_ok, ensure_ok, ensure_ok]
      constructor
      · intro given
        obtain ⟨-, ends⟩ := given
        exact ⟨[], i, rfl, by simp, ends⟩
      · intro given
        obtain ⟨body, last, same, -, ends⟩ := given
        cases body with
        | nil =>
          cases same
          exact ⟨fun phi => absurd phi (not_phi_of_terminator ends), ends⟩
        | cons j body => simp at same
    | cons j rest =>
      rw [shape, then_ok, then_ok, ensure_ok, ensure_ok, Bool.true_or, ih]
      constructor
      · intro given
        obtain ⟨goesOn, ordinary, body, last, same, middle, ends⟩ := given
        refine ⟨i :: body, last, by rw [same]; rfl, ?_, ends⟩
        exact List.forall_mem_cons.mpr ⟨⟨fun phi => absurd (ordinary phi) (by decide), goesOn⟩, middle⟩
      · intro given
        obtain ⟨body, last, same, middle, ends⟩ := given
        cases body with
        | nil => simp at same
        | cons k body =>
          obtain ⟨rfl, later⟩ := List.cons.inj same
          obtain ⟨first, middle⟩ := List.forall_mem_cons.mp middle
          exact ⟨first.2, fun phi => absurd phi first.1, body, last, later, middle, ends⟩

theorem shape_ok {b : Label} {is : List Inst} : shape b false is = .ok () ↔ Shaped is := by
  induction is with
  | nil => simp [shape, Shaped]
  | cons i rest ih =>
    by_cases phi : i.opcode = .phi
    · have goesOn : i.opcode.terminator = false := by rw [phi]; rfl
      have later : shape b false (i :: rest) = .ok () ↔ shape b false rest = .ok () := by
        cases rest with
        | nil => simp [shape, then_ok, phi, Opcode.terminator]
        | cons j rest => simp [shape, then_ok, phi, Opcode.terminator]
      rw [later, ih]
      constructor
      · intro given
        obtain ⟨phis, body, last, rfl, leading, middle, ends⟩ := given
        exact ⟨i :: phis, body, last, rfl, List.forall_mem_cons.mpr ⟨phi, leading⟩, middle, ends⟩
      · intro given
        obtain ⟨phis, body, last, same, leading, middle, ends⟩ := given
        cases phis with
        | cons j phis =>
          obtain ⟨rfl, later⟩ := List.cons.inj same
          exact ⟨phis, body, last, later, (List.forall_mem_cons.mp leading).2, middle, ends⟩
        | nil =>
          cases body with
          | nil =>
            cases same
            rw [goesOn] at ends
            cases ends
          | cons j body =>
            obtain ⟨rfl, same⟩ := List.cons.inj same
            exact absurd phi (List.forall_mem_cons.mp middle).1.1
    · have later : shape b false (i :: rest) = .ok () ↔ shape b true (i :: rest) = .ok () := by
        cases rest with
        | nil => simp [shape, then_ok, phi]
        | cons j rest => simp [shape, then_ok, phi]
      rw [later, shape_ok_body]
      constructor
      · intro given
        obtain ⟨body, last, same, middle, ends⟩ := given
        exact ⟨[], body, last, same, by simp, middle, ends⟩
      · intro given
        obtain ⟨phis, body, last, same, leading, middle, ends⟩ := given
        cases phis with
        | nil => exact ⟨body, last, same, middle, ends⟩
        | cons j phis =>
          obtain ⟨rfl, -⟩ := List.cons.inj same
          exact absurd ((List.forall_mem_cons.mp leading).1) phi

theorem vector_ok {types : TypeTable} {ty : Option TypeRef} {flaw : Flaw} {info : TypeRef × Nat} :
    vector types ty flaw = .ok info ↔ ty.bind types.vector? = some info := by
  cases ty with
  | none => simp [vector, bind_ok]
  | some t =>
    cases found : types.get? t with
    | none => simp [vector, bind_ok, TypeTable.vectorInfo, TypeTable.get, TypeTable.vector?, found, asking, Except.map]
    | some ty =>
      simp [vector, bind_ok, TypeTable.vectorInfo, TypeTable.get, TypeTable.vector?, found, asking, Except.map]

@[simp] theorem typeOf_ok {s : Scope} {v : Value} {ty : TypeRef} : typeOf s v = .ok ty ↔ s.ty? v = some ty := by
  unfold typeOf
  cases s.ty? v <;> simp

theorem covered_ok {s : Scope} {total n : Nat} {vs : List Value} :
    covered s total vs = .ok n ↔ (∀ v ∈ vs, ∃ ty, s.ty? v = some ty ∧ s.types.contains ty = true) ∧
      total + (vs.map fun v => (s.width? v).getD 1).sum = n ∧ (vs = [] ∨ n < wordBound) := by
  induction vs generalizing total with
  | nil => simp [covered]
  | cons v rest ih =>
    cases typed : s.ty? v with
    | none => simp [covered, bind_ok, typed]
    | some ty =>
      cases entered : s.types.get? ty with
      | none =>
        have missing : s.types.contains ty = false := by
          simpa [TypeTable.contains, TypeTable.get?] using entered
        simp [covered, bind_ok, typed, TypeTable.laneCount, TypeTable.vectorInfo, TypeTable.get, entered,
          asking, Except.map, missing]
      | some t =>
        have present : s.types.contains ty = true := by
          simpa [TypeTable.contains, TypeTable.get?] using (List.getElem?_eq_some_iff.mp entered).1
        have counted : asking (s.types.laneCount ty) = .ok (s.width? v) := by
          simp [TypeTable.laneCount, TypeTable.vectorInfo, TypeTable.get, entered, asking, Except.map,
            Scope.width?, typed, TypeTable.lanes?, TypeTable.vector?]
        have unfolded : covered s total (v :: rest) = .ok n ↔
            total + (s.width? v).getD 1 < wordBound ∧
              covered s (total + (s.width? v).getD 1) rest = .ok n := by
          rw [covered, bind_ok]
          simp only [typeOf_ok, typed, Option.some.injEq, exists_eq_left', bind_ok, counted, Except.ok.injEq]
          split
          · rename_i small
            exact ⟨fun later => ⟨small, later⟩, fun later => later.2⟩
          · rename_i large
            constructor
            · intro fault
              cases fault
            · intro later
              exact absurd later.1 large
        rw [unfolded, ih, List.forall_mem_cons, List.map_cons, List.sum_cons, Nat.add_assoc]
        constructor
        · intro given
          obtain ⟨small, known, total, final⟩ := given
          refine ⟨⟨⟨ty, typed, present⟩, known⟩, total, .inr ?_⟩
          rcases final with rfl | final
          · simp only [List.map_nil, List.sum_nil] at total
            omega
          · exact final
        · intro given
          obtain ⟨⟨-, known⟩, total, final⟩ := given
          have final := final.resolve_left (List.cons_ne_nil v rest)
          exact ⟨by omega, known, total, .inr final⟩

theorem selector_ok {i : Inst} {lanesA lanesB sel : Nat} :
    selector i lanesA lanesB sel = .ok () ↔
      sel = anyLane ∨ lanesA + lanesB < wordBound ∧ sel < lanesA + lanesB := by
  unfold selector
  split
  · rename_i any
    exact ⟨fun _ => .inl any, fun _ => rfl⟩
  · rename_i picks
    rw [or_iff_right picks]
    split
    · rename_i small
      rw [ensure_ok]
      exact ⟨fun low => ⟨small, low⟩, fun both => both.2⟩
    · rename_i large
      exact ⟨nofun, fun both => absurd both.1 large⟩

end Check

def Composed (s : Scope) (i : Inst) : Prop :=
  match i.opcode with
  | .insert => ∃ obj base lane elem lanes, i.asInsert? = some (obj, base, lane) ∧
      i.ty?.bind s.types.vector? = some (elem, lanes) ∧ s.ty? base = i.ty? ∧ s.ty? obj = some elem ∧
      lane < lanes
  | .extract => ∃ src lane elem lanes, i.asExtract? = some (src, lane) ∧
      (s.ty? src).bind s.types.vector? = some (elem, lanes) ∧ i.ty? = some elem ∧ lane < lanes
  | .construct => ∃ elem lanes, i.ty?.bind s.types.vector? = some (elem, lanes) ∧ i.literals = [] ∧
      (∀ v ∈ i.values, ∃ ty, s.ty? v = some ty ∧ s.types.contains ty = true) ∧
      (i.values.map fun v => (s.width? v).getD 1).sum = lanes ∧ (i.values = [] ∨ lanes < wordBound)
  | .shuffle => ∃ a b sels lanes lanesA lanesB, i.asShuffle? = some (a, b, sels) ∧
      (i.ty?.bind s.types.vector?).map (·.2) = some lanes ∧ s.width? a = some lanesA ∧
      s.width? b = some lanesB ∧ sels.length = lanes ∧
      ∀ sel ∈ sels, sel = anyLane ∨ lanesA + lanesB < wordBound ∧ sel < lanesA + lanesB
  | _ => True

theorem Scope.width_eq_some {s : Scope} {v : Value} {lanes : Nat} :
    s.width? v = some lanes ↔ ∃ elem, (s.ty? v).bind s.types.vector? = some (elem, lanes) := by
  simp only [width?, TypeTable.lanes?, Option.bind_eq_some_iff, Option.map_eq_some_iff, Prod.exists,
    exists_eq_right]
  constructor
  · intro given
    obtain ⟨ty, typed, elem, vector⟩ := given
    exact ⟨elem, ty, typed, vector⟩
  · intro given
    obtain ⟨elem, ty, typed, vector⟩ := given
    exact ⟨ty, typed, elem, vector⟩

theorem Check.composite_ok {s : Scope} {i : Inst} : composite s i = .ok () ↔ Composed s i := by
  cases op : i.opcode with
  | insert =>
    simp only [composite, Composed, op, bind_ok, exists_unit, need_ok, vector_ok, ensure_ok, typeOf_ok,
      Prod.exists]
    constructor
    · intro given
      obtain ⟨obj, base, lane, view, elem, lanes, vector, baseTy, typed, same, objTy, object, rfl, low⟩ := given
      exact ⟨obj, base, lane, objTy, lanes, view, vector, typed.trans same, object, low⟩
    · intro given
      obtain ⟨obj, base, lane, elem, lanes, view, vector, same, object, low⟩ := given
      obtain ⟨ty, result, -⟩ := Option.bind_eq_some_iff.mp vector
      exact ⟨obj, base, lane, view, elem, lanes, vector, ty, same.trans result, result.symm, elem, object, rfl, low⟩
  | extract =>
    simp only [composite, Composed, op, bind_ok, exists_unit, need_ok, vector_ok, ensure_ok, typeOf_ok,
      Prod.exists]
    constructor
    · intro given
      obtain ⟨src, lane, view, srcTy, typed, elem, lanes, vector, same, low⟩ := given
      exact ⟨src, lane, elem, lanes, view, typed ▸ vector, same, low⟩
    · intro given
      obtain ⟨src, lane, elem, lanes, view, vector, same, low⟩ := given
      obtain ⟨srcTy, typed, -⟩ := Option.bind_eq_some_iff.mp vector
      exact ⟨src, lane, view, srcTy, typed, elem, lanes, typed ▸ vector, same, low⟩
  | construct =>
    simp only [composite, Composed, op, bind_ok, exists_unit, vector_ok, ensure_ok, covered_ok,
      Prod.exists, Nat.zero_add]
    constructor
    · intro given
      obtain ⟨elem, lanes, vector, plain, total, ⟨known, rfl, final⟩, rfl⟩ := given
      exact ⟨elem, _, vector, plain, known, rfl, final⟩
    · intro given
      obtain ⟨elem, lanes, vector, plain, known, rfl, final⟩ := given
      exact ⟨elem, _, vector, plain, _, ⟨known, rfl, final⟩, rfl⟩
  | shuffle =>
    simp only [composite, Composed, op, bind_ok, exists_unit, need_ok, vector_ok, ensure_ok, each_ok, typeOf_ok,
      selector_ok, Prod.exists, Scope.width_eq_some, Option.map_eq_some_iff, exists_eq_right]
    constructor
    · intro given
      obtain ⟨a, b, sels, view, elem, lanes, vector, tyA, typedA, elemA, lanesA, first, tyB, typedB, elemB, lanesB,
        second, count, chosen⟩ := given
      exact ⟨a, b, sels, lanes, lanesA, lanesB, view, ⟨elem, vector⟩, ⟨elemA, typedA ▸ first⟩, ⟨elemB, typedB ▸ second⟩,
        count, chosen⟩
    · rintro ⟨a, b, sels, lanes, lanesA, lanesB, view, ⟨elem, vector⟩, ⟨elemA, first⟩, ⟨elemB, second⟩, count,
        chosen⟩
      obtain ⟨tyA, typedA, -⟩ := Option.bind_eq_some_iff.mp first
      obtain ⟨tyB, typedB, -⟩ := Option.bind_eq_some_iff.mp second
      exact ⟨a, b, sels, view, elem, lanes, vector, tyA, typedA, elemA, lanesA, typedA ▸ first, tyB, typedB, elemB,
        lanesB, typedB ▸ second, count, chosen⟩
  | _ => simp only [composite, Composed, op]

namespace Func

def results (f : Func) : List Value := f.insts.filterMap Inst.result?

theorem mem_labelled {f : Func} {b : Label} {block : List Placed} :
    (b, block) ∈ f.labels.zip f.blocks ↔ f.blocks[b.index]? = some block := by
  simp only [List.mem_iff_getElem?, labels, List.getElem?_zip_eq_some, List.getElem?_map]
  constructor
  · intro given
    obtain ⟨k, label, here⟩ := given
    obtain ⟨j, inside, rfl⟩ := Option.map_eq_some_iff.mp label
    rw [List.getElem?_range] at inside
    · cases inside
      exact here
    · exact (List.getElem?_eq_some_iff.mp here).1
  · intro here
    refine ⟨b.index, ?_, here⟩
    rw [List.getElem?_range (List.getElem?_eq_some_iff.mp here).1]
    rfl

theorem mem_insts {f : Func} {i : Inst} :
    i ∈ f.insts ↔ ∃ (b : Label) (block : List Placed), f.blocks[b.index]? = some block ∧ i ∈ block.map (·.inst) := by
  simp only [insts, placed, List.map_flatten, List.mem_flatten, List.mem_map]
  constructor
  · intro given
    obtain ⟨_, ⟨block, member, rfl⟩, here⟩ := given
    obtain ⟨k, found⟩ := List.mem_iff_getElem?.mp member
    exact ⟨⟨k⟩, block, found, List.mem_map.mp here⟩
  · intro given
    obtain ⟨b, block, found, here⟩ := given
    exact ⟨_, ⟨block, List.mem_of_getElem? found, rfl⟩, List.mem_map.mpr here⟩

end Func

structure Scope.WellFormed (s : Scope) : Prop where
  paired : ∀ i ∈ s.func.insts, i.opcode = .call ∨ i.defines.isSome = !i.opcode.resultless
  distinct : s.func.results.Nodup
  fresh : ∀ v ∈ s.func.results, v ∉ s.globals.values
  shaped : ∀ block ∈ s.func.blocks, Shaped (block.map (·.inst))
  defined : ∀ i ∈ s.func.insts, ∀ v, .value v ∈ i.operands → (s.ty? v).isSome = true
  targets : ∀ i ∈ s.func.insts, ∀ b, .label b ∈ i.operands → s.func.hasBlock b = true
  phis : ∀ (b : Label) (block : List Placed), s.func.blocks[b.index]? = some block → ∀ i ∈ block.map (·.inst), i.opcode = .phi →
    i.operands.length = 2 * i.incoming.length ∧ (i.incoming.map (·.2)).Perm (s.func.flowGraph.preds b)
  composed : ∀ i ∈ s.func.insts, Composed s i

theorem Check.operands_ok {s : Scope} {os : List Operand} :
    (∀ o ∈ os, operand s o = .ok ()) ↔ (∀ v, .value v ∈ os → (s.ty? v).isSome = true) ∧
      ∀ b, .label b ∈ os → s.func.hasBlock b = true := by
  constructor
  · intro good
    exact ⟨fun v member => ensure_ok.mp (good _ member), fun b member => ensure_ok.mp (good _ member)⟩
  · intro given o member
    obtain ⟨values, labels⟩ := given
    cases o with
    | value v => exact ensure_ok.mpr (values v member)
    | label b => exact ensure_ok.mpr (labels b member)
    | literal n => rfl

theorem Scope.check_ok {s : Scope} : s.check = .ok () ↔ s.WellFormed := by
  have blockwise : s.check = .ok () ↔ Check.results s.globals.values s.func.insts = .ok () ∧
      ∀ (b : Label) (block : List Placed), s.func.blocks[b.index]? = some block → Shaped (block.map (·.inst)) ∧
        ∀ i ∈ block.map (·.inst), ((∀ v, .value v ∈ i.operands → (s.ty? v).isSome = true) ∧
          ∀ b, .label b ∈ i.operands → s.func.hasBlock b = true) ∧
        (i.opcode = .phi → i.operands.length = 2 * i.incoming.length ∧
          (i.incoming.map (·.2)).Perm (s.func.flowGraph.preds b)) ∧ Composed s i := by
    simp only [check, Check.then_ok, Check.each_ok, Prod.forall, Func.mem_labelled, Check.block, Check.shape_ok,
      Check.inst, Check.phi, Check.operands_ok, Check.composite_ok, Check.ensure_ok, List.isPerm_iff]
  rw [blockwise, Check.results_ok]
  constructor
  · intro given
    obtain ⟨⟨paired, distinct, fresh⟩, blocks⟩ := given
    refine ⟨fun i member => Check.result_ok.mp (paired i member), distinct, fresh, ?_, ?_, ?_, ?_, ?_⟩
    · intro block member
      obtain ⟨k, found⟩ := List.mem_iff_getElem?.mp member
      exact (blocks ⟨k⟩ block found).1
    · intro i member
      obtain ⟨b, block, found, here⟩ := Func.mem_insts.mp member
      exact ((blocks b block found).2 i here).1.1
    · intro i member
      obtain ⟨b, block, found, here⟩ := Func.mem_insts.mp member
      exact ((blocks b block found).2 i here).1.2
    · exact fun b block found i here => ((blocks b block found).2 i here).2.1
    · intro i member
      obtain ⟨b, block, found, here⟩ := Func.mem_insts.mp member
      exact ((blocks b block found).2 i here).2.2
  · intro well
    refine ⟨⟨fun i member => Check.result_ok.mpr (well.paired i member), well.distinct, well.fresh⟩, ?_⟩
    intro b block found
    refine ⟨well.shaped block (List.mem_of_getElem? found), fun i here => ?_⟩
    have member : i ∈ s.func.insts := Func.mem_insts.mpr ⟨b, block, found, here⟩
    exact ⟨⟨well.defined i member, well.targets i member⟩, well.phis b block found i here,
      well.composed i member⟩

end DeadLanes
