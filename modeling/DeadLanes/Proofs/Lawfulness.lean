import DeadLanes.Proofs.Overflow

namespace DeadLanes

-- Acceptance in plain words, without the means of the checker: no flow graph, no
-- table of the types seen so far, no operands taken apart.

-- Control may go from `b` to `c`. Two arms that name the same block are one way.
def Func.LeadsTo (f : Func) (b c : Label) : Prop :=
  ∃ block last, f.blocks[b.index]? = some block ∧ block.getLast? = some last ∧
    last.inst.opcode.terminator = true ∧ .label c ∈ last.inst.operands

namespace Scope

def HasType (s : Scope) (v : Value) (t : TypeRef) : Prop :=
  s.globals.ty? v = some t ∨ ∃ i ∈ s.func.insts, i.defines = some (v, t)

def HasLanes (s : Scope) (v : Value) (lanes : Nat) : Prop :=
  ∃ t elem, s.HasType v t ∧ s.types.get? t = some (.vector elem lanes)

def Spans (s : Scope) (v : Value) (width : Nat) : Prop :=
  s.HasLanes v width ∨ width = 1 ∧ ∃ t, s.HasType v t ∧ ∀ elem lanes, s.types.get? t ≠ some (.vector elem lanes)

-- A phi of block `b` names each block that leads there once, with a value.
def Merges (s : Scope) (b : Label) (i : Inst) : Prop :=
  ∃ arms : List (Value × Label), i.operands = arms.flatMap (fun arm => [.value arm.1, .label arm.2]) ∧
    (arms.map (·.2)).Nodup ∧ ∀ c, c ∈ arms.map (·.2) ↔ s.func.LeadsTo c b

-- Only the four instructions that take vectors apart or put them together have
-- to be of a certain shape.
def Composes (s : Scope) (i : Inst) : Prop :=
  match i.opcode with
  | .insert => ∃ obj base lane t elem lanes, i.operands = [.value obj, .value base, .literal lane] ∧ i.ty? = some t ∧
      s.types.get? t = some (.vector elem lanes) ∧ s.HasType base t ∧ s.HasType obj elem ∧ lane < lanes
  | .extract => ∃ src lane t elem lanes, i.operands = [.value src, .literal lane] ∧ s.HasType src t ∧
      s.types.get? t = some (.vector elem lanes) ∧ i.ty? = some elem ∧ lane < lanes
  | .construct => ∃ t elem widths, i.ty? = some t ∧ s.types.get? t = some (.vector elem widths.sum) ∧
      (∀ n, .literal n ∉ i.operands) ∧ List.Forall₂ s.Spans i.values widths
  | .shuffle => ∃ (a b : Value) (sels : List Nat) (t elem : TypeRef) (lanesA lanesB : Nat),
      i.operands = .value a :: .value b :: sels.map .literal ∧ i.ty? = some t ∧
      s.types.get? t = some (.vector elem sels.length) ∧ s.HasLanes a lanesA ∧ s.HasLanes b lanesB ∧
      ∀ sel ∈ sels, sel = anyLane ∨ sel < lanesA + lanesB
  | _ => True

structure Lawful (s : Scope) : Prop where
  results : ∀ i ∈ s.func.insts, i.opcode = .call ∨ i.opcode.resultless = true ∧ i.defines = none ∨
    i.opcode.resultless = false ∧ ∃ d, i.defines = some d
  distinct : s.func.results.Nodup
  fresh : ∀ v ∈ s.func.results, v ∉ s.globals.values
  values : ∀ i ∈ s.func.insts, ∀ v, .value v ∈ i.operands → v ∈ s.globals.values ∨ v ∈ s.func.results
  labels : ∀ i ∈ s.func.insts, ∀ b, .label b ∈ i.operands → b.index < s.func.blocks.length
  shaped : ∀ block ∈ s.func.blocks, Shaped (block.map (·.inst))
  phis : ∀ (b : Label) (block : List Placed), s.func.blocks[b.index]? = some block →
    ∀ i ∈ block.map (·.inst), i.opcode = .phi → s.Merges b i
  composes : ∀ i ∈ s.func.insts, s.Composes i

-- Sums of lane counts that the checker has to form are numbers it can hold.
structure Narrow (s : Scope) : Prop where
  constructs : ∀ i ∈ s.func.insts, i.opcode = .construct → (∀ v ∈ i.values, (s.ty? v).isSome = true) →
    (i.values.map fun v => (s.width? v).getD 1).sum < wordBound
  shuffles : ∀ i ∈ s.func.insts, ∀ parts ∈ i.asShuffle?, ∀ lanesA ∈ s.width? parts.1, ∀ lanesB ∈ s.width? parts.2.1,
    lanesA + lanesB < wordBound

end Scope

theorem nodup_eraseDups [BEq α] [LawfulBEq α] : (xs : List α) → xs.eraseDups.Nodup
  | [] => by simp
  | x :: rest => by
    rw [List.eraseDups_cons, List.nodup_cons]
    exact ⟨by simp, nodup_eraseDups _⟩
termination_by xs => xs.length
decreasing_by exact Nat.lt_succ_of_le (List.length_filter_le _ _)

theorem isSome_lookup [BEq α] [LawfulBEq α] {key : α} {entries : List (α × β)} :
    (entries.lookup key).isSome = true ↔ key ∈ entries.map (·.1) := by
  rw [List.lookup_isSome_iff, List.mem_map]
  simp only [beq_iff_eq, eq_comm (a := key)]

theorem TypeTable.vector?_eq_some {types : TypeTable} {t elem : TypeRef} {lanes : Nat} :
    types.vector? t = some (elem, lanes) ↔ types.get? t = some (.vector elem lanes) := by
  rw [vector?, Option.bind_eq_some_iff]
  constructor
  · rintro ⟨ty, found, view⟩
    cases ty with
    | vector elem lanes =>
      cases view
      exact found
    | _ => cases view
  · exact fun found => ⟨_, found, rfl⟩

namespace Func

variable {f : Func}

theorem mem_exitEdges {b c : Label} : (b, c) ∈ f.exitEdges ↔ f.LeadsTo b c := by
  simp only [exitEdges, List.mem_flatMap, List.mem_map, Prod.exists, Prod.mk.injEq, mem_labelled, LeadsTo]
  constructor
  · rintro ⟨_, block, found, _, exit, rfl, rfl⟩
    unfold exits at exit
    split at exit
    · rename_i last final
      unfold Inst.successors at exit
      split at exit
      · rename_i ends
        obtain ⟨o, named, label⟩ := List.mem_filterMap.mp exit
        cases o with
        | label b =>
          cases label
          exact ⟨block, last, found, final, ends, named⟩
        | value v => cases label
        | literal n => cases label
      · cases exit
    · cases exit
  · rintro ⟨block, last, found, final, ends, named⟩
    refine ⟨b, block, found, c, ?_, rfl, rfl⟩
    rw [exits, final]
    dsimp only
    rw [Inst.successors, if_pos ends]
    exact List.mem_filterMap.mpr ⟨_, named, rfl⟩

end Func

-- What is relied on in a flow graph. Edges that run parallel are one, and the
-- way from a block to itself is once among those that lead to it.
structure FlowGraph.Lawful (g : FlowGraph) (f : Func) : Prop where
  merged : g.edges.Nodup
  edge : ∀ b c, (b, c) ∈ g.edges ↔ f.LeadsTo b c
  once : ∀ c, (g.preds c).Nodup
  incoming : ∀ b c, b ∈ g.preds c ↔ f.LeadsTo b c
  loop : ∀ b, f.LeadsTo b b → (g.preds b).count b = 1

theorem FlowGraph.mem_preds {g : FlowGraph} {b c : Label} : b ∈ g.preds c ↔ (b, c) ∈ g.edges := by
  simp only [preds, List.mem_map, List.mem_filter, decide_eq_true_eq]
  constructor
  · rintro ⟨⟨_, _⟩, ⟨edge, rfl⟩, rfl⟩
    exact edge
  · exact fun edge => ⟨(b, c), ⟨edge, rfl⟩, rfl⟩

theorem FlowGraph.nodup_preds {g : FlowGraph} (merged : g.edges.Nodup) (c : Label) : (g.preds c).Nodup := by
  refine List.Nodup.map_on ?_ (merged.filter _)
  rintro ⟨b, d⟩ left ⟨b', d'⟩ right same
  have into := of_decide_eq_true (List.mem_filter.mp left).2
  have onto := of_decide_eq_true (List.mem_filter.mp right).2
  exact Prod.ext same (into.trans onto.symm)

theorem Func.flowGraph_lawful (f : Func) : f.flowGraph.Lawful f := by
  have merged : f.flowGraph.edges.Nodup := nodup_eraseDups _
  have edge : ∀ b c, (b, c) ∈ f.flowGraph.edges ↔ f.LeadsTo b c := fun b c => List.mem_eraseDups.trans mem_exitEdges
  have incoming : ∀ b c, b ∈ f.flowGraph.preds c ↔ f.LeadsTo b c := fun b c => FlowGraph.mem_preds.trans (edge b c)
  refine ⟨merged, edge, FlowGraph.nodup_preds merged, incoming, fun b loops => ?_⟩
  exact List.count_eq_one_of_mem (FlowGraph.nodup_preds merged b) ((incoming b b).mpr loops)

namespace Inst

theorem pairs_flatMap (arms : List (Value × Label)) :
    pairs (arms.flatMap fun arm => [.value arm.1, .label arm.2]) = arms := by
  induction arms with
  | nil => rfl
  | cons arm rest ih => exact congrArg (arm :: ·) ih

theorem length_pairs (os : List Operand) : 2 * (pairs os).length ≤ os.length := by
  fun_induction pairs os with
  | case1 v b rest ih => simp only [List.length_cons]; omega
  | case2 o p rest _ ih => simp only [List.length_cons]; omega
  | case3 => exact Nat.zero_le _

theorem flatMap_pairs {os : List Operand} (even : os.length = 2 * (pairs os).length) :
    os = (pairs os).flatMap fun arm => [.value arm.1, .label arm.2] := by
  fun_induction pairs os with
  | case1 v b rest ih =>
    simp only [List.length_cons] at even
    exact congrArg (fun os => Operand.value v :: Operand.label b :: os) (ih (by omega))
  | case2 o p rest _ ih =>
    have short := length_pairs rest
    simp only [List.length_cons] at even
    omega
  | case3 os => exact List.length_eq_zero_iff.mp even

theorem literals_eq_nil {i : Inst} : i.literals = [] ↔ ∀ n, .literal n ∉ i.operands := by
  rw [literals, List.filterMap_eq_nil_iff]
  constructor
  · intro plain n named
    cases plain _ named
  · intro plain o named
    cases o with
    | literal n => exact absurd named (plain n)
    | value v => rfl
    | label b => rfl

end Inst

namespace Scope

variable {s : Scope}

theorem isSome_own {v : Value} : (s.func.ty? v).isSome = true ↔ v ∈ s.func.results := by
  rw [Func.ty?, isSome_lookup, List.map_reverse, List.mem_reverse, Func.results_eq_definitions]

theorem isSome_global {v : Value} : (s.globals.ty? v).isSome = true ↔ v ∈ s.globals.values := by
  rw [Globals.ty?, Option.isSome_map, Globals.get?, isSome_lookup, Globals.values]

theorem isSome_ty? {v : Value} : (s.ty? v).isSome = true ↔ v ∈ s.globals.values ∨ v ∈ s.func.results := by
  rw [ty?, Option.isSome_or, Bool.or_eq_true, isSome_own, isSome_global, or_comm]

theorem hasType_iff (distinct : s.func.results.Nodup) (fresh : ∀ v ∈ s.func.results, v ∉ s.globals.values)
    (v : Value) (t : TypeRef) : s.HasType v t ↔ s.ty? v = some t := by
  rw [HasType, ← Func.ty?_eq_some distinct, ty?, Option.or_eq_some_iff]
  constructor
  · rintro (global | own)
    · refine .inr ⟨Option.not_isSome_iff_eq_none.mp fun own => ?_, global⟩
      exact fresh v (isSome_own.mp own) (isSome_global.mp (Option.isSome_of_eq_some global))
    · exact .inl own
  · rintro (own | ⟨-, global⟩)
    · exact .inr own
    · exact .inl global

theorem merges_iff {b : Label} {i : Inst} (phi : i.opcode = .phi) : s.Merges b i ↔
    i.operands.length = 2 * i.incoming.length ∧ (i.incoming.map (·.2)).Perm (s.func.flowGraph.preds b) := by
  have incoming : i.incoming = Inst.pairs i.operands := if_pos phi
  have lawful := s.func.flowGraph_lawful
  rw [incoming]
  constructor
  · rintro ⟨arms, operands, once, sources⟩
    rw [operands, Inst.pairs_flatMap]
    refine ⟨by simp [List.length_flatMap, Nat.mul_comm], ?_⟩
    refine (List.perm_ext_iff_of_nodup once (lawful.once b)).mpr fun c => ?_
    rw [sources, lawful.incoming]
  · rintro ⟨even, perm⟩
    refine ⟨_, Inst.flatMap_pairs even, perm.nodup_iff.mpr (lawful.once b), fun c => ?_⟩
    rw [perm.mem_iff, lawful.incoming]

section

variable (typing : ∀ v t, s.HasType v t ↔ s.ty? v = some t)
include typing

theorem hasLanes_iff {v : Value} {lanes : Nat} : s.HasLanes v lanes ↔ s.width? v = some lanes := by
  simp only [HasLanes, typing, width_eq_some, Option.bind_eq_some_iff, TypeTable.vector?_eq_some]
  exact exists_comm

theorem spans_iff {v : Value} {lanes : Nat} :
    s.Spans v lanes ↔ (s.ty? v).isSome = true ∧ (s.width? v).getD 1 = lanes := by
  simp only [Spans, hasLanes_iff typing, typing]
  have width : s.width? v = (s.ty? v).bind fun t => (s.types.vector? t).map (·.2) := rfl
  cases typed : s.ty? v with
  | none => simp [width, typed]
  | some t =>
    cases view : s.types.vector? t with
    | none =>
      have scalar : ∀ elem lanes, s.types.get? t ≠ some (.vector elem lanes) := by
        intro elem lanes found
        rw [TypeTable.vector?_eq_some.mpr found] at view
        cases view
      simp [width, typed, view, scalar, eq_comm (a := lanes)]
    | some info =>
      have found := TypeTable.vector?_eq_some.mp view
      simp [width, typed, view, found]

theorem forall₂_spans_iff {vs : List Value} {widths : List Nat} : List.Forall₂ s.Spans vs widths ↔
    (∀ v ∈ vs, (s.ty? v).isSome = true) ∧ vs.map (fun v => (s.width? v).getD 1) = widths := by
  induction vs generalizing widths with
  | nil => cases widths <;> simp
  | cons v rest ih =>
    simp only [List.forall₂_cons_left_iff, spans_iff typing, ih, List.forall_mem_cons, List.map_cons]
    constructor
    · rintro ⟨width, widths, ⟨known, rfl⟩, ⟨others, rfl⟩, rfl⟩
      exact ⟨⟨known, others⟩, rfl⟩
    · rintro ⟨⟨known, others⟩, rfl⟩
      exact ⟨_, _, ⟨known, rfl⟩, ⟨others, rfl⟩, rfl⟩

-- The checker lets no sum pass that it cannot hold. Here that is no rule of its
-- own, since such sums do not come up.
theorem composes_iff (contained : ∀ v t, s.ty? v = some t → s.types.contains t = true) (narrow : s.Narrow)
    {i : Inst} (member : i ∈ s.func.insts) : Composed s i ↔ s.Composes i := by
  cases op : i.opcode with
  | insert =>
    simp only [Composed, Composes, op, Inst.asInsert?_eq_some, true_and, Option.bind_eq_some_iff,
      TypeTable.vector?_eq_some, typing]
    constructor
    · rintro ⟨obj, base, lane, elem, lanes, operands, ⟨t, typed, vector⟩, same, object, low⟩
      exact ⟨obj, base, lane, t, elem, lanes, operands, typed, vector, same.trans typed, object, low⟩
    · rintro ⟨obj, base, lane, t, elem, lanes, operands, typed, vector, same, object, low⟩
      exact ⟨obj, base, lane, elem, lanes, operands, ⟨t, typed, vector⟩, same.trans typed.symm, object, low⟩
  | extract =>
    simp only [Composed, Composes, op, Inst.asExtract?_eq_some, true_and, Option.bind_eq_some_iff,
      TypeTable.vector?_eq_some, typing]
    constructor
    · rintro ⟨src, lane, elem, lanes, operands, ⟨t, typed, vector⟩, same, low⟩
      exact ⟨src, lane, t, elem, lanes, operands, typed, vector, same, low⟩
    · rintro ⟨src, lane, t, elem, lanes, operands, typed, vector, same, low⟩
      exact ⟨src, lane, elem, lanes, operands, ⟨t, typed, vector⟩, same, low⟩
  | construct =>
    simp only [Composed, Composes, op, Inst.literals_eq_nil, Option.bind_eq_some_iff, TypeTable.vector?_eq_some,
      forall₂_spans_iff typing]
    constructor
    · rintro ⟨elem, lanes, ⟨t, typed, vector⟩, plain, known, rfl, -⟩
      refine ⟨t, elem, _, typed, vector, plain, fun v named => ?_, rfl⟩
      obtain ⟨ty, typed, -⟩ := known v named
      exact Option.isSome_of_eq_some typed
    · rintro ⟨t, elem, _, typed, vector, plain, known, rfl⟩
      refine ⟨elem, _, ⟨t, typed, vector⟩, plain, fun v named => ?_, rfl, .inr (narrow.constructs i member op known)⟩
      obtain ⟨ty, typed⟩ := Option.isSome_iff_exists.mp (known v named)
      exact ⟨ty, typed, contained v ty typed⟩
  | shuffle =>
    simp only [Composed, Composes, op, Inst.asShuffle?_eq_some, true_and, Option.map_eq_some_iff, Option.bind_eq_some_iff,
      Prod.exists, TypeTable.vector?_eq_some, hasLanes_iff typing]
    constructor
    · rintro ⟨a, b, sels, _, lanesA, lanesB, operands, ⟨elem, lanes, ⟨t, typed, vector⟩, rfl⟩, first, second, rfl, chosen⟩
      exact ⟨a, b, sels, t, elem, lanesA, lanesB, operands, typed, vector, first, second,
        fun sel named => (chosen sel named).imp id And.right⟩
    · rintro ⟨a, b, sels, t, elem, lanesA, lanesB, operands, typed, vector, first, second, chosen⟩
      have small : lanesA + lanesB < wordBound := narrow.shuffles i member (a, b, sels)
        (Inst.asShuffle?_eq_some.mpr ⟨op, operands⟩) lanesA first lanesB second
      exact ⟨a, b, sels, _, lanesA, lanesB, operands, ⟨elem, _, ⟨t, typed, vector⟩, rfl⟩, first, second, rfl,
        fun sel named => (chosen sel named).imp id fun low => ⟨small, low⟩⟩
  | _ => simp only [Composed, Composes, op]

end

theorem paired_iff {i : Inst} : (i.opcode = .call ∨ i.defines.isSome = !i.opcode.resultless) ↔
    i.opcode = .call ∨ i.opcode.resultless = true ∧ i.defines = none ∨
      i.opcode.resultless = false ∧ ∃ d, i.defines = some d := by
  cases i.opcode.resultless <;> cases i.defines <;> simp

theorem Narrow.not_overflows (narrow : s.Narrow) {b : Label} {k : Nat} {i : Inst} (comes : s.ComesTo b k i) :
    ¬ s.Overflows i := by
  have member : i ∈ s.func.insts := by
    obtain ⟨block, found, -, here, -⟩ := comes.here
    exact Func.mem_insts.mpr ⟨b, block, found, List.mem_of_getElem? here⟩
  intro wide
  cases op : i.opcode with
  | construct =>
    simp only [Overflows, op] at wide
    have defined : ∀ v ∈ i.values, (s.ty? v).isSome = true := fun v named =>
      (Check.operands_ok.mp comes.operands).1 v (Inst.mem_values.mp named)
    exact Nat.not_lt.mpr wide.2.2 (narrow.constructs i member op defined)
  | shuffle =>
    simp only [Overflows, op] at wide
    obtain ⟨a, b, sels, lanesA, lanesB, parsed, -, widthA, widthB, wide, -⟩ := wide
    exact Nat.not_lt.mpr wide (narrow.shuffles i member (a, b, sels) parsed lanesA widthA lanesB widthB)
  | _ => simp only [Overflows, op] at wide

theorem check_answers (results : s.ResultsKnown) (globals : s.GlobalsKnown) (narrow : s.Narrow) :
    Check.Answers s.check := by
  intro fault stopped
  obtain ⟨-, b, k, i, comes, wide⟩ := (check_fault results globals).mp stopped
  exact narrow.not_overflows comes wide

theorem wellFormed_iff_lawful (results : s.ResultsKnown) (globals : s.GlobalsKnown) (narrow : s.Narrow) :
    s.WellFormed ↔ s.Lawful := by
  have contained : ∀ v t, s.ty? v = some t → s.types.contains t = true := fun _ _ => results.contains globals
  constructor
  · intro well
    have typing := hasType_iff well.distinct well.fresh
    exact {
      results := fun i member => paired_iff.mp (well.paired i member)
      distinct := well.distinct
      fresh := well.fresh
      values := fun i member v named => isSome_ty?.mp (well.defined i member v named)
      labels := fun i member b named => of_decide_eq_true (well.targets i member b named)
      shaped := well.shaped
      phis := fun b block found i here phi => (merges_iff phi).mpr (well.phis b block found i here phi)
      composes := fun i member => (composes_iff typing contained narrow member).mp (well.composed i member) }
  · intro lawful
    have typing := hasType_iff lawful.distinct lawful.fresh
    exact {
      paired := fun i member => paired_iff.mpr (lawful.results i member)
      distinct := lawful.distinct
      fresh := lawful.fresh
      shaped := lawful.shaped
      defined := fun i member v named => isSome_ty?.mpr (lawful.values i member v named)
      targets := fun i member b named => decide_eq_true (lawful.labels i member b named)
      phis := fun b block found i here phi => (merges_iff phi).mp (lawful.phis b block found i here phi)
      composed := fun i member => (composes_iff typing contained narrow member).mpr (lawful.composes i member) }

theorem check_decides_lawful (results : s.ResultsKnown) (globals : s.GlobalsKnown) (narrow : s.Narrow) :
    (s.check = .ok () ↔ s.Lawful) ∧ (¬ s.Lawful → ∃ flaw, s.check = .error (.flaw flaw)) := by
  have exactly : s.check = .ok () ↔ s.Lawful := check_ok.trans (wellFormed_iff_lawful results globals narrow)
  refine ⟨exactly, fun unlawful => ?_⟩
  cases verdict : s.check with
  | ok => exact absurd (exactly.mp verdict) unlawful
  | error rejection =>
    cases rejection with
    | flaw flaw => exact ⟨flaw, rfl⟩
    | fault fault => exact absurd verdict (check_answers results globals narrow fault)

def twofold (arms : List Operand) : Scope :=
  { types := ⟨[.float 32, .vector ⟨0⟩ 2, .vector ⟨0⟩ 4, .bool], by decide⟩
    globals := ⟨[(⟨1⟩, ⟨⟨1⟩, .undef⟩), (⟨2⟩, ⟨⟨0⟩, .constant 0⟩), (⟨3⟩, ⟨⟨3⟩, .constant 1⟩)]⟩
    func := .ofBlocks "twofold" [
      [⟨.construct, some (⟨10⟩, ⟨2⟩), [.value ⟨2⟩, .value ⟨1⟩, .value ⟨2⟩]⟩,
        ⟨.brc, none, [.value ⟨3⟩, .label ⟨1⟩, .label ⟨1⟩]⟩],
      [⟨.phi, some (⟨11⟩, ⟨2⟩), arms⟩,
        ⟨.shuffle, some (⟨12⟩, ⟨1⟩), [.value ⟨11⟩, .value ⟨1⟩, .literal 0, .literal 5]⟩,
        ⟨.retv, none, [.value ⟨12⟩]⟩]] }

theorem check_decides_lawful_twofold : (twofold [.value ⟨10⟩, .label ⟨0⟩]).Lawful ∧
    ¬ (twofold [.value ⟨10⟩, .label ⟨0⟩, .value ⟨10⟩, .label ⟨0⟩]).Lawful := by
  constructor
  · refine (check_decides_lawful ?_ ?_ ⟨?_, ?_⟩).1.mp ?_ <;> decide +kernel
  · refine (check_decides_lawful ?_ ?_ ⟨?_, ?_⟩).1.not.mp ?_ <;> decide +kernel

end Scope

end DeadLanes
