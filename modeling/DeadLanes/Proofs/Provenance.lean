import DeadLanes.Lane.Liveness
import DeadLanes.Proofs.Meaning

namespace DeadLanes

-- Where the lanes of a result come from, and that the lane rules demand what
-- is copied into the lanes that are asked for.

namespace Datum

theorem lane_tabulate {count k : Nat} (part : Nat → Datum α) (low : k < count) : (tabulate count part).lane k = part k := by
  simp [tabulate, lane, List.getElem?_range low]

def Shaped (width : Option Nat) (x : Datum α) : Prop :=
  match width with
  | some count => ∃ parts, parts.length = count ∧ x = lanes parts
  | none => ∃ a, x = atom a

theorem shaped_tabulate (count : Nat) (part : Nat → Datum α) : (tabulate count part).Shaped (some count) :=
  ⟨_, by simp, rfl⟩

namespace Shaped

variable {count : Nat} {x y : Datum α}

theorem lane_beyond (shaped : x.Shaped (some count)) {k : Nat} (high : count ≤ k) : x.lane k = .lanes [] := by
  obtain ⟨parts, rfl, rfl⟩ := shaped
  rw [lane, List.getElem?_eq_none high, Option.getD_none]

theorem ext (left : x.Shaped (some count)) (right : y.Shaped (some count)) (same : ∀ k < count, x.lane k = y.lane k) :
    x = y := by
  obtain ⟨xs, rfl, rfl⟩ := left
  obtain ⟨ys, length, rfl⟩ := right
  refine congrArg Datum.lanes (List.ext_getElem length.symm fun k low high => ?_)
  simpa [lane, low, high] using same k low

theorem agree (left : x.Shaped (some count)) (right : y.Shaped (some count)) {read : LaneSet}
    (same : ∀ k < count, read.contains k = true → x.lane k = y.lane k) : Agree read x y := by
  cases read with
  | all => exact left.ext right fun k low => same k low rfl
  | lanes mask =>
    intro k here
    by_cases low : k < count
    · exact same k low here
    · rw [left.lane_beyond (Nat.not_lt.mp low), right.lane_beyond (Nat.not_lt.mp low)]

end Shaped

end Datum

-- What a lane of a result is copied from: a lane of an operand, or an operand
-- as a whole.
inductive Source where
  | lane (w : Value) (k : Nat)
  | whole (w : Value)

namespace Source

def read (env : Env α) : Source → Datum α
  | lane w k => (env w).lane k
  | whole w => env w

def Due (s : Scope) (demands : List (Value × LaneSet)) : Source → Prop
  | lane w k => (∃ count, s.width? w = some count ∧ k < count) ∧ ∃ read, (w, read) ∈ demands ∧ read.contains k = true
  | whole w => ∃ read, (w, read) ∈ demands ∧ (read = .all ∨ s.width? w = none ∧ read.contains 0 = true)

def part (s : Scope) (w : Value) (k : Nat) : Source :=
  match s.width? w with
  | some _ => lane w k
  | none => whole w

def each (s : Scope) (w : Value) : List Source := (List.range ((s.width? w).getD 1)).map (part s w)

-- The source of a lane, for each kind of instruction that moves lanes. Only
-- for a phi does it matter where control comes from.
def ofInsert (obj base : Value) (lane : Nat) (_ : Option Label) (c : Nat) : Option Source :=
  some (if c = lane then .whole obj else .lane base c)

def ofConstruct (s : Scope) (vs : List Value) (_ : Option Label) (c : Nat) : Option Source := (vs.flatMap (each s))[c]?

def ofShuffle (a b : Value) (lanesA : Nat) (sels : List Nat) (_ : Option Label) (c : Nat) : Option Source :=
  sels[c]?.bind fun sel =>
    if sel = anyLane then none else some (if sel < lanesA then .lane a sel else .lane b (sel - lanesA))

def ofPhi (incoming : List (Value × Label)) (origin : Option Label) (c : Nat) : Option Source :=
  (incoming.find? fun pair => some pair.2 = origin).map fun pair => .lane pair.1 c

variable {s : Scope}

@[simp] theorem length_each (w : Value) : (each s w).length = (s.width? w).getD 1 := by
  simp [each]

theorem each_eq_some {w : Value} {k : Nat} {src : Source} :
    (each s w)[k]? = some src ↔ k < (s.width? w).getD 1 ∧ part s w k = src := by
  rw [each, List.getElem?_map]
  by_cases low : k < (s.width? w).getD 1
  · rw [List.getElem?_range low, Option.map_some, Option.some.injEq, and_iff_right low]
  · rw [List.getElem?_eq_none (by simpa using low)]
    exact ⟨nofun, fun given => absurd given.1 low⟩

theorem spread_each (env : Env α) (w : Value) : (env w).spread (s.width? w) = (each s w).map (read env) := by
  cases width : s.width? w with
  | some count => simp [each, part, width, Datum.spread, read, Function.comp_def]
  | none => simp [each, part, width, Datum.spread, read]

theorem due_part {demands : List (Value × LaneSet)} {w : Value} {read : LaneSet} {k : Nat} (demand : (w, read) ∈ demands)
    (here : read.contains k = true) (low : k < (s.width? w).getD 1) : (part s w k).Due s demands := by
  unfold part
  cases width : s.width? w with
  | some count =>
    rw [width] at low
    exact ⟨⟨count, width, low⟩, read, demand, here⟩
  | none =>
    rw [width, Option.getD_none, Nat.lt_one_iff] at low
    exact ⟨read, demand, .inr ⟨width, low ▸ here⟩⟩

theorem ofConstruct_eq_some {vs : List Value} {origin : Option Label} {c : Nat} {src : Source} :
    ofConstruct s vs origin c = some src ↔ ∃ before w after k, vs = before ++ w :: after ∧
      c = (before.map fun u => (s.width? u).getD 1).sum + k ∧ k < (s.width? w).getD 1 ∧ part s w k = src := by
  unfold ofConstruct
  induction vs generalizing c with
  | nil => simp
  | cons u rest ih =>
    rw [List.flatMap_cons, List.getElem?_append, length_each]
    by_cases low : c < (s.width? u).getD 1
    · rw [if_pos low, each_eq_some]
      constructor
      · exact fun given => ⟨[], u, rest, c, rfl, (Nat.zero_add c).symm, given⟩
      · rintro ⟨before, w, after, k, same, rfl, given⟩
        cases before with
        | nil =>
          cases same
          simpa using given
        | cons u' before =>
          cases same
          simp only [List.map_cons, List.sum_cons] at low
          omega
    · rw [if_neg low, ih]
      constructor
      · rintro ⟨before, w, after, k, rfl, place, given⟩
        refine ⟨u :: before, w, after, k, rfl, ?_, given⟩
        simp only [List.map_cons, List.sum_cons]
        omega
      · rintro ⟨before, w, after, k, same, rfl, given⟩
        cases before with
        | nil =>
          cases same
          simp only [List.map_nil, List.sum_nil, Nat.zero_add] at low
          exact absurd given.1 low
        | cons u' before =>
          cases same
          refine ⟨before, w, after, k, rfl, ?_, given⟩
          simp only [List.map_cons, List.sum_cons]
          omega

end Source

-- A phi takes the value on the edge that control comes along, every other
-- instruction computes its own.
def Interp.outcome (m : Interp α) (s : Scope) (env : Env α) (past : List (Effect α)) (origin : Option Label) (i : Inst)
    (v : Value) (ty : TypeRef) : Datum α :=
  if i.opcode = .phi then m.merge s env origin i v ty else m.produce s env past i v ty

-- The lanes of the result are copies of their sources. A lane without a source
-- is undefined, and holds the same whatever the operands are.
structure Inst.Gathers (s : Scope) (i : Inst) (v : Value) (ty : TypeRef) (count : Nat)
    (source : Option Label → Nat → Option Source) : Prop where
  shaped : ∀ {α : Type} (m : Interp α) (past : List (Effect α)) (origin : Option Label) (env : Env α),
    (∀ pair ∈ i.incoming, (env pair.1).Shaped (some count)) → (m.outcome s env past origin i v ty).Shaped (some count)
  lane : ∀ {α : Type} (m : Interp α) (past : List (Effect α)) (origin : Option Label) (env : Env α), ∀ c < count,
    (m.outcome s env past origin i v ty).lane c = (source origin c).elim (m.blank v c) (Source.read env)

namespace Inst

variable {s : Scope} {i : Inst} {v : Value} {ty : TypeRef} {count : Nat}

theorem gathers_insert {obj base : Value} {lane : Nat} (parsed : i.asInsert? = some (obj, base, lane))
    (counted : s.types.lanes? ty = some count) : i.Gathers s v ty count (Source.ofInsert obj base lane) := by
  have outcome : ∀ {α : Type} (m : Interp α) (past : List (Effect α)) (origin : Option Label) (env : Env α),
      m.outcome s env past origin i v ty =
        .tabulate count fun k => if k = lane then env obj else (env base).lane k := by
    intro α m past origin env
    have op := (asInsert?_eq_some.mp parsed).1
    simp only [Interp.outcome, Interp.produce, op, parsed, counted, reduceCtorEq, if_false]
  constructor
  · intro α m past origin env _
    rw [outcome]
    exact Datum.shaped_tabulate count _
  · intro α m past origin env c low
    rw [outcome, Datum.lane_tabulate _ low]
    by_cases written : c = lane
    · rw [if_pos written, Source.ofInsert, if_pos written]
      rfl
    · rw [if_neg written, Source.ofInsert, if_neg written]
      rfl

theorem gathers_construct (op : i.opcode = .construct) (total : (i.values.map fun w => (s.width? w).getD 1).sum = count) :
    i.Gathers s v ty count (Source.ofConstruct s i.values) := by
  have outcome : ∀ {α : Type} (m : Interp α) (past : List (Effect α)) (origin : Option Label) (env : Env α),
      m.outcome s env past origin i v ty = .lanes ((i.values.flatMap (Source.each s)).map (Source.read env)) := by
    intro α m past origin env
    simp only [Interp.outcome, Interp.produce, op, reduceCtorEq, if_false, Source.spread_each, List.map_flatMap]
  have length : (i.values.flatMap (Source.each s)).length = count := by
    simp only [List.length_flatMap, Source.length_each, total]
  constructor
  · intro α m past origin env _
    exact ⟨_, by rw [List.length_map, length], outcome m past origin env⟩
  · intro α m past origin env c low
    have found := List.getElem?_eq_getElem (length.symm ▸ low)
    rw [outcome, Datum.lane, List.getElem?_map, Source.ofConstruct, found]
    rfl

theorem gathers_shuffle {a b : Value} {sels : List Nat} {lanesA : Nat} (parsed : i.asShuffle? = some (a, b, sels))
    (countA : s.width? a = some lanesA) (total : sels.length = count) :
    i.Gathers s v ty count (Source.ofShuffle a b lanesA sels) := by
  have outcome : ∀ {α : Type} (m : Interp α) (past : List (Effect α)) (origin : Option Label) (env : Env α),
      m.outcome s env past origin i v ty = m.selected v lanesA (env a) (env b) sels := by
    intro α m past origin env
    have op := (asShuffle?_eq_some.mp parsed).1
    simp only [Interp.outcome, Interp.produce, op, parsed, countA, reduceCtorEq, if_false, Option.getD_some]
  constructor
  · intro α m past origin env _
    rw [outcome]
    exact ⟨_, by simp [total], rfl⟩
  · intro α m past origin env c low
    have found : sels[c]? = some _ := List.getElem?_eq_getElem (total.symm ▸ low)
    rw [outcome, Interp.selected, Datum.lane, List.getElem?_map, List.getElem?_zipIdx, Source.ofShuffle, found]
    simp only [Option.map_some, Option.bind_some, Option.getD_some, Nat.zero_add]
    split
    · rfl
    · split <;> rfl

theorem gathers_phi (op : i.opcode = .phi) (counted : s.types.lanes? ty = some count) :
    i.Gathers s v ty count (Source.ofPhi i.incoming) := by
  constructor
  · intro α m past origin env shaped
    rw [Interp.outcome, if_pos op, Interp.merge]
    split
    · rename_i w p found
      exact shaped (w, p) (List.mem_of_find?_eq_some found)
    · rw [counted]
      exact Datum.shaped_tabulate count _
  · intro α m past origin env c low
    rw [Interp.outcome, if_pos op, Interp.merge, Source.ofPhi]
    split
    · rename_i w p found
      rw [found]
      rfl
    · rename_i missing
      rw [missing, counted]
      exact Datum.lane_tabulate _ low

end Inst

theorem LaneView.width_tracked {view : LaneView} {w : Value} {count : Nat} (tracked : view.tracked w = some count) :
    view.width w = some count :=
  (Option.filter_eq_some_iff.mp tracked).1

theorem Scope.WellFormed.lanes_result {s : Scope} (well : s.WellFormed) {i : Inst} (member : i ∈ s.func.insts) {v : Value}
    {ty : TypeRef} (defined : i.defines = some (v, ty)) : s.types.lanes? ty = s.view.width v := by
  simp only [Scope.view, Scope.width?, well.ty?_result member defined, Option.bind_some]

-- How a rule comes to be chosen in an accepted function, with what the checks
-- say about lane counts.
inductive LaneRule.Accepted (s : Scope) (i : Inst) (ty : TypeRef) : LaneRule → Prop where
  | insert : i.asInsert? = some (obj, base, lane) → s.types.lanes? ty = some count → s.width? base = some count →
      lane < count → count ≤ trackedLanes → Accepted s i ty (.insert obj base lane count)
  | extract : i.asExtract? = some (src, lane) → s.width? src = some count → lane < count →
      Accepted s i ty (.extract src lane)
  | construct : i.opcode = .construct → s.types.lanes? ty = some (i.values.map fun w => (s.width? w).getD 1).sum →
      Accepted s i ty (.construct (i.values.map fun w => (w, (s.width? w).getD 1)))
  | shuffle : i.asShuffle? = some (a, b, sels) → s.types.lanes? ty = some sels.length → s.width? a = some lanesA →
      s.width? b = some lanesB → (∀ sel ∈ sels, sel = anyLane ∨ sel < lanesA + lanesB) → sels.length ≤ trackedLanes →
      Accepted s i ty (.shuffle a b lanesA sels)
  | phi : i.opcode = .phi → s.types.lanes? ty = some count → Accepted s i ty (.phi (i.incoming.map (·.1)))
  | terminal : i.opcode = .undef ∨ i.opcode = .const ∨ i.opcode = .constComposite → Accepted s i ty .terminal
  | fallback : lanewise? s.view i = none → Accepted s i ty (.fallback i.values)

theorem Scope.WellFormed.rule_accepted {s : Scope} (well : s.WellFormed) {i : Inst} (member : i ∈ s.func.insts) {v : Value}
    {ty : TypeRef} (defined : i.defines = some (v, ty)) : LaneRule.Accepted s i ty (LaneRule.of s.view i) := by
  have result : i.result? = some v := Inst.result?_eq_some.mpr ⟨ty, defined⟩
  have counted := well.lanes_result member defined
  have composed := well.composed i member
  have vector : ∀ {elem : TypeRef} {lanes : Nat}, i.ty?.bind s.types.vector? = some (elem, lanes) →
      s.types.lanes? ty = some lanes := by
    intro elem lanes vector
    rw [Inst.ty?, defined] at vector
    exact congrArg (Option.map (·.2)) vector
  have chosen := LaneRule.of_chosen s.view i
  generalize LaneRule.of s.view i = rule at chosen
  cases chosen with
  | insert parsed tracked =>
    rw [result, Option.bind_some] at tracked
    simp only [Composed, (Inst.asInsert?_eq_some.mp parsed).1] at composed
    obtain ⟨_, _, _, elem, lanes, same, info, typed, _, low⟩ := composed
    cases parsed.symm.trans same
    have width := counted.trans (LaneView.width_tracked tracked)
    cases (vector info).symm.trans width
    refine .insert parsed width ?_ low (LaneView.tracked_le tracked)
    rw [Scope.width?, typed, Inst.ty?, defined]
    exact width
  | extract parsed tracked =>
    simp only [Composed, (Inst.asExtract?_eq_some.mp parsed).1] at composed
    obtain ⟨_, _, elem, lanes, same, info, _, low⟩ := composed
    cases parsed.symm.trans same
    exact .extract parsed (Scope.width_eq_some.mpr ⟨elem, info⟩) low
  | construct op tracked =>
    simp only [Composed, op] at composed
    obtain ⟨elem, lanes, info, -, -, rfl, -⟩ := composed
    exact .construct op (vector info)
  | shuffle parsed tracked width =>
    simp only [Composed, (Inst.asShuffle?_eq_some.mp parsed).1] at composed
    obtain ⟨_, _, _, lanes, lanesA, lanesB, same, info, countA, countB, rfl, low⟩ := composed
    cases parsed.symm.trans same
    cases countA.symm.trans width
    obtain ⟨⟨elem, lanes⟩, info, rfl⟩ := Option.map_eq_some_iff.mp info
    rw [result, Option.bind_some] at tracked
    have wide := LaneView.width_tracked tracked
    cases (vector info).symm.trans (counted.trans wide)
    exact .shuffle parsed (vector info) countA countB (fun sel picks => (low sel picks).imp_right And.right)
      (LaneView.tracked_le tracked)
  | phi op tracked =>
    rw [result, Option.bind_some] at tracked
    exact .phi op (counted.trans (LaneView.width_tracked tracked))
  | terminal op => exact .terminal op
  | fallback none => exact .fallback none

def LaneRule.Covers (s : Scope) (demands : List (Value × LaneSet)) (asked : LaneSet) (count : Nat)
    (source : Option Label → Nat → Option Source) : Prop :=
  ∀ origin, ∀ c < count, asked.contains c = true → ∀ src, source origin c = some src → src.Due s demands

namespace LaneRule

variable {s : Scope} {asked : LaneSet} {count : Nat}

theorem covers_insert {obj base : Value} {lane : Nat} (filled : asked.isEmpty = false) (width : s.width? base = some count)
    (small : count ≤ trackedLanes) :
    Covers s ((insert obj base lane count).demands asked) asked count (Source.ofInsert obj base lane) := by
  intro origin c low here src same
  cases same
  simp only [demands, filled, Bool.false_eq_true, if_false]
  by_cases written : c = lane
  · rw [if_pos written, if_pos (written ▸ here)]
    exact ⟨.all, List.mem_cons_self, .inl rfl⟩
  · rw [if_neg written]
    refine ⟨⟨count, width, low⟩, ?_⟩
    split
    · refine ⟨asked.without lane count, List.mem_cons_of_mem _ List.mem_cons_self, ?_⟩
      exact (LaneSet.contains_without asked lane count c).mpr
        ⟨written, here, fun _ => ⟨low, Nat.lt_of_lt_of_le low small⟩⟩
    · exact ⟨asked, List.mem_cons_self, here⟩

theorem mem_demands_construct (filled : asked.isEmpty = false) {vs : List Value} {w : Value} {read : LaneSet} :
    (w, read) ∈ (construct (vs.map fun u => (u, (s.width? u).getD 1))).demands asked ↔ ∃ before after,
      vs = before ++ w :: after ∧
        read = asked.slice (before.map fun u => (s.width? u).getD 1).sum ((s.width? w).getD 1) := by
  simp only [demands, filled, Bool.false_eq_true, if_false, mem_partDemands, Nat.zero_add]
  constructor
  · rintro ⟨before, part, width, after, split, same⟩
    obtain ⟨first, others, rfl, rfl, rest⟩ := List.map_eq_append_iff.mp split
    obtain ⟨u, last, rfl, here, rfl⟩ := List.map_eq_cons_iff.mp rest
    cases here
    cases same
    exact ⟨first, last, rfl, by simp [Function.comp_def]⟩
  · rintro ⟨before, after, rfl, rfl⟩
    exact ⟨_, w, _, _, List.map_append, by simp [Function.comp_def]⟩

theorem covers_construct (filled : asked.isEmpty = false) (vs : List Value) :
    Covers s ((construct (vs.map fun w => (w, (s.width? w).getD 1))).demands asked) asked count
      (Source.ofConstruct s vs) := by
  intro origin c _ here src found
  obtain ⟨before, w, after, k, rfl, rfl, low, rfl⟩ := Source.ofConstruct_eq_some.mp found
  refine Source.due_part ((mem_demands_construct filled).mpr ⟨before, after, rfl, rfl⟩) ?_ low
  rwa [LaneSet.contains_slice asked _ low]

theorem covers_shuffle {a b : Value} {sels : List Nat} {lanesA lanesB : Nat} (filled : asked.isEmpty = false)
    (countA : s.width? a = some lanesA) (countB : s.width? b = some lanesB)
    (low : ∀ sel ∈ sels, sel = anyLane ∨ sel < lanesA + lanesB) :
    Covers s ((shuffle a b lanesA sels).demands asked) asked count (Source.ofShuffle a b lanesA sels) := by
  intro origin c _ here src found
  simp only [demands, filled, Bool.false_eq_true, if_false]
  obtain ⟨sel, selected, found⟩ := Option.bind_eq_some_iff.mp found
  by_cases any : sel = anyLane
  · rw [if_pos any] at found
    cases found
  · rw [if_neg any] at found
    have bound := (low sel (List.mem_of_getElem? selected)).resolve_left any
    by_cases left : sel < lanesA
    · rw [if_pos left] at found
      cases found
      refine ⟨⟨lanesA, countA, left⟩, _, List.mem_cons_self, ?_⟩
      exact contains_picked selected any (LaneSet.contains_cut here) (if_pos left)
    · rw [if_neg left] at found
      cases found
      refine ⟨⟨lanesB, countB, by omega⟩, _, List.mem_cons_of_mem _ List.mem_cons_self, ?_⟩
      exact contains_picked selected any (LaneSet.contains_cut here) (if_neg left)

theorem covers_phi {incoming : List (Value × Label)} (filled : asked.isEmpty = false)
    (widths : ∀ pair ∈ incoming, s.width? pair.1 = some count) :
    Covers s ((phi (incoming.map (·.1))).demands asked) asked count (Source.ofPhi incoming) := by
  intro origin c low here src found
  simp only [demands, filled, Bool.false_eq_true, if_false]
  obtain ⟨pair, chosen, rfl⟩ := Option.map_eq_some_iff.mp found
  have member := List.mem_of_find?_eq_some chosen
  exact ⟨⟨count, widths pair member, low⟩, asked, List.mem_map.mpr ⟨pair.1, List.mem_map_of_mem member, rfl⟩, here⟩

end LaneRule

end DeadLanes
