import DeadLanes.Proofs.Acceptance
import DeadLanes.Func.UseIndex

namespace DeadLanes

-- What is looked up is what is there, as long as no value is defined twice.

theorem lookup_eq_some_of_distinct [DecidableEq κ] {entries : List (κ × α)} (distinct : (entries.map (·.1)).Nodup)
    {k : κ} {a : α} : entries.lookup k = some a ↔ (k, a) ∈ entries := by
  induction entries with
  | nil => simp
  | cons entry rest ih =>
    obtain ⟨j, b⟩ := entry
    obtain ⟨fresh, others⟩ := List.nodup_cons.mp distinct
    rw [List.lookup_cons, List.mem_cons]
    by_cases same : k = j
    · subst same
      rw [beq_self_eq_true]
      dsimp only
      constructor
      · intro found
        cases found
        exact .inl rfl
      · intro member
        rcases member with here | later
        · cases here
          rfl
        · exact absurd (List.mem_map_of_mem later) fresh
    · rw [beq_eq_false_iff_ne.mpr same]
      dsimp only
      rw [ih others]
      refine ⟨.inr, fun member => member.resolve_left fun here => ?_⟩
      cases here
      exact same rfl

namespace Inst

theorem result?_eq_some {i : Inst} {v : Value} : i.result? = some v ↔ ∃ ty, i.defines = some (v, ty) := by
  rw [result?, Option.map_eq_some_iff]
  constructor
  · intro ⟨(w, ty), defined, same⟩
    cases same
    exact ⟨ty, defined⟩
  · exact fun ⟨ty, defined⟩ => ⟨_, defined, rfl⟩

theorem mem_values {i : Inst} {v : Value} : v ∈ i.values ↔ .value v ∈ i.operands := by
  rw [values, List.mem_filterMap]
  constructor
  · intro ⟨o, member, named⟩
    cases o with
    | value w => cases named; exact member
    | label b => cases named
    | literal n => cases named
  · exact fun member => ⟨_, member, rfl⟩

theorem mem_slots {i : Inst} {k : Nat} {v : Value} : (k, v) ∈ i.slots ↔ i.operands[k]? = some (.value v) := by
  rw [slots, List.mem_filterMap]
  constructor
  · intro ⟨(o, position), member, named⟩
    obtain ⟨w, value, same⟩ := Option.map_eq_some_iff.mp named
    cases same
    cases o with
    | value u => cases value; exact List.mk_mem_zipIdx_iff_getElem?.mp member
    | label b => cases value
    | literal n => cases value
  · exact fun here => ⟨(.value v, k), List.mk_mem_zipIdx_iff_getElem?.mpr here, rfl⟩

theorem mem_values_of_slot {i : Inst} {k : Nat} {v : Value} (slot : (k, v) ∈ i.slots) : v ∈ i.values :=
  mem_values.mpr (List.mem_of_getElem? (mem_slots.mp slot))

theorem mem_pairs {os : List Operand} {v : Value} {b : Label} (member : (v, b) ∈ pairs os) : .value v ∈ os := by
  fun_induction pairs os with
  | case1 w c rest ih =>
    rcases List.mem_cons.mp member with here | later
    · cases here
      exact List.mem_cons_self
    · exact List.mem_cons_of_mem _ (List.mem_cons_of_mem _ (ih later))
  | case2 o p rest _ ih => exact List.mem_cons_of_mem _ (List.mem_cons_of_mem _ (ih member))
  | case3 => cases member

theorem mem_incoming {i : Inst} {v : Value} {b : Label} (member : (v, b) ∈ i.incoming) : v ∈ i.values := by
  unfold incoming at member
  split at member
  · exact mem_values.mpr (mem_pairs member)
  · cases member

theorem asInsert?_eq_some {i : Inst} {obj base : Value} {lane : Nat} :
    i.asInsert? = some (obj, base, lane) ↔
      i.opcode = .insert ∧ i.operands = [.value obj, .value base, .literal lane] := by
  unfold asInsert?
  split
  · rename_i op operands
    simp [op, operands]
  · rename_i other
    refine ⟨nofun, fun both => ?_⟩
    exact absurd both.2 (other obj base lane both.1)

theorem asExtract?_eq_some {i : Inst} {src : Value} {lane : Nat} :
    i.asExtract? = some (src, lane) ↔ i.opcode = .extract ∧ i.operands = [.value src, .literal lane] := by
  unfold asExtract?
  split
  · rename_i op operands
    simp [op, operands]
  · rename_i other
    refine ⟨nofun, fun both => ?_⟩
    exact absurd both.2 (other src lane both.1)

theorem mapM_literal {os : List Operand} {sels : List Nat} :
    os.mapM Operand.literal? = some sels ↔ os = sels.map .literal := by
  induction os generalizing sels with
  | nil =>
    cases sels with
    | nil => exact ⟨fun _ => rfl, fun _ => rfl⟩
    | cons n rest => exact ⟨nofun, nofun⟩
  | cons o os ih =>
    rw [List.mapM_cons]
    cases o with
    | literal n =>
      cases found : os.mapM Operand.literal? with
      | none =>
        refine ⟨nofun, fun same => ?_⟩
        cases sels with
        | nil => cases same
        | cons m rest => exact absurd (ih.mpr (List.cons.inj same).2) (by simp [found])
      | some ns =>
        obtain rfl := ih.mp found
        cases sels with
        | nil => exact ⟨nofun, nofun⟩
        | cons m rest =>
          have tail : ns = rest ↔ ns.map Operand.literal = rest.map Operand.literal := by
            rw [← ih, found, Option.some.injEq]
          simp [Operand.literal?, tail]
    | value v => cases sels <;> exact ⟨nofun, nofun⟩
    | label b => cases sels <;> exact ⟨nofun, nofun⟩

theorem asShuffle?_eq_some {i : Inst} {a b : Value} {sels : List Nat} :
    i.asShuffle? = some (a, b, sels) ↔
      i.opcode = .shuffle ∧ i.operands = .value a :: .value b :: sels.map .literal := by
  unfold asShuffle?
  split
  · rename_i v w rest op operands
    rw [Option.map_eq_some_iff]
    constructor
    · intro ⟨ns, found, same⟩
      cases same
      exact ⟨op, by rw [operands, mapM_literal.mp found]⟩
    · intro ⟨_, same⟩
      rw [operands] at same
      cases same
      exact ⟨sels, mapM_literal.mpr rfl, rfl⟩
  · rename_i other
    refine ⟨nofun, fun both => ?_⟩
    exact absurd both.2 (other a b _ both.1)

theorem exists_slot {i : Inst} {v : Value} (named : v ∈ i.values) : ∃ k, (k, v) ∈ i.slots := by
  obtain ⟨k, here⟩ := List.mem_iff_getElem?.mp (mem_values.mp named)
  exact ⟨k, mem_slots.mpr here⟩

theorem asInsert?_values {i : Inst} {obj base : Value} {lane : Nat} (parsed : i.asInsert? = some (obj, base, lane)) :
    i.values = [obj, base] := by
  simp [values, (asInsert?_eq_some.mp parsed).2, Operand.value?]

theorem asExtract?_values {i : Inst} {src : Value} {lane : Nat} (parsed : i.asExtract? = some (src, lane)) :
    i.values = [src] := by
  simp [values, (asExtract?_eq_some.mp parsed).2, Operand.value?]

theorem asShuffle?_values {i : Inst} {a b : Value} {sels : List Nat} (parsed : i.asShuffle? = some (a, b, sels)) :
    i.values = [a, b] := by
  have plain : ∀ ns : List Nat, (ns.map Operand.literal).filterMap Operand.value? = [] := by
    intro ns
    induction ns with
    | nil => rfl
    | cons n rest ih => exact ih
  rw [values, (asShuffle?_eq_some.mp parsed).2]
  exact congrArg (a :: b :: ·) (plain sels)

theorem asShuffle?_literals {i : Inst} {a b : Value} {sels : List Nat} (parsed : i.asShuffle? = some (a, b, sels)) :
    i.literals = sels := by
  have listed : (sels.map Operand.literal).filterMap Operand.literal? = sels := by
    rw [List.filterMap_map]
    exact List.filterMap_some
  rw [literals, (asShuffle?_eq_some.mp parsed).2]
  exact listed

end Inst

namespace Func

theorem mem_refs {f : Func} {r : InstRef} : r ∈ f.refs ↔ ∃ i, ⟨r, i⟩ ∈ f.placed := by
  rw [refs, List.mem_map]
  constructor
  · intro ⟨p, member, same⟩
    cases same
    exact ⟨p.inst, member⟩
  · exact fun ⟨i, member⟩ => ⟨_, member, rfl⟩

theorem placed_unique {f : Func} {p q : Placed} (left : p ∈ f.placed) (right : q ∈ f.placed) (same : p.ref = q.ref) :
    p = q :=
  List.inj_on_of_nodup_map f.distinct left right same

theorem inst?_eq_some {f : Func} {r : InstRef} {i : Inst} : f.inst? r = some i ↔ ⟨r, i⟩ ∈ f.placed := by
  rw [inst?, Option.map_eq_some_iff]
  constructor
  · intro ⟨p, found, same⟩
    obtain rfl : p.ref = r := by simpa using List.find?_some found
    cases same
    exact List.mem_of_find?_eq_some found
  · intro member
    cases found : f.placed.find? (·.ref = r) with
    | none => exact absurd (List.find?_eq_none.mp found _ member) (by simp)
    | some q =>
      have same : q.ref = r := by simpa using List.find?_some found
      cases placed_unique (List.mem_of_find?_eq_some found) member same
      exact ⟨_, rfl, rfl⟩

theorem inst?_eq_none {f : Func} {r : InstRef} : f.inst? r = none ↔ r ∉ f.refs := by
  rw [Option.eq_none_iff_forall_ne_some, mem_refs, not_exists]
  exact forall_congr' fun i => not_congr inst?_eq_some

theorem mem_insts_iff_placed {f : Func} {i : Inst} : i ∈ f.insts ↔ ∃ r, ⟨r, i⟩ ∈ f.placed := by
  rw [insts, List.mem_map]
  constructor
  · intro listed
    obtain ⟨p, member, same⟩ := listed
    cases same
    exact ⟨p.ref, member⟩
  · intro placed
    obtain ⟨r, member⟩ := placed
    exact ⟨_, member, rfl⟩

theorem mem_placed_of_block {f : Func} {k : Nat} {block : List Placed} (found : f.blocks[k]? = some block) {p : Placed}
    (here : p ∈ block) : p ∈ f.placed :=
  List.mem_flatten.mpr ⟨block, List.mem_of_getElem? found, here⟩

theorem results_eq_placed (f : Func) : f.results = f.placed.filterMap (·.inst.result?) := by
  rw [results, insts, List.filterMap_map]
  rfl

theorem results_eq_definitions (f : Func) : f.results = f.definitions.map (·.1) := by
  rw [results, definitions, List.map_filterMap]
  rfl

theorem mem_results {f : Func} {v : Value} : v ∈ f.results ↔ ∃ p ∈ f.placed, p.inst.result? = some v := by
  rw [results_eq_placed, List.mem_filterMap]

theorem defined_once {f : Func} (distinct : f.results.Nodup) {p q : Placed} (left : p ∈ f.placed) (right : q ∈ f.placed)
    {v : Value} (first : p.inst.result? = some v) (second : q.inst.result? = some v) : p = q := by
  rw [results_eq_placed] at distinct
  -- By the first instruction of the list: it may be either, but not one of the
  -- two with the other behind it.
  generalize f.placed = ps at distinct left right
  induction ps with
  | nil => cases left
  | cons x rest ih =>
    have fresh : ∀ y ∈ rest, y.inst.result? = some v → x.inst.result? = some v → False := by
      intro y later again now
      rw [List.filterMap_cons_some (f := fun p : Placed => p.inst.result?) now] at distinct
      exact (List.nodup_cons.mp distinct).1 (List.mem_filterMap.mpr ⟨y, later, again⟩)
    rcases List.mem_cons.mp left with rfl | inner
    · rcases List.mem_cons.mp right with rfl | later
      · rfl
      · exact (fresh q later second first).elim
    · rcases List.mem_cons.mp right with rfl | later
      · exact (fresh p inner first second).elim
      · exact ih (distinct.sublist ((List.sublist_cons_self x rest).filterMap _)) inner later

theorem ty?_eq_some {f : Func} (distinct : f.results.Nodup) {v : Value} {t : TypeRef} :
    f.ty? v = some t ↔ ∃ i ∈ f.insts, i.defines = some (v, t) := by
  rw [results_eq_definitions] at distinct
  -- The last definition is the first to be found.
  have backwards : (f.definitions.reverse.map (·.1)).Nodup := by
    rw [List.map_reverse]
    exact List.nodup_reverse.mpr distinct
  rw [ty?, lookup_eq_some_of_distinct backwards, List.mem_reverse, definitions, List.mem_filterMap]

end Func

namespace UseIndex

theorem build_def? {f : Func} (distinct : f.results.Nodup) {v : Value} {r : InstRef} :
    (build f).def? v = some r ↔ ∃ i, ⟨r, i⟩ ∈ f.placed ∧ i.result? = some v := by
  have keys : ((build f).defs.map (·.1)).Nodup := by
    have same : (build f).defs.map (·.1) = f.results.reverse := by
      rw [build, List.map_reverse, List.map_filterMap, Func.results_eq_placed]
      simp only [Option.map_map, Function.comp_def, Option.map_id']
    rw [same]
    exact List.nodup_reverse.mpr distinct
  rw [def?, lookup_eq_some_of_distinct keys, build, List.mem_reverse, List.mem_filterMap]
  constructor
  · intro ⟨p, member, named⟩
    obtain ⟨w, result, same⟩ := Option.map_eq_some_iff.mp named
    cases same
    exact ⟨p.inst, member, result⟩
  · intro ⟨i, member, result⟩
    exact ⟨_, member, by rw [result]; rfl⟩

theorem mem_build_uses {f : Func} {v : Value} {u : Use} :
    (v, u) ∈ (build f).uses ↔ ∃ i, ⟨u.user, i⟩ ∈ f.placed ∧ (u.position, v) ∈ i.slots := by
  simp only [build, List.mem_flatMap, List.mem_map]
  constructor
  · intro ⟨p, member, (position, w), slot, same⟩
    cases same
    exact ⟨p.inst, member, slot⟩
  · intro ⟨i, member, slot⟩
    exact ⟨_, member, _, slot, rfl⟩

theorem mem_usesOf {x : UseIndex} {v : Value} {u : Use} : u ∈ x.usesOf v ↔ (v, u) ∈ x.uses := by
  simp only [usesOf, List.mem_map, List.mem_filter, decide_eq_true_eq]
  constructor
  · intro ⟨(w, t), ⟨member, named⟩, same⟩
    cases named
    cases same
    exact member
  · exact fun member => ⟨_, ⟨member, rfl⟩, rfl⟩

theorem useCount_pos {f : Func} {v : Value} : 0 < (build f).useCount v ↔ ∃ i ∈ f.insts, v ∈ i.values := by
  rw [useCount, List.length_pos_iff_exists_mem]
  simp only [mem_usesOf, mem_build_uses, Func.mem_insts_iff_placed]
  constructor
  · intro ⟨u, i, member, slot⟩
    exact ⟨i, ⟨u.user, member⟩, Inst.mem_values_of_slot slot⟩
  · intro ⟨i, ⟨r, member⟩, named⟩
    obtain ⟨k, slot⟩ := Inst.exists_slot named
    exact ⟨⟨r, k⟩, i, member, slot⟩

end UseIndex

namespace Scope

theorem WellFormed.ty?_result {s : Scope} (well : s.WellFormed) {i : Inst} (member : i ∈ s.func.insts) {v : Value}
    {t : TypeRef} (defined : i.defines = some (v, t)) : s.ty? v = some t := by
  rw [ty?, (Func.ty?_eq_some well.distinct).mpr ⟨i, member, defined⟩, Option.some_or]

end Scope

end DeadLanes
