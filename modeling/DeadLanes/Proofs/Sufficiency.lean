import DeadLanes.Proofs.Fixpoint
import DeadLanes.Proofs.Provenance

namespace DeadLanes

namespace Datum

theorem Agree.refl (read : LaneSet) (x : Datum α) : Agree read x x := by
  cases read with
  | all => rfl
  | lanes mask => exact fun _ _ => rfl

theorem Agree.trans {read : LaneSet} {x y z : Datum α} (first : Agree read x y) (second : Agree read y z) :
    Agree read x z := by
  cases read with
  | all => exact Eq.trans first second
  | lanes mask => exact fun k here => (first k here).trans (second k here)

theorem Agree.symm {read : LaneSet} {x y : Datum α} (alike : Agree read x y) : Agree read y x := by
  cases read with
  | all => exact Eq.symm alike
  | lanes mask => exact fun k here => (alike k here).symm

theorem Agree.mono {less more : LaneSet} {x y : Datum α} (below : less ≤ more) (alike : Agree more x y) :
    Agree less x y := by
  cases more with
  | all =>
    cases (alike : x = y)
    exact Agree.refl less x
  | lanes mask =>
    cases less with
    | all => exact absurd below (LaneSet.not_all_le mask)
    | lanes part => exact fun k here => alike k (below k here)

theorem agree_empty (x y : Datum α) : Agree .empty x y := fun k here => by simp at here

theorem Agree.lane {read : LaneSet} {x y : Datum α} (alike : Agree read x y) {k : Nat} (here : read.contains k = true) :
    x.lane k = y.lane k := by
  cases read with
  | all => exact congrArg (Datum.lane · k) alike
  | lanes mask => exact alike k here

end Datum

namespace LaneView

theorem lane_read {view : LaneView} {v : Value} {asked read : LaneSet} {x y : Datum α} {k : Nat}
    (met : asked.normalized (view.tracked v) ≤ read) (here : asked.contains k = true)
    (low : ∀ count, view.width v = some count → k < count) (alike : Datum.Agree read x y) : x.lane k = y.lane k := by
  refine alike.lane (LaneSet.contains_of_le met ?_)
  cases counted : view.tracked v with
  | none =>
    rw [LaneSet.normalized_none_of_nonempty]
    · rfl
    · intro nothing
      rw [nothing, LaneSet.contains_empty] at here
      cases here
  | some count =>
    have inside := low count (Option.filter_eq_some_iff.mp counted).1
    rw [LaneSet.contains_normalized asked (LaneView.tracked_le counted) inside]
    exact here

theorem whole_read {view : LaneView} {v : Value} {asked read : LaneSet} {x y : Datum α}
    (met : asked.normalized (view.tracked v) ≤ read) (some' : asked ≠ .empty) (plain : view.tracked v = none)
    (alike : Datum.Agree read x y) : x = y := by
  rw [plain, LaneSet.normalized_none_of_nonempty some', LaneSet.all_le] at met
  rw [met] at alike
  exact alike

end LaneView

namespace Interp

variable {m : Interp α} {s : Scope} {env other : Env α} {past : List (Effect α)} {i : Inst} {v : Value} {ty : TypeRef}

theorem produce_congr (same : ∀ w ∈ i.values, env w = other w) :
    m.produce s env past i v ty = m.produce s other past i v ty := by
  have args : i.values.map env = i.values.map other := List.map_congr_left same
  have spreads : (i.values.flatMap fun w => (env w).spread (s.width? w)) =
      i.values.flatMap fun w => (other w).spread (s.width? w) := by
    rw [List.flatMap_def, List.flatMap_def, List.map_congr_left fun w member => by rw [same w member]]
  unfold produce
  rw [args, spreads]
  split
  · rfl
  · rfl
  · rfl
  · split
    · rename_i obj base lane count parsed _
      have values := Inst.asInsert?_values parsed
      rw [same obj (by simp [values]), same base (by simp [values])]
    · rfl
  · split
    · rename_i src lane parsed
      rw [same src (by simp [Inst.asExtract?_values parsed])]
    · rfl
  · split
    · rename_i a b sels parsed
      have values := Inst.asShuffle?_values parsed
      rw [same a (by simp [values]), same b (by simp [values])]
    · rfl
  · rfl

end Interp

-- What the operands of an instruction are read for: each demand of its rule is
-- met by the lanes on which the two environments agree.
structure Reads (s : Scope) (live : Value → LaneSet) (asked : LaneSet) (i : Inst) (env other : Env α) : Prop where
  nonempty : asked.isEmpty = false
  met : ∀ d ∈ (LaneRule.of s.view i).demands asked, d.2.normalized (s.view.tracked d.1) ≤ live d.1
  agree : ∀ w ∈ i.values, Datum.Agree (live w) (env w) (other w)

namespace Reads

variable {m : Interp α} {s : Scope} {live : Value → LaneSet} {asked : LaneSet} {i : Inst} {env other : Env α}
  {past : List (Effect α)} {v : Value} {ty : TypeRef}

theorem whole (reads : Reads s live asked i env other) {w : Value} (named : w ∈ i.values)
    (demand : (w, LaneSet.all) ∈ (LaneRule.of s.view i).demands asked) : env w = other w := by
  have alike := reads.agree w named
  rw [LaneSet.all_le.mp (reads.met _ demand)] at alike
  exact alike

theorem lane (reads : Reads s live asked i env other) {w : Value} (named : w ∈ i.values) {part : LaneSet} {k : Nat}
    (demand : (w, part) ∈ (LaneRule.of s.view i).demands asked) (here : part.contains k = true)
    (low : ∀ count, s.width? w = some count → k < count) : (env w).lane k = (other w).lane k :=
  LaneView.lane_read (reads.met _ demand) here low (reads.agree w named)

theorem fallback (reads : Reads s live asked i env other) {operands : List Value}
    (rule : LaneRule.of s.view i = .fallback operands) : ∀ w ∈ operands, env w = other w := by
  intro w member
  have demand : (w, LaneSet.all) ∈ (LaneRule.of s.view i).demands asked := by
    rw [rule]
    simpa [LaneRule.demands, reads.nonempty] using member
  exact reads.whole (LaneRule.demands_operand demand) demand

theorem extract (reads : Reads s live asked i env other) {src : Value} {lane : Nat}
    (rule : LaneRule.of s.view i = .extract src lane) (parsed : i.asExtract? = some (src, lane))
    (low : ∀ count, s.width? src = some count → lane < count) :
    m.produce s env past i v ty = m.produce s other past i v ty := by
  simp only [Interp.produce, (Inst.asExtract?_eq_some.mp parsed).1, parsed]
  refine reads.lane (by simp [Inst.asExtract?_values parsed]) ?_ (LaneSet.contains_single_self lane) low
  rw [rule]
  simp [LaneRule.demands, reads.nonempty]

theorem source (reads : Reads s live asked i env other) {src : Source}
    (due : src.Due s ((LaneRule.of s.view i).demands asked)) : src.read env = src.read other := by
  cases src with
  | lane w k =>
    obtain ⟨⟨count, width, low⟩, read, demand, here⟩ := due
    refine reads.lane (LaneRule.demands_operand demand) demand here fun n known => ?_
    cases width.symm.trans known
    exact low
  | whole w =>
    obtain ⟨read, demand, all | ⟨plain, here⟩⟩ := due
    · subst all
      exact reads.whole (LaneRule.demands_operand demand) demand
    · have filled : read ≠ .empty := by
        rintro rfl
        rw [LaneSet.contains_empty] at here
        cases here
      have untracked : s.view.tracked w = none := by
        rw [LaneView.tracked]
        exact congrArg (Option.filter _) plain
      exact LaneView.whole_read (reads.met _ demand) filled untracked
        (reads.agree w (LaneRule.demands_operand demand))

theorem gathered (reads : Reads s live asked i env other) (ordinary : i.opcode ≠ .phi) {count : Nat}
    {source : Option Label → Nat → Option Source} (gathers : i.Gathers s v ty count source)
    (covers : LaneRule.Covers s ((LaneRule.of s.view i).demands asked) asked count source) :
    Datum.Agree asked (m.produce s env past i v ty) (m.produce s other past i v ty) := by
  have produced : ∀ env : Env α, m.outcome s env past none i v ty = m.produce s env past i v ty :=
    fun _ => if_neg ordinary
  have unmerged : i.incoming = [] := if_neg ordinary
  have shaped : ∀ env : Env α, (m.produce s env past i v ty).Shaped (some count) := by
    intro env
    rw [← produced]
    exact gathers.shaped m past none env (by simp [unmerged])
  refine (shaped env).agree (shaped other) fun c low here => ?_
  rw [← produced, ← produced, gathers.lane m past none env c low, gathers.lane m past none other c low]
  cases found : source none c with
  | none => rfl
  | some src => exact reads.source (covers none c low here src found)

end Reads

-- Constants take their operands as they are, and no lane of those is asked for.
def Inst.isConstant (i : Inst) : Prop := i.opcode = .const ∨ i.opcode = .constComposite

namespace Scope.WellFormed

variable {s : Scope} {live : Value → LaneSet}

theorem produce_agree (well : s.WellFormed) (closed : (Analysis.ofScope s).Closed live) {i : Inst}
    (member : i ∈ s.func.insts) {v : Value} {ty : TypeRef} (defined : i.defines = some (v, ty))
    (ordinary : i.opcode ≠ .phi) {env other : Env α}
    (agree : ∀ w ∈ i.values, Datum.Agree (live w) (env w) (other w))
    (constant : i.isConstant → ∀ w ∈ i.values, env w = other w) (m : Interp α) (past : List (Effect α)) :
    Datum.Agree ((Analysis.ofScope s).demanded live i) (m.produce s env past i v ty) (m.produce s other past i v ty) := by
  cases nothing : ((Analysis.ofScope s).demanded live i).isEmpty with
  | true =>
    rw [LaneSet.isEmpty_iff.mp nothing]
    exact Datum.agree_empty _ _
  | false =>
    have reads : Reads s live ((Analysis.ofScope s).demanded live i) i env other :=
      ⟨nothing, closed.met i member, agree⟩
    have accepted := well.rule_accepted member defined
    generalize rule : LaneRule.of s.view i = exact' at accepted
    cases accepted with
    | insert parsed counted base low small =>
      refine reads.gathered ordinary (Inst.gathers_insert parsed counted) ?_
      rw [rule]
      exact LaneRule.covers_insert nothing base small
    | extract parsed src low =>
      rw [reads.extract rule parsed fun count width => ?_]
      · exact Datum.Agree.refl _ _
      · cases width.symm.trans src
        exact low
    | construct op counted =>
      refine reads.gathered ordinary (Inst.gathers_construct op rfl) ?_
      rw [rule]
      exact LaneRule.covers_construct nothing i.values
    | shuffle parsed counted countA countB low _ =>
      refine reads.gathered ordinary (Inst.gathers_shuffle parsed countA rfl) ?_
      rw [rule]
      exact LaneRule.covers_shuffle nothing countA countB low
    | phi op counted => exact absurd op ordinary
    | terminal op =>
      rcases op with op | op
      · simp only [Interp.produce, op]
        exact Datum.Agree.refl _ _
      · rw [Interp.produce_congr (constant op)]
        exact Datum.Agree.refl _ _
    | fallback none =>
      rw [Interp.produce_congr (reads.fallback rule)]
      exact Datum.Agree.refl _ _

theorem phi_asks (well : s.WellFormed) (held : (Analysis.ofScope s).Held live)
    (closed : (Analysis.ofScope s).Closed live) (phisTyped : s.PhisTyped) {i : Inst} (member : i ∈ s.func.insts)
    (phi : i.opcode = .phi) {w : Value} {p : Label} (pair : (w, p) ∈ i.incoming) :
    (Analysis.ofScope s).demanded live i ≤ live w := by
  cases nothing : ((Analysis.ofScope s).demanded live i).isEmpty with
  | true =>
    rw [LaneSet.isEmpty_iff.mp nothing]
    exact LaneSet.empty_le _
  | false =>
    have met := closed.met i member
    unfold Analysis.Met at met
    have rule : LaneRule.of s.view i = _ := LaneRule.of_phi phi
    cases tracked : i.result?.bind s.view.tracked with
    | none =>
      rw [tracked] at rule
      have demand := met (w, .all) (by
        rw [show (Analysis.ofScope s).ruleOf i = _ from rule]
        simp only [LaneRule.demands, nothing, Bool.false_eq_true, if_false]
        exact List.mem_map.mpr ⟨w, Inst.mem_incoming pair, rfl⟩)
      rw [LaneSet.all_le.mp demand]
      exact LaneSet.le_all _
    | some count =>
      rw [tracked] at rule
      obtain ⟨v, result, counted⟩ := Option.bind_eq_some_iff.mp tracked
      obtain ⟨ty, defined⟩ := Inst.result?_eq_some.mp result
      have demanded : (Analysis.ofScope s).demanded live i = live v := by
        refine Analysis.demanded_exact ?_ result
        rw [show (Analysis.ofScope s).ruleOf i = _ from rule]
        rfl
      have demand := met (w, (Analysis.ofScope s).demanded live i) (by
        rw [show (Analysis.ofScope s).ruleOf i = _ from rule]
        simp only [LaneRule.demands, nothing, Bool.false_eq_true, if_false]
        exact List.mem_map.mpr ⟨w, List.mem_map.mpr ⟨_, pair, rfl⟩, rfl⟩)
      have same : s.view.tracked w = s.view.tracked v := by
        have typed : s.ty? w = s.ty? v := by
          rw [phisTyped i member _ pair, well.ty?_result member defined, Inst.ty?, defined]
          rfl
        simp only [LaneView.tracked, view, width?, typed]
      have canonical : LaneSet.Canonical (s.view.tracked v) (live v) := by
        apply (held v).resolve_left
        intro none
        rw [demanded, none] at nothing
        cases nothing
      rw [demanded] at demand ⊢
      rwa [show (Analysis.ofScope s).view = s.view from rfl, same,
        LaneSet.normalized_canonical (fun n counted => LaneView.tracked_le counted) canonical] at demand

theorem merge_agree (well : s.WellFormed) (held : (Analysis.ofScope s).Held live)
    (closed : (Analysis.ofScope s).Closed live) (phisTyped : s.PhisTyped) {i : Inst} (member : i ∈ s.func.insts)
    (phi : i.opcode = .phi) {origin : Option Label} {env other : Env α}
    (agree : ∀ pair ∈ i.incoming, some pair.2 = origin → Datum.Agree (live pair.1) (env pair.1) (other pair.1))
    (m : Interp α) (v : Value) (ty : TypeRef) :
    Datum.Agree ((Analysis.ofScope s).demanded live i) (m.merge s env origin i v ty) (m.merge s other origin i v ty) := by
  unfold Interp.merge
  split
  · rename_i w p found
    have pair : (w, p) ∈ i.incoming := List.mem_of_find?_eq_some found
    have alike := agree (w, p) pair (by simpa using List.find?_some found)
    exact alike.mono (well.phi_asks held closed phisTyped member phi pair)
  · exact Datum.Agree.refl _ _

theorem live_le_demanded {a : Analysis} {i : Inst} {v : Value} (result : i.result? = some v) :
    live v ≤ a.demanded live i := by
  unfold Analysis.demanded
  split
  · exact LaneSet.le_all _
  · rw [result]

theorem operands_equal (closed : (Analysis.ofScope s).Closed live) {i : Inst} (member : i ∈ s.func.insts)
    (visible : i.opcode.sideEffect = true ∨ i.opcode.terminator = true) {env other : Env α}
    (agree : ∀ w ∈ i.values, Datum.Agree (live w) (env w) (other w)) : ∀ w ∈ i.values, env w = other w := by
  have rule : LaneRule.of s.view i = .fallback i.values := by
    unfold LaneRule.of LaneRule.lanewise?
    cases op : i.opcode <;> rw [op] at visible <;> first | rfl | exact absurd visible (by decide)
  have root : (Analysis.ofScope s).isRoot i = true := by
    rw [Analysis.isRoot, show (Analysis.ofScope s).ruleOf i = _ from rule]
    rcases visible with effect | ends
    · simp [Inst.isRoot, LaneRule.isExact, effect]
    · simp [Inst.isRoot, LaneRule.isExact, ends]
  have demanded : (Analysis.ofScope s).demanded live i = .all := if_pos root
  have reads : Reads s live .all i env other := ⟨rfl, demanded ▸ closed.met i member, agree⟩
  exact reads.fallback rule

end Scope.WellFormed

end DeadLanes
