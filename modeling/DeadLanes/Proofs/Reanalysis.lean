import DeadLanes.Proofs.Redirection
import DeadLanes.Proofs.Rounds

namespace DeadLanes

-- What the analysis finds once dead inserts are bypassed and idle instructions
-- are gone. Bypassed inserts may lose lanes; all other values have the lanes that
-- they had. What is left of the function after that has no more than it had.

theorem LaneRule.isExact_mapValues (rule : LaneRule) (ρ : Value → Value) : (rule.mapValues ρ).isExact = rule.isExact := by
  cases rule <;> rfl

theorem Inst.isRoot_mono {i : Inst} {rule : LaneRule} {used more : Bool} (wider : used = true → more = true)
    (root : i.isRoot rule used = true) : i.isRoot rule more = true := by
  simp only [isRoot, Bool.and_eq_true, Bool.or_eq_true] at root ⊢
  exact ⟨root.1, root.2.imp_right wider⟩

namespace Analysis

variable {a b : Analysis} {live less : Value → LaneSet}

-- An instruction and one that asks for no more, where there is as much for its
-- operands.
structure Relaxes (a b : Analysis) (live less : Value → LaneSet) (ρ : Value → Value) (i j : Inst) : Prop where
  rule : b.ruleOf j = (a.ruleOf i).mapValues ρ
  result : j.result? = i.result?
  root : b.isRoot j = true → a.isRoot i = true
  own : ∀ v, i.result? = some v → less v = live v ∧ b.view.tracked v = a.view.tracked v
  operands : ∀ w ∈ i.values, live w ≤ less (ρ w) ∧ b.view.tracked (ρ w) = a.view.tracked w

theorem Relaxes.demanded {ρ : Value → Value} {i j : Inst} (relaxes : Relaxes a b live less ρ i j) :
    b.demanded less j ≤ a.demanded live i := by
  unfold Analysis.demanded
  cases root : b.isRoot j with
  | true =>
    rw [relaxes.root root]
    exact le_refl _
  | false =>
    cases a.isRoot i with
    | true => exact LaneSet.le_all _
    | false =>
      rw [relaxes.result]
      cases result : i.result? with
      | none => exact le_refl _
      | some v => exact le_of_eq (relaxes.own v result).1

theorem Closed.relax (closed : a.Closed live) (held : b.Held less)
    (all : ∀ j ∈ b.func.insts, ∃ i ∈ a.func.insts, ∃ ρ, Relaxes a b live less ρ i j) : b.Closed less := by
  refine ⟨fun j member root v result whole => ?_, fun j member d asked => ?_⟩
  · obtain ⟨i, here, ρ, relaxes⟩ := all j member
    rw [relaxes.result] at result
    obtain ⟨same, tracked⟩ := relaxes.own v result
    rw [same]
    exact closed.roots i here (relaxes.root root) v result (tracked ▸ whole)
  · obtain ⟨i, here, ρ, relaxes⟩ := all j member
    rw [relaxes.rule, LaneRule.demands_mapValues] at asked
    obtain ⟨e, before, rfl⟩ := List.mem_map.mp asked
    obtain ⟨f, again, same, fewer⟩ := LaneRule.demands_mono relaxes.demanded (fun obj other lane lanes rule =>
      demanded_fits held (relaxes.rule.trans (congrArg _ rule))) before
    obtain ⟨enough, tracked⟩ := relaxes.operands e.1 (LaneRule.demands_operand before)
    have met := closed.met i here f again
    rw [same] at met
    rw [tracked]
    exact le_trans (le_trans (LaneSet.normalized_mono fewer fun n small => LaneView.tracked_le small) met) enough

end Analysis

namespace Scope

variable {s : Scope} {live more : Value → LaneSet} {ρ : Value → Value}

def renamed (s : Scope) (ρ : Value → Value) : Scope := { s with func := s.func.mapValues ρ }

theorem view_renamed (s : Scope) (ρ : Value → Value) : (s.renamed ρ).view = s.view := by
  simp only [view, LaneView.mk.injEq]
  refine ⟨funext fun w => ?_, funext fun w => ?_⟩
  · rw [width?, width?, renamed, ty?_mapValues]
  · rw [known, known, renamed, ty?_mapValues]

theorem tracked_of_ty? {v w : Value} (same : s.ty? v = s.ty? w) : s.view.tracked v = s.view.tracked w := by
  simp only [LaneView.tracked, view, width?, same]

theorem view_ofScope_renamed (s : Scope) (ρ : Value → Value) :
    (Analysis.ofScope (s.renamed ρ)).view = (Analysis.ofScope s).view := s.view_renamed ρ

theorem held_renamed : (Analysis.ofScope (s.renamed ρ)).Held live ↔ (Analysis.ofScope s).Held live := by
  simp only [Analysis.Held, view_ofScope_renamed]

theorem tracked_renamed (typed : ∀ w, s.ty? (ρ w) = s.ty? w) (v : Value) :
    (Analysis.ofScope (s.renamed ρ)).view.tracked (ρ v) = (Analysis.ofScope s).view.tracked v := by
  rw [view_ofScope_renamed]
  exact tracked_of_ty? (typed v)

theorem used_iff {i : Inst} : (Analysis.ofScope s).used i = true ↔ ∃ v, i.result? = some v ∧ ¬ s.func.Unused v := by
  have counted : ∀ v, 0 < (UseIndex.build s.func).useCount v ↔ ¬ s.func.Unused v := by
    intro v
    rw [UseIndex.useCount_pos]
    simp [Func.Unused]
  rw [Analysis.used, Option.any_eq_true]
  exact exists_congr fun v => and_congr_right fun _ => decide_eq_true_iff.trans (counted v)

theorem ruleOf_renamed (typed : ∀ w, s.ty? (ρ w) = s.ty? w) (i : Inst) :
    (Analysis.ofScope (s.renamed ρ)).ruleOf (i.mapValues ρ) = ((Analysis.ofScope s).ruleOf i).mapValues ρ := by
  have width : ∀ w, s.view.width (ρ w) = s.view.width w := fun w => by simp only [view, width?, typed]
  rw [Analysis.ruleOf, Analysis.ruleOf]
  exact (congrArg (LaneRule.of · _) (s.view_renamed ρ)).trans (LaneRule.of_mapValues (fun w _ => width w) rfl)

theorem isRoot_renamed (typed : ∀ w, s.ty? (ρ w) = s.ty? w) (i : Inst) :
    (Analysis.ofScope (s.renamed ρ)).isRoot (i.mapValues ρ) =
      i.isRoot ((Analysis.ofScope s).ruleOf i) ((Analysis.ofScope (s.renamed ρ)).used i) := by
  rw [Analysis.isRoot, Inst.isRoot, ruleOf_renamed typed, LaneRule.isExact_mapValues]
  rfl

-- Values give way to others of their type that are live wherever they are, and
-- that were used before.
structure Raises (s : Scope) (live : Value → LaneSet) (ρ : Value → Value) : Prop where
  typed : ∀ w, s.ty? (ρ w) = s.ty? w
  grows : ∀ w, live w ≤ live (ρ w)
  unused : ∀ v, s.func.Unused v → (s.func.mapValues ρ).Unused v

theorem Raises.root_before (raises : s.Raises live ρ) {i : Inst}
    (root : (Analysis.ofScope (s.renamed ρ)).isRoot (i.mapValues ρ) = true) : (Analysis.ofScope s).isRoot i = true := by
  rw [isRoot_renamed raises.typed] at root
  refine Inst.isRoot_mono (fun used => ?_) root
  obtain ⟨v, result, used⟩ := used_iff.mp used
  exact used_iff.mpr ⟨v, result, fun unused => used (raises.unused v unused)⟩

theorem Raises.closed (raises : s.Raises live ρ) (held : (Analysis.ofScope s).Held live)
    (closed : (Analysis.ofScope s).Closed live) : (Analysis.ofScope (s.renamed ρ)).Closed live := by
  refine closed.relax (held_renamed.mpr held) fun j member => ?_
  obtain ⟨i, here, rfl⟩ := Func.mem_insts_mapValues.mp member
  exact ⟨i, here, ρ, ruleOf_renamed raises.typed i, rfl, raises.root_before, fun v _ => ⟨rfl, by rw [view_ofScope_renamed]⟩,
    fun w _ => ⟨raises.grows w, tracked_renamed raises.typed w⟩⟩

theorem WellFormed.ty?_base (well : s.WellFormed) {r : InstRef} {v base : Value}
    (dead : s.func.DeadInsert s.view live r v base) : s.ty? base = s.ty? v := by
  have same := well.ty?_subst dead v
  rwa [Value.subst, if_pos rfl] at same

theorem WellFormed.live_le_base (well : s.WellFormed) (held : (Analysis.ofScope s).Held live)
    (closed : (Analysis.ofScope s).Closed live) {r : InstRef} {v base : Value}
    (dead : s.func.DeadInsert s.view live r v base) : live v ≤ live base := by
  obtain ⟨i, obj, lane, placed, result, parsed, unread⟩ := dead.placed
  have member := Func.mem_insts_iff_placed.mpr ⟨r, placed⟩
  obtain ⟨count, tracked⟩ := Option.isSome_iff_exists.mp dead.tracked
  have rule : (Analysis.ofScope s).ruleOf i = .insert obj base lane count := LaneRule.of_insert result parsed tracked
  have demanded : (Analysis.ofScope s).demanded live i = live v := Analysis.demanded_exact (by rw [rule]; rfl) result
  rcases held v with none | canonical
  · rw [none]
    exact LaneSet.empty_le _
  · cases nothing : (live v).isEmpty with
    | true =>
      rw [LaneSet.isEmpty_iff.mp nothing]
      exact LaneSet.empty_le _
    | false =>
      have met : (live v).normalized (s.view.tracked base) ≤ live base := closed.met i member (base, live v) (by
        rw [rule, demanded]
        simp [LaneRule.demands, nothing, unread])
      have kept : (live v).normalized (s.view.tracked v) = live v :=
        LaneSet.normalized_canonical (fun n counted => LaneView.tracked_le counted) canonical
      rwa [tracked_of_ty? (well.ty?_base dead), kept] at met

theorem WellFormed.raises (well : s.WellFormed) (held : (Analysis.ofScope s).Held live)
    (closed : (Analysis.ofScope s).Closed live) (redirects : Redirects (s.func.DeadBase s.view live) ρ) :
    s.Raises live ρ := by
  refine ⟨fun w => ?_, fun w => ?_, fun v unused i member named => ?_⟩
  · have path := redirects.along w
    generalize ρ w = u at path
    induction path with
    | refl => rfl
    | tail _ step ih =>
      obtain ⟨r, dead⟩ := step
      exact (well.ty?_base dead).trans ih
  · have path := redirects.along w
    generalize ρ w = u at path
    induction path with
    | refl => exact le_refl _
    | tail _ step ih =>
      obtain ⟨r, dead⟩ := step
      exact le_trans ih (well.live_le_base held closed dead)
  · obtain ⟨j, here, rfl⟩ := Func.mem_insts_mapValues.mp member
    obtain ⟨w, read, rfl⟩ := Inst.mem_values_mapValues.mp named
    rcases (redirects.along w).cases_tail with same | ⟨u, -, last⟩
    · exact unused j here (same.symm ▸ read)
    · exact last.used unused

theorem demands_dead {r : InstRef} {v base : Value} (dead : s.func.DeadInsert s.view live r v base) {i : Inst}
    (placed : ⟨r, i⟩ ∈ s.func.placed) (less : more v ≤ live v) :
    (Analysis.ofScope s).isRoot i = false ∧
      ∀ d ∈ ((Analysis.ofScope s).ruleOf i).demands ((Analysis.ofScope s).demanded more i), d = (base, more v) ∧ more v ≠ .empty := by
  obtain ⟨j, obj, lane, there, result, parsed, unread⟩ := dead.placed
  cases Func.placed_unique there placed rfl
  obtain ⟨count, tracked⟩ := Option.isSome_iff_exists.mp dead.tracked
  have rule : (Analysis.ofScope s).ruleOf i = .insert obj base lane count := LaneRule.of_insert result parsed tracked
  refine ⟨by rw [Analysis.isRoot, rule]; rfl, fun d asked => ?_⟩
  rw [Analysis.demanded_exact (by rw [rule]; rfl) result, rule] at asked
  have missing : (more v).contains lane = false :=
    Bool.eq_false_iff.mpr fun read => Bool.eq_false_iff.mp unread (LaneSet.contains_of_le less read)
  simp only [LaneRule.demands, missing, Bool.false_eq_true, if_false] at asked
  split at asked
  · cases asked
  · rename_i some'
    exact ⟨List.mem_singleton.mp asked, fun none => some' (LaneSet.isEmpty_iff.mpr none)⟩

theorem dead_or_named (distinct : s.func.results.Nodup) (redirects : Redirects (s.func.DeadBase s.view live) ρ) {i : Inst}
    (member : i ∈ s.func.insts) :
    (∃ r v base, s.func.DeadInsert s.view live r v base ∧ ⟨r, i⟩ ∈ s.func.placed ∧ i.result? = some v) ∨
      ∀ v, i.result? = some v → ρ v = v := by
  by_cases dead : ∃ v base, i.result? = some v ∧ s.func.DeadBase s.view live v base
  · obtain ⟨v, base, result, r, dead⟩ := dead
    obtain ⟨j, _, _, there, again, -⟩ := dead.placed
    obtain ⟨q, placed⟩ := Func.mem_insts_iff_placed.mp member
    cases Func.defined_once distinct there placed again result
    exact .inl ⟨r, v, base, dead, there, result⟩
  · exact .inr fun v result => redirects.stays fun base starts => dead ⟨v, base, result, starts⟩

theorem root_after (typed : ∀ w, s.ty? (ρ w) = s.ty? w) {i : Inst} (named : ∀ v, i.result? = some v → ρ v = v)
    (root : (Analysis.ofScope s).isRoot i = true) : (Analysis.ofScope (s.renamed ρ)).isRoot (i.mapValues ρ) = true := by
  rw [isRoot_renamed typed]
  refine Inst.isRoot_mono (fun used => ?_) root
  obtain ⟨v, result, used⟩ := used_iff.mp used
  refine used_iff.mpr ⟨v, result, fun unused => used fun j member read => ?_⟩
  refine unused (j.mapValues ρ) (Func.mem_insts_mapValues.mpr ⟨j, member, rfl⟩) ?_
  exact Inst.mem_values_mapValues.mpr ⟨v, read, named v result⟩

-- What is live before and after, each value seen as what took its place.
def shared (live more : Value → LaneSet) (ρ : Value → Value) (v : Value) : LaneSet := more (ρ v) ⊓ live v

theorem shared_held (typed : ∀ w, s.ty? (ρ w) = s.ty? w) (one : (Analysis.ofScope s).Held live)
    (two : (Analysis.ofScope (s.renamed ρ)).Held more) : (Analysis.ofScope s).Held (shared live more ρ) := by
  intro v
  have other := two (ρ v)
  rw [tracked_renamed typed] at other
  rcases one v with none | here
  · exact .inl (LaneSet.le_empty.mp (none ▸ inf_le_right))
  · rcases other with none | there
    · exact .inl (LaneSet.le_empty.mp (none ▸ inf_le_left))
    · exact .inr (there.inf here)

theorem shared_met (one : (Analysis.ofScope s).Solves live) (raises : s.Raises live ρ)
    (redirects : Redirects (s.func.DeadBase s.view live) ρ) (distinct : s.func.results.Nodup)
    (two : (Analysis.ofScope (s.renamed ρ)).Solves more) {i : Inst} (member : i ∈ s.func.insts) :
    (Analysis.ofScope s).Met (shared live more ρ) i := by
  have held := shared_held raises.typed one.held two.held
  intro d asked
  refine le_inf ?_ ((one.closed.met i member).mono held (fun v => inf_le_right) d asked)
  rcases dead_or_named distinct redirects member with ⟨r, v, base, dead, placed, result⟩ | named
  · have less : shared live more ρ v ≤ live v := inf_le_right
    obtain ⟨rfl, some'⟩ := (demands_dead dead placed less).2 d asked
    have canonical := (held v).resolve_left some'
    have past := redirects.past v base ⟨r, dead⟩
    have counted := (tracked_renamed raises.typed base).symm.trans (past ▸ tracked_renamed raises.typed v)
    dsimp only
    rw [← past, counted, LaneSet.normalized_canonical (fun n small => LaneView.tracked_le small) canonical]
    exact inf_le_left
  · have grown : (Analysis.ofScope s).demanded (shared live more ρ) i ≤
        (Analysis.ofScope (s.renamed ρ)).demanded more (i.mapValues ρ) := by
      unfold Analysis.demanded
      cases root : (Analysis.ofScope s).isRoot i with
      | true =>
        rw [root_after raises.typed named root]
        exact le_refl _
      | false =>
        cases (Analysis.ofScope (s.renamed ρ)).isRoot (i.mapValues ρ) with
        | true => exact LaneSet.le_all _
        | false =>
          rw [Inst.result?_mapValues]
          cases result : i.result? with
          | none => exact le_refl _
          | some v =>
            have below : shared live more ρ v ≤ more (ρ v) := inf_le_left
            rwa [named v result] at below
    obtain ⟨e, again, same, less⟩ :=
      LaneRule.demands_mono grown (fun _ _ _ _ rule => Analysis.demanded_fits held rule) asked
    have met := two.closed.met _ (Func.mem_insts_mapValues.mpr ⟨i, member, rfl⟩) (ρ e.1, e.2) (by
      rw [ruleOf_renamed raises.typed, LaneRule.demands_mapValues]
      exact List.mem_map_of_mem again)
    rw [tracked_renamed raises.typed, same] at met
    exact le_trans (LaneSet.normalized_mono less fun n small => LaneView.tracked_le small) met

theorem shared_closed (one : (Analysis.ofScope s).Solves live) (raises : s.Raises live ρ)
    (redirects : Redirects (s.func.DeadBase s.view live) ρ) (distinct : s.func.results.Nodup)
    (two : (Analysis.ofScope (s.renamed ρ)).Solves more) : (Analysis.ofScope s).Closed (shared live more ρ) := by
  refine ⟨fun i member root v result tracked => ?_, fun i member => shared_met one raises redirects distinct two member⟩
  rcases dead_or_named distinct redirects member with ⟨r, u, base, dead, placed, again⟩ | named
  · have idle := (demands_dead dead placed (le_refl (live u))).1
    rw [root] at idle
    cases idle
  · have before := one.closed.roots i member root v result tracked
    have after := two.closed.roots _ (Func.mem_insts_mapValues.mpr ⟨i, member, rfl⟩) (root_after raises.typed named root) v
      result (view_ofScope_renamed s ρ ▸ tracked)
    rw [shared, named v result, after, before, inf_idem]

theorem WellFormed.reanalysis (well : s.WellFormed) (one : (Analysis.ofScope s).Solves live)
    (redirects : Redirects (s.func.DeadBase s.view live) ρ) (two : (Analysis.ofScope (s.renamed ρ)).Solves more) :
    (∀ v, more v ≤ live v) ∧ ∀ v, live v ≤ more (ρ v) := by
  have raises := well.raises one.held one.closed redirects
  constructor
  · exact two.below live (held_renamed.mpr one.held) (raises.closed one.held one.closed)
  · have held := shared_held raises.typed one.held two.held
    have closed := shared_closed one raises redirects well.distinct two
    exact fun v => le_trans (one.below _ held closed v) inf_le_left

section

variable {gone : List InstRef} {i : Inst}

theorem tracked_discarded (distinct : s.func.results.Nodup) (idle : s.func.Idle gone)
    (member : i ∈ (s.discarded gone).func.insts) {v : Value} (mentioned : v ∈ i.mentions) :
    (s.discarded gone).view.tracked v = s.view.tracked v := by
  rw [LaneView.tracked, LaneView.tracked, width_discarded distinct idle member mentioned]

theorem ruleOf_discarded (distinct : s.func.results.Nodup) (idle : s.func.Idle gone)
    (member : i ∈ (s.discarded gone).func.insts) :
    (Analysis.ofScope (s.discarded gone)).ruleOf i = (Analysis.ofScope s).ruleOf i := by
  have own : i.result?.bind (s.discarded gone).view.tracked = i.result?.bind s.view.tracked := by
    cases result : i.result? with
    | none => rfl
    | some v =>
      exact tracked_discarded distinct idle member (List.mem_append_left _ (Option.mem_toList.mpr result))
  have same := LaneRule.of_mapValues (ρ := id)
    (fun w named => width_discarded distinct idle member (List.mem_append_right _ named)) own
  rwa [i.mapValues_id, LaneRule.mapValues_id] at same

def remaining (s : Scope) (gone : List InstRef) (live : Value → LaneSet) (v : Value) : LaneSet :=
  if (s.discarded gone).ty? v = s.ty? v then live v else .empty

theorem remaining_le (v : Value) : s.remaining gone live v ≤ live v := by
  unfold remaining
  split
  · exact le_refl _
  · exact LaneSet.empty_le _

theorem remaining_mentioned (distinct : s.func.results.Nodup) (idle : s.func.Idle gone)
    (member : i ∈ (s.discarded gone).func.insts) {v : Value} (mentioned : v ∈ i.mentions) :
    s.remaining gone live v = live v :=
  if_pos (ty?_discard distinct idle member mentioned)

theorem remaining_held (held : (Analysis.ofScope s).Held live) :
    (Analysis.ofScope (s.discarded gone)).Held (s.remaining gone live) := by
  intro v
  unfold remaining
  split
  · rename_i same
    have tracked : (s.discarded gone).view.tracked v = s.view.tracked v := by
      simp only [LaneView.tracked, view, width?, same]
      rfl
    exact tracked.symm ▸ held v
  · exact .inl rfl

theorem remaining_closed (distinct : s.func.results.Nodup) (idle : s.func.Idle gone)
    (held : (Analysis.ofScope s).Held live) (closed : (Analysis.ofScope s).Closed live) :
    (Analysis.ofScope (s.discarded gone)).Closed (s.remaining gone live) := by
  refine closed.relax (remaining_held held) fun i member => ?_
  have before := s.func.insts_discard_subset gone member
  have rule := ruleOf_discarded distinct idle member
  refine ⟨i, before, id, rule.trans (LaneRule.mapValues_id _).symm, rfl, fun root => ?_, fun v result => ?_, fun w named => ?_⟩
  · rw [Analysis.isRoot, rule] at root
    refine Inst.isRoot_mono (fun used => ?_) root
    obtain ⟨v, result, used⟩ := used_iff.mp used
    exact used_iff.mpr ⟨v, result, fun unused => used fun j there => unused j (s.func.insts_discard_subset gone there)⟩
  · have mentioned := List.mem_append_left i.values (Option.mem_toList.mpr result)
    exact ⟨remaining_mentioned distinct idle member mentioned, tracked_discarded distinct idle member mentioned⟩
  · have mentioned := List.mem_append_right i.result?.toList named
    exact ⟨le_of_eq (remaining_mentioned distinct idle member mentioned).symm, tracked_discarded distinct idle member mentioned⟩

end

end Scope

end DeadLanes
