import DeadLanes.Proofs.LaneRules
import DeadLanes.Proofs.Sync
import DeadLanes.Lane.Cleanup

namespace DeadLanes

-- What a clean-up does to the function, whatever it is told about live lanes:
-- inserts of unread lanes are bypassed, and then pure instructions that nobody
-- else uses are left out.

namespace Func

def Unused (f : Func) (v : Value) : Prop := ∀ i ∈ f.insts, v ∉ i.values

structure DeadInsert (view : LaneView) (live : Value → LaneSet) (f : Func) (r : InstRef) (v base : Value) : Prop where
  placed : ∃ i obj lane, ⟨r, i⟩ ∈ f.placed ∧ i.result? = some v ∧ i.asInsert? = some (obj, base, lane) ∧
    (live v).contains lane = false
  tracked : (view.tracked v).isSome = true

theorem DeadInsert.parsed {view : LaneView} {live : Value → LaneSet} {f : Func} {r : InstRef} {v base : Value}
    (dead : DeadInsert view live f r v base) (distinct : f.results.Nodup) {p : Placed} (placed : p ∈ f.placed)
    (result : p.inst.result? = some v) :
    ∃ obj lane, p.inst.asInsert? = some (obj, base, lane) ∧ (live v).contains lane = false := by
  obtain ⟨i, obj, lane, there, again, parsed, unread⟩ := dead.placed
  cases defined_once distinct placed there result again
  exact ⟨obj, lane, parsed, unread⟩

inductive Bypass (view : LaneView) (live : Value → LaneSet) (f : Func) : Func → Prop where
  | insert : DeadInsert view live f r v base → v ≠ base → Bypass view live f (f.mapValues (Value.subst v base))

-- Pure instructions of which only the group itself has any use.
def Idle (f : Func) (gone : List InstRef) : Prop :=
  ∀ p ∈ f.placed, p.ref ∈ gone → p.inst.opcode.isPure = true ∧
    ∀ v, p.inst.result? = some v → ∀ q ∈ f.placed, v ∈ q.inst.values → q.ref ∈ gone

inductive Discard (f : Func) : Func → Prop where
  | group : Idle f gone → Discard f (f.discard gone)

abbrev Bypasses (view : LaneView) (live : Value → LaneSet) := Relation.ReflTransGen (Bypass view live)

abbrev Discards := Relation.ReflTransGen Discard

variable {view : LaneView} {live : Value → LaneSet} {f g : Func}

theorem Bypasses.mapValues (steps : Bypasses view live f g) : ∃ ρ, g = f.mapValues ρ := by
  induction steps with
  | refl => exact ⟨id, f.mapValues_id.symm⟩
  | tail _ step ih =>
    obtain ⟨ρ, same⟩ := ih
    cases step with
    | insert dead differs => exact ⟨_, by rw [same, mapValues_mapValues]⟩

theorem Bypasses.results (steps : Bypasses view live f g) : g.results = f.results := by
  obtain ⟨ρ, same⟩ := steps.mapValues
  rw [same, results_mapValues]

theorem Discard.results (step : Discard f g) : g.results.Sublist f.results := by
  cases step with
  | group idle => exact f.results_discard_sublist _

theorem Discards.results (steps : Discards f g) : g.results.Sublist f.results := by
  induction steps with
  | refl => exact .refl _
  | tail _ step ih => exact step.results.trans ih

theorem mapValues_of_unused {old : Value} (unused : f.Unused old) (fresh : Value) :
    f.mapValues (Value.subst old fresh) = f := by
  refine eq_of_blocks rfl ?_ rfl rfl
  have same : ∀ block ∈ f.blocks,
      (block.map fun p => { p with inst := p.inst.mapValues (Value.subst old fresh) }) = block := by
    intro block member
    refine (List.map_congr_left fun p here => ?_).trans (List.map_id _)
    have absent := unused p.inst (mem_insts_iff_placed.mpr ⟨p.ref, List.mem_flatten.mpr ⟨block, member, here⟩⟩)
    have operands : p.inst.operands.map (.mapValue (Value.subst old fresh)) = p.inst.operands := by
      refine (List.map_congr_left fun o named => ?_).trans (List.map_id _)
      cases o with
      | value v =>
        have other : v ≠ old := fun same => absent (same ▸ Inst.mem_values.mpr named)
        simp [Operand.mapValue, Value.subst, other]
      | label b => rfl
      | literal n => rfl
    simp only [Inst.mapValues, operands]
    rfl
  exact (List.map_congr_left same).trans (List.map_id _)

theorem unused_mapValues {old fresh : Value} (differs : old ≠ fresh) : (f.mapValues (Value.subst old fresh)).Unused old := by
  intro i member named
  obtain ⟨j, -, rfl⟩ := mem_insts_mapValues.mp member
  obtain ⟨w, -, same⟩ := Inst.mem_values_mapValues.mp named
  unfold Value.subst at same
  split at same
  · exact differs same.symm
  · rename_i other
    exact other same

theorem Bypass.unused (step : Bypass view live f g) {v : Value} (unused : f.Unused v) : g.Unused v := by
  cases step with
  | @insert r w base dead differs =>
    obtain ⟨j, obj, lane, placed, -, parsed, -⟩ := dead.placed
    have read : base ∈ j.values := by simp [Inst.asInsert?_values parsed]
    intro i member named
    obtain ⟨k, before, rfl⟩ := mem_insts_mapValues.mp member
    obtain ⟨u, old, same⟩ := Inst.mem_values_mapValues.mp named
    unfold Value.subst at same
    split at same
    · exact unused j (mem_insts_iff_placed.mpr ⟨r, placed⟩) (same ▸ read)
    · exact unused k before (same ▸ old)

theorem Bypasses.unused (steps : Bypasses view live f g) {v : Value} (unused : f.Unused v) : g.Unused v := by
  induction steps with
  | refl => exact unused
  | tail _ step ih => exact step.unused ih

theorem DeadInsert.mapValues {r : InstRef} {v base : Value} (dead : DeadInsert view live f r v base) (ρ : Value → Value) :
    DeadInsert view live (f.mapValues ρ) r v (ρ base) := by
  obtain ⟨i, obj, lane, placed, result, parsed, unread⟩ := dead.placed
  refine ⟨⟨i.mapValues ρ, ρ obj, lane, ?_, result, ?_, unread⟩, dead.tracked⟩
  · rw [placed_mapValues]
    exact List.mem_map.mpr ⟨_, placed, rfl⟩
  · rw [Inst.asInsert?_mapValues, parsed]
    rfl

theorem Bypass.deadInsert (step : Bypass view live f g) {r : InstRef} {v : Value}
    (dead : ∃ base, DeadInsert view live f r v base) : ∃ base, DeadInsert view live g r v base := by
  obtain ⟨base, dead⟩ := dead
  cases step with
  | insert other differs => exact ⟨_, dead.mapValues _⟩

theorem Bypasses.deadInsert (steps : Bypasses view live f g) {r : InstRef} {v : Value}
    (dead : ∃ base, DeadInsert view live f r v base) : ∃ base, DeadInsert view live g r v base := by
  induction steps with
  | refl => exact dead
  | tail _ step ih => exact step.deadInsert ih

end Func

namespace Indexed

variable {x : Indexed}

theorem InSync.useCount_eq_zero_iff (sync : x.InSync) {v : Value} : x.index.useCount v = 0 ↔ x.func.Unused v := by
  rw [sync.useCount, ← Nat.not_lt.trans Nat.le_zero, UseIndex.useCount_pos]
  simp only [Func.Unused, not_exists, not_and]

end Indexed

namespace Work

variable {view : LaneView} {live : Value → LaneSet} {w : Work}

theorem mem_deadInserts {f : Func} {r : InstRef} {v : Value} (member : (r, v) ∈ deadInserts view live f) :
    ∃ base, Func.DeadInsert view live f r v base := by
  obtain ⟨p, placed, chosen⟩ := List.mem_filterMap.mp member
  split at chosen
  · obtain ⟨u, filtered, same⟩ := Option.map_eq_some_iff.mp chosen
    cases same
    obtain ⟨result, dead⟩ := Option.filter_eq_some_iff.mp filtered
    have rule := LaneRule.of_chosen view p.inst
    cases shape : LaneRule.of view p.inst with
    | insert obj base lane lanes =>
      rw [shape] at rule dead
      cases rule with
      | insert parsed tracked =>
        rw [result, Option.bind_some] at tracked
        refine ⟨base, ⟨p.inst, obj, lane, placed, result, parsed, ?_⟩, by rw [tracked]; rfl⟩
        simpa [LaneRule.deadInsert] using dead
    | _ =>
      rw [shape] at dead
      cases dead
  · cases chosen

theorem deadInsert_listed {f : Func} {r : InstRef} {v base : Value} (dead : f.DeadInsert view live r v base) :
    (r, v) ∈ deadInserts view live f := by
  obtain ⟨i, obj, lane, placed, result, parsed, unread⟩ := dead.placed
  obtain ⟨lanes, counted⟩ := Option.isSome_iff_exists.mp dead.tracked
  have op := (Inst.asInsert?_eq_some.mp parsed).1
  have rule := LaneRule.of_insert result parsed counted
  refine List.mem_filterMap.mpr ⟨_, placed, ?_⟩
  simp [op, result, rule, LaneRule.deadInsert, unread]

theorem bypass_eq (sync : w.body.InSync) {r : InstRef} {v base : Value}
    (dead : w.body.func.DeadInsert view live r v base) :
    ∃ moved next, bypass r v w = (.ok moved, next) ∧ next.body.InSync ∧
      next.body.func = w.body.func.mapValues (Value.subst v base) ∧ (moved = true ↔ v ≠ base ∧ ¬ w.body.func.Unused v) := by
  obtain ⟨i, obj, lane, placed, -, parsed, -⟩ := dead.placed
  have found : (w.body.func.inst? r).bind Inst.asInsert? = some (obj, base, lane) := by
    rw [Func.inst?_eq_some.mpr placed, Option.bind_some, parsed]
  have read : bypass r v w = ((do
      let uses ← onBody (Indexed.replaceUses v base)
      if uses = 0 then return false
      else do
        Attempt.modify (tell (.bypassed w.name v uses base))
        return true) : Attempt Work Bool) w := by
    rw [bypass, Attempt.state_bind, found]
  by_cases self : v = base
  · have kept : onBody (Indexed.replaceUses v base) w = (.ok 0, w) := by
      simp [onBody, Attempt.on, Indexed.replaceUses, self]
    rw [read, Attempt.bind_ok kept]
    refine ⟨false, w, rfl, sync, ?_, by simp [self]⟩
    rw [self, Func.mapValues_subst_self]
  · obtain ⟨y, replaced, synced, func⟩ := Indexed.replaceUses_ok sync self
    have moved : onBody (Indexed.replaceUses v base) w = (.ok (w.body.index.useCount v), { w with body := y }) := by
      simp only [onBody, Attempt.on, replaced]
    rw [read, Attempt.bind_ok moved]
    by_cases none : w.body.index.useCount v = 0
    · rw [if_pos none]
      exact ⟨false, _, rfl, synced, func, by simp [sync.useCount_eq_zero_iff.mp none]⟩
    · rw [if_neg none]
      have used : ¬ w.body.func.Unused v := fun unused => none (sync.useCount_eq_zero_iff.mpr unused)
      exact ⟨true, _, rfl, synced, func, by simp [self, used]⟩

theorem bypass_ok (sync : w.body.InSync) {r : InstRef} {v base : Value}
    (dead : w.body.func.DeadInsert view live r v base) :
    ∃ moved next, bypass r v w = (.ok moved, next) ∧ next.body.InSync ∧
      (moved = false ∧ next.body.func = w.body.func ∧ (v = base ∨ w.body.func.Unused v) ∨
        moved = true ∧ w.body.func.Bypass view live next.body.func ∧ ¬ w.body.func.Unused v ∧
          next.body.func.Unused v) := by
  obtain ⟨moved, next, ran, synced, func, exact'⟩ := bypass_eq sync dead
  refine ⟨moved, next, ran, synced, ?_⟩
  cases moved with
  | true =>
    obtain ⟨differs, used⟩ := exact'.mp rfl
    exact .inr ⟨rfl, func ▸ .insert dead differs, used, func ▸ Func.unused_mapValues differs⟩
  | false =>
    have idle : v = base ∨ w.body.func.Unused v := by
      simpa only [Bool.false_eq_true, false_iff, not_and, Classical.not_not, ← Classical.or_iff_not_imp_left] using exact'
    refine .inl ⟨rfl, ?_, idle⟩
    rcases idle with self | unused
    · rw [func, self, Func.mapValues_subst_self]
    · rw [func, Func.mapValues_of_unused unused]

theorem bypassAll_ok {dead : List (InstRef × Value)} (sync : w.body.InSync)
    (each : ∀ d ∈ dead, ∃ base, w.body.func.DeadInsert view live d.1 d.2 base) :
    ∃ moved next, bypassAll dead w = (.ok moved, next) ∧ next.body.InSync ∧
      Func.Bypasses view live w.body.func next.body.func ∧
      (moved = false → next.body.func = w.body.func ∧
        ∀ d ∈ dead, ∃ base, w.body.func.DeadInsert view live d.1 d.2 base ∧ (d.2 = base ∨ w.body.func.Unused d.2)) ∧
      (moved = true → ∃ d ∈ dead, ¬ w.body.func.Unused d.2 ∧ next.body.func.Unused d.2) := by
  induction dead generalizing w with
  | nil => exact ⟨false, w, rfl, sync, .refl, fun _ => ⟨rfl, nofun⟩, nofun⟩
  | cons d rest ih =>
    obtain ⟨⟨base, here⟩, others⟩ := List.forall_mem_cons.mp each
    obtain ⟨first, middle, ran, synced, done⟩ := bypass_ok sync here
    have step : Func.Bypasses view live w.body.func middle.body.func ∧
        ∀ e ∈ rest, ∃ base, middle.body.func.DeadInsert view live e.1 e.2 base := by
      rcases done with ⟨-, same, -⟩ | ⟨-, step, -⟩
      · rw [same]
        exact ⟨.refl, others⟩
      · exact ⟨.single step, fun e member => step.deadInsert (others e member)⟩
    obtain ⟨later, next, finished, synced, steps, same, unused⟩ := ih synced step.2
    refine ⟨first || later, next, ?_, synced, step.1.trans steps, ?_, ?_⟩
    · exact (Attempt.bind_ok ran).trans (Attempt.bind_ok finished)
    · intro neither
      obtain ⟨noFirst, noLater⟩ := Bool.or_eq_false_iff.mp neither
      rcases done with ⟨-, kept, idle⟩ | ⟨did, -⟩
      · obtain ⟨same, idles⟩ := same noLater
        rw [kept] at same idles
        exact ⟨same, List.forall_mem_cons.mpr ⟨⟨base, here, idle⟩, idles⟩⟩
      · exact absurd did (by simp [noFirst])
    · intro either
      cases laterMoved : later with
      | true =>
        obtain ⟨e, member, used, none⟩ := unused laterMoved
        exact ⟨e, List.mem_cons_of_mem d member, fun before => used (step.1.unused before), none⟩
      | false =>
        rcases done with ⟨noFirst, -⟩ | ⟨-, -, used, none⟩
        · simp [noFirst, laterMoved] at either
        · rw [(same laterMoved).1]
          exact ⟨d, List.mem_cons_self, used, none⟩

theorem bypassAll_dead (sync : w.body.InSync) :
    ∃ moved next, bypassAll (deadInserts view live w.body.func) w = (.ok moved, next) ∧ next.body.InSync ∧
      Func.Bypasses view live w.body.func next.body.func ∧
      (moved = false → next.body.func = w.body.func ∧ ∀ d ∈ deadInserts view live w.body.func,
        ∃ base, w.body.func.DeadInsert view live d.1 d.2 base ∧ (d.2 = base ∨ w.body.func.Unused d.2)) ∧
      (moved = true → ∃ d ∈ deadInserts view live w.body.func, ¬ w.body.func.Unused d.2 ∧ next.body.func.Unused d.2) :=
  bypassAll_ok sync fun _ member => mem_deadInserts member

theorem kept_subset (x : Indexed) (group : List InstRef) : kept x group ⊆ group :=
  List.filter_subset_self group

theorem closed_subset (x : Indexed) (group : List InstRef) : closed x group ⊆ group := by
  fun_induction closed x group with
  | case1 group smaller ih => exact fun r member => kept_subset x group (ih member)
  | case2 group all => exact fun r member => member

theorem closed_inward (x : Indexed) (group : List InstRef) :
    ∀ r ∈ closed x group, inward x (closed x group) r = true := by
  fun_induction closed x group with
  | case1 group smaller ih => exact ih
  | case2 group all =>
    have same : kept x group = group :=
      List.filter_sublist.eq_of_length (Nat.le_antisymm (List.length_filter_le _ _) (Nat.not_lt.mp all))
    intro r member
    rw [← same] at member
    exact (List.mem_filter.mp member).2

theorem inward_mono {x : Indexed} {less more : List InstRef} (sub : less ⊆ more) {r : InstRef}
    (inside : inward x less r = true) : inward x more r = true := by
  unfold inward at inside ⊢
  split
  · rename_i v result
    rw [result] at inside
    refine List.all_eq_true.mpr fun u used => List.contains_iff_mem.mpr (sub ?_)
    exact List.contains_iff_mem.mp (List.all_eq_true.mp inside u used)
  · rename_i none
    rw [none] at inside
    cases inside

theorem subset_closed {x : Indexed} {group part : List InstRef} (sub : part ⊆ group)
    (inside : ∀ r ∈ part, inward x part r = true) : part ⊆ closed x group := by
  fun_induction closed x group with
  | case1 group smaller ih =>
    exact ih fun r member => List.mem_filter.mpr ⟨sub member, inward_mono sub (inside r member)⟩
  | case2 group all => exact sub

theorem inward_ok {x : Indexed} (sync : x.InSync) {group : List InstRef} {r : InstRef} :
    inward x group r = true ↔ ∃ i v, ⟨r, i⟩ ∈ x.func.placed ∧ i.result? = some v ∧
      ∀ q ∈ x.func.placed, v ∈ q.inst.values → q.ref ∈ group := by
  unfold inward
  split
  · rename_i v defined
    obtain ⟨i, found, result⟩ := Option.bind_eq_some_iff.mp defined
    have placed := Func.inst?_eq_some.mp found
    rw [List.all_eq_true]
    constructor
    · intro inside
      refine ⟨i, v, placed, result, fun q member named => ?_⟩
      obtain ⟨k, slot⟩ := Inst.exists_slot named
      exact List.contains_iff_mem.mp (inside ⟨q.ref, k⟩ (sync.mem_usesOf.mpr ⟨q.inst, member, slot⟩))
    · intro ⟨j, w, there, again, inside⟩ u used
      cases Func.placed_unique there placed rfl
      cases again.symm.trans result
      obtain ⟨k, member, slot⟩ := sync.mem_usesOf.mp used
      exact List.contains_iff_mem.mpr (inside _ member (Inst.mem_values_of_slot slot))
  · rename_i none
    refine ⟨nofun, fun ⟨i, v, placed, result, _⟩ => ?_⟩
    rw [Func.inst?_eq_some.mpr placed, Option.bind_some, result] at none
    cases none

theorem eraseEach_ok {rs : List InstRef} (sync : w.body.InSync) (distinct : w.body.func.results.Nodup) :
    (eraseEach rs w).2.body.InSync ∧ (eraseEach rs w).2.body.func = w.body.func.discard rs := by
  induction rs generalizing w with
  | nil => exact ⟨sync, (Func.discard_nil _).symm⟩
  | cons r rest ih =>
    obtain ⟨answer, synced, func⟩ := Indexed.erase_ok sync distinct r
    have split : w.body.func.discard (r :: rest) = (w.body.func.discard [r]).discard rest :=
      (Func.discard_discard _ [r] rest).symm
    unfold eraseEach
    rcases erased : w.body.erase r with ⟨found, next⟩
    rw [erased] at answer synced func
    cases found with
    | none =>
      have absent := Func.inst?_eq_none.mp answer.symm
      have kept : w.body.func.discard [r] = w.body.func :=
        Func.discard_of_absent fun q member => List.mem_singleton.mp member ▸ absent
      rw [split, kept]
      exact ih sync distinct
    | some i =>
      have others : next.func.results.Nodup := by
        rw [func]
        exact distinct.sublist (Func.results_discard_sublist _ _)
      obtain ⟨later, gone⟩ := ih (w := tell (.erased w.name i) { w with body := next }) synced others
      refine ⟨later, gone.trans ?_⟩
      rw [split, ← func]
      rfl

theorem mem_eraseEach {rs : List InstRef} (sync : w.body.InSync) (distinct : w.body.func.results.Nodup) {v : Value} :
    v ∈ (eraseEach rs w).1 ↔ ∃ p ∈ w.body.func.placed, p.ref ∈ rs ∧ v ∈ p.inst.values := by
  induction rs generalizing w with
  | nil => simp [eraseEach]
  | cons r rest ih =>
    obtain ⟨answer, synced, func⟩ := Indexed.erase_ok sync distinct r
    unfold eraseEach
    rcases erased : w.body.erase r with ⟨found, next⟩
    rw [erased] at answer synced func
    cases found with
    | none =>
      have absent := Func.inst?_eq_none.mp answer.symm
      refine (ih sync distinct).trans (exists_congr fun p => and_congr_right fun placed => and_congr_left fun _ => ?_)
      have other : p.ref ≠ r := fun same => absent (same ▸ Func.mem_refs.mpr ⟨p.inst, placed⟩)
      simp [other]
    | some i =>
      have here := Func.inst?_eq_some.mp answer.symm
      have others : next.func.results.Nodup := by
        rw [func]
        exact distinct.sublist (Func.results_discard_sublist _ _)
      have later := ih (w := tell (.erased w.name i) { w with body := next }) synced others
      have func : next.func = w.body.func.discard [r] := func
      simp only [List.mem_append, later]
      constructor
      · rintro (named | ⟨p, placed, listed, named⟩)
        · exact ⟨_, here, List.mem_cons_self, named⟩
        · have before := Func.mem_placed_discard.mp (func ▸ placed)
          exact ⟨p, before.1, List.mem_cons_of_mem r listed, named⟩
      · rintro ⟨p, placed, listed, named⟩
        by_cases same : p.ref = r
        · cases Func.placed_unique placed here same
          exact .inl named
        · refine .inr ⟨p, ?_, (List.mem_cons.mp listed).resolve_left same, named⟩
          exact func ▸ Func.mem_placed_discard.mpr ⟨placed, fun gone => same (List.mem_singleton.mp gone)⟩

theorem orphan_cases (sync : w.body.InSync) (distinct : w.body.func.results.Nodup) (v : Value) :
    ((orphan v w).1 = w ∧ (orphan v w).2 = [] ∧
      ∀ p ∈ w.body.func.placed, p.inst.opcode.isPure = true → p.inst.result? = some v →
        ∃ q ∈ w.body.func.placed, v ∈ q.inst.values ∧ q.ref ≠ p.ref) ∨
    ∃ p ∈ w.body.func.placed, p.inst.opcode.isPure = true ∧ p.inst.result? = some v ∧
      (∀ q ∈ w.body.func.placed, v ∈ q.inst.values → q.ref = p.ref) ∧ (orphan v w).1.body.InSync ∧
      (orphan v w).1.body.func = w.body.func.discard [p.ref] ∧ (orphan v w).2 = p.inst.values := by
  have definition : ∀ r, w.body.index.def? v = some r ↔ ∃ i, ⟨r, i⟩ ∈ w.body.func.placed ∧ i.result? = some v := fun r => by
    rw [sync.defs, UseIndex.build_def? distinct]
  unfold orphan
  cases defined : w.body.index.def? v with
  | none =>
    refine .inl ⟨rfl, rfl, fun p placed _ result => ?_⟩
    have found := (definition p.ref).mpr ⟨p.inst, placed, result⟩
    cases defined.symm.trans found
  | some r =>
    obtain ⟨i, here, result⟩ := (definition r).mp defined
    obtain ⟨answer, synced, func⟩ := Indexed.erase_ok sync distinct r
    rw [Func.inst?_eq_some.mpr here] at answer
    dsimp only
    rcases erased : w.body.erase r with ⟨found, next⟩
    rw [erased] at answer synced func
    cases answer
    have alone : w.body.index.useCountExcept v r = 0 ↔ ∀ q ∈ w.body.func.placed, v ∈ q.inst.values → q.ref = r := by
      rw [UseIndex.useCountExcept, List.length_eq_zero_iff, List.filter_eq_nil_iff]
      constructor
      · intro none q placed named
        obtain ⟨k, slot⟩ := Inst.exists_slot named
        simpa using none ⟨q.ref, k⟩ (sync.mem_usesOf.mpr ⟨q.inst, placed, slot⟩)
      · intro own u used
        obtain ⟨j, placed, slot⟩ := sync.mem_usesOf.mp used
        simpa using own _ placed (Inst.mem_values_of_slot slot)
    dsimp only
    split
    · rename_i lone
      exact .inr ⟨_, here, lone.1, result, alone.mp lone.2, synced, func, rfl⟩
    · rename_i kept
      refine .inl ⟨rfl, rfl, fun p placed pure' again => ?_⟩
      cases Func.defined_once distinct here placed result again
      simpa [alone, pure'] using kept

end Work

end DeadLanes
