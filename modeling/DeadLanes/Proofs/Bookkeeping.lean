import DeadLanes.Proofs.Fixpoint
import DeadLanes.Proofs.Sync

namespace DeadLanes

-- However a function is edited through its index, in whatever order and with
-- whatever values and references, the index stays the one of the function.

theorem Inst.map_slots (i : Inst) : i.slots.map (·.2) = i.values := by
  have named : ∀ (start : Nat) (os : List Operand),
      ((os.zipIdx start).filterMap fun entry => entry.1.value?.map (entry.2, ·)).map (·.2) =
        os.filterMap Operand.value? := by
    intro start os
    induction os generalizing start with
    | nil => rfl
    | cons o rest ih =>
      cases o with
      | value v => exact congrArg (v :: ·) (ih (start + 1))
      | label b => exact ih (start + 1)
      | literal n => exact ih (start + 1)
  exact named 0 i.operands

namespace Func

def mentionCount (f : Func) (v : Value) : Nat := (f.insts.flatMap (·.values)).count v

theorem useCount_build (f : Func) (v : Value) : (UseIndex.build f).useCount v = f.mentionCount v := by
  have keys : (UseIndex.build f).uses.map (·.1) = f.insts.flatMap (·.values) := by
    simp only [UseIndex.build, List.map_flatMap, List.map_map, insts, List.flatMap_map, ← Inst.map_slots]
    rfl
  calc (UseIndex.build f).useCount v
      = (UseIndex.build f).uses.countP (·.1 = v) := by
        simp only [UseIndex.useCount, UseIndex.usesOf, List.length_map, List.countP_eq_length_filter]
    _ = ((UseIndex.build f).uses.map (·.1)).count v := by
        simp only [List.count, List.countP_map, Function.comp_def, beq_eq_decide]
    _ = f.mentionCount v := congrArg (List.count v) keys

end Func

namespace Indexed

-- One request to edit. A request that faults would leave something behind too.
inductive Next (x : Indexed) : Indexed → Prop where
  | replaced (old fresh : Value) : Next x (replaceUses old fresh x).2
  | erased (r : InstRef) : Next x (x.erase r).2

abbrev Reached (f : Func) : Indexed → Prop := Relation.ReflTransGen Next (ofFunc f)

variable {x y : Indexed}

theorem InSync.replaced (sync : x.InSync) (old fresh : Value) :
    ∃ y, replaceUses old fresh x = (.ok (if old = fresh then 0 else x.func.mentionCount old), y) ∧ y.InSync ∧
      y.func = x.func.mapValues (Value.subst old fresh) := by
  by_cases same : old = fresh
  · subst same
    exact ⟨x, by simp only [replaceUses, if_true], sync, (x.func.mapValues_subst_self old).symm⟩
  · obtain ⟨y, replaced, synced, func⟩ := replaceUses_ok sync same
    refine ⟨y, ?_, synced, func⟩
    simpa only [if_neg same, sync.useCount, Func.useCount_build] using replaced

theorem Next.keeps (next : Next x y) (sync : x.InSync) (distinct : x.func.results.Nodup) :
    y.InSync ∧ y.func.results.Nodup := by
  cases next with
  | replaced old fresh =>
    obtain ⟨y, replaced, synced, func⟩ := sync.replaced old fresh
    simp only [replaced, func, Func.results_mapValues]
    exact ⟨synced, distinct⟩
  | erased r =>
    obtain ⟨-, synced, func⟩ := erase_ok sync distinct r
    exact ⟨synced, func ▸ distinct.sublist (x.func.results_discard_sublist [r])⟩

theorem Reached.keeps {f : Func} (reached : Reached f x) (distinct : f.results.Nodup) :
    x.InSync ∧ x.func.results.Nodup := by
  induction reached with
  | refl => exact ⟨inSync_ofFunc f, distinct⟩
  | tail _ next ih => exact next.keeps ih.1 ih.2

-- After any requests, on a function that defines no value twice, the index is
-- the one that would be built anew. No request faults. A value is replaced in
-- exactly the operands that named it, of which the answer is the number, and an
-- erased instruction is all that is missing.
theorem reached_inSync {f : Func} (distinct : f.results.Nodup) (reached : Reached f x) :
    (∀ v, x.index.def? v = (UseIndex.build x.func).def? v) ∧
    (∀ v, (x.index.usesOf v).Perm ((UseIndex.build x.func).usesOf v)) ∧
    (∀ old fresh, ∃ y, replaceUses old fresh x = (.ok (if old = fresh then 0 else x.func.mentionCount old), y) ∧
      y.func = x.func.mapValues (Value.subst old fresh)) ∧
    ∀ r, (x.erase r).1 = x.func.inst? r ∧ (x.erase r).2.func = x.func.discard [r] := by
  obtain ⟨sync, distinct⟩ := reached.keeps distinct
  refine ⟨sync.defs, fun v => (sync.uses.filter _).map _, fun old fresh => ?_, fun r => ?_⟩
  · obtain ⟨y, replaced, -, func⟩ := sync.replaced old fresh
    exact ⟨y, replaced, func⟩
  · obtain ⟨answer, -, func⟩ := erase_ok sync distinct r
    exact ⟨answer, func⟩

theorem reached_inSync_looped : ∃ x, Reached Scope.looped.func x ∧ x.func.mentionCount ⟨10⟩ = 2 ∧
    (∀ v, x.index.def? v = (UseIndex.build x.func).def? v) ∧
    (∀ v, (x.index.usesOf v).Perm ((UseIndex.build x.func).usesOf v)) ∧
    (∀ old fresh, ∃ y, replaceUses old fresh x = (.ok (if old = fresh then 0 else x.func.mentionCount old), y) ∧
      y.func = x.func.mapValues (Value.subst old fresh)) ∧
    ∀ r, (x.erase r).1 = x.func.inst? r ∧ (x.erase r).2.func = x.func.discard [r] := by
  have reached : Reached Scope.looped.func _ :=
    (((Relation.ReflTransGen.refl.tail (.replaced ⟨12⟩ ⟨10⟩)).tail (.erased ⟨3⟩)).tail (.erased ⟨3⟩)).tail
      (.replaced ⟨10⟩ ⟨10⟩)
  exact ⟨_, reached, by decide +kernel, reached_inSync (by decide +kernel) reached⟩

end Indexed

end DeadLanes
