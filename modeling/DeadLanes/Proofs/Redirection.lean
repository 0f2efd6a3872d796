import DeadLanes.Proofs.Edits

namespace DeadLanes

-- Bypassing one dead insert after the other, taken together: every value gives
-- way to where its chain of bases leads. Inserts that are each other's base
-- give way to one of them.

structure Redirects (starts : Value → Value → Prop) (ρ : Value → Value) : Prop where
  along : ∀ v, Relation.ReflTransGen starts v (ρ v)
  past : ∀ v base, starts v base → ρ v = ρ base
  settled : ∀ v, ρ (ρ v) = ρ v

namespace Redirects

variable {starts : Value → Value → Prop} {ρ : Value → Value}

theorem nowhere : Redirects (fun _ _ => False) id := ⟨fun _ => .refl, fun _ _ => False.elim, fun _ => rfl⟩

theorem congr {others : Value → Value → Prop} (redirects : Redirects starts ρ)
    (same : ∀ v base, starts v base ↔ others v base) : Redirects others ρ := by
  have equal : starts = others := funext fun v => funext fun base => propext (same v base)
  exact equal ▸ redirects

theorem stays (redirects : Redirects starts ρ) {v : Value} (plain : ∀ base, ¬ starts v base) : ρ v = v := by
  rcases (redirects.along v).cases_head with same | ⟨base, first, -⟩
  · exact same.symm
  · exact absurd first (plain base)

theorem extend (redirects : Redirects starts ρ) {v base : Value} (plain : ∀ b, ¬ starts v b) :
    Redirects (fun u b => starts u b ∨ u = v ∧ b = base) (Value.subst v (ρ base) ∘ ρ) := by
  have here : ρ v = v := redirects.stays plain
  have wider : ∀ u, Relation.ReflTransGen (fun u b => starts u b ∨ u = v ∧ b = base) u (ρ u) :=
    fun u => Relation.ReflTransGen.mono (fun _ _ before => .inl before) u (ρ u) (redirects.along u)
  have fixed : Value.subst v (ρ base) (ρ base) = ρ base := by simp only [Value.subst, ite_self]
  have start : Value.subst v (ρ base) v = ρ base := if_pos rfl
  refine ⟨fun u => ?_, fun u b next => ?_, fun u => ?_⟩
  · dsimp only [Function.comp, Value.subst]
    split
    · rename_i same
      exact (same ▸ wider u).trans (.head (.inr ⟨rfl, rfl⟩) (wider base))
    · exact wider u
  · dsimp only [Function.comp]
    rcases next with before | ⟨rfl, rfl⟩
    · rw [redirects.past u b before]
    · rw [here, fixed, start]
  · dsimp only [Function.comp]
    by_cases same : ρ u = v
    · rw [same, start, redirects.settled, fixed]
    · have kept : Value.subst v (ρ base) (ρ u) = ρ u := if_neg same
      rw [kept, redirects.settled, kept]

end Redirects

namespace Func

variable {view : LaneView} {live : Value → LaneSet} {f : Func}

def DeadBase (view : LaneView) (live : Value → LaneSet) (f : Func) (v base : Value) : Prop :=
  ∃ r, DeadInsert view live f r v base

theorem DeadInsert.base_unique (distinct : f.results.Nodup) {q r : InstRef} {v b c : Value}
    (one : DeadInsert view live f q v b) (two : DeadInsert view live f r v c) : b = c := by
  obtain ⟨i, obj, lane, placed, result, parsed, -⟩ := one.placed
  obtain ⟨_, _, again, -⟩ := two.parsed distinct placed result
  cases parsed.symm.trans again
  rfl

theorem DeadBase.used {v base : Value} (dead : f.DeadBase view live v base) : ¬ f.Unused base := by
  obtain ⟨r, dead⟩ := dead
  obtain ⟨i, obj, lane, placed, -, parsed, -⟩ := dead.placed
  intro unused
  exact unused i (mem_insts_iff_placed.mpr ⟨r, placed⟩) (by simp [Inst.asInsert?_values parsed])

end Func

theorem filterMap_sublist {g h : α → Option β} (part : ∀ a b, g a = some b → h a = some b) (xs : List α) :
    (xs.filterMap g).Sublist (xs.filterMap h) := by
  induction xs with
  | nil => exact .refl _
  | cons a rest ih =>
    cases chosen : g a with
    | none =>
      rw [List.filterMap_cons_none chosen]
      exact ih.trans ((List.sublist_cons_self a rest).filterMap h)
    | some b =>
      rw [List.filterMap_cons_some chosen, List.filterMap_cons_some (part a b chosen)]
      exact ih.cons_cons b

namespace Work

variable {view : LaneView} {live : Value → LaneSet} {w : Work} {f : Func}

theorem deadInserts_distinct (distinct : f.results.Nodup) : ((deadInserts view live f).map (·.2)).Nodup := by
  rw [Func.results_eq_placed] at distinct
  rw [deadInserts, List.map_filterMap]
  refine distinct.sublist (filterMap_sublist (fun p v chosen => ?_) f.placed)
  split at chosen
  · obtain ⟨d, dead, rfl⟩ := Option.map_eq_some_iff.mp chosen
    obtain ⟨u, filtered, rfl⟩ := Option.map_eq_some_iff.mp dead
    exact (Option.filter_eq_some_iff.mp filtered).1
  · cases chosen

theorem bypassAll_redirects_from {starts : Value → Value → Prop} {ρ : Value → Value} {dead : List (InstRef × Value)}
    (results : f.results.Nodup) (sync : w.body.InSync) (func : w.body.func = f.mapValues ρ) (redirects : Redirects starts ρ)
    (each : ∀ d ∈ dead, ∃ base, f.DeadInsert view live d.1 d.2 base) (plain : ∀ d ∈ dead, ∀ base, ¬ starts d.2 base)
    (distinct : (dead.map (·.2)).Nodup) :
    ∃ moved next σ, bypassAll dead w = (.ok moved, next) ∧ next.body.InSync ∧ next.body.func = f.mapValues σ ∧
      Redirects (fun v base => starts v base ∨ ∃ r, (r, v) ∈ dead ∧ f.DeadInsert view live r v base) σ := by
  induction dead generalizing w starts ρ with
  | nil => exact ⟨false, w, ρ, rfl, sync, func, redirects.congr (by simp)⟩
  | cons d rest ih =>
    obtain ⟨⟨base, here⟩, others⟩ := List.forall_mem_cons.mp each
    obtain ⟨new, later⟩ := List.forall_mem_cons.mp plain
    obtain ⟨alone, distinct⟩ := List.nodup_cons.mp distinct
    obtain ⟨first, middle, ran, synced, changed, -⟩ := bypass_eq sync (func ▸ here.mapValues ρ)
    rw [func, Func.mapValues_mapValues] at changed
    obtain ⟨more, next, σ, finished, synced, changed, redirects⟩ := ih synced changed (redirects.extend new) others
      (fun e member b starts => starts.elim (later e member b) fun same =>
        alone (List.mem_map.mpr ⟨e, member, same.1⟩)) distinct
    refine ⟨first || more, next, σ, (Attempt.bind_ok ran).trans (Attempt.bind_ok finished), synced, changed,
      redirects.congr fun v b => ?_⟩
    rw [or_assoc]
    refine or_congr_right ⟨fun next => ?_, fun next => ?_⟩
    · rcases next with ⟨rfl, rfl⟩ | ⟨r, member, dead⟩
      · exact ⟨d.1, List.mem_cons_self, here⟩
      · exact ⟨r, List.mem_cons_of_mem d member, dead⟩
    · obtain ⟨r, member, dead⟩ := next
      rcases List.mem_cons.mp member with rfl | member
      · exact .inl ⟨rfl, dead.base_unique results here⟩
      · exact .inr ⟨r, member, dead⟩

theorem bypassAll_redirects (sync : w.body.InSync) (results : w.body.func.results.Nodup) :
    ∃ moved next ρ, bypassAll (deadInserts view live w.body.func) w = (.ok moved, next) ∧ next.body.InSync ∧
      next.body.func = w.body.func.mapValues ρ ∧ Redirects (w.body.func.DeadBase view live) ρ := by
  have each : ∀ d ∈ deadInserts view live w.body.func, ∃ base, w.body.func.DeadInsert view live d.1 d.2 base :=
    fun d member => mem_deadInserts member
  obtain ⟨moved, next, ρ, ran, synced, func, redirects⟩ := bypassAll_redirects_from results sync
    (w.body.func.mapValues_id).symm .nowhere each (fun _ _ _ => id) (deadInserts_distinct results)
  refine ⟨moved, next, ρ, ran, synced, func, redirects.congr fun v base => ?_⟩
  rw [false_or]
  exact exists_congr fun r => and_iff_right_of_imp deadInsert_listed

theorem bypassAll_idle {dead : List (InstRef × Value)} (sync : w.body.InSync)
    (idle : ∀ d ∈ dead, ∃ base, w.body.func.DeadInsert view live d.1 d.2 base ∧ (d.2 = base ∨ w.body.func.Unused d.2)) :
    ∃ next, bypassAll dead w = (.ok false, next) ∧ next.body.InSync ∧ next.body.func = w.body.func := by
  induction dead generalizing w with
  | nil => exact ⟨w, rfl, sync, rfl⟩
  | cons d rest ih =>
    obtain ⟨⟨base, here, stuck⟩, others⟩ := List.forall_mem_cons.mp idle
    obtain ⟨moved, middle, ran, synced, func, moves⟩ := bypass_eq sync here
    have same : middle.body.func = w.body.func := by
      rcases stuck with self | unused
      · rw [func, self, Func.mapValues_subst_self]
      · rw [func, Func.mapValues_of_unused unused]
    have still : moved = false :=
      Bool.eq_false_iff.mpr fun did => stuck.elim (moves.mp did).1 (moves.mp did).2
    obtain ⟨next, finished, synced, kept⟩ := ih synced (same.symm ▸ others)
    refine ⟨next, (Attempt.bind_ok ran).trans ((Attempt.bind_ok finished).trans ?_), synced, kept.trans same⟩
    rw [still]
    rfl

end Work

end DeadLanes
