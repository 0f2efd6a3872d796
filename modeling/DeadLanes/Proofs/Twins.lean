import DeadLanes.Proofs.Edits

namespace DeadLanes

-- Indexes of one function may list uses in different orders. A clean-up makes
-- the same of the function whichever it has.

structure Indexed.Twins (x y : Indexed) : Prop where
  func : x.func = y.func
  left : x.InSync
  right : y.InSync
  distinct : x.func.results.Nodup

namespace Indexed.Twins

variable {x y : Indexed}

theorem def? (twins : x.Twins y) (v : Value) : x.index.def? v = y.index.def? v :=
  (twins.left.defs v).trans (twins.func ▸ (twins.right.defs v).symm)

theorem usesOf (twins : x.Twins y) (v : Value) : (x.index.usesOf v).Perm (y.index.usesOf v) := by
  have uses : x.index.uses.Perm y.index.uses := twins.left.uses.trans (twins.func ▸ twins.right.uses.symm)
  exact (uses.filter _).map _

theorem useCountExcept (twins : x.Twins y) (v : Value) (r : InstRef) :
    x.index.useCountExcept v r = y.index.useCountExcept v r :=
  ((twins.usesOf v).filter _).length_eq

theorem erase (twins : x.Twins y) (r : InstRef) : (x.erase r).1 = (y.erase r).1 ∧ (x.erase r).2.Twins (y.erase r).2 := by
  obtain ⟨one, left, func⟩ := erase_ok twins.left twins.distinct r
  obtain ⟨two, right, again⟩ := erase_ok twins.right (twins.func ▸ twins.distinct) r
  refine ⟨by rw [one, two, twins.func], ?_, left, right, ?_⟩
  · rw [func, again, twins.func]
  · rw [func]
    exact twins.distinct.sublist (x.func.results_discard_sublist [r])

end Indexed.Twins

namespace Work

variable {w x : Work}

theorem closed_subset_twins (twins : w.body.Twins x.body) {group other : List InstRef} (sub : group ⊆ other) :
    closed w.body group ⊆ closed x.body other := by
  refine subset_closed (fun r member => sub (closed_subset w.body group member)) fun r member => ?_
  have inside := (inward_ok twins.left).mp (closed_inward w.body group r member)
  exact (inward_ok twins.right).mpr (twins.func ▸ inside)

theorem orphan_twins (twins : w.body.Twins x.body) (v : Value) :
    (orphan v w).2 = (orphan v x).2 ∧ (orphan v w).1.body.Twins (orphan v x).1.body := by
  unfold orphan
  rw [← twins.def?]
  cases w.body.index.def? v with
  | none => exact ⟨rfl, twins⟩
  | some r =>
    obtain ⟨answer, after⟩ := twins.erase r
    dsimp only
    rw [← twins.useCountExcept]
    rcases erased : w.body.erase r with ⟨found, next⟩
    rcases other : x.body.erase r with ⟨also, last⟩
    rw [erased, other] at answer after
    cases answer
    cases found with
    | none => exact ⟨rfl, twins⟩
    | some i =>
      dsimp only
      split
      · exact ⟨rfl, after⟩
      · exact ⟨rfl, twins⟩

theorem eraseEach_twins (twins : w.body.Twins x.body) (rs : List InstRef) :
    (eraseEach rs w).1 = (eraseEach rs x).1 ∧ (eraseEach rs w).2.body.Twins (eraseEach rs x).2.body := by
  induction rs generalizing w x with
  | nil => exact ⟨rfl, twins⟩
  | cons r rest ih =>
    obtain ⟨answer, after⟩ := twins.erase r
    unfold eraseEach
    rcases erased : w.body.erase r with ⟨found, next⟩
    rcases other : x.body.erase r with ⟨also, last⟩
    rw [erased, other] at answer after
    cases answer
    cases found with
    | none => exact ih twins
    | some i =>
      obtain ⟨values, later⟩ := ih (w := tell (.erased w.name i) { w with body := next })
        (x := tell (.erased x.name i) { x with body := last }) after
      exact ⟨congrArg (i.values ++ ·) values, later⟩

theorem eraseUnused_twins (twins : w.body.Twins x.body) {candidates others : List InstRef}
    (same : ∀ r, r ∈ candidates ↔ r ∈ others) : (eraseUnused candidates w).1 = (eraseUnused others x).1 ∧
      (eraseUnused candidates w).2.body.Twins (eraseUnused others x).2.body := by
  have back : x.body.Twins w.body := ⟨twins.func.symm, twins.right, twins.left, twins.func ▸ twins.distinct⟩
  have group : ∀ r, r ∈ closed w.body candidates.eraseDups ↔ r ∈ closed x.body others.eraseDups := fun r =>
    ⟨fun member => closed_subset_twins twins (fun q => by simp only [List.mem_eraseDups]; exact (same q).mp) member,
      fun member => closed_subset_twins back (fun q => by simp only [List.mem_eraseDups]; exact (same q).mpr) member⟩
  have none : closed w.body candidates.eraseDups = [] ↔ closed x.body others.eraseDups = [] := by
    simp only [List.eq_nil_iff_forall_not_mem, group]
  have listed : w.body.func.refs.filter (closed w.body candidates.eraseDups).contains =
      x.body.func.refs.filter (closed x.body others.eraseDups).contains := by
    rw [twins.func]
    refine List.filter_congr fun r _ => ?_
    rw [Bool.eq_iff_iff, List.contains_iff_mem, List.contains_iff_mem, group]
  unfold eraseUnused
  dsimp only
  by_cases nothing : closed w.body candidates.eraseDups = []
  · rw [if_pos nothing, if_pos (none.mp nothing)]
    exact ⟨rfl, twins⟩
  · rw [if_neg nothing, if_neg (mt none.mpr nothing), listed]
    obtain ⟨values, after⟩ := eraseEach_twins twins (x.body.func.refs.filter (closed x.body others.eraseDups).contains)
    refine ⟨rfl, ?_⟩
    dsimp only
    rw [← values]
    exact (Flow.drain_related (f := orphans) (R := fun w x => w.body.Twins x.body) (fun v _ _ twins => orphan_twins twins v)
      _ _ _ after).2

end Work

end DeadLanes
