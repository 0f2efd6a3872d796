import DeadLanes.Lane.Word
import DeadLanes.Proofs.LaneRules

namespace DeadLanes.LaneSet

-- What a lane set stands for in a vector of `n` lanes. As many lanes as a word
-- has are told apart this way and no more, since `all` and a full word agree on
-- them and differ beyond.
def lanesBelow (s : LaneSet) (n : Nat) : Finset Nat := {lane ∈ Finset.range n | s.contains lane = true}

variable {n : Nat} {s t : LaneSet}

@[simp] theorem mem_lanesBelow {lane : Nat} : lane ∈ s.lanesBelow n ↔ lane < n ∧ s.contains lane = true := by
  simp [lanesBelow]

theorem lanesBelow_mono (h : s ≤ t) : s.lanesBelow n ⊆ t.lanesBelow n := by
  intro lane here
  rw [mem_lanesBelow] at here ⊢
  exact ⟨here.1, contains_of_le h here.2⟩

theorem join_grows : (s.join t).2 = true ↔ ∃ lane, t.contains lane = true ∧ s.contains lane = false := by
  have least : s.union t = s ↔ ∀ lane, t.contains lane = true → s.contains lane = true :=
    union_eq_left.trans le_iff_contains
  rw [join, decide_eq_true_iff, ne_eq, least]
  simp only [not_forall, exists_prop, Bool.not_eq_true]

theorem lanesBelow_without (small : n ≤ trackedLanes) (lane : Nat) :
    (s.without lane n).lanesBelow n = (s.lanesBelow n).erase lane := by
  ext other
  rw [Finset.mem_erase, mem_lanesBelow, mem_lanesBelow, contains_without]
  constructor
  · rintro ⟨low, differs, here, -⟩
    exact ⟨differs, low, here⟩
  · rintro ⟨differs, low, here⟩
    exact ⟨low, differs, here, fun _ => ⟨low, Nat.lt_of_lt_of_le low small⟩⟩

theorem lanesBelow_slice {offset width : Nat} (within : offset + width ≤ n) :
    (s.slice offset width).lanesBelow width = {lane ∈ Finset.range width | offset + lane ∈ s.lanesBelow n} := by
  ext lane
  rw [Finset.mem_filter, Finset.mem_range, mem_lanesBelow, mem_lanesBelow]
  refine and_congr_right fun low => ?_
  have inside : offset + lane < n := by omega
  rw [contains_slice s offset low, and_iff_right inside]

theorem lanesBelow_normalized (small : n ≤ trackedLanes) : (s.normalized (some n)).lanesBelow n = s.lanesBelow n := by
  ext lane
  rw [mem_lanesBelow, mem_lanesBelow]
  exact and_congr_right fun low => by rw [contains_normalized s small low]

theorem Canonical.le_iff (left : Canonical (some n) s) (right : Canonical (some n) t) :
    s ≤ t ↔ s.lanesBelow n ⊆ t.lanesBelow n := by
  refine ⟨lanesBelow_mono, fun sub => ?_⟩
  cases t with
  | all => exact le_all s
  | lanes b =>
    cases s with
    | all =>
      obtain ⟨-, lane, low, missing⟩ := right
      have here := (mem_lanesBelow.mp (sub (mem_lanesBelow.mpr ⟨low, rfl⟩))).2
      cases missing.symm.trans here
    | lanes a =>
      rw [le_iff_contains]
      intro lane here
      exact (mem_lanesBelow.mp (sub (mem_lanesBelow.mpr ⟨left.1 lane here, here⟩))).2

theorem normalized_le_iff (small : n ≤ trackedLanes) :
    s.normalized (some n) ≤ t.normalized (some n) ↔ s.lanesBelow n ⊆ t.lanesBelow n := by
  have tracked : ∀ m, some n = some m → m ≤ trackedLanes := fun m same => Option.some.inj same ▸ small
  rw [(canonical_normalized s tracked).le_iff (canonical_normalized t tracked), lanesBelow_normalized small,
    lanesBelow_normalized small]

theorem normalized_eq_iff (small : n ≤ trackedLanes) :
    s.normalized (some n) = t.normalized (some n) ↔ s.lanesBelow n = t.lanesBelow n := by
  rw [le_antisymm_iff, normalized_le_iff small, normalized_le_iff small]
  exact Finset.Subset.antisymm_iff.symm

theorem members_ascending (s : LaneSet) (n : Nat) : (s.members n).Pairwise (· < ·) := by
  cases s with
  | all => exact List.pairwise_lt_range
  | lanes mask => exact List.pairwise_lt_range.filter _

theorem mem_members {lane : Nat} : lane ∈ s.members n ↔ lane ∈ s.lanesBelow n := by
  rw [mem_lanesBelow]
  cases s with
  | all => simp [members, contains]
  | lanes mask =>
    rw [members, List.mem_filter, List.mem_range, Nat.lt_min]
    refine and_congr_left fun here => and_iff_left ?_
    exact BitVec.lt_of_getLsbD here

structure Faultless (s : LaneSet) : Prop where
  contains : ∀ lane, s.checkedContains lane = .ok (s.contains lane)
  without : ∀ lane count, s.checkedWithout lane count = .ok (s.without lane count)
  slice : ∀ offset width, s.checkedSlice offset width = .ok (s.slice offset width)
  normalized : ∀ count, s.checkedNormalized count = .ok (s.normalized count)

-- The operations on lane sets against those on the sets of lanes that they stand
-- for, with `n` lanes to a vector.
structure Refines (n : Nat) (s t : LaneSet) : Prop where
  inclusion : s ≤ t ↔ ∀ lane, s.contains lane = true → t.contains lane = true
  top : s ≤ all
  union_lanes : ∀ lane, (s.union t).contains lane = true ↔ s.contains lane = true ∨ t.contains lane = true
  union_least : IsLUB {s, t} (s.union t)
  joined : (s.join t).1 = s.union t
  changed : (s.join t).2 = true ↔ (s.join t).1 ≠ s
  grows : (s.join t).2 = true ↔ ∃ lane, t.contains lane = true ∧ s.contains lane = false
  cleared : ∀ lane, (s.without lane n).lanesBelow n = (s.lanesBelow n).erase lane
  sliced : ∀ offset width, offset + width ≤ n →
    (s.slice offset width).lanesBelow width = {lane ∈ Finset.range width | offset + lane ∈ s.lanesBelow n}
  kept : (s.normalized (some n)).lanesBelow n = s.lanesBelow n
  idempotent : (s.normalized (some n)).normalized (some n) = s.normalized (some n)
  monotone : s ≤ t → s.normalized (some n) ≤ t.normalized (some n)
  canonical : s.normalized (some n) = t.normalized (some n) ↔ s.lanesBelow n = t.lanesBelow n
  ascending : (s.members n).Pairwise (· < ·)
  listed : ∀ lane, lane ∈ s.members n ↔ lane ∈ s.lanesBelow n

theorem refines_finset (small : n ≤ trackedLanes) (s t : LaneSet) : s.Faultless ∧ Refines n s t := by
  refine ⟨⟨s.checkedContains_eq, s.checkedWithout_eq, s.checkedSlice_eq, s.checkedNormalized_eq⟩, ?_⟩
  exact {
    inclusion := le_iff_contains
    top := le_all s
    union_lanes := fun lane => by rw [contains_union, Bool.or_eq_true]
    union_least := isLUB_pair
    joined := rfl
    changed := decide_eq_true_iff
    grows := join_grows
    cleared := fun lane => lanesBelow_without small lane
    sliced := fun _ _ within => lanesBelow_slice within
    kept := lanesBelow_normalized small
    idempotent := normalized_normalized s (some n)
    monotone := fun h => (normalized_le_iff small).mpr (lanesBelow_mono h)
    canonical := normalized_eq_iff small
    ascending := members_ascending s n
    listed := fun _ => mem_members }

theorem refines_finset_widest :
    64 ≤ trackedLanes ∧ (lanes (below 64)).Faultless ∧ Refines 64 (lanes (below 64)) all ∧
    ((lanes (below 64)).join all).2 = true ∧ (lanes (below 64)).normalized (some 64) = all.normalized (some 64) ∧
    (lanes (below 64)).slice 63 1 = single 0 ∧ all.without 63 64 = lanes (below 63) :=
  have widest := refines_finset (n := 64) (by decide) (lanes (below 64)) all
  ⟨by decide, widest.1, widest.2, by decide, by decide, by decide, by decide⟩

end DeadLanes.LaneSet
