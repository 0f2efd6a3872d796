import Mathlib
import DeadLanes.Lane.LaneSet

namespace DeadLanes.LaneSet

-- Inclusion, with `all` above every mask: a mask says nothing about what lies
-- beyond its 64 lanes.
def Within : LaneSet → LaneSet → Prop
  | _, all => True
  | all, lanes _ => False
  | lanes a, lanes b => ∀ lane, a.getLsbD lane = true → b.getLsbD lane = true

instance : LE LaneSet := ⟨Within⟩

@[simp] theorem le_all (s : LaneSet) : s ≤ all := by cases s <;> trivial

@[simp] theorem not_all_le (mask : BitVec 64) : ¬ all ≤ lanes mask := fun h => h

theorem within_refl (s : LaneSet) : s ≤ s := by
  cases s with
  | all => trivial
  | lanes mask => exact fun _ h => h

theorem within_trans {s t u : LaneSet} (first : s ≤ t) (second : t ≤ u) : s ≤ u := by
  cases u with
  | all => exact le_all s
  | lanes c =>
    cases t with
    | all => exact absurd second (not_all_le c)
    | lanes b =>
      cases s with
      | all => exact absurd first (not_all_le b)
      | lanes a => exact fun lane here => second lane (first lane here)

theorem within_antisymm {s t : LaneSet} (first : s ≤ t) (second : t ≤ s) : s = t := by
  cases s with
  | all =>
    cases t with
    | all => rfl
    | lanes b => exact absurd first (not_all_le b)
  | lanes a =>
    cases t with
    | all => exact absurd second (not_all_le a)
    | lanes b =>
      refine congrArg lanes (BitVec.eq_of_getLsbD_eq fun i _ => ?_)
      exact Bool.eq_iff_iff.mpr ⟨first i, second i⟩

theorem left_within_union (s t : LaneSet) : s ≤ s.union t := by
  cases s with
  | all => simp
  | lanes a =>
    cases t with
    | all => simp
    | lanes b => exact fun lane here => by simp [here]

theorem right_within_union (s t : LaneSet) : t ≤ s.union t := by
  cases s with
  | all => simp
  | lanes a =>
    cases t with
    | all => simp
    | lanes b => exact fun lane here => by simp [here]

theorem union_within {s t u : LaneSet} (left : s ≤ u) (right : t ≤ u) : s.union t ≤ u := by
  cases u with
  | all => exact le_all _
  | lanes c =>
    cases s with
    | all => exact absurd left (not_all_le c)
    | lanes a =>
      cases t with
      | all => exact absurd right (not_all_le c)
      | lanes b =>
        intro lane here
        rcases Bool.or_eq_true_iff.mp (by simpa using here) with one | two
        · exact left lane one
        · exact right lane two

instance : PartialOrder LaneSet where
  le_refl := within_refl
  le_trans _ _ _ := within_trans
  le_antisymm _ _ := within_antisymm

instance : SemilatticeSup LaneSet where
  sup := union
  le_sup_left := left_within_union
  le_sup_right := right_within_union
  sup_le _ _ _ := union_within

def inter : LaneSet → LaneSet → LaneSet
  | all, t => t
  | lanes a, all => lanes a
  | lanes a, lanes b => lanes (a &&& b)

theorem le_inter_iff {s t u : LaneSet} : u ≤ s.inter t ↔ u ≤ s ∧ u ≤ t := by
  cases s with
  | all => exact (and_iff_right (le_all u)).symm
  | lanes a =>
    cases t with
    | all => exact (and_iff_left (le_all u)).symm
    | lanes b =>
      cases u with
      | all => exact ⟨False.elim, fun both => both.1⟩
      | lanes c =>
        have bits : ∀ lane, (a &&& b).getLsbD lane = true ↔ a.getLsbD lane = true ∧ b.getLsbD lane = true := by
          simp
        simp only [inter, LE.le, Within, bits]
        exact ⟨fun both => ⟨fun lane here => (both lane here).1, fun lane here => (both lane here).2⟩,
          fun both lane here => ⟨both.1 lane here, both.2 lane here⟩⟩

instance : Lattice LaneSet where
  inf := inter
  inf_le_left s t := (le_inter_iff.mp (le_refl (s.inter t))).1
  inf_le_right s t := (le_inter_iff.mp (le_refl (s.inter t))).2
  le_inf _ _ _ left right := le_inter_iff.mpr ⟨left, right⟩

instance : OrderBot LaneSet where
  bot := empty
  bot_le s := by
    cases s with
    | all => exact le_all _
    | lanes mask => exact fun lane here => by simp at here

@[simp] theorem empty_le (s : LaneSet) : empty ≤ s := bot_le

theorem le_empty {s : LaneSet} : s ≤ empty ↔ s = empty := le_bot_iff

theorem all_le {s : LaneSet} : all ≤ s ↔ s = all :=
  ⟨fun h => le_antisymm (le_all s) h, fun h => h ▸ le_refl all⟩

theorem union_eq_left {s t : LaneSet} : s.union t = s ↔ t ≤ s := sup_eq_left

theorem contains_of_le {s t : LaneSet} (h : s ≤ t) {lane : Nat} (here : s.contains lane = true) :
    t.contains lane = true := by
  cases t with
  | all => rfl
  | lanes b =>
    cases s with
    | all => exact absurd h (not_all_le b)
    | lanes a => exact h lane here

-- A mask has no lane beyond its word, and `all` has them all. So the lanes tell
-- which sets are included in which.
theorem le_iff_contains {s t : LaneSet} : s ≤ t ↔ ∀ lane, s.contains lane = true → t.contains lane = true := by
  refine ⟨fun h _ here => contains_of_le h here, fun h => ?_⟩
  cases t with
  | all => exact le_all s
  | lanes b =>
    cases s with
    | all =>
      have beyond : b.getLsbD trackedLanes = true := h trackedLanes rfl
      rw [BitVec.getLsbD_of_ge b trackedLanes (Nat.le_refl 64)] at beyond
      cases beyond
    | lanes a => exact h

theorem contains_union (s t : LaneSet) (lane : Nat) :
    (s.union t).contains lane = (s.contains lane || t.contains lane) := by
  cases s <;> cases t <;> simp [union, contains]

theorem isEmpty_iff {s : LaneSet} : s.isEmpty = true ↔ s = empty := by simp [isEmpty]

theorem contains_single_self (lane : Nat) : (single lane).contains lane = true := by
  unfold single
  split
  · rename_i low
    have word : lane < 64 := low
    simp [contains, word]
  · rfl

theorem normalized_none (mask : BitVec 64) :
    (lanes mask).normalized none = if mask = 0#64 then empty else all := by
  simp [ofMask]

theorem normalized_some (mask : BitVec 64) {n : Nat} (small : n ≤ trackedLanes) :
    (lanes mask).normalized (some n) =
      if mask &&& below n = below n then all else lanes (mask &&& below n) := by
  rw [normalized_lanes, Option.filter_some]
  simp only [small, decide_true, if_true, ofMask]

theorem masked_eq_below {mask : BitVec 64} {n : Nat} (small : n ≤ trackedLanes) :
    mask &&& below n = below n ↔ ∀ lane < n, mask.getLsbD lane = true := by
  constructor
  · intro full lane low
    have word : lane < 64 := Nat.lt_of_lt_of_le low small
    have here := congrArg (·.getLsbD lane) full
    simpa only [BitVec.getLsbD_and, getLsbD_below, low, word, decide_true, Bool.and_true] using here
  · intro full
    apply BitVec.eq_of_getLsbD_eq
    intro lane word
    by_cases low : lane < n
    · rw [BitVec.getLsbD_and, full lane low, Bool.true_and]
    · rw [BitVec.getLsbD_and, getLsbD_below, decide_eq_false low, Bool.false_and, Bool.and_false]

theorem masked_eq_self {mask : BitVec 64} {n : Nat} :
    mask &&& below n = mask ↔ ∀ lane, mask.getLsbD lane = true → lane < n := by
  constructor
  · intro same lane here
    rw [← same] at here
    simp only [BitVec.getLsbD_and, getLsbD_below, Bool.and_eq_true, decide_eq_true_eq] at here
    exact here.2.1
  · intro inside
    apply BitVec.eq_of_getLsbD_eq
    intro lane word
    rw [BitVec.getLsbD_and, getLsbD_below]
    cases here : mask.getLsbD lane with
    | false => rfl
    | true => rw [decide_eq_true (inside lane here), decide_eq_true word]; rfl

theorem contains_normalized (s : LaneSet) {n lane : Nat} (small : n ≤ trackedLanes) (low : lane < n) :
    (s.normalized (some n)).contains lane = s.contains lane := by
  cases s with
  | all => rfl
  | lanes mask =>
    rw [normalized_some mask small]
    split
    · rename_i full
      exact ((masked_eq_below small).mp full lane low).symm
    · have word : lane < 64 := Nat.lt_of_lt_of_le low small
      simp only [contains, BitVec.getLsbD_and, getLsbD_below, low, word, decide_true, Bool.and_true]

theorem normalized_none_of_nonempty {s : LaneSet} (some' : s ≠ empty) : s.normalized none = all := by
  cases s with
  | all => rfl
  | lanes mask =>
    rw [normalized_none, if_neg]
    exact fun zero => some' (congrArg lanes zero)

theorem normalized_mono {s t : LaneSet} (h : s ≤ t) {count : Option Nat}
    (tracked : ∀ n, count = some n → n ≤ trackedLanes) : s.normalized count ≤ t.normalized count := by
  cases t with
  | all => exact le_all _
  | lanes b =>
    cases s with
    | all => exact absurd h (not_all_le b)
    | lanes a =>
      cases count with
      | none =>
        rw [normalized_none, normalized_none]
        split
        · exact empty_le _
        · rename_i some'
          rw [if_neg]
          intro zero
          refine some' (BitVec.eq_of_getLsbD_eq fun lane _ => ?_)
          cases here : a.getLsbD lane with
          | false => simp
          | true => exact absurd (h lane here) (by simp [zero])
      | some n =>
        have small := tracked n rfl
        rw [normalized_some a small, normalized_some b small]
        by_cases full : b &&& below n = below n
        · rw [if_pos full]
          exact le_all _
        · rw [if_neg full, if_neg]
          · intro lane here
            rw [BitVec.getLsbD_and, Bool.and_eq_true] at here ⊢
            exact ⟨h lane here.1, here.2⟩
          · intro fullA
            exact full ((masked_eq_below small).mpr fun lane low =>
              h lane ((masked_eq_below small).mp fullA lane low))

-- What a value can hold once the analysis has touched it: for a vector of `n`
-- tracked lanes everything or a proper part of them, for any other value
-- everything or nothing.
def Canonical : Option Nat → LaneSet → Prop
  | _, all => True
  | some n, lanes mask => (∀ lane, mask.getLsbD lane = true → lane < n) ∧ ∃ lane < n, mask.getLsbD lane = false
  | none, lanes mask => mask = 0#64

@[simp] theorem canonical_all (count : Option Nat) : Canonical count all := by cases count <;> trivial

theorem canonical_empty {count : Option Nat} (wide : ∀ n, count = some n → 1 ≤ n) : Canonical count empty := by
  cases count with
  | none => rfl
  | some n => exact ⟨fun lane here => by simp at here, 0, wide n rfl, by simp⟩

theorem canonical_normalized (s : LaneSet) {count : Option Nat}
    (tracked : ∀ n, count = some n → n ≤ trackedLanes) : Canonical count (s.normalized count) := by
  cases s with
  | all => exact canonical_all count
  | lanes mask =>
    cases count with
    | none =>
      rw [normalized_none]
      split
      · rfl
      · exact canonical_all none
    | some n =>
      have small := tracked n rfl
      rw [normalized_some mask small]
      split
      · exact canonical_all (some n)
      · rename_i partly
        refine ⟨fun lane here => ?_, ?_⟩
        · simp only [BitVec.getLsbD_and, getLsbD_below, Bool.and_eq_true, decide_eq_true_eq] at here
          exact here.2.1
        · refine Classical.byContradiction fun full => partly ((masked_eq_below small).mpr ?_)
          intro lane low
          refine Classical.byContradiction fun missing => full ⟨lane, low, ?_⟩
          simp [missing]

theorem normalized_canonical {s : LaneSet} {count : Option Nat}
    (tracked : ∀ n, count = some n → n ≤ trackedLanes) (canonical : Canonical count s) :
    s.normalized count = s := by
  cases s with
  | all => rfl
  | lanes mask =>
    cases count with
    | none =>
      have zero : mask = 0#64 := canonical
      rw [normalized_none, if_pos zero, zero, empty]
    | some n =>
      have small := tracked n rfl
      obtain ⟨inside, lane, low, missing⟩ := canonical
      rw [normalized_some mask small, if_neg, masked_eq_self.mpr inside]
      intro full
      rw [(masked_eq_below small).mp full lane low] at missing
      cases missing

theorem Canonical.inf {count : Option Nat} {s t : LaneSet} (left : Canonical count s) (right : Canonical count t) :
    Canonical count (s ⊓ t) := by
  cases s with
  | all => exact right
  | lanes a =>
    cases t with
    | all => exact left
    | lanes b =>
      cases count with
      | none =>
        have zero : a = 0#64 := left
        subst zero
        exact BitVec.zero_and
      | some n =>
        obtain ⟨inside, lane, low, missing⟩ := left
        refine ⟨fun k here => inside k ?_, lane, low, ?_⟩
        · exact (Bool.and_eq_true_iff.mp (BitVec.getLsbD_and.symm.trans here)).1
        · rw [BitVec.getLsbD_and, missing, Bool.false_and]

-- A set that names no lane the value lacks. Only such a set loses nothing in
-- the canonical form.
def Fits (count : Option Nat) (s : LaneSet) : Prop :=
  ∀ n mask, count = some n → s = lanes mask → ∀ lane, mask.getLsbD lane = true → lane < n

theorem fits_empty (count : Option Nat) : Fits count empty := by
  intro n mask _ same lane here
  cases same
  simp at here

theorem Canonical.fits {count : Option Nat} {s : LaneSet} (canonical : Canonical count s) : Fits count s := by
  intro n mask counted same
  subst counted same
  exact canonical.1

theorem Fits.union {count : Option Nat} {s t : LaneSet} (left : Fits count s) (right : Fits count t) :
    Fits count (s.union t) := by
  intro n mask counted same lane here
  cases s with
  | all => cases same.symm.trans (all_union t)
  | lanes a =>
    cases t with
    | all => cases same.symm.trans (union_all (lanes a))
    | lanes b =>
      cases same
      rcases Bool.or_eq_true_iff.mp (by simpa using here) with one | two
      · exact left n a counted rfl lane one
      · exact right n b counted rfl lane two

theorem le_normalized {s : LaneSet} {count : Option Nat} (tracked : ∀ n, count = some n → n ≤ trackedLanes)
    (fits : Fits count s) : s ≤ s.normalized count := by
  cases s with
  | all => exact le_refl all
  | lanes mask =>
    cases count with
    | none =>
      rw [normalized_none]
      split
      · rename_i zero
        rw [zero]
        exact le_refl empty
      · exact le_all _
    | some n =>
      rw [normalized_some mask (tracked n rfl)]
      split
      · exact le_all _
      · rw [masked_eq_self.mpr (fits n mask rfl rfl)]

end DeadLanes.LaneSet
