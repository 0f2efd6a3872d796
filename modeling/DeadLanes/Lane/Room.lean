import DeadLanes.Lane.LaneSet

namespace DeadLanes.LaneSet

-- How far a set can still grow. Growing always costs room, so a set grows only
-- so often: this is what bounds the worklist algorithms over lane sets.

def absent (n : Nat) (mask : BitVec 64) : Nat :=
  (List.range n).countP fun lane => !mask.getLsbD lane

def room : LaneSet → Nat
  | all => 0
  | lanes mask => 1 + absent 64 mask

def canonicalRoom (count : Option Nat) : LaneSet → Nat
  | all => 0
  | lanes mask =>
    match count with
    | some n => max 1 (absent n mask)
    | none => 1

theorem countP_lt {p q : Nat → Bool} {xs : List Nat} (sub : ∀ x ∈ xs, p x = true → q x = true)
    {x : Nat} (here : x ∈ xs) (more : q x = true) (less : p x = false) : xs.countP p < xs.countP q := by
  induction xs with
  | nil => cases here
  | cons y ys ih =>
    have tail := List.countP_mono_left fun z hz => sub z (List.mem_cons_of_mem y hz)
    rcases List.mem_cons.mp here with rfl | later
    · simp only [List.countP_cons, more, less]
      simp
      omega
    · have below := ih (fun z hz => sub z (List.mem_cons_of_mem y hz)) later
      have head := sub y List.mem_cons_self
      simp only [List.countP_cons]
      cases hp : p y
      · simp; omega
      · simp [head hp]; omega

theorem absent_lt {n lane : Nat} {a b : BitVec 64} (sub : ∀ i, a.getLsbD i = true → b.getLsbD i = true)
    (low : lane < n) (new : b.getLsbD lane = true) (old : a.getLsbD lane = false) :
    absent n b < absent n a := by
  refine countP_lt (fun i _ missing => ?_) (List.mem_range.mpr low) (by simp [old]) (by simp [new])
  cases h : a.getLsbD i
  · rfl
  · simp [sub i h] at missing

theorem absent_eq_zero {n : Nat} {mask : BitVec 64} :
    absent n mask = 0 ↔ ∀ lane < n, mask.getLsbD lane = true := by
  simp [absent]

theorem gained {a b : BitVec 64} (grew : a ||| b ≠ a) :
    ∃ lane, b.getLsbD lane = true ∧ a.getLsbD lane = false := by
  refine Classical.byContradiction fun none => grew (BitVec.eq_of_getLsbD_eq fun i _ => ?_)
  have kept : b.getLsbD i = true → a.getLsbD i = true := by
    intro h
    cases ha : a.getLsbD i
    · exact absurd ⟨i, h, ha⟩ none
    · rfl
  cases ha : a.getLsbD i <;> cases hb : b.getLsbD i <;> simp_all

theorem room_union {s t : LaneSet} (grew : s.union t ≠ s) : (s.union t).room + 1 ≤ s.room := by
  match s, t with
  | all, t => simp at grew
  | lanes a, all => simp [room]
  | lanes a, lanes b =>
    obtain ⟨lane, new, old⟩ := gained (a := a) (b := b) fun same => grew (by simp [union, same])
    have low : lane < 64 := Nat.lt_of_not_le fun high => by simp [BitVec.getLsbD_of_ge b lane high] at new
    have less : absent 64 (a ||| b) < absent 64 a :=
      absent_lt (fun i h => by simp [h]) low (by simp [new]) old
    simp only [union, room]
    omega

theorem canonicalRoom_union {s t : LaneSet} {count : Option Nat}
    (tracked : ∀ n, count = some n → n ≤ trackedLanes) (canonical : t.normalized count = t)
    (asked : t ≠ empty) (grew : s.union t ≠ s) :
    ((s.union t).normalized count).canonicalRoom count + 1 ≤ s.canonicalRoom count := by
  match s, t with
  | all, t => simp at grew
  | lanes a, all =>
    cases count with
    | none => simp [normalized, canonicalRoom]
    | some n => exact Nat.le_max_left 1 (absent n a)
  | lanes a, lanes b =>
    cases count with
    | none =>
      simp only [normalized_lanes, ofMask, Option.filter_none] at canonical
      split at canonical
      · exact absurd canonical.symm asked
      · cases canonical
    | some n =>
      have small := tracked n rfl
      simp only [normalized_lanes, ofMask, Option.filter_some, small, decide_true, if_true] at canonical
      split at canonical
      · cases canonical
      · have inside : b &&& below n = b := by simpa using canonical
        obtain ⟨lane, new, old⟩ := gained (a := a) (b := b) fun same => grew (by simp [union, same])
        have low : lane < n := by
          rw [← inside] at new
          simp at new
          exact new.2.1
        have less : absent n ((a ||| b) &&& below n) < absent n a := by
          refine countP_lt (fun i hi missing => ?_) (List.mem_range.mpr low) (by simp [old]) ?_
          · have word : i < 64 := Nat.lt_of_lt_of_le (List.mem_range.mp hi) small
            cases h : a.getLsbD i
            · rfl
            · simp only [BitVec.getLsbD_and, BitVec.getLsbD_or, getLsbD_below, h, word,
                List.mem_range.mp hi, decide_true, Bool.true_or, Bool.and_self, Bool.not_true] at missing
              cases missing
          · have word : lane < 64 := Nat.lt_of_lt_of_le low small
            simp [new, low, word]
        simp only [union, normalized_lanes, ofMask, Option.filter_some, small, decide_true, if_true]
        split
        · exact Nat.le_max_left 1 (absent n a)
        · rename_i partly
          have some' : absent n ((a ||| b) &&& below n) ≠ 0 := by
            intro none
            rw [absent_eq_zero] at none
            refine partly (BitVec.eq_of_getLsbD_eq fun i _ => ?_)
            by_cases hi : i < n
            · have := none i hi
              have word : i < 64 := Nat.lt_of_lt_of_le hi small
              simp [hi, word] at this ⊢
              exact this
            · simp [hi]
          simp only [canonicalRoom]
          omega

end DeadLanes.LaneSet
