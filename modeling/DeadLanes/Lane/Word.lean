import DeadLanes.Fault
import DeadLanes.Lane.LaneSet

namespace DeadLanes

-- Lane sets as they are worked out on 64-bit words. Shifting a word by its width
-- or more, or taking from it more than it has, is a fault. Every operation asks
-- first, and so none of them ever comes to one.
namespace Word

def shiftLeft (word : BitVec 64) (count : Nat) : Except Fault (BitVec 64) :=
  if count < 64 then .ok (word <<< count) else .error .overflow

def shiftRight (word : BitVec 64) (count : Nat) : Except Fault (BitVec 64) :=
  if count < 64 then .ok (word >>> count) else .error .overflow

def minus (a b : BitVec 64) : Except Fault (BitVec 64) :=
  if b ≤ a then .ok (a - b) else .error .overflow

theorem shiftLeft_ok (word : BitVec 64) {count : Nat} (short : count < 64) :
    shiftLeft word count = .ok (word <<< count) := if_pos short

theorem shiftRight_ok (word : BitVec 64) {count : Nat} (short : count < 64) :
    shiftRight word count = .ok (word >>> count) := if_pos short

theorem minus_ok {a b : BitVec 64} (enough : b ≤ a) : minus a b = .ok (a - b) := if_pos enough

end Word

namespace LaneSet

def checkedBelow (n : Nat) : Except Fault (BitVec 64) :=
  if trackedLanes ≤ n then .ok (BitVec.allOnes 64)
  else do Word.minus (← Word.shiftLeft 1#64 n) 1#64

def checkedContains : LaneSet → Nat → Except Fault Bool
  | all, _ => return true
  | lanes mask, lane =>
    if lane < trackedLanes then do return mask &&& (← Word.shiftLeft 1#64 lane) ≠ 0#64
    else return false

def checkedClear (mask : BitVec 64) (lane : Nat) : Except Fault LaneSet :=
  if lane < trackedLanes then do return lanes (mask &&& ~~~(← Word.shiftLeft 1#64 lane))
  else return lanes mask

def checkedWithout : LaneSet → Nat → Nat → Except Fault LaneSet
  | all, lane, count => do checkedClear (← checkedBelow count) lane
  | lanes mask, lane, _ => checkedClear mask lane

def checkedSlice : LaneSet → Nat → Nat → Except Fault LaneSet
  | all, _, _ => return all
  | lanes mask, offset, width =>
    if trackedLanes ≤ offset then return empty
    else do return lanes ((← Word.shiftRight mask offset) &&& (← checkedBelow width))

def checkedNormalized : LaneSet → Option Nat → Except Fault LaneSet
  | all, _ => return all
  | lanes mask, some n =>
    if n ≤ trackedLanes then do
      let full ← checkedBelow n
      return if mask &&& full = full then all else lanes (mask &&& full)
    else return if mask = 0#64 then empty else all
  | lanes mask, none => return if mask = 0#64 then empty else all

theorem below_of_le {n : Nat} (wide : trackedLanes ≤ n) : below n = BitVec.allOnes 64 := by
  apply BitVec.eq_of_getLsbD_eq
  intro lane word
  have low : lane < n := Nat.lt_of_lt_of_le word wide
  rw [getLsbD_below, BitVec.getLsbD_allOnes, decide_eq_true low, Bool.true_and]

theorem one_le_twoPow {n : Nat} (low : n < 64) : 1#64 ≤ BitVec.twoPow 64 n := by
  rw [BitVec.le_def, BitVec.toNat_twoPow_of_lt low]
  exact Nat.one_le_two_pow

theorem twoPow_sub_one {n : Nat} (low : n < 64) : BitVec.twoPow 64 n - 1#64 = below n := by
  apply BitVec.eq_of_getLsbD_eq
  intro lane word
  rw [getLsbD_below, ← BitVec.testBit_toNat, BitVec.toNat_sub_of_le (one_le_twoPow low),
    BitVec.toNat_twoPow_of_lt low]
  simp [word]

theorem checkedBelow_eq (n : Nat) : checkedBelow n = .ok (below n) := by
  rw [checkedBelow]
  by_cases wide : trackedLanes ≤ n
  · rw [if_pos wide, below_of_le wide]
  · have low : n < 64 := Nat.lt_of_not_le wide
    rw [if_neg wide, Word.shiftLeft_ok 1#64 low]
    exact (Word.minus_ok (one_le_twoPow low)).trans (congrArg Except.ok (twoPow_sub_one low))

theorem and_shiftLeft_ne_zero (mask : BitVec 64) {lane : Nat} (low : lane < 64) :
    mask &&& 1#64 <<< lane ≠ 0#64 ↔ mask.getLsbD lane = true := by
  have bit : BitVec.twoPow 64 lane ≠ 0#64 := by
    intro zero
    have clear := congrArg (·.getLsbD lane) zero
    simp [low] at clear
  rw [← BitVec.twoPow_eq, BitVec.and_twoPow]
  split
  · rename_i here
    exact iff_of_true bit here
  · rename_i missing
    exact iff_of_false (fun differs => differs rfl) missing

theorem checkedContains_eq (s : LaneSet) (lane : Nat) : s.checkedContains lane = .ok (s.contains lane) := by
  cases s with
  | all => rfl
  | lanes mask =>
    rw [checkedContains]
    by_cases low : lane < trackedLanes
    · rw [if_pos low, Word.shiftLeft_ok 1#64 low]
      exact congrArg Except.ok (Bool.eq_iff_iff.mpr (decide_eq_true_iff.trans (and_shiftLeft_ne_zero mask low)))
    · rw [if_neg low]
      exact congrArg Except.ok (BitVec.getLsbD_of_ge mask lane (Nat.le_of_not_lt low)).symm

theorem checkedClear_eq (mask : BitVec 64) (lane count : Nat) :
    checkedClear mask lane = .ok ((lanes mask).without lane count) := by
  rw [checkedClear, without]
  by_cases low : lane < trackedLanes
  · rw [if_pos low, if_pos low, Word.shiftLeft_ok 1#64 low]
    rfl
  · rw [if_neg low, if_neg low]
    rfl

theorem checkedWithout_eq (s : LaneSet) (lane count : Nat) :
    s.checkedWithout lane count = .ok (s.without lane count) := by
  cases s with
  | all =>
    rw [checkedWithout, checkedBelow_eq]
    exact checkedClear_eq (below count) lane count
  | lanes mask => exact checkedClear_eq mask lane count

theorem checkedSlice_eq (s : LaneSet) (offset width : Nat) :
    s.checkedSlice offset width = .ok (s.slice offset width) := by
  cases s with
  | all => rfl
  | lanes mask =>
    rw [checkedSlice, slice]
    by_cases beyond : trackedLanes ≤ offset
    · have gone : mask >>> offset = 0#64 := BitVec.ushiftRight_eq_zero beyond
      rw [if_pos beyond, gone, BitVec.zero_and]
      rfl
    · rw [if_neg beyond, Word.shiftRight_ok mask (Nat.lt_of_not_le beyond), checkedBelow_eq]
      rfl

theorem checkedNormalized_eq (s : LaneSet) (count : Option Nat) :
    s.checkedNormalized count = .ok (s.normalized count) := by
  cases s with
  | all => cases count <;> rfl
  | lanes mask =>
    cases count with
    | none => rfl
    | some n =>
      rw [checkedNormalized, normalized_lanes, Option.filter_some]
      by_cases small : n ≤ trackedLanes
      · rw [if_pos small, decide_eq_true small, checkedBelow_eq]
        rfl
      · rw [if_neg small, decide_eq_false small]
        rfl

end LaneSet

end DeadLanes
