namespace DeadLanes

-- Vectors with more lanes than this are live as a whole or not at all.
def trackedLanes : Nat := 64

-- The lanes of a value that somebody reads. A value that is not a tracked
-- vector only ever has the empty set or `all`.
inductive LaneSet where
  | lanes (mask : BitVec 64)
  | all
  deriving DecidableEq

namespace LaneSet

def below (n : Nat) : BitVec 64 := BitVec.allOnes 64 >>> (64 - n)

def empty : LaneSet := lanes 0#64

def single (lane : Nat) : LaneSet :=
  if lane < trackedLanes then lanes (BitVec.twoPow 64 lane) else all

def isEmpty (s : LaneSet) : Bool := s = empty

def isAll (s : LaneSet) : Bool := s = all

def contains : LaneSet → Nat → Bool
  | all, _ => true
  | lanes mask, lane => mask.getLsbD lane

def union : LaneSet → LaneSet → LaneSet
  | lanes a, lanes b => lanes (a ||| b)
  | _, _ => all

def join (s other : LaneSet) : LaneSet × Bool := (s.union other, s.union other ≠ s)

def without (s : LaneSet) (lane count : Nat) : LaneSet :=
  let mask := match s with
    | all => below count
    | lanes mask => mask
  if lane < trackedLanes then lanes (mask &&& ~~~(BitVec.twoPow 64 lane)) else lanes mask

-- What the part of a vector that starts at `offset` and is `width` lanes wide
-- has of the set, counted from the start of the part.
def slice : LaneSet → Nat → Nat → LaneSet
  | all, _, _ => all
  | lanes mask, offset, width => lanes ((mask >>> offset) &&& below width)

-- A mask in canonical form: for a vector of `n` tracked lanes, lanes past the
-- end go and a full set is `all`; where lanes are not tracked, so is any set
-- that is not empty.
def ofMask (mask : BitVec 64) : Option Nat → LaneSet
  | some n => if mask &&& below n = below n then all else lanes (mask &&& below n)
  | none => if mask = 0#64 then empty else all

def normalized : LaneSet → Option Nat → LaneSet
  | all, _ => all
  | lanes mask, count => ofMask mask (count.filter (· ≤ trackedLanes))

def members : LaneSet → Nat → List Nat
  | all, count => List.range count
  | lanes mask, count => (List.range (min count trackedLanes)).filter mask.getLsbD

def text : LaneSet → String
  | all => "ALL"
  | lanes mask =>
    "\x7b" ++ ", ".intercalate (((lanes mask).members trackedLanes).map Nat.repr) ++ "\x7d"

@[simp] theorem union_all (s : LaneSet) : s.union all = all := by cases s <;> rfl

@[simp] theorem all_union (s : LaneSet) : all.union s = all := by cases s <;> rfl

@[simp] theorem union_self (s : LaneSet) : s.union s = s := by cases s <;> simp [union]

@[simp] theorem contains_empty (lane : Nat) : empty.contains lane = false := by
  simp [contains, empty]

@[simp] theorem getLsbD_below (n lane : Nat) :
    (below n).getLsbD lane = (decide (lane < n) && decide (lane < 64)) := by
  simp only [below, BitVec.getLsbD_ushiftRight, BitVec.getLsbD_allOnes]
  by_cases h : lane < n <;> by_cases g : lane < 64 <;> simp [h, g] <;> omega

@[simp] theorem normalized_all (count : Option Nat) : all.normalized count = all := rfl

@[simp] theorem normalized_lanes (mask : BitVec 64) (count : Option Nat) :
    (lanes mask).normalized count = ofMask mask (count.filter (· ≤ trackedLanes)) := rfl

theorem normalized_normalized (s : LaneSet) (count : Option Nat) :
    (s.normalized count).normalized count = s.normalized count := by
  match s with
  | all => rfl
  | lanes mask =>
    rw [normalized_lanes]
    cases counted : count.filter (· ≤ trackedLanes) with
    | none =>
      simp only [ofMask]
      split
      · simp [empty, counted, ofMask]
      · rfl
    | some n =>
      simp only [ofMask]
      split
      · rfl
      · rename_i partly
        have same : mask &&& below n &&& below n = mask &&& below n := by
          rw [BitVec.and_assoc, BitVec.and_self]
        rw [normalized_lanes, counted, ofMask, same, if_neg partly]

end LaneSet

end DeadLanes
