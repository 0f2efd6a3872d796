import DeadLanes.Proofs.Handles

namespace DeadLanes

-- An arena whose slots are used again. What tells one tenant of a slot from the
-- next is how many removals there were when it moved in.

structure Slot where
  index : Nat
  generation : Nat
  deriving DecidableEq

structure Slots where
  entries : List (Option (Nat × Inst))
  -- empty slots, the one to be taken next in front
  free : List Nat
  generation : Nat

namespace Slots

def empty : Slots := ⟨[], [], 0⟩

def insert (i : Inst) (s : Slots) : Slot × Slots :=
  match s.free with
  | n :: rest => (⟨n, s.generation⟩, { s with entries := s.entries.set n (some (s.generation, i)), free := rest })
  | [] => (⟨s.entries.length, s.generation⟩, { s with entries := s.entries ++ [some (s.generation, i)] })

def tenant (s : Slots) (n : Nat) : Option (Nat × Inst) := s.entries[n]?.join

def get? (s : Slots) (r : Slot) : Option Inst :=
  ((s.tenant r.index).filter (·.1 = r.generation)).map (·.2)

def remove (r : Slot) (s : Slots) : Option Inst × Slots :=
  match s.get? r with
  | some i => (some i, ⟨s.entries.set r.index none, r.index :: s.free, s.generation + 1⟩)
  | none => (none, s)

def arena : Arena Slots Slot where
  empty := empty
  insert := insert
  remove := remove
  get? := get?
  contains s r := (s.get? r).isSome
  len s := s.entries.countP Option.isSome

variable {s : Slots} {seen : List Slot} {r : Slot}

theorem get?_eq_some {i : Inst} : s.get? r = some i ↔ s.tenant r.index = some (r.generation, i) := by
  simp [get?, and_assoc]

theorem get?_other {t : Slots} (same : t.tenant r.index = s.tenant r.index) : t.get? r = s.get? r := by
  rw [get?, get?, same]

-- Free slots have no tenants, and a handle that was given out is of the past
-- unless it still resolves.
structure Tidy (s : Slots) (seen : List Slot) : Prop where
  distinct : s.free.Nodup
  vacant : ∀ n ∈ s.free, s.entries[n]? = some none
  young : ∀ r i, s.get? r = some i → r.generation ≤ s.generation
  past : ∀ r ∈ seen, r.generation < s.generation ∨ ∃ i, s.get? r = some i

theorem tenant_set {n m : Nat} {entry : Option (Nat × Inst)} (inside : n < s.entries.length) {free : List Nat}
    {generation : Nat} : tenant ⟨s.entries.set n entry, free, generation⟩ m = if m = n then entry else s.tenant m := by
  rw [tenant, List.getElem?_set]
  by_cases same : n = m
  · rw [if_pos same, if_pos inside, if_pos same.symm]
    rfl
  · rw [if_neg same, if_neg (Ne.symm same)]
    rfl

theorem tenant_append {m : Nat} {entry : Nat × Inst} : tenant { s with entries := s.entries ++ [some entry] } m =
    if m = s.entries.length then some entry else s.tenant m := by
  rw [tenant, tenant, List.getElem?_append, List.getElem?_singleton]
  rcases Nat.lt_trichotomy m s.entries.length with low | same | high
  · rw [if_pos low, if_neg (Nat.ne_of_lt low)]
  · rw [if_neg (Nat.not_lt.mpr (Nat.le_of_eq same.symm)), if_pos (by omega), if_pos same]
    rfl
  · rw [if_neg (Nat.not_lt.mpr (Nat.le_of_lt high)), if_neg (by omega), if_neg (Nat.ne_of_gt high),
      List.getElem?_eq_none (Nat.le_of_lt high)]

theorem Tidy.insert_eq (tidy : Tidy s seen) (i : Inst) : ∃ n, (s.insert i).1 = ⟨n, s.generation⟩ ∧ s.tenant n = none ∧
    (∀ m, (s.insert i).2.tenant m = if m = n then some (s.generation, i) else s.tenant m) ∧
    (s.insert i).2.entries.countP Option.isSome = s.entries.countP Option.isSome + 1 := by
  unfold insert
  cases free : s.free with
  | nil =>
    refine ⟨s.entries.length, rfl, ?_, fun m => tenant_append, by simp⟩
    rw [tenant, List.getElem?_eq_none (Nat.le_refl _)]
    rfl
  | cons n rest =>
    have vacant := tidy.vacant n (free ▸ List.mem_cons_self ..)
    obtain ⟨inside, empty⟩ := List.getElem?_eq_some_iff.mp vacant
    refine ⟨n, rfl, ?_, fun m => tenant_set inside, ?_⟩
    · rw [tenant, vacant]
      rfl
    · simp [List.countP_set inside, empty]

theorem insert_generation (s : Slots) (i : Inst) : (s.insert i).2.generation = s.generation := by
  unfold insert
  split <;> rfl

theorem Tidy.get?_insert (tidy : Tidy s seen) (i : Inst) (r : Slot) :
    (s.insert i).2.get? r = if r = (s.insert i).1 then some i else s.get? r := by
  obtain ⟨n, handle, nobody, tenants, -⟩ := tidy.insert_eq i
  rw [handle]
  by_cases same : r.index = n
  · have before : s.get? r = none := by
      rw [get?, same, nobody]
      rfl
    have after : (s.insert i).2.get? r = if s.generation = r.generation then some i else none := by
      rw [get?, tenants, if_pos same, Option.filter_some]
      split <;> simp_all
    rw [after, before]
    congr 1
    apply propext
    constructor
    · intro generation
      cases r
      cases same
      cases generation
      rfl
    · rintro rfl
      rfl
  · rw [if_neg fun equal => same (congrArg Slot.index equal)]
    exact get?_other ((tenants r.index).trans (if_neg same))

theorem Tidy.insert (tidy : Tidy s seen) (i : Inst) : Tidy (s.insert i).2 (seen ++ [(s.insert i).1]) := by
  refine ⟨?_, ?_, ?_, ?_⟩
  · unfold Slots.insert
    split
    · rename_i n rest free
      exact (List.nodup_cons.mp (free ▸ tidy.distinct)).2
    · exact tidy.distinct
  · intro m
    unfold Slots.insert
    split
    · rename_i n rest free
      intro member
      have other : n ≠ m := fun same => (List.nodup_cons.mp (free ▸ tidy.distinct)).1 (same ▸ member)
      rw [List.getElem?_set_ne other]
      exact tidy.vacant m (free ▸ List.mem_cons_of_mem _ member)
    · rename_i free
      intro member
      rw [free] at member
      cases member
  · intro r j there
    rw [insert_generation]
    by_cases new : r = (s.insert i).1
    · obtain ⟨n, handle, -⟩ := tidy.insert_eq i
      rw [new, handle]
    · rw [tidy.get?_insert, if_neg new] at there
      exact tidy.young r j there
  · intro r member
    rw [insert_generation, tidy.get?_insert]
    split
    · exact .inr ⟨i, rfl⟩
    · rename_i other
      rcases List.mem_append.mp member with old | new
      · exact tidy.past r old
      · exact absurd (List.mem_singleton.mp new) other

theorem entry_of_get? {i : Inst} (found : s.get? r = some i) :
    ∃ inside : r.index < s.entries.length, s.entries[r.index] = some (r.generation, i) := by
  have here := get?_eq_some.mp found
  rw [tenant, Option.join_eq_some_iff] at here
  exact List.getElem?_eq_some_iff.mp here

theorem get?_remove (s : Slots) (r q : Slot) : (s.remove r).2.get? q = if q = r then none else s.get? q := by
  unfold remove
  cases found : s.get? r with
  | none =>
    by_cases same : q = r
    · rw [if_pos same, same]
      exact found
    · exact (if_neg same).symm
  | some i =>
    obtain ⟨inside, entry⟩ := entry_of_get? found
    have tenants : ∀ m, tenant ⟨s.entries.set r.index none, r.index :: s.free, s.generation + 1⟩ m =
        if m = r.index then none else s.tenant m := fun m => tenant_set inside
    by_cases same : q.index = r.index
    · have after : get? ⟨s.entries.set r.index none, r.index :: s.free, s.generation + 1⟩ q = none := by
        rw [get?, tenants, if_pos same]
        rfl
      rw [after]
      split
      · rfl
      · rename_i other
        rw [get?, same, get?_eq_some.mp found, Option.filter_some, if_neg]
        · rfl
        · intro generation
          apply other
          cases q
          cases same
          cases of_decide_eq_true generation
          rfl
    · rw [if_neg fun equal => same (congrArg Slot.index equal)]
      exact get?_other ((tenants q.index).trans (if_neg same))

theorem remove_answer (s : Slots) (r : Slot) : (s.remove r).1 = s.get? r := by
  unfold remove
  cases s.get? r <;> rfl

theorem remove_count {i : Inst} (found : s.get? r = some i) :
    (s.remove r).2.entries.countP Option.isSome + 1 = s.entries.countP Option.isSome := by
  obtain ⟨inside, entry⟩ := entry_of_get? found
  have some' : 0 < s.entries.countP Option.isSome :=
    List.countP_pos_iff.mpr ⟨_, List.getElem_mem inside, by rw [entry]; rfl⟩
  rw [remove, found]
  simp only [List.countP_set inside, entry, Option.isSome_some, Option.isSome_none, Bool.false_eq_true, if_true, if_false]
  omega

theorem Tidy.remove (tidy : Tidy s seen) (r : Slot) : Tidy (s.remove r).2 seen := by
  have found := s.get?_remove r
  unfold Slots.remove at found ⊢
  cases here : s.get? r with
  | none => exact tidy
  | some i =>
    rw [here] at found
    obtain ⟨inside, entry⟩ := entry_of_get? here
    refine ⟨?_, ?_, ?_, ?_⟩
    · apply List.nodup_cons.mpr
      refine ⟨fun free => ?_, tidy.distinct⟩
      have vacant := (List.getElem?_eq_some_iff.mp (tidy.vacant r.index free)).2
      cases entry.symm.trans vacant
    · intro m member
      rcases List.mem_cons.mp member with rfl | old
      · exact List.getElem?_set_self inside
      · rw [List.getElem?_set]
        split
        · rfl
        · exact tidy.vacant m old
    · intro q j there
      by_cases same : q = r
      · exact Nat.le_succ_of_le (same ▸ tidy.young r i here)
      · rw [found, if_neg same] at there
        exact Nat.le_succ_of_le (tidy.young q j there)
    · intro q member
      by_cases same : q = r
      · exact .inl (Nat.lt_succ_of_le (same ▸ tidy.young r i here))
      · rw [found, if_neg same]
        exact (tidy.past q member).imp_left Nat.lt_succ_of_lt

theorem reached_tidy (reached : arena.Reached s seen) : Tidy s seen := by
  induction reached with
  | empty => exact ⟨.nil, by simp [arena, empty], fun _ _ => nofun, by simp⟩
  | insert i before ih => exact ih.insert i
  | remove r before ih => exact ih.remove r

theorem arena_lawful : arena.Lawful where
  fresh {s seen} i reached := by
    intro old
    have tidy := reached_tidy reached
    obtain ⟨n, handle, nobody, -⟩ := tidy.insert_eq i
    rw [show (arena.insert i s).1 = _ from handle] at old
    rcases tidy.past _ old with low | ⟨j, found⟩
    · exact Nat.lt_irrefl _ low
    · rw [get?_eq_some, nobody] at found
      cases found
  get?_empty r := rfl
  get?_insert i r reached := (reached_tidy reached).get?_insert i r
  get?_remove {s _} r q _ := get?_remove s r q
  removed {s _} r _ := remove_answer s r
  contains_eq _ _ := rfl
  len_empty := rfl
  len_insert i reached := by
    obtain ⟨n, -, -, -, count⟩ := (reached_tidy reached).insert_eq i
    exact count
  len_remove {s _} r _ here := by
    obtain ⟨i, found⟩ := Option.isSome_iff_exists.mp here
    exact remove_count found

end Slots

end DeadLanes
