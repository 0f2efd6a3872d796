import Mathlib
import DeadLanes.Func.Body

namespace DeadLanes

-- The arena and the blocks of a function body are changed one after the other,
-- and stay in step over any requests.

variable {σ κ : Type} {a : Arena σ κ}

namespace Arena

inductive Reached (a : Arena σ κ) : σ → List κ → Prop where
  | empty : Reached a a.empty []
  | insert {s seen} (i : Inst) : Reached a s seen → Reached a (a.insert i s).2 (seen ++ [(a.insert i s).1])
  | remove {s seen} (r : κ) : Reached a s seen → Reached a (a.remove r s).2 seen

-- Handles are never given out again, and resolve until they are removed.
structure Lawful [DecidableEq κ] (a : Arena σ κ) : Prop where
  fresh {s seen} (i : Inst) : a.Reached s seen → (a.insert i s).1 ∉ seen
  get?_empty (r : κ) : a.get? a.empty r = none
  get?_insert {s seen} (i : Inst) (r : κ) : a.Reached s seen →
    a.get? (a.insert i s).2 r = if r = (a.insert i s).1 then some i else a.get? s r
  get?_remove {s seen} (r q : κ) : a.Reached s seen → a.get? (a.remove r s).2 q = if q = r then none else a.get? s q
  removed {s seen} (r : κ) : a.Reached s seen → (a.remove r s).1 = a.get? s r
  contains_eq {s seen} (r : κ) : a.Reached s seen → a.contains s r = (a.get? s r).isSome
  len_empty : a.len a.empty = 0
  len_insert {s seen} (i : Inst) : a.Reached s seen → a.len (a.insert i s).2 = a.len s + 1
  len_remove {s seen} (r : κ) : a.Reached s seen → (a.get? s r).isSome = true → a.len (a.remove r s).2 + 1 = a.len s

theorem Lawful.nodup [DecidableEq κ] (lawful : a.Lawful) {s : σ} {seen : List κ} (reached : a.Reached s seen) :
    seen.Nodup := by
  induction reached with
  | empty => exact .nil
  | insert i before ih =>
    apply List.Nodup.append ih (List.nodup_singleton _)
    intro r old new
    cases List.mem_singleton.mp new
    exact lawful.fresh i before old
  | remove r _ ih => exact ih

end Arena

namespace Body

abbrev Entry (κ : Type) := Request κ × Response κ

def Entry.handed : Entry κ → Option (κ × Inst)
  | (.append _ i, .handle r) => some (r, i)
  | (.insertBefore _ i, .handle r) => some (r, i)
  | _ => none

def Entry.erased : Entry κ → Option κ
  | (.erase r, .inst _) => some r
  | _ => none

def Entry.failedAppend : Entry κ → Bool
  | (.append .., .fault _) => true
  | _ => false

def handed (log : List (Entry κ)) : List (κ × Inst) := log.filterMap Entry.handed

def erased (log : List (Entry κ)) : List κ := log.filterMap Entry.erased

def Holds (log : List (Entry κ)) (r : κ) (i : Inst) : Prop := (r, i) ∈ handed log ∧ r ∉ erased log

-- Arena and blocks are in step.
structure Kept (a : Arena σ κ) (log : List (Entry κ)) (b : Body σ κ) (seen : List κ) : Prop where
  reached : a.Reached b.arena seen
  known : ∀ r i, (r, i) ∈ handed log → r ∈ seen
  given : ∀ r ∈ erased log, ∃ i, (r, i) ∈ handed log
  once : b.blocks.flatten.Nodup
  listed : ∀ r, r ∈ b.blocks.flatten ↔ ∃ i, Holds log r i
  resolves : ∀ r i, Holds log r i → b.inst? a r = some i
  gone : ∀ r ∈ erased log, b.inst? a r = none
  counted : b.size a = b.blocks.flatten.length + log.countP Entry.failedAppend

variable {log : List (Entry κ)} {seen : List κ} {entry : Entry κ} {b b' : Body σ κ}

theorem mem_handed_append {r : κ} {i : Inst} :
    (r, i) ∈ handed (log ++ [entry]) ↔ (r, i) ∈ handed log ∨ entry.handed = some (r, i) := by
  cases new : entry.handed <;> simp [handed, new, eq_comm]

theorem mem_erased_append {r : κ} : r ∈ erased (log ++ [entry]) ↔ r ∈ erased log ∨ entry.erased = some r := by
  cases new : entry.erased <;> simp [erased, new, eq_comm]

namespace Kept

theorem erased_known (kept : Kept a log b seen) {r : κ} (erased : r ∈ erased log) : r ∈ seen := by
  obtain ⟨i, given⟩ := kept.given r erased
  exact kept.known r i given

theorem listed_known (kept : Kept a log b seen) {r : κ} (listed : r ∈ b.blocks.flatten) : r ∈ seen := by
  obtain ⟨i, holds⟩ := (kept.listed r).mp listed
  exact kept.known r i holds.1

theorem idle (kept : Kept a log b seen) (handed : entry.handed = none) (erased : entry.erased = none)
    (fine : entry.failedAppend = false) (arena : b'.arena = b.arena) (same : b'.blocks.flatten = b.blocks.flatten) :
    Kept a (log ++ [entry]) b' seen := by
  have holds : ∀ r i, Holds (log ++ [entry]) r i ↔ Holds log r i := by
    intro r i
    simp [Holds, mem_handed_append, mem_erased_append, handed, erased]
  refine ⟨arena ▸ kept.reached, fun r i => ?_, fun r => ?_, same ▸ kept.once, fun r => ?_, fun r i => ?_, fun r => ?_, ?_⟩
  · simpa [mem_handed_append, handed] using kept.known r i
  · simpa [mem_handed_append, mem_erased_append, handed, erased] using kept.given r
  · simp only [same, kept.listed r, holds]
  · rw [holds, inst?, arena]
    exact kept.resolves r i
  · rw [mem_erased_append, erased, inst?, arena]
    intro gone
    exact kept.gone r (by simpa using gone)
  · rw [size, arena, same, List.countP_append, List.countP_singleton, fine]
    exact kept.counted

end Kept

theorem modify_split (pre post : List α) (x : α) (g : α → α) :
    (pre ++ x :: post).modify pre.length g = pre ++ g x :: post := by
  simp [List.modify_eq_take_drop]

theorem insertIdx_split (front back : List α) (x : α) : (front ++ back).insertIdx front.length x = front ++ x :: back := by
  induction front with
  | nil => rfl
  | cons y front ih => exact congrArg (y :: ·) ih

theorem eraseIdx_split (front back : List α) (x : α) : (front ++ x :: back).eraseIdx front.length = front ++ back := by
  induction front with
  | nil => rfl
  | cons y front ih => exact congrArg (y :: ·) ih

theorem getElem?_split {xs : List α} {n : Nat} {x : α} (here : xs[n]? = some x) :
    ∃ pre post, xs = pre ++ x :: post ∧ pre.length = n := by
  obtain ⟨inside, rfl⟩ := List.getElem?_eq_some_iff.mp here
  refine ⟨xs.take n, xs.drop (n + 1), ?_, List.length_take_of_le (Nat.le_of_lt inside)⟩
  rw [← List.drop_eq_getElem_cons inside, List.take_append_drop]

theorem index_of_split {pre post : List α} {x y : α} {n : Nat} (here : (pre ++ x :: post)[n]? = some y) (before : y ∉ pre)
    (after : y ∉ post) : n = pre.length := by
  rcases Nat.lt_trichotomy n pre.length with low | same | high
  · rw [List.getElem?_append_left low] at here
    exact absurd (List.mem_of_getElem? here) before
  · exact same
  · obtain ⟨k, rfl⟩ := Nat.exists_eq_add_of_lt high
    rw [List.getElem?_append_right (by omega), show pre.length + k + 1 - pre.length = k + 1 by omega] at here
    exact absurd (List.mem_of_getElem? (List.getElem?_cons_succ.symm.trans here)) after

theorem flatten_split_perm (pre post : List (List α)) (front back : List α) (x : α) :
    (pre ++ (front ++ x :: back) :: post).flatten.Perm (x :: (pre ++ (front ++ back) :: post).flatten) := by
  simp only [List.flatten_append, List.flatten_cons, List.append_assoc, List.cons_append]
  have inner : (front ++ x :: (back ++ post.flatten)).Perm (x :: (front ++ (back ++ post.flatten))) := List.perm_middle
  exact (inner.append_left _).trans List.perm_middle

theorem listed_here {pre post : List (List κ)} {front back : List κ} {r : κ}
    (here : b.blocks = pre ++ (front ++ r :: back) :: post) :
    r ∈ b.blocks.flatten := by
  simp [here]

variable [DecidableEq κ] {r : κ}

theorem locate_eq_none : b.locate a r = none ↔ (b.contains a r = true → r ∉ b.blocks.flatten) := by
  unfold locate contains
  split
  · rename_i present
    simp only [present, forall_const, List.findSome?_eq_none_iff, Option.map_eq_none_iff, List.mem_flatten, not_exists,
      not_and, List.idxOf?_eq_none_iff, Prod.forall, List.mk_mem_zipIdx_iff_getElem?]
    constructor
    · intro none block member
      obtain ⟨n, found⟩ := List.mem_iff_getElem?.mp member
      exact none block n found
    · intro none block n found
      exact none block (List.mem_of_getElem? found)
  · rename_i absent
    exact ⟨fun _ present => absurd present absent, fun _ => rfl⟩

theorem locate_eq_some {n p : Nat} (found : b.locate a r = some (n, p)) :
    b.contains a r = true ∧ ∃ pre front back post, b.blocks = pre ++ (front ++ r :: back) :: post ∧ pre.length = n ∧
      front.length = p := by
  unfold locate at found
  split at found
  · rename_i present
    obtain ⟨before, ⟨block, index⟩, after, split, here, -⟩ := List.findSome?_eq_some_iff.mp found
    obtain ⟨position, first, same⟩ := Option.map_eq_some_iff.mp here
    cases same
    have member : (block, n) ∈ b.blocks.zipIdx := by simp [split]
    obtain ⟨pre, post, blocks, length⟩ := getElem?_split (List.mk_mem_zipIdx_iff_getElem?.mp member)
    obtain ⟨inside, same, -⟩ := List.idxOf?_eq_some_iff.mp first
    obtain ⟨front, back, rfl, place⟩ := getElem?_split (List.getElem?_eq_some_iff.mpr ⟨inside, same⟩)
    exact ⟨present, pre, front, back, post, blocks, length, place⟩
  · cases found

-- Everything that a request can do to a body, with the handles that the arena
-- gives out for it.
inductive Moves (a : Arena σ κ) (b : Body σ κ) : Request κ → Response κ → List κ → Body σ κ → Prop where
  | addBlock : Moves a b .addBlock (.block b.addBlock.1) [] ⟨b.blocks ++ [[]], b.arena⟩
  | append {pre block post label} (i : Inst) (here : b.blocks = pre ++ block :: post) (index : pre.length = label.index) :
      Moves a b (.append label i) (.handle (a.insert i b.arena).1) [(a.insert i b.arena).1]
        ⟨pre ++ (block ++ [(a.insert i b.arena).1]) :: post, (a.insert i b.arena).2⟩
  | stray {label} (i : Inst) (outside : b.blocks.length ≤ label.index) :
      Moves a b (.append label i) (.fault .unknownIndex) [(a.insert i b.arena).1] ⟨b.blocks, (a.insert i b.arena).2⟩
  | insertBefore {pre front before back post} (i : Inst) (here : b.blocks = pre ++ (front ++ before :: back) :: post)
      (present : b.contains a before = true) :
      Moves a b (.insertBefore before i) (.handle (a.insert i b.arena).1) [(a.insert i b.arena).1]
        ⟨pre ++ (front ++ (a.insert i b.arena).1 :: before :: back) :: post, (a.insert i b.arena).2⟩
  | misplaced {before} (i : Inst) (absent : b.contains a before = true → before ∉ b.blocks.flatten) :
      Moves a b (.insertBefore before i) .nothing [] b
  | erase {pre front back post} {r : κ} (here : b.blocks = pre ++ (front ++ r :: back) :: post)
      (present : b.contains a r = true) :
      Moves a b (.erase r) (.ofInst (a.remove r b.arena).1) [] ⟨pre ++ (front ++ back) :: post, (a.remove r b.arena).2⟩
  | gone {r : κ} (absent : b.contains a r = true → r ∉ b.blocks.flatten) : Moves a b (.erase r) .nothing [] b

theorem step_moves (request : Request κ) :
    ∃ given, Moves a b request (b.step a request).1 given (b.step a request).2 := by
  cases request with
  | addBlock => exact ⟨_, .addBlock⟩
  | append label i =>
    simp only [step, append]
    split
    · rename_i inside
      obtain ⟨pre, post, here, index⟩ := getElem?_split (List.getElem?_eq_getElem inside)
      have moved := Moves.append (a := a) i here index
      rw [← modify_split pre post _ (· ++ [(a.insert i b.arena).1]), ← here, index] at moved
      exact ⟨_, moved⟩
    · rename_i outside
      exact ⟨_, .stray i (Nat.not_lt.mp outside)⟩
  | insertBefore before i =>
    simp only [step, Body.insertBefore]
    cases found : b.locate a before with
    | none => exact ⟨_, .misplaced i (locate_eq_none.mp found)⟩
    | some place =>
      obtain ⟨present, pre, front, back, post, here, index, position⟩ := locate_eq_some found
      have moved := Moves.insertBefore (a := a) i here present
      rw [← insertIdx_split front (before :: back), ← modify_split pre post _ (·.insertIdx _ _), ← here, index,
        position] at moved
      exact ⟨_, moved⟩
  | erase r =>
    simp only [step, Body.erase]
    cases found : b.locate a r with
    | none => exact ⟨_, .gone (locate_eq_none.mp found)⟩
    | some place =>
      obtain ⟨present, pre, front, back, post, here, index, position⟩ := locate_eq_some found
      have moved := Moves.erase (a := a) here present
      rw [← eraseIdx_split front back r, ← modify_split pre post _ (·.eraseIdx _), ← here, index, position] at moved
      exact ⟨_, moved⟩

namespace Kept

theorem start (lawful : a.Lawful) : Kept a [] (new a) [] where
  reached := .empty
  known _ _ := nofun
  given _ := nofun
  once := .nil
  listed _ := ⟨nofun, fun ⟨_, given, _⟩ => nomatch given⟩
  resolves _ _ holds := nomatch holds.1
  gone _ := nofun
  counted := lawful.len_empty

theorem present (kept : Kept a log b seen) (lawful : a.Lawful) {r : κ} {i : Inst} (holds : Holds log r i) :
    b.contains a r = true := by
  rw [contains, lawful.contains_eq r kept.reached]
  exact Option.isSome_of_eq_some (kept.resolves r i holds)

theorem inst?_insert (kept : Kept a log b seen) (lawful : a.Lawful) {i : Inst} (arena : b'.arena = (a.insert i b.arena).2)
    {r : κ} (old : r ∈ seen) : b'.inst? a r = b.inst? a r := by
  rw [inst?, arena, lawful.get?_insert i r kept.reached, if_neg]
  · rfl
  · rintro rfl
    exact lawful.fresh i kept.reached old

theorem inst?_inserted (kept : Kept a log b seen) (lawful : a.Lawful) {i : Inst}
    (arena : b'.arena = (a.insert i b.arena).2) : b'.inst? a (a.insert i b.arena).1 = some i := by
  rw [inst?, arena, lawful.get?_insert i _ kept.reached, if_pos rfl]

theorem inst?_remove (kept : Kept a log b seen) (lawful : a.Lawful) {r : κ} (arena : b'.arena = (a.remove r b.arena).2)
    (q : κ) : b'.inst? a q = if q = r then none else b.inst? a q := by
  rw [inst?, arena]
  exact lawful.get?_remove r q kept.reached

theorem gains (kept : Kept a log b seen) (lawful : a.Lawful) {i : Inst} (arena : b'.arena = (a.insert i b.arena).2)
    (more : b'.blocks.flatten.Perm ((a.insert i b.arena).1 :: b.blocks.flatten))
    (handed : entry.handed = some ((a.insert i b.arena).1, i)) (erased : entry.erased = none)
    (fine : entry.failedAppend = false) : Kept a (log ++ [entry]) b' (seen ++ [(a.insert i b.arena).1]) := by
  have fresh := lawful.fresh i kept.reached
  have look : ∀ q ∈ seen, b'.inst? a q = b.inst? a q := fun q old => kept.inst?_insert lawful arena old
  have holds : ∀ q j, Holds (log ++ [entry]) q j ↔ Holds log q j ∨ q = (a.insert i b.arena).1 ∧ j = i := by
    intro q j
    have unerased : q = (a.insert i b.arena).1 → q ∉ Body.erased log := by
      rintro rfl old
      exact fresh (kept.erased_known old)
    simp only [Holds, mem_handed_append, mem_erased_append, handed, erased, Option.some.injEq, Prod.mk.injEq]
    tauto
  refine ⟨arena ▸ kept.reached.insert i, ?_, ?_, ?_, ?_, ?_, ?_, ?_⟩
  · intro q j given
    rcases mem_handed_append.mp given with old | new
    · exact List.mem_append_left _ (kept.known q j old)
    · cases handed.symm.trans new
      exact List.mem_append_right _ (List.mem_singleton_self _)
  · intro q gone
    obtain ⟨j, given⟩ := kept.given q (by simpa [mem_erased_append, erased] using gone)
    exact ⟨j, mem_handed_append.mpr (.inl given)⟩
  · apply more.nodup_iff.mpr
    exact List.nodup_cons.mpr ⟨fun old => fresh (kept.listed_known old), kept.once⟩
  · intro q
    rw [more.mem_iff, List.mem_cons, kept.listed q]
    simp only [holds, exists_or, exists_and_left, exists_eq, and_true]
    exact or_comm
  · intro q j given
    rcases (holds q j).mp given with old | ⟨rfl, rfl⟩
    · rw [look q (kept.known q j old.1), kept.resolves q j old]
    · exact kept.inst?_inserted lawful arena
  · intro q gone
    have old : q ∈ Body.erased log := by simpa [mem_erased_append, erased] using gone
    rw [look q (kept.erased_known old), kept.gone q old]
  · have counted := kept.counted
    rw [size] at counted
    rw [size, arena, lawful.len_insert i kept.reached, more.length_eq, List.countP_append, List.countP_singleton, fine,
      List.length_cons, counted]
    simp only [Bool.false_eq_true, if_false]
    omega

theorem strays (kept : Kept a log b seen) (lawful : a.Lawful) {i : Inst} (arena : b'.arena = (a.insert i b.arena).2)
    (same : b'.blocks = b.blocks) (handed : entry.handed = none) (erased : entry.erased = none)
    (failed : entry.failedAppend = true) : Kept a (log ++ [entry]) b' (seen ++ [(a.insert i b.arena).1]) := by
  have look : ∀ q ∈ seen, b'.inst? a q = b.inst? a q := fun q old => kept.inst?_insert lawful arena old
  have holds : ∀ q j, Holds (log ++ [entry]) q j ↔ Holds log q j := by
    intro q j
    simp [Holds, mem_handed_append, mem_erased_append, handed, erased]
  refine ⟨arena ▸ kept.reached.insert i, fun q j given => ?_, fun q => ?_, same ▸ kept.once, fun q => ?_, ?_, ?_, ?_⟩
  · have old : (q, j) ∈ Body.handed log := by simpa [mem_handed_append, handed] using given
    exact List.mem_append_left _ (kept.known q j old)
  · simpa [mem_handed_append, mem_erased_append, handed, erased] using kept.given q
  · simp only [same, kept.listed q, holds]
  · intro q j given
    have old := (holds q j).mp given
    rw [look q (kept.known q j old.1), kept.resolves q j old]
  · intro q gone
    have old : q ∈ Body.erased log := by simpa [mem_erased_append, erased] using gone
    rw [look q (kept.erased_known old), kept.gone q old]
  · have counted := kept.counted
    rw [size] at counted
    rw [size, arena, lawful.len_insert i kept.reached, same, List.countP_append, List.countP_singleton, failed, counted]
    simp only [if_true]
    omega

theorem loses (kept : Kept a log b seen) (lawful : a.Lawful) {r : κ} (arena : b'.arena = (a.remove r b.arena).2)
    (less : b.blocks.flatten.Perm (r :: b'.blocks.flatten)) (handed : entry.handed = none)
    (erased : entry.erased = some r) (fine : entry.failedAppend = false) : Kept a (log ++ [entry]) b' seen := by
  have distinct := List.nodup_cons.mp (less.nodup_iff.mp kept.once)
  obtain ⟨i, held⟩ := (kept.listed r).mp (less.mem_iff.mpr (List.mem_cons_self ..))
  have look := kept.inst?_remove lawful arena
  have holds : ∀ q j, Holds (log ++ [entry]) q j ↔ Holds log q j ∧ q ≠ r := by
    intro q j
    simp only [Holds, mem_handed_append, mem_erased_append, handed, erased, Option.some.injEq, reduceCtorEq, or_false,
      not_or, ne_eq, @eq_comm _ r q, and_assoc]
  refine ⟨arena ▸ kept.reached.remove r, fun q j given => ?_, ?_, distinct.2, ?_, ?_, ?_, ?_⟩
  · exact kept.known q j (by simpa [mem_handed_append, handed] using given)
  · intro q gone
    rcases mem_erased_append.mp gone with old | new
    · obtain ⟨j, given⟩ := kept.given q old
      exact ⟨j, mem_handed_append.mpr (.inl given)⟩
    · cases erased.symm.trans new
      exact ⟨i, mem_handed_append.mpr (.inl held.1)⟩
  · intro q
    simp only [holds, exists_and_right, ← kept.listed q, less.mem_iff, List.mem_cons]
    constructor
    · intro listed
      exact ⟨.inr listed, fun same => distinct.1 (same ▸ listed)⟩
    · intro given
      obtain ⟨listed, other⟩ := given
      exact listed.resolve_left other
  · intro q j given
    obtain ⟨old, other⟩ := (holds q j).mp given
    rw [look, if_neg other, kept.resolves q j old]
  · intro q gone
    rw [look]
    split
    · rfl
    · rename_i other
      rcases mem_erased_append.mp gone with old | new
      · exact kept.gone q old
      · cases erased.symm.trans new
        exact absurd rfl other
  · have counted := kept.counted
    rw [size, less.length_eq, List.length_cons, ← lawful.len_remove r kept.reached
      (Option.isSome_of_eq_some (kept.resolves r i held))] at counted
    rw [size, arena, List.countP_append, List.countP_singleton, fine]
    simp only [Bool.false_eq_true, if_false]
    omega

theorem absent_of_unlisted (kept : Kept a log b seen) (lawful : a.Lawful) {r : κ}
    (absent : b.contains a r = true → r ∉ b.blocks.flatten) : r ∉ b.blocks.flatten := by
  intro listed
  obtain ⟨i, holds⟩ := (kept.listed r).mp listed
  exact absent (kept.present lawful holds) listed

theorem response_erase (kept : Kept a log b seen) (lawful : a.Lawful) {r : κ} (listed : r ∈ b.blocks.flatten) :
    ∃ i, Holds log r i ∧ Response.ofInst (κ := κ) (a.remove r b.arena).1 = .inst i := by
  obtain ⟨i, holds⟩ := (kept.listed r).mp listed
  have found : a.get? b.arena r = some i := kept.resolves r i holds
  exact ⟨i, holds, by rw [lawful.removed r kept.reached, found]; rfl⟩

theorem moves (kept : Kept a log b seen) (lawful : a.Lawful) {request : Request κ} {response : Response κ}
    {given : List κ} (moved : Moves a b request response given b') :
    Kept a (log ++ [(request, response)]) b' (seen ++ given) := by
  cases moved with
  | addBlock =>
    rw [List.append_nil]
    exact kept.idle rfl rfl rfl rfl (by simp)
  | @append pre block post label i here index =>
    apply kept.gains lawful rfl _ rfl rfl rfl
    rw [here]
    simpa using flatten_split_perm pre post block [] (a.insert i b.arena).1
  | stray i outside => exact kept.strays lawful rfl rfl rfl rfl rfl
  | @insertBefore pre front before back post i here present =>
    apply kept.gains lawful rfl _ rfl rfl rfl
    rw [here]
    exact flatten_split_perm pre post front (before :: back) (a.insert i b.arena).1
  | misplaced i absent =>
    rw [List.append_nil]
    exact kept.idle rfl rfl rfl rfl rfl
  | @erase pre front back post r here present =>
    obtain ⟨i, -, answer⟩ := kept.response_erase lawful (listed_here here)
    rw [List.append_nil, answer]
    apply kept.loses lawful rfl _ rfl rfl rfl
    rw [here]
    exact flatten_split_perm pre post front back r
  | gone absent =>
    rw [List.append_nil]
    exact kept.idle rfl rfl rfl rfl rfl

theorem place (kept : Kept a log b seen) (lawful : a.Lawful) {r : κ} {i : Inst} (holds : Holds log r i) :
    ∃ place : Nat × Nat, b.locate a r = some place ∧
      ∀ other : Nat × Nat, b.blocks[other.1]?.bind (·[other.2]?) = some r ↔ other = place := by
  have listed := (kept.listed r).mpr ⟨i, holds⟩
  obtain ⟨⟨n, p⟩, found⟩ : ∃ place, b.locate a r = some place := by
    cases found : b.locate a r with
    | none => exact absurd listed (locate_eq_none.mp found (kept.present lawful holds))
    | some place => exact ⟨place, rfl⟩
  obtain ⟨-, pre, front, back, post, here, rfl, rfl⟩ := locate_eq_some found
  refine ⟨_, found, fun other => ?_⟩
  have once := kept.once
  rw [here, (flatten_split_perm pre post front back r).nodup_iff, List.nodup_cons] at once
  constructor
  · intro there
    obtain ⟨block, atBlock, atPlace⟩ := Option.bind_eq_some_iff.mp there
    have elsewhere : ∀ other ∈ pre ++ (front ++ back) :: post, r ∉ other := fun other member inside =>
      once.1 (List.mem_flatten.mpr ⟨other, member, inside⟩)
    have inside := List.mem_of_getElem? atPlace
    rw [here] at atBlock
    have first := index_of_split atBlock (fun member => elsewhere block (List.mem_append_left _ member) inside)
      (fun member => elsewhere block (List.mem_append_right _ (List.mem_cons_of_mem _ member)) inside)
    rw [first, List.getElem?_append_right (Nat.le_refl _), Nat.sub_self, List.getElem?_cons_zero] at atBlock
    cases atBlock
    have own := elsewhere (front ++ back) (List.mem_append_right _ (List.mem_cons_self ..))
    rw [List.mem_append, not_or] at own
    exact Prod.ext first (index_of_split atPlace own.1 own.2)
  · rintro rfl
    simp [here]

end Kept

end Body

end DeadLanes
