import DeadLanes.Proofs.LaneRules
import DeadLanes.Lane.Liveness

namespace DeadLanes

def Inst.mentions (i : Inst) : List Value := i.result?.toList ++ i.values

def Scope.Typed (s : Scope) : Prop := ∀ i ∈ s.func.insts, ∀ v ∈ i.mentions, s.known v = true

instance (s : Scope) : Decidable s.Typed :=
  inferInstanceAs (Decidable (∀ i ∈ s.func.insts, ∀ v ∈ i.mentions, s.known v = true))

def TypeTable.Wide (types : TypeTable) : Prop := ∀ ty ∈ types.entries, ∀ info ∈ ty.vector?, 1 ≤ info.2

instance (types : TypeTable) : Decidable types.Wide :=
  inferInstanceAs (Decidable (∀ ty ∈ types.entries, ∀ info ∈ ty.vector?, 1 ≤ info.2))

namespace LaneRule

theorem asked_mentions {view : LaneView} {i : Inst} {v : Value} (member : v ∈ asked view i) : v ∈ i.mentions := by
  unfold asked at member
  rcases List.mem_append.mp member with result | operand
  · exact List.mem_append_left _ result
  · refine List.mem_append_right _ ?_
    split at operand
    · obtain ⟨⟨src, lane⟩, parsed, rfl⟩ := Option.map_eq_some_iff.mp (Option.mem_toList.mp operand)
      simp [Inst.asExtract?_values parsed]
    · exact operand
    · obtain ⟨⟨a, b, sels⟩, parsed, rfl⟩ := Option.map_eq_some_iff.mp (Option.mem_toList.mp operand)
      simp [Inst.asShuffle?_values parsed]
    · cases operand

end LaneRule

namespace Analysis

variable {a : Analysis}

def demanded (a : Analysis) (live : Value → LaneSet) (i : Inst) : LaneSet :=
  if a.isRoot i then .all
  else match i.result? with
    | some v => live v
    | none => .empty

def Met (a : Analysis) (live : Value → LaneSet) (i : Inst) : Prop :=
  ∀ d ∈ (a.ruleOf i).demands (a.demanded live i), d.2.normalized (a.view.tracked d.1) ≤ live d.1

structure Closed (a : Analysis) (live : Value → LaneSet) : Prop where
  roots : ∀ i ∈ a.func.insts, a.isRoot i = true → ∀ v, i.result? = some v →
    (a.view.tracked v).isSome = true → live v = .all
  met : ∀ i ∈ a.func.insts, a.Met live i

def Canonical (a : Analysis) (live : Value → LaneSet) : Prop :=
  ∀ v, LaneSet.Canonical (a.view.tracked v) (live v)

-- The sets while they grow. A vector without lanes has no proper part, so the
-- empty set it starts from is a case of its own.
def Held (a : Analysis) (live : Value → LaneSet) : Prop :=
  ∀ v, live v = .empty ∨ LaneSet.Canonical (a.view.tracked v) (live v)

theorem Held.fits {live : Value → LaneSet} (held : a.Held live) (v : Value) :
    LaneSet.Fits (a.view.tracked v) (live v) := by
  rcases held v with none | canonical
  · rw [none]
    exact LaneSet.fits_empty _
  · exact canonical.fits

theorem tracked_small {v : Value} (n : Nat) (counted : a.view.tracked v = some n) : n ≤ trackedLanes :=
  LaneView.tracked_le counted

-- One demand or several taken: the sets grow just enough to meet them, and the
-- definition of every value whose set grew is reported.
structure Absorbed (a : Analysis) (demands : List (Value × LaneSet)) (s next : State) (reports : List InstRef) :
    Prop where
  fault : next.fault = s.fault
  held : a.Held next.sets.get
  grows : ∀ v, s.sets.get v ≤ next.sets.get v
  met : ∀ d ∈ demands, d.2.normalized (a.view.tracked d.1) ≤ next.sets.get d.1
  reported : ∀ v r, next.sets.get v ≠ s.sets.get v → a.index.def? v = some r → r ∈ reports
  inside : ∀ live, a.Held live → (∀ v, s.sets.get v ≤ live v) →
    (∀ d ∈ demands, d.2.normalized (a.view.tracked d.1) ≤ live d.1) → ∀ v, next.sets.get v ≤ live v

theorem absorb_spec (op : Opcode) (v : Value) (lanes : LaneSet) {s : State} (held : a.Held s.sets.get) :
    a.Absorbed [(v, lanes)] s (a.absorb op v lanes s).1 (a.absorb op v lanes s).2.toList := by
  unfold absorb
  dsimp only
  split
  · rename_i enough
    refine ⟨rfl, held, fun _ => le_refl _, ?_, fun w r grew => absurd rfl grew, fun live _ inside _ => inside⟩
    intro d asked
    rw [List.mem_singleton] at asked
    subst asked
    rcases enough with nothing | same
    · rw [LaneSet.isEmpty_iff.mp nothing]
      exact LaneSet.empty_le _
    · exact LaneSet.union_eq_left.mp same
  · rename_i grew
    have small := a.tracked_small (v := v)
    have fits := (held.fits v).union (LaneSet.canonical_normalized lanes small).fits
    have widens := LaneSet.le_normalized small fits
    refine ⟨rfl, ?_, ?_, ?_, ?_, ?_⟩
    · intro w
      rw [LaneMap.get_set]
      split
      · rename_i same
        subst same
        exact .inr (LaneSet.canonical_normalized _ small)
      · exact held w
    · intro w
      rw [LaneMap.get_set]
      split
      · rename_i same
        subst same
        exact le_trans (LaneSet.left_within_union _ _) widens
      · exact le_refl _
    · intro d asked
      rw [List.mem_singleton] at asked
      subst asked
      rw [LaneMap.get_set_self]
      exact le_trans (LaneSet.right_within_union _ _) widens
    · intro w r grew defined
      by_cases same : w = v
      · subst same
        rw [defined]
        exact List.mem_singleton_self r
      · exact absurd (LaneMap.get_set_other _ _ same) grew
    · intro live other inside asked w
      rw [LaneMap.get_set]
      split
      · rename_i same
        subst same
        have demand := asked _ List.mem_cons_self
        have below := LaneSet.union_within (inside w) demand
        rcases other w with none | canonical
        · rw [none, LaneSet.le_empty] at demand
          exact absurd (.inl (LaneSet.isEmpty_iff.mpr demand)) grew
        · rw [← LaneSet.normalized_canonical small canonical]
          exact LaneSet.normalized_mono below small
      · exact inside w

theorem Absorbed.append {first second : List (Value × LaneSet)} {s middle next : State} {one two : List InstRef}
    (left : a.Absorbed first s middle one) (right : a.Absorbed second middle next two) :
    a.Absorbed (first ++ second) s next (one ++ two) := by
  refine ⟨right.fault.trans left.fault, right.held, fun v => le_trans (left.grows v) (right.grows v), ?_, ?_, ?_⟩
  · intro d asked
    rcases List.mem_append.mp asked with early | late
    · exact le_trans (left.met d early) (right.grows d.1)
    · exact right.met d late
  · intro v r grew defined
    by_cases later : next.sets.get v = middle.sets.get v
    · exact List.mem_append_left two (left.reported v r (later ▸ grew) defined)
    · exact List.mem_append_right one (right.reported v r later defined)
  · intro live other inside asked
    refine right.inside live other (left.inside live other inside fun d early => ?_) fun d late => ?_
    · exact asked d (List.mem_append_left second early)
    · exact asked d (List.mem_append_right first late)

theorem absorbAll_spec (op : Opcode) (demands : List (Value × LaneSet)) {s : State} (held : a.Held s.sets.get) :
    a.Absorbed demands s (a.absorbAll op demands s).1 (a.absorbAll op demands s).2 := by
  induction demands generalizing s with
  | nil => exact ⟨rfl, held, fun _ => le_refl _, nofun, fun v r grew => absurd rfl grew, fun live _ inside _ => inside⟩
  | cons demand rest ih =>
    have first := a.absorb_spec op demand.1 demand.2 held
    exact first.append (ih first.held)

theorem demanded_mono {live more : Value → LaneSet} (grows : ∀ v, live v ≤ more v) (i : Inst) :
    a.demanded live i ≤ a.demanded more i := by
  unfold demanded
  split
  · exact le_refl _
  · split
    · exact grows _
    · exact le_refl _

theorem demanded_congr {live more : Value → LaneSet} {i : Inst} (same : ∀ v, i.result? = some v → live v = more v) :
    a.demanded live i = a.demanded more i := by
  unfold demanded
  split
  · rfl
  · split
    · rename_i result
      exact same _ result
    · rfl

theorem demanded_exact {live : Value → LaneSet} {i : Inst} {v : Value} (exact' : (a.ruleOf i).isExact = true)
    (result : i.result? = some v) : a.demanded live i = live v := by
  simp [demanded, isRoot, Inst.isRoot, exact', result]

theorem demanded_fits {live : Value → LaneSet} (held : a.Held live) {i : Inst} {obj base : Value} {lane lanes : Nat}
    (rule : a.ruleOf i = .insert obj base lane lanes) : LaneSet.Fits (some lanes) (a.demanded live i) := by
  have chosen := LaneRule.of_chosen a.view i
  rw [show LaneRule.of a.view i = _ from rule] at chosen
  cases chosen with
  | insert parsed tracked =>
    obtain ⟨v, result, counted⟩ := Option.bind_eq_some_iff.mp tracked
    rw [demanded_exact (by rw [rule]; rfl) result]
    exact counted ▸ held.fits v

theorem Met.mono {live more : Value → LaneSet} {i : Inst} (met : a.Met more i) (held : a.Held live)
    (below : ∀ v, live v ≤ more v) :
    ∀ d ∈ (a.ruleOf i).demands (a.demanded live i), d.2.normalized (a.view.tracked d.1) ≤ more d.1 := by
  intro d asked
  have grown := demanded_mono (a := a) below i
  obtain ⟨e, again, same, less⟩ := LaneRule.demands_mono grown (fun _ _ _ _ rule => demanded_fits held rule) asked
  have wider := LaneSet.normalized_mono less (tracked_small (a := a) (v := d.1))
  rw [← same] at wider ⊢
  exact le_trans wider (met e again)

structure Progress (a : Analysis) (waiting : InstRef → Prop) (s : State) : Prop where
  fault : s.fault = none
  held : a.Held s.sets.get
  roots : ∀ i ∈ a.func.insts, a.isRoot i = true → ∀ v, i.result? = some v →
    (a.view.tracked v).isSome = true → s.sets.get v = .all
  met : ∀ p ∈ a.func.placed, waiting p.ref ∨ a.Met s.sets.get p.inst
  below : ∀ live, a.Held live → a.Closed live → ∀ v, s.sets.get v ≤ live v

-- Sets that meet every demand and are no larger than others that do. There is
-- one such assignment.
structure Solves (a : Analysis) (live : Value → LaneSet) : Prop where
  held : a.Held live
  closed : a.Closed live
  below : ∀ other, a.Held other → a.Closed other → ∀ v, live v ≤ other v

theorem Solves.unique {live other : Value → LaneSet} (one : a.Solves live) (two : a.Solves other) : live = other :=
  funext fun v => le_antisymm (one.below other two.held two.closed v) (two.below live one.held one.closed v)

structure Sound (a : Analysis) : Prop where
  distinct : a.func.results.Nodup
  index : a.index = .build a.func
  answers : a.func.insts.all (LaneRule.answerable a.view) = true
  calm : ∀ i ∈ a.func.insts, ∀ live, a.trouble i live = none

theorem visit_progress (sound : a.Sound) (waiting : InstRef → Prop) (r : InstRef) (s : State)
    (progress : a.Progress waiting s) :
    a.Progress (fun q => (waiting q ∧ q ≠ r) ∨ q ∈ (a.visit r s).2) (a.visit r s).1 := by
  unfold visit
  cases found : a.func.inst? r with
  | none =>
    refine ⟨progress.fault, progress.held, progress.roots, fun p member => ?_, progress.below⟩
    rcases progress.met p member with waits | met
    · refine .inl (.inl ⟨waits, fun same => ?_⟩)
      exact Func.inst?_eq_none.mp found (same ▸ Func.mem_refs.mpr ⟨p.inst, member⟩)
    · exact .inr met
  | some i =>
    have here := Func.inst?_eq_some.mp found
    have member : i ∈ a.func.insts := Func.mem_insts_iff_placed.mpr ⟨r, here⟩
    dsimp only
    rw [sound.calm i member, Option.or_none]
    have asked : a.asked s i = a.demanded s.sets.get i := rfl
    rw [asked]
    have taken := a.absorbAll_spec i.opcode ((a.ruleOf i).demands (a.demanded s.sets.get i)) progress.held
    generalize a.absorbAll i.opcode ((a.ruleOf i).demands (a.demanded s.sets.get i)) s = after at taken
    refine ⟨taken.fault.trans progress.fault, taken.held, ?_, ?_, ?_⟩
    · intro j inside root v result tracked
      exact LaneSet.all_le.mp (progress.roots j inside root v result tracked ▸ taken.grows v)
    · intro p placed
      by_cases same : ∀ v, p.inst.result? = some v → after.1.sets.get v = s.sets.get v
      · have demand := a.demanded_congr same
        by_cases visited : p.ref = r
        · have : p = ⟨r, i⟩ := Func.placed_unique placed here visited
          subst this
          refine .inr fun d asked => taken.met d ?_
          rwa [demand] at asked
        · rcases progress.met p placed with waits | met
          · exact .inl (.inl ⟨waits, visited⟩)
          · refine .inr fun d asked => le_trans (met d ?_) (taken.grows d.1)
            rwa [demand] at asked
      · simp only [Classical.not_forall] at same
        obtain ⟨v, result, grew⟩ := same
        refine .inl (.inr (taken.reported v p.ref grew ?_))
        rw [sound.index]
        exact (UseIndex.build_def? sound.distinct).mpr ⟨p.inst, placed, result⟩
    · intro live other closed
      have below := progress.below live other closed
      exact taken.inside live other below ((closed.met i member).mono progress.held below)

theorem get_foldl_set (vs : List Value) (m : LaneMap Value) (s : LaneSet) (v : Value) :
    (vs.foldl (fun m v => m.set v s) m).get v = if v ∈ vs then s else m.get v := by
  induction vs generalizing m with
  | nil => rfl
  | cons w rest ih =>
    rw [List.foldl_cons, ih, LaneMap.get_set]
    by_cases later : v ∈ rest
    · rw [if_pos later, if_pos (List.mem_cons_of_mem w later)]
    · rw [if_neg later]
      by_cases same : v = w
      · rw [if_pos same, if_pos (List.mem_cons.mpr (.inl same))]
      · rw [if_neg same, if_neg fun member => (List.mem_cons.mp member).elim same later]

theorem initial_get (a : Analysis) (v : Value) : a.initial.sets.get v = .all ∧
    (∃ i ∈ a.func.insts, a.isRoot i = true ∧ i.result? = some v ∧ (a.view.tracked v).isSome = true) ∨
    a.initial.sets.get v = .empty ∧
    ¬ ∃ i ∈ a.func.insts, a.isRoot i = true ∧ i.result? = some v ∧ (a.view.tracked v).isSome = true := by
  have seeded : v ∈ (a.roots.filterMap fun p => p.inst.result?.filter fun v => (a.view.tracked v).isSome) ↔
      ∃ i ∈ a.func.insts, a.isRoot i = true ∧ i.result? = some v ∧ (a.view.tracked v).isSome = true := by
    simp only [roots, List.mem_filterMap, List.mem_filter, Option.filter_eq_some_iff, Func.insts, List.mem_map]
    constructor
    · intro found
      obtain ⟨p, ⟨member, root⟩, result, tracked⟩ := found
      exact ⟨p.inst, ⟨p, member, rfl⟩, root, result, tracked⟩
    · intro found
      obtain ⟨i, ⟨p, member, same⟩, root, result, tracked⟩ := found
      subst same
      exact ⟨p, ⟨member, root⟩, result, tracked⟩
  rw [← seeded]
  unfold initial
  dsimp only
  rw [get_foldl_set]
  split
  · rename_i member
    exact .inl ⟨rfl, member⟩
  · rename_i member
    exact .inr ⟨rfl, member⟩

theorem met_of_empty {live : Value → LaneSet} {i : Inst} (none : a.demanded live i = .empty) : a.Met live i := by
  intro d asked
  rw [none] at asked
  cases asked

theorem initial_progress (sound : a.Sound) {seeds : List InstRef} (order : seeds.Perm (a.roots.map (·.ref))) :
    a.Progress (· ∈ (Worklist.empty.pushAll seeds).waiting) a.initial := by
  refine ⟨rfl, ?_, ?_, ?_, ?_⟩
  · intro v
    rcases a.initial_get v with ⟨full, -⟩ | ⟨none, -⟩
    · exact .inr (full ▸ LaneSet.canonical_all _)
    · exact .inl none
  · intro i member root v result tracked
    rcases a.initial_get v with ⟨full, -⟩ | ⟨-, seedless⟩
    · exact full
    · exact absurd ⟨i, member, root, result, tracked⟩ seedless
  · intro p placed
    by_cases root : a.isRoot p.inst = true
    · refine .inl (Worklist.mem_pushAll.mpr (.inr (order.mem_iff.mpr ?_)))
      exact List.mem_map_of_mem (List.mem_filter.mpr ⟨placed, root⟩)
    · -- Only results of roots start out live, and no root shares its result.
      refine .inr (met_of_empty ?_)
      rw [demanded, if_neg root]
      split
      · rename_i v result
        rcases a.initial_get v with ⟨-, i, member, rooted, again, -⟩ | ⟨none, -⟩
        · obtain ⟨r, here⟩ := Func.mem_insts_iff_placed.mp member
          cases Func.defined_once sound.distinct placed here result again
          exact absurd rooted root
        · exact none
      · rfl
  · intro live _ closed v
    rcases a.initial_get v with ⟨full, i, member, root, result, tracked⟩ | ⟨none, -⟩
    · rw [closed.roots i member root v result tracked]
      exact LaneSet.le_all _
    · rw [none]
      exact LaneSet.empty_le _

theorem solve_progress (sound : a.Sound) {seeds : List InstRef} (order : seeds.Perm (a.roots.map (·.ref))) :
    a.Progress (fun _ => False) (a.solve seeds).2 :=
  Flow.drain_invariant (f := a.flow) (fun _ _ _ progress _ => visit_progress sound _ _ _ progress) _ _
    (initial_progress sound order)

theorem Progress.least {waiting : InstRef → Prop} {s : State} (progress : a.Progress waiting s) (live : Value → LaneSet)
    (canonical : a.Canonical live) (closed : a.Closed live) (v : Value) : s.sets.get v ≤ live v :=
  progress.below live (fun w => .inr (canonical w)) closed v

theorem Progress.closed {s : State} (progress : a.Progress (fun _ => False) s) : a.Closed s.sets.get := by
  refine ⟨progress.roots, fun i member => ?_⟩
  obtain ⟨r, here⟩ := Func.mem_insts_iff_placed.mp member
  exact (progress.met _ here).resolve_left id

theorem runFrom_ok (sound : a.Sound) {seeds : List InstRef} (order : seeds.Perm (a.roots.map (·.ref))) :
    ∃ found events, a.runFrom seeds = .ok (found, events) ∧ found.live = (a.solve seeds).2.sets.get := by
  unfold runFrom
  rw [if_pos sound.answers]
  dsimp only
  rw [(solve_progress sound order).fault]
  exact ⟨_, _, rfl, rfl⟩

end Analysis

namespace Func

def extend (f : Func) (block : List Inst) : Func :=
  block.foldl (fun g i => (append f.addBlock.1 i g).2) f.addBlock.2

def ofBlocks (name : String) (blocks : List (List Inst)) : Func := blocks.foldl extend (.new name)

end Func

namespace Scope

theorem WellFormed.fits_word {s : Scope} (well : s.WellFormed) {i : Inst} (member : i ∈ s.func.insts) (live : LaneSet) :
    (LaneRule.of s.view i).overflows live = false := by
  have chosen := LaneRule.of_chosen s.view i
  generalize LaneRule.of s.view i = rule at chosen
  cases chosen with
  | construct op tracked =>
    have composed := well.composed i member
    simp only [Composed, op] at composed
    obtain ⟨elem, lanes, -, -, -, total, small⟩ := composed
    have covered : (i.values.map fun v => (v, (s.view.width v).getD 1)).foldr (fun part rest => part.2 + rest) 0 =
        lanes := by
      rw [← total, List.sum_eq_foldr, List.foldr_map, List.foldr_map]
      rfl
    rw [LaneRule.overflows, covered, Bool.and_eq_false_iff, decide_eq_false_iff_not, Nat.not_le]
    rcases small with none | small
    · have empty : lanes = 0 := by
        rw [none] at total
        exact total.symm
      rw [empty]
      exact .inr (by decide)
    · exact .inr small
  | _ => rfl

theorem WellFormed.trouble {s : Scope} (well : s.WellFormed) (typed : s.Typed) {i : Inst}
    (member : i ∈ s.func.insts) (live : LaneSet) : (Analysis.ofScope s).trouble i live = none := by
  have fits := well.fits_word member live
  have known : ((LaneRule.of s.view i).demands live).all (fun d => s.view.known d.1) = true := by
    apply List.all_eq_true.mpr
    intro d asked
    exact typed i member d.1 (List.mem_append_right _ (LaneRule.demands_operand asked))
  simp only [Analysis.trouble, Analysis.ruleOf, Analysis.ofScope, fits, known, Bool.false_eq_true, if_false, if_true]

theorem WellFormed.sound {s : Scope} (well : s.WellFormed) (typed : s.Typed) : (Analysis.ofScope s).Sound := by
  refine ⟨well.distinct, rfl, ?_, fun i member live => well.trouble typed member live⟩
  refine List.all_eq_true.mpr fun i member => List.all_eq_true.mpr fun v asked => ?_
  exact typed i member v (LaneRule.asked_mentions asked)

theorem WellFormed.liveness_solves {s : Scope} (well : s.WellFormed) (typed : s.Typed) :
    ∃ found events, s.liveness = .ok (found, events) ∧ (Analysis.ofScope s).Solves found.live := by
  have sound := well.sound typed
  have progress := Analysis.solve_progress sound (.refl _)
  obtain ⟨found, events, ran, live⟩ := Analysis.runFrom_ok sound (.refl _)
  exact ⟨found, events, ran, live ▸ ⟨progress.held, progress.closed, progress.below⟩⟩

theorem WellFormed.liveness_ok {s : Scope} (well : s.WellFormed) (typed : s.Typed) :
    ∃ found events, s.liveness = .ok (found, events) ∧ (Analysis.ofScope s).Closed found.live ∧
      (Analysis.ofScope s).Held found.live := by
  obtain ⟨found, events, ran, solves⟩ := well.liveness_solves typed
  exact ⟨found, events, ran, solves.closed, solves.held⟩

theorem tracked_wide {s : Scope} (wide : s.types.Wide) {v : Value} (n : Nat) (counted : s.view.tracked v = some n) :
    1 ≤ n := by
  have width := (Option.filter_eq_some_iff.mp counted).1
  obtain ⟨elem, vector⟩ := width_eq_some.mp width
  obtain ⟨ty, -, vector⟩ := Option.bind_eq_some_iff.mp vector
  obtain ⟨entry, found, vector⟩ := Option.bind_eq_some_iff.mp vector
  exact wide entry (List.mem_of_getElem? found) (elem, n) vector

theorem liveness_isLeast {s : Scope} (accepted : s.check = .ok ()) (typed : s.Typed) (wide : s.types.Wide)
    {seeds : List InstRef} (order : seeds.Perm ((Analysis.ofScope s).roots.map (·.ref))) :
    ∃ found events, (Analysis.ofScope s).runFrom seeds = .ok (found, events) ∧
      IsLeast {live | (Analysis.ofScope s).Canonical live ∧ (Analysis.ofScope s).Closed live} found.live := by
  have sound := (check_ok.mp accepted).sound typed
  have progress := Analysis.solve_progress sound order
  obtain ⟨found, events, ran, live⟩ := Analysis.runFrom_ok sound order
  refine ⟨found, events, ran, ?_⟩
  rw [live]
  refine ⟨⟨fun v => ?_, progress.closed⟩, fun other ⟨canonical, closed⟩ => progress.least other canonical closed⟩
  rcases progress.held v with none | canonical
  · rw [none]
    exact LaneSet.canonical_empty fun n counted => tracked_wide wide n counted
  · exact canonical

-- A loop that writes a lane of a vector which nobody reads.
def looped : Scope :=
  { types := ⟨[.float 32, .vector ⟨0⟩ 2, .bool, .pointer ⟨0⟩ .output], by decide⟩
    globals := ⟨[(⟨1⟩, ⟨⟨1⟩, .undef⟩), (⟨2⟩, ⟨⟨0⟩, .constant 0⟩), (⟨3⟩, ⟨⟨2⟩, .constant 1⟩),
      (⟨4⟩, ⟨⟨3⟩, .variable .output⟩)]⟩
    func := .ofBlocks "looped" [
      [⟨.br, none, [.label ⟨1⟩]⟩],
      [⟨.phi, some (⟨10⟩, ⟨1⟩), [.value ⟨1⟩, .label ⟨0⟩, .value ⟨12⟩, .label ⟨1⟩]⟩,
        ⟨.extract, some (⟨11⟩, ⟨0⟩), [.value ⟨10⟩, .literal 0]⟩,
        ⟨.insert, some (⟨12⟩, ⟨1⟩), [.value ⟨2⟩, .value ⟨10⟩, .literal 1]⟩,
        ⟨.brc, none, [.value ⟨3⟩, .label ⟨1⟩, .label ⟨2⟩]⟩],
      [⟨.store, none, [.value ⟨4⟩, .value ⟨11⟩]⟩, ⟨.ret, none, []⟩]] }

theorem liveness_isLeast_looped : ∃ found events,
    (Analysis.ofScope looped).runFrom ((Analysis.ofScope looped).roots.map (·.ref)).reverse = .ok (found, events) ∧
      IsLeast {live | (Analysis.ofScope looped).Canonical live ∧ (Analysis.ofScope looped).Closed live} found.live :=
  liveness_isLeast (by decide +kernel) (by decide +kernel) (by decide +kernel) (List.reverse_perm _)

end Scope

end DeadLanes
