import DeadLanes.Proofs.Upkeep

namespace DeadLanes

namespace Func

-- Ways from the entry to a block; the block stands first, the entry last.
inductive Path (f : Func) : List Label → Prop where
  | entry : Path f [Func.entry]
  | step : Path f (b :: before) → f.blocks[b.index]? = some body → c ∈ exits body → Path f (c :: b :: before)

def Defines (f : Func) (b : Label) (v : Value) : Prop :=
  ∃ block, f.blocks[b.index]? = some block ∧ ∃ p ∈ block, p.inst.result? = some v

def Passed (f : Func) (way : List Label) (v : Value) : Prop := ∃ b ∈ way, f.Defines b v

def Ready (f : Func) (b : Label) (front : List Placed) (v : Value) : Prop :=
  (∃ q ∈ front, q.inst.result? = some v) ∨ ∀ before, f.Path (b :: before) → f.Passed before v

variable {f g : Func}

theorem Path.suffix (front : List Label) {way : List Label} {b : Label} (path : f.Path (front ++ b :: way)) : f.Path (b :: way) := by
  induction front with
  | nil => exact path
  | cons c rest ih =>
    refine ih ?_
    cases whole : rest ++ b :: way with
    | nil => simp at whole
    | cons d before =>
      rw [List.cons_append, whole] at path
      cases path with
      | step earlier _ _ => exact earlier

theorem Path.first {b : Label} {before : List Label} (path : f.Path (b :: before)) :
    ∃ way, f.Path (b :: way) ∧ b ∉ way := by
  by_cases again : b ∈ before
  · obtain ⟨front, rest, split⟩ := List.append_of_mem again
    have shorter : f.Path (b :: rest) := by
      refine Path.suffix (b :: front) ?_
      rw [List.cons_append, ← split]
      exact path
    have less : rest.length < before.length := by
      rw [split, List.length_append, List.length_cons]
      omega
    exact Path.first shorter
  · exact ⟨before, path, again⟩
termination_by before.length

theorem Path.congr {F : List Placed → List Placed} (blocks : g.blocks = f.blocks.map F)
    (same : ∀ block ∈ f.blocks, exits (F block) = exits block) {way : List Label} (path : g.Path way) : f.Path way := by
  induction path with
  | entry => exact .entry
  | step earlier found exit ih =>
    rw [blocks, List.getElem?_map] at found
    obtain ⟨block, there, rfl⟩ := Option.map_eq_some_iff.mp found
    exact .step ih there (same block (List.mem_of_getElem? there) ▸ exit)

theorem Passed.mono {way more : List Label} (sub : way ⊆ more) {v : Value} (passed : f.Passed way v) :
    f.Passed more v := by
  obtain ⟨b, member, defines⟩ := passed
  exact ⟨b, sub member, defines⟩

theorem Defines.placed {b : Label} {v : Value} (defines : f.Defines b v) : ∃ p ∈ f.placed, p.inst.result? = some v := by
  obtain ⟨block, found, p, member, result⟩ := defines
  exact ⟨p, mem_placed_of_block found member, result⟩

theorem block_unique {j k : Nat} {one two : List Placed} (left : f.blocks[j]? = some one) (right : f.blocks[k]? = some two)
    {p : Placed} (here : p ∈ one) (there : p ∈ two) : j = k := by
  have apart := f.distinct
  rw [List.map_flatten, List.nodup_flatten] at apart
  apply Classical.byContradiction
  intro differs
  have disjoint : ∀ a b : Nat, a < b → ∀ x y, f.blocks[a]? = some x → f.blocks[b]? = some y → p ∈ x → p ∈ y → False := by
    intro a b less x y first second inX inY
    obtain ⟨lowA, rfl⟩ := List.getElem?_eq_some_iff.mp first
    obtain ⟨lowB, rfl⟩ := List.getElem?_eq_some_iff.mp second
    have pair := List.pairwise_iff_getElem.mp apart.2 a b (by simpa using lowA) (by simpa using lowB) less
    rw [List.getElem_map, List.getElem_map] at pair
    exact pair (List.mem_map_of_mem inX) (List.mem_map_of_mem inY)
  rcases Nat.lt_or_gt_of_ne differs with less | less
  · exact disjoint j k less one two left right here there
  · exact disjoint k j less two one right left there here

theorem Defines.unique (distinct : f.results.Nodup) {b c : Label} {v : Value} (left : f.Defines b v) (right : f.Defines c v) :
    b = c := by
  obtain ⟨one, found, p, here, result⟩ := left
  obtain ⟨two, other, q, there, again⟩ := right
  have same := defined_once distinct (mem_placed_of_block found here) (mem_placed_of_block other there) result again
  have index := block_unique found other here (same ▸ there)
  cases b
  cases c
  exact congrArg Label.mk index

theorem ready_end {b : Label} {block : List Placed} {v : Value} (found : f.blocks[b.index]? = some block)
    (passed : ∀ before, f.Path (b :: before) → f.Passed (b :: before) v) : f.Ready b block v := by
  by_cases here : ∃ q ∈ block, q.inst.result? = some v
  · exact .inl here
  · refine .inr fun before path => ?_
    obtain ⟨c, member, other, there, q, inside, result⟩ := passed before path
    rcases List.mem_cons.mp member with same | earlier
    · subst same
      cases found.symm.trans there
      exact absurd ⟨q, inside, result⟩ here
    · exact ⟨c, earlier, other, there, q, inside, result⟩

theorem Ready.leave {b c : Label} {block : List Placed} {v : Value} (found : f.blocks[b.index]? = some block)
    (exit : c ∈ exits block) (ready : f.Ready c [] v) : f.Ready b block v := by
  rcases ready with ⟨q, none, -⟩ | passed
  · cases none
  · exact ready_end found fun before path => passed (b :: before) (.step path found exit)

theorem Ready.mono {b : Label} {front more : List Placed} (sub : front ⊆ more) {v : Value} (ready : f.Ready b front v) :
    f.Ready b more v :=
  ready.imp_left fun ⟨q, member, result⟩ => ⟨q, sub member, result⟩

theorem not_ready_entry (v : Value) : ¬ f.Ready entry [] v := by
  intro ready
  rcases ready with ⟨q, none, -⟩ | passed
  · cases none
  · obtain ⟨b, none, -⟩ := passed [] .entry
    cases none

end Func

-- Every use of a value comes after its definition, on every way to the use. A
-- phi uses its values at the ends of the blocks they come from.
structure Scope.Dominated (s : Scope) : Prop where
  operands : ∀ b before front p back, s.func.Path (b :: before) → s.func.blocks[b.index]? = some (front ++ p :: back) →
    p.inst.opcode ≠ .phi → ∀ v ∈ p.inst.values, v ∈ s.globals.values ∨ (∃ q ∈ front, q.inst.result? = some v) ∨
      s.func.Passed before v
  incoming : ∀ b before, s.func.Path (b :: before) → ∀ i ∈ s.func.insts, ∀ v, (v, b) ∈ i.incoming →
    v ∈ s.globals.values ∨ s.func.Passed (b :: before) v

namespace Scope

variable {s : Scope}

def Bars (f : Func) (above : Label → List Label) : Prop :=
  above Func.entry = [] ∧ ∀ pair ∈ f.labels.zip f.blocks, ∀ c ∈ exits pair.2, ∀ d ∈ above c, d = pair.1 ∨ d ∈ above pair.1

instance (f : Func) (above : Label → List Label) : Decidable (Bars f above) := by
  unfold Bars
  infer_instance

theorem Bars.passed {f : Func} {above : Label → List Label} (bars : Bars f above) {b : Label} {before : List Label}
    (path : f.Path (b :: before)) : ∀ d ∈ above b, d ∈ before := by
  generalize way : b :: before = whole at path
  induction path generalizing b before with
  | entry =>
    cases way
    rw [bars.1]
    exact nofun
  | step earlier found exit ih =>
    cases way
    intro d member
    rcases bars.2 (_, _) (Func.mem_labelled.mpr found) _ exit d member with same | further
    · exact same ▸ List.mem_cons_self
    · exact List.mem_cons_of_mem _ (ih rfl d further)

theorem Dominated.at_insert (dominated : s.Dominated) (well : s.WellFormed) {view : LaneView} {live : Value → LaneSet}
    {r : InstRef} {v base : Value} (dead : s.func.DeadInsert view live r v base) {b : Label} {before : List Label}
    (path : s.func.Path (b :: before)) {front back : List Placed} {p : Placed}
    (found : s.func.blocks[b.index]? = some (front ++ p :: back)) (result : p.inst.result? = some v) :
    base ∈ s.globals.values ∨ (∃ q ∈ front, q.inst.result? = some base) ∨ s.func.Passed before base := by
  obtain ⟨obj, lane, parsed, -⟩ := dead.parsed well.distinct (Func.mem_placed_of_block found (by simp)) result
  refine dominated.operands b before front p back path found ?_ base (by simp [Inst.asInsert?_values parsed])
  rw [(Inst.asInsert?_eq_some.mp parsed).1]
  decide

theorem Dominated.base_passed (dominated : s.Dominated) (well : s.WellFormed) {view : LaneView} {live : Value → LaneSet}
    {r : InstRef} {v base : Value} (dead : s.func.DeadInsert view live r v base) (front : List Label) {way : List Label}
    (path : s.func.Path (front ++ way)) (passed : s.func.Passed way v) :
    base ∈ s.globals.values ∨ s.func.Passed way base := by
  obtain ⟨b, member, block, found, p, inside, result⟩ := passed
  obtain ⟨one, rest, split⟩ := List.append_of_mem member
  rw [split, ← List.append_assoc] at path
  obtain ⟨early, late, rfl⟩ := List.append_of_mem inside
  rcases dominated.at_insert well dead (path.suffix (front ++ one)) found result with global | near | far
  · exact .inl global
  · obtain ⟨q, earlier, defines⟩ := near
    exact .inr ⟨b, member, _, found, q, List.mem_append_left _ earlier, defines⟩
  · refine .inr (far.mono ?_)
    rw [split]
    exact fun c later => List.mem_append_right one (List.mem_cons_of_mem b later)

theorem Dominated.ready_operand (dominated : s.Dominated) {b : Label} {front back : List Placed} {p : Placed}
    (found : s.func.blocks[b.index]? = some (front ++ p :: back)) (ordinary : p.inst.opcode ≠ .phi) {v : Value}
    (named : v ∈ p.inst.values) (own : v ∉ s.globals.values) : s.func.Ready b front v := by
  by_cases near : ∃ q ∈ front, q.inst.result? = some v
  · exact .inl near
  · refine .inr fun before path => ?_
    have way := dominated.operands b before front p back path found ordinary v named
    exact (way.resolve_left own).resolve_left near

theorem Dominated.ready_incoming (dominated : s.Dominated) {b : Label} {block : List Placed}
    (found : s.func.blocks[b.index]? = some block) {i : Inst} (member : i ∈ s.func.insts) {v : Value}
    (pair : (v, b) ∈ i.incoming) (own : v ∉ s.globals.values) : s.func.Ready b block v := by
  apply Func.ready_end found
  intro before path
  exact (dominated.incoming b before path i member v pair).resolve_left own

-- Where the base of an insert is defined, the result of the insert is not there
-- yet on every way. So a value that is ready is never out of step with its base.
theorem Dominated.not_ready (dominated : s.Dominated) (well : s.WellFormed) {view : LaneView} {live : Value → LaneSet}
    {r : InstRef} {v base : Value} (dead : s.func.DeadInsert view live r v base) {b : Label} {before : List Label}
    (path : s.func.Path (b :: before)) {front back : List Placed} {p : Placed}
    (found : s.func.blocks[b.index]? = some (front ++ p :: back)) (defines : p.inst.result? = some base) :
    ¬ s.func.Ready b front v := by
  have here : s.func.Defines b base := ⟨_, found, p, by simp, defines⟩
  have inner : p ∈ s.func.placed := Func.mem_placed_of_block found (by simp)
  have own : base ∉ s.globals.values := well.fresh base (Func.mem_results.mpr ⟨p, inner, defines⟩)
  obtain ⟨way, path, once⟩ := path.first
  have elsewhere : ¬ s.func.Passed way base := by
    intro ⟨c, member, there⟩
    exact once (Func.Defines.unique well.distinct there here ▸ member)
  intro ready
  rcases ready with ⟨q, near, result⟩ | passed
  · obtain ⟨one, two, rfl⟩ := List.append_of_mem near
    rw [List.append_assoc, List.cons_append] at found
    rcases dominated.at_insert well dead path found result with global | earlier | far
    · exact own global
    · obtain ⟨t, first, also⟩ := earlier
      have twice : t ∈ s.func.placed := Func.mem_placed_of_block found (List.mem_append_left _ first)
      cases Func.defined_once well.distinct twice inner also defines
      have apart := (List.pairwise_flatten.mp (List.pairwise_map.mp s.func.distinct)).1 _ (List.mem_of_getElem? found)
      exact (List.pairwise_append.mp apart).2.2 p first p (by simp) rfl
    · exact elsewhere far
  · rcases dominated.base_passed well dead [b] path (passed way path) with global | later
    · exact own global
    · exact elsewhere later

theorem path_mapValues {f : Func} {ρ : Value → Value} {way : List Label} (path : (f.mapValues ρ).Path way) :
    f.Path way :=
  path.congr (F := (·.map fun p => { p with inst := p.inst.mapValues ρ })) rfl fun block _ => exits_mapValues ρ block

theorem passed_mapValues {f : Func} {way : List Label} {v : Value} (passed : f.Passed way v) (ρ : Value → Value) :
    (f.mapValues ρ).Passed way v := by
  obtain ⟨b, member, block, found, p, inside, result⟩ := passed
  refine ⟨b, member, block.map fun p => { p with inst := p.inst.mapValues ρ }, ?_, _, List.mem_map_of_mem inside, result⟩
  exact (f.block_mapValues ρ _).trans (congrArg (Option.map _) found)

theorem Dominated.bypass (dominated : s.Dominated) (well : s.WellFormed) {view : LaneView} {live : Value → LaneSet}
    {r : InstRef} {v base : Value} (dead : s.func.DeadInsert view live r v base) :
    ({ s with func := s.func.mapValues (Value.subst v base) } : Scope).Dominated := by
  have own := well.own_of_dead dead
  refine ⟨fun b before front p back path found ordinary w named => ?_, fun b before path i member w pair => ?_⟩
  · replace path := path_mapValues path
    obtain ⟨block, there, split⟩ := Option.map_eq_some_iff.mp ((s.func.block_mapValues _ _).symm.trans found)
    obtain ⟨one, rest, rfl, rfl, tail⟩ := List.map_eq_append_iff.mp split
    obtain ⟨q, two, rfl, rfl, rfl⟩ := List.map_eq_cons_iff.mp tail
    obtain ⟨u, read, rfl⟩ := Inst.mem_values_mapValues.mp named
    have before' := dominated.operands b before one q two path there ordinary u read
    by_cases same : u = v
    · subst same
      rw [Value.subst, if_pos rfl]
      rcases before'.resolve_left own with near | far
      · obtain ⟨t, early, result⟩ := near
        obtain ⟨front, mid, rfl⟩ := List.append_of_mem early
        rw [List.append_assoc, List.cons_append] at there
        refine (dominated.at_insert well dead path there result).imp_right
          (Or.imp (fun near => ?_) fun far => passed_mapValues far _)
        obtain ⟨t, first, defines⟩ := near
        exact ⟨_, List.mem_map_of_mem (List.mem_append_left _ first), defines⟩
      · exact (dominated.base_passed well dead [b] path far).imp_right fun later => .inr (passed_mapValues later _)
    · rw [Value.subst, if_neg same]
      refine before'.imp_right (Or.imp (fun near => ?_) fun far => passed_mapValues far _)
      obtain ⟨t, early, result⟩ := near
      exact ⟨_, List.mem_map_of_mem early, result⟩
  · replace path := path_mapValues path
    obtain ⟨j, there, rfl⟩ := Func.mem_insts_mapValues.mp member
    rw [Inst.incoming_mapValues] at pair
    obtain ⟨⟨u, c⟩, before', same⟩ := List.mem_map.mp pair
    cases same
    have passed := dominated.incoming b before path j there u before'
    by_cases same : u = v
    · subst same
      rw [Value.subst, if_pos rfl]
      exact (dominated.base_passed well dead [] path (passed.resolve_left own)).imp_right fun far => passed_mapValues far _
    · rw [Value.subst, if_neg same]
      exact passed.imp_right fun far => passed_mapValues far _

theorem WellFormed.path_discard (well : s.WellFormed) {gone : List InstRef} (idle : s.func.Idle gone) {way : List Label}
    (path : (s.func.discard gone).Path way) : s.func.Path way := by
  apply path.congr (F := (·.filter (·.ref ∉ gone))) rfl
  intro block member
  rw [exits, exits, (well.shaped_discard idle member).2]

theorem passed_discard {f : Func} {gone : List InstRef} {way : List Label} {v : Value}
    (kept : ∀ q ∈ f.placed, q.inst.result? = some v → q.ref ∉ gone) (before : f.Passed way v) :
    (f.discard gone).Passed way v := by
  obtain ⟨b, member, block, found, q, inside, result⟩ := before
  have placed : q ∈ f.placed := Func.mem_placed_of_block found inside
  refine ⟨b, member, block.filter (·.ref ∉ gone), ?_, q, ?_, result⟩
  · exact (f.block_discard gone _).trans (congrArg (Option.map _) found)
  · exact List.mem_filter.mpr ⟨inside, decide_eq_true (kept q placed result)⟩

theorem Dominated.discard (dominated : s.Dominated) (well : s.WellFormed) {gone : List InstRef}
    (idle : s.func.Idle gone) : ({ s with func := s.func.discard gone } : Scope).Dominated := by
  have stays : ∀ q ∈ s.func.placed, ∀ v, q.inst.result? = some v → ∀ p ∈ s.func.placed, v ∈ p.inst.values →
      p.ref ∉ gone → q.ref ∉ gone :=
    fun q inside v result p there named kept listed => kept ((idle q inside listed).2 v result p there named)
  refine ⟨fun b before front p back path found ordinary v named => ?_, fun b before path i member v pair => ?_⟩
  · obtain ⟨block, there, split⟩ := Option.map_eq_some_iff.mp ((s.func.block_discard gone _).symm.trans found)
    obtain ⟨one, rest, rfl, rfl, tail⟩ := List.filter_eq_append_iff.mp split
    obtain ⟨mid, two, rfl, dropped, kept, -⟩ := List.filter_eq_cons_iff.mp tail
    have inner : p ∈ s.func.placed := Func.mem_placed_of_block there (by simp)
    have whole : s.func.blocks[b.index]? = some ((one ++ mid) ++ p :: two) := by
      rw [there]
      simp
    have safe : ∀ q ∈ s.func.placed, q.inst.result? = some v → q.ref ∉ gone := fun q inside result =>
      stays q inside v result p inner named (of_decide_eq_true kept)
    refine (dominated.operands b before _ p two (well.path_discard idle path) whole ordinary v named).imp_right
      (Or.imp (fun near => ?_) (passed_discard safe))
    obtain ⟨q, early, result⟩ := near
    refine ⟨q, ?_, result⟩
    have remains := safe q (Func.mem_placed_of_block whole (List.mem_append_left _ early)) result
    rcases List.mem_append.mp early with first | skipped
    · exact List.mem_filter.mpr ⟨first, decide_eq_true remains⟩
    · exact absurd (decide_eq_true remains) (dropped q skipped)
  · obtain ⟨r, placed⟩ := Func.mem_insts_iff_placed.mp member
    obtain ⟨there, kept⟩ := Func.mem_placed_discard.mp placed
    have safe : ∀ q ∈ s.func.placed, q.inst.result? = some v → q.ref ∉ gone := fun q inside result =>
      stays q inside v result _ there (Inst.mem_incoming pair) kept
    have whole := dominated.incoming b before (well.path_discard idle path) i (Func.mem_insts_iff_placed.mpr ⟨r, there⟩)
    exact (whole v pair).imp_right (passed_discard safe)

def resultsOf (f : Func) (b : Label) : List Value := (f.blocks[b.index]?.getD []).filterMap (·.inst.result?)

theorem mem_resultsOf {f : Func} {b : Label} {v : Value} (member : v ∈ resultsOf f b) : f.Defines b v := by
  unfold resultsOf at member
  cases found : f.blocks[b.index]? with
  | none =>
    rw [found] at member
    cases member
  | some block =>
    rw [found] at member
    obtain ⟨p, inside, result⟩ := List.mem_filterMap.mp member
    exact ⟨block, found, p, inside, result⟩

def DominatedBy (s : Scope) (above : Label → List Label) : Prop :=
  Bars s.func above ∧
  (∀ pair ∈ s.func.labels.zip s.func.blocks, ∀ entry ∈ pair.2.zipIdx, entry.1.inst.opcode ≠ .phi →
    ∀ v ∈ entry.1.inst.values, v ∈ s.globals.values ∨ v ∈ (pair.2.take entry.2).filterMap (·.inst.result?) ∨
      ∃ d ∈ above pair.1, v ∈ resultsOf s.func d) ∧
  ∀ i ∈ s.func.insts, ∀ pair ∈ i.incoming, pair.1 ∈ s.globals.values ∨
    ∃ d ∈ pair.2 :: above pair.2, pair.1 ∈ resultsOf s.func d

instance (s : Scope) (above : Label → List Label) : Decidable (s.DominatedBy above) := by
  unfold DominatedBy
  infer_instance

theorem DominatedBy.dominated {above : Label → List Label} (shown : s.DominatedBy above) : s.Dominated := by
  obtain ⟨bars, operands, incoming⟩ := shown
  refine ⟨fun b before front p back path found ordinary v named => ?_, fun b before path i member v pair => ?_⟩
  · have entry : (p, front.length) ∈ (front ++ p :: back).zipIdx :=
      List.mk_mem_zipIdx_iff_getElem?.mpr (by simp)
    have use := operands _ (Func.mem_labelled.mpr found) _ entry ordinary v named
    rw [List.take_left' rfl] at use
    refine use.imp_right (Or.imp (fun near => ?_) fun ⟨d, bar, defines⟩ => ?_)
    · exact List.mem_filterMap.mp near
    · exact ⟨d, bars.passed path d bar, mem_resultsOf defines⟩
  · refine (incoming i member (v, b) pair).imp_right fun ⟨d, bar, defines⟩ => ⟨d, ?_, mem_resultsOf defines⟩
    rcases List.mem_cons.mp bar with same | further
    · exact same ▸ List.mem_cons_self
    · exact List.mem_cons_of_mem _ (bars.passed path d further)

end Scope

end DeadLanes
