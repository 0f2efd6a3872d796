import DeadLanes.Proofs.Edits

namespace DeadLanes

-- What a clean-up erases, said without the order in which it looks: of the
-- candidates as many as are used by themselves alone, and then what that
-- leaves without another use.

namespace Func

variable {view : LaneView} {live : Value → LaneSet} {f g : Func}

def Secluded (f : Func) (part : Set InstRef) : Prop :=
  ∀ p ∈ f.placed, p.ref ∈ part → ∀ v, p.inst.result? = some v → ∀ q ∈ f.placed, v ∈ q.inst.values → q.ref ∈ part

-- A pure instruction outside of the group is swept along once something that
-- goes named its result and nothing else does, itself apart.
def Sweeps (f : Func) (group rest : Set InstRef) : Prop :=
  ∀ p ∈ f.placed, p.ref ∉ group → p.inst.opcode.isPure = true → ∀ v, p.inst.result? = some v →
    (∃ q ∈ f.placed, v ∈ q.inst.values ∧ q.ref ∈ group ∪ rest) →
    (∀ q ∈ f.placed, v ∈ q.inst.values → q.ref = p.ref ∨ q.ref ∈ group ∪ rest) → p.ref ∈ rest

-- What goes: of what is to spare, as much as is used by itself alone, and then
-- no more than that sweeps along.
def Cleared (f : Func) (spare : Set InstRef) (gone : List InstRef) : Prop :=
  ∃ group rest, IsGreatest {part | part ⊆ spare ∧ f.Secluded part} group ∧ IsLeast {rest | f.Sweeps group rest} rest ∧
    ∀ r, r ∈ gone ↔ r ∈ group ∪ rest

theorem Discard.length (step : Discard f g) : g.placed.length ≤ f.placed.length := by
  cases step with
  | group idle =>
    rw [placed_discard]
    exact List.length_filter_le _ _

theorem Discards.length (steps : Discards f g) : g.placed.length ≤ f.placed.length := by
  induction steps with
  | refl => exact Nat.le_refl _
  | tail _ step ih => exact Nat.le_trans step.length ih

theorem Bypasses.length (steps : Bypasses view live f g) : g.placed.length = f.placed.length := by
  obtain ⟨ρ, same⟩ := steps.mapValues
  rw [same, placed_mapValues, List.length_map]

theorem length_discard_lt {f : Func} {r : InstRef} {gone : List InstRef} (listed : r ∈ gone) (present : r ∈ f.refs) :
    (f.discard gone).placed.length < f.placed.length := by
  obtain ⟨i, placed⟩ := mem_refs.mp present
  rw [placed_discard]
  exact List.length_filter_lt_length_iff_exists.mpr ⟨_, placed, by simpa using listed⟩

theorem Idle.append {gone : List InstRef} (idle : f.Idle gone) {p : Placed} {v : Value} (placed : p ∈ f.placed)
    (pure' : p.inst.opcode.isPure = true) (result : p.inst.result? = some v)
    (users : ∀ q ∈ f.placed, v ∈ q.inst.values → q.ref = p.ref ∨ q.ref ∈ gone) :
    f.Idle (gone ++ [p.ref]) := by
  intro q there listed
  rcases List.mem_append.mp listed with already | last
  · obtain ⟨pure'', inside⟩ := idle q there already
    exact ⟨pure'', fun u made user here named => List.mem_append_left _ (inside u made user here named)⟩
  · cases placed_unique there placed (List.mem_singleton.mp last)
    refine ⟨pure', fun u made user here named => ?_⟩
    cases made.symm.trans result
    rcases users user here named with same | already
    · exact List.mem_append_right _ (List.mem_singleton.mpr same)
    · exact List.mem_append_left _ already

end Func

namespace Work

variable {view : LaneView} {live : Value → LaneSet} {w : Work}

theorem closed_secluded {x : Indexed} (sync : x.InSync) (group : List InstRef) : x.func.Secluded {r | r ∈ closed x group} := by
  intro p placed listed v result q there named
  obtain ⟨i, u, again, same, users⟩ := (inward_ok sync).mp (closed_inward x group p.ref listed)
  obtain rfl : i = p.inst := congrArg Placed.inst (Func.placed_unique again placed rfl)
  cases same.symm.trans result
  exact users q there named

theorem closed_greatest {x : Indexed} (sync : x.InSync) {group : List InstRef}
    (defines : ∀ r ∈ group, ∃ i v, ⟨r, i⟩ ∈ x.func.placed ∧ i.result? = some v) :
    IsGreatest {part : Set InstRef | part ⊆ {r | r ∈ group} ∧ x.func.Secluded part} {r | r ∈ closed x group} := by
  classical
  refine ⟨⟨closed_subset x group, closed_secluded sync group⟩, fun part ⟨inside, secluded⟩ r here => ?_⟩
  have sub : group.filter (· ∈ part) ⊆ closed x group := by
    refine subset_closed (List.filter_subset_self _) fun q listed => ?_
    obtain ⟨member, chosen⟩ := List.mem_filter.mp listed
    obtain ⟨i, v, placed, result⟩ := defines q member
    refine (inward_ok sync).mpr ⟨i, v, placed, result, fun u there named => ?_⟩
    have kept := secluded _ placed (of_decide_eq_true chosen) v result u there named
    exact List.mem_filter.mpr ⟨inside kept, decide_eq_true kept⟩
  exact sub (List.mem_filter.mpr ⟨inside here, decide_eq_true here⟩)

-- Where the sweep has got to: what is gone so far, every part of it by right,
-- and the values that have to be looked at again.
structure Swept (f : Func) (group : Set InstRef) (waiting : Value → Prop) (gone : List InstRef) (w : Work) : Prop where
  sync : w.body.InSync
  func : w.body.func = f.discard gone
  idle : f.Idle gone
  started : ∀ r ∈ group, r ∈ gone
  bound : ∀ rest, f.Sweeps group rest → ∀ r ∈ gone, r ∈ group ∪ rest
  named : ∀ v, waiting v → ∃ q ∈ f.placed, v ∈ q.inst.values ∧ q.ref ∈ gone
  due : ∀ p ∈ f.placed, p.ref ∉ gone → p.inst.opcode.isPure = true → ∀ v, p.inst.result? = some v →
    (∃ q ∈ f.placed, v ∈ q.inst.values ∧ q.ref ∈ gone) →
    (∀ q ∈ f.placed, v ∈ q.inst.values → q.ref = p.ref ∨ q.ref ∈ gone) → waiting v

namespace Swept

variable {f : Func} {group : Set InstRef} {waiting : Value → Prop} {gone : List InstRef}

theorem distinct (swept : Swept f group waiting gone w) (results : f.results.Nodup) : w.body.func.results.Nodup := by
  rw [swept.func]
  exact results.sublist (f.results_discard_sublist gone)

theorem mem_placed (swept : Swept f group waiting gone w) {p : Placed} :
    p ∈ w.body.func.placed ↔ p ∈ f.placed ∧ p.ref ∉ gone := by
  rw [swept.func, Func.mem_placed_discard]

theorem pass (swept : Swept f group waiting gone w) {v : Value}
    (stays : ∀ p ∈ w.body.func.placed, p.inst.opcode.isPure = true → p.inst.result? = some v →
      ∃ q ∈ w.body.func.placed, v ∈ q.inst.values ∧ q.ref ≠ p.ref) :
    Swept f group (fun u => waiting u ∧ u ≠ v) gone w := by
  refine { swept with named := fun u waits => swept.named u waits.1, due := ?_ }
  intro p placed kept pure' u result use users
  refine ⟨swept.due p placed kept pure' u result use users, ?_⟩
  rintro rfl
  obtain ⟨q, there, named, other⟩ := stays p (swept.mem_placed.mpr ⟨placed, kept⟩) pure' result
  obtain ⟨before, present⟩ := swept.mem_placed.mp there
  exact (users q before named).elim other present

section Take

variable {p : Placed} {v : Value}

theorem bound_append (swept : Swept f group waiting gone w) (waits : waiting v) (placed : p ∈ f.placed) (kept : p.ref ∉ gone)
    (pure' : p.inst.opcode.isPure = true) (result : p.inst.result? = some v)
    (users : ∀ q ∈ f.placed, v ∈ q.inst.values → q.ref = p.ref ∨ q.ref ∈ gone) {rest : Set InstRef}
    (sweeps : f.Sweeps group rest) : ∀ r ∈ gone ++ [p.ref], r ∈ group ∪ rest := by
  have bound := swept.bound rest sweeps
  intro r listed
  rcases List.mem_append.mp listed with already | last
  · exact bound r already
  · rw [List.mem_singleton.mp last]
    obtain ⟨q, there, named, went⟩ := swept.named v waits
    refine .inr (sweeps p placed (fun first => kept (swept.started p.ref first)) pure' v result
      ⟨q, there, named, bound _ went⟩ fun user here named => ?_)
    exact (users user here named).imp_right (bound _)

theorem take (swept : Swept f group waiting gone w) (results : f.results.Nodup) (waits : waiting v)
    (placed : p ∈ w.body.func.placed) (pure' : p.inst.opcode.isPure = true) (result : p.inst.result? = some v)
    (users : ∀ q ∈ w.body.func.placed, v ∈ q.inst.values → q.ref = p.ref) {next : Work} (sync : next.body.InSync)
    (func : next.body.func = w.body.func.discard [p.ref]) :
    Swept f group (fun u => (waiting u ∧ u ≠ v) ∨ u ∈ p.inst.values) (gone ++ [p.ref]) next := by
  obtain ⟨before, kept⟩ := swept.mem_placed.mp placed
  have own : ∀ q ∈ f.placed, v ∈ q.inst.values → q.ref = p.ref ∨ q.ref ∈ gone := by
    intro q there named
    by_cases present : q.ref ∈ gone
    · exact .inr present
    · exact .inl (users q (swept.mem_placed.mpr ⟨there, present⟩) named)
  have more : ∀ r, r ∈ gone ++ [p.ref] ↔ r ∈ gone ∨ r = p.ref := fun r => by simp
  refine ⟨sync, ?_, swept.idle.append before pure' result own, fun r member => (more r).mpr (.inl (swept.started r member)),
    fun rest sweeps => swept.bound_append waits before kept pure' result own sweeps, ?_, ?_⟩
  · rw [func, swept.func, Func.discard_discard]
  · rintro u (⟨waits, -⟩ | operand)
    · obtain ⟨q, there, named, went⟩ := swept.named u waits
      exact ⟨q, there, named, (more _).mpr (.inl went)⟩
    · exact ⟨p, before, operand, (more _).mpr (.inr rfl)⟩
  · intro q there stays pure'' u made use users
    by_cases operand : u ∈ p.inst.values
    · exact .inr operand
    · have still : ∀ k ∈ f.placed, u ∈ k.inst.values → k.ref ∈ gone ++ [p.ref] → k.ref ∈ gone := by
        intro k here named listed
        refine ((more _).mp listed).resolve_right fun same => operand ?_
        exact Func.placed_unique here before same ▸ named
      obtain ⟨k, here, named, went⟩ := use
      refine .inl ⟨swept.due q there (fun already => stays ((more _).mpr (.inl already))) pure'' u made
        ⟨k, here, named, still k here named went⟩ fun k here named => (users k here named).imp_right (still k here named), ?_⟩
      rintro rfl
      cases Func.defined_once results there before made result
      exact stays ((more _).mpr (.inr rfl))

end Take

theorem visit (swept : Swept f group waiting gone w) (results : f.results.Nodup) {v : Value} (waits : waiting v) :
    ∃ more, Swept f group (fun u => (waiting u ∧ u ≠ v) ∨ u ∈ (orphan v w).2) more (orphan v w).1 := by
  rcases orphan_cases swept.sync (swept.distinct results) v with
    ⟨same, report, stays⟩ | ⟨p, placed, pure', result, users, sync, func, report⟩
  · refine ⟨gone, ?_⟩
    simpa only [same, report, List.not_mem_nil, or_false] using swept.pass stays
  · rw [report]
    exact ⟨_, swept.take results waits placed pure' result users sync func⟩

theorem cleared (swept : Swept f group (fun _ => False) gone w) {spare : Set InstRef}
    (greatest : IsGreatest {part | part ⊆ spare ∧ f.Secluded part} group) : f.Cleared spare gone := by
  have all : ∀ r, r ∈ gone ↔ r ∈ group ∪ {r | r ∈ gone ∧ r ∉ group} := by
    intro r
    refine ⟨fun went => ?_, fun either => either.elim (swept.started r) And.left⟩
    exact (Classical.em (r ∈ group)).imp id fun other => ⟨went, other⟩
  refine ⟨group, _, greatest, ⟨fun p placed outside pure' v result use users => ?_, fun rest sweeps r went => ?_⟩, all⟩
  · simp only [← all] at use users
    refine ⟨?_, outside⟩
    exact Classical.byContradiction fun kept => swept.due p placed kept pure' v result use users
  · exact (swept.bound rest sweeps r went.1).resolve_left went.2

end Swept

theorem orphans_swept {f : Func} {group : Set InstRef} {gone : List InstRef} {values : List Value} (results : f.results.Nodup)
    (swept : Swept f group (· ∈ values) gone w) :
    ∃ more, Swept f group (fun _ => False) more (orphans.run values w).2 := by
  have step : ∀ waiting v later, (∃ gone, Swept f group waiting gone later) → waiting v →
      ∃ more, Swept f group (fun u => (waiting u ∧ u ≠ v) ∨ u ∈ (orphans.visit v later).2) more (orphans.visit v later).1 :=
    fun _ _ _ ⟨_, swept⟩ waits => swept.visit results waits
  have start : ∃ gone, Swept f group (· ∈ (Worklist.empty.pushAll values).waiting) gone w :=
    ⟨gone, by simpa [Worklist.empty] using swept⟩
  exact Flow.drain_invariant step _ w start

theorem eraseEach_swept (sync : w.body.InSync) (distinct : w.body.func.results.Nodup) {group : Set InstRef} {gone : List InstRef}
    (listed : ∀ r, r ∈ gone ↔ r ∈ group) (secluded : w.body.func.Secluded group)
    (pure' : ∀ p ∈ w.body.func.placed, p.ref ∈ group → p.inst.opcode.isPure = true) :
    Swept w.body.func group (· ∈ (eraseEach gone w).1) gone (eraseEach gone w).2 := by
  obtain ⟨synced, func⟩ : _ ∧ (eraseEach gone w).2.body.func = _ := eraseEach_ok sync distinct
  refine ⟨synced, func, fun p placed member => ?_, fun r member => (listed r).mpr member,
    fun rest _ r member => .inl ((listed r).mp member), fun v named => ?_, fun p _ _ _ v _ use _ => ?_⟩
  · have inside := (listed p.ref).mp member
    exact ⟨pure' p placed inside, fun v result q there named => (listed q.ref).mpr (secluded p placed inside v result q there named)⟩
  · obtain ⟨q, placed, went, named⟩ := (mem_eraseEach sync distinct).mp named
    exact ⟨q, placed, named, went⟩
  · obtain ⟨q, placed, named, went⟩ := use
    exact (mem_eraseEach sync distinct).mpr ⟨q, placed, went, named⟩

theorem eraseUnused_cleared (sync : w.body.InSync) (distinct : w.body.func.results.Nodup) {candidates : List InstRef}
    (fit : ∀ r ∈ candidates, ∃ i v, ⟨r, i⟩ ∈ w.body.func.placed ∧ i.opcode.isPure = true ∧ i.result? = some v) :
    ∃ gone, (eraseUnused candidates w).2.body.InSync ∧ (eraseUnused candidates w).2.body.func = w.body.func.discard gone ∧
      w.body.func.Idle gone ∧ w.body.func.Cleared {r | r ∈ candidates} gone := by
  have greatest := @closed_greatest w.body sync candidates.eraseDups fun r member => by
    obtain ⟨i, v, placed, -, result⟩ := fit r (List.mem_eraseDups.mp member)
    exact ⟨i, v, placed, result⟩
  simp only [List.mem_eraseDups] at greatest
  obtain ⟨inside, secluded⟩ := greatest.1
  suffices swept : ∃ gone, Swept w.body.func {r | r ∈ closed w.body candidates.eraseDups} (fun _ => False) gone
      (eraseUnused candidates w).2 by
    obtain ⟨gone, swept⟩ := swept
    exact ⟨gone, swept.sync, swept.func, swept.idle, swept.cleared greatest⟩
  unfold eraseUnused
  dsimp only
  split
  · rename_i none
    refine ⟨[], sync, (Func.discard_nil _).symm, nofun, ?_, nofun, nofun, fun p _ _ _ v _ use _ => ?_⟩
    · simp [none]
    · obtain ⟨q, -, -, went⟩ := use
      cases went
  · generalize erased : w.body.func.refs.filter (closed w.body candidates.eraseDups).contains = gone
    have listed : ∀ r, r ∈ gone ↔ r ∈ closed w.body candidates.eraseDups := by
      intro r
      rw [← erased, List.mem_filter, List.contains_iff_mem, and_iff_right_of_imp]
      intro member
      obtain ⟨i, _, placed, -⟩ := fit r (inside member)
      exact Func.mem_refs.mpr ⟨i, placed⟩
    have pure' : ∀ p ∈ w.body.func.placed, p.ref ∈ closed w.body candidates.eraseDups → p.inst.opcode.isPure = true := by
      intro p placed member
      obtain ⟨i, _, there, pure', -⟩ := fit p.ref (inside member)
      obtain rfl : i = p.inst := congrArg Placed.inst (Func.placed_unique there placed rfl)
      exact pure'
    have start := eraseEach_swept sync distinct listed secluded pure'
    rcases ran : eraseEach gone w with ⟨values, left⟩
    rw [ran] at start
    exact orphans_swept distinct start

theorem eraseUnused_answer (candidates : List InstRef) (w : Work) :
    (eraseUnused candidates w).1 = !decide (closed w.body candidates.eraseDups = []) := by
  unfold eraseUnused
  dsimp only
  split
  · rename_i none
    rw [none]
    rfl
  · rename_i some'
    rw [decide_eq_false some']
    rfl

theorem closed_of_unused (sync : w.body.InSync) {group : List InstRef} {p : Placed} (placed : p ∈ w.body.func.placed)
    (listed : p.ref ∈ group) {v : Value} (result : p.inst.result? = some v) (unused : w.body.func.Unused v) :
    closed w.body group ≠ [] := by
  have alone : [p.ref] ⊆ closed w.body group := by
    refine subset_closed (List.cons_subset.mpr ⟨listed, List.nil_subset _⟩) fun r member => ?_
    rw [List.mem_singleton.mp member]
    refine (inward_ok sync).mpr ⟨p.inst, v, placed, result, fun q there named => ?_⟩
    exact absurd named (unused q.inst (Func.mem_insts_iff_placed.mpr ⟨q.ref, there⟩))
  exact List.ne_nil_of_mem (alone List.mem_cons_self)

theorem eraseUnused_ok (sync : w.body.InSync) (distinct : w.body.func.results.Nodup) {candidates : List InstRef}
    (fit : ∀ r ∈ candidates, ∃ i v, ⟨r, i⟩ ∈ w.body.func.placed ∧ i.opcode.isPure = true ∧ i.result? = some v) :
    (eraseUnused candidates w).2.body.InSync ∧
      Func.Discards w.body.func (eraseUnused candidates w).2.body.func ∧
      ((eraseUnused candidates w).1 = false → (eraseUnused candidates w).2.body.func = w.body.func ∧
        ∀ p ∈ w.body.func.placed, p.ref ∈ candidates → ∀ v, p.inst.result? = some v → ¬ w.body.func.Unused v) ∧
      ((eraseUnused candidates w).1 = true →
        (eraseUnused candidates w).2.body.func.placed.length < w.body.func.placed.length) := by
  obtain ⟨gone, synced, func, idle, group, rest, greatest, -, erased⟩ := eraseUnused_cleared sync distinct fit
  refine ⟨synced, func ▸ .single (.group idle), fun kept => ?_, fun fewer => ?_⟩
  · have none : closed w.body candidates.eraseDups = [] := by simpa [eraseUnused_answer] using kept
    refine ⟨by simp [eraseUnused, none], fun p placed listed v result unused => ?_⟩
    exact closed_of_unused sync placed (List.mem_eraseDups.mpr listed) result unused none
  · have some' : closed w.body candidates.eraseDups ≠ [] := by simpa [eraseUnused_answer] using fewer
    obtain ⟨r, member⟩ := List.exists_mem_of_ne_nil _ some'
    have candidate : ∀ q ∈ closed w.body candidates.eraseDups, q ∈ candidates :=
      fun q here => List.mem_eraseDups.mp (closed_subset _ _ here)
    obtain ⟨i, _, placed, -⟩ := fit r (candidate r member)
    have went : r ∈ gone := (erased r).mpr (.inl (greatest.2 ⟨candidate, closed_secluded sync _⟩ member))
    rw [func]
    exact Func.length_discard_lt went (Func.mem_refs.mpr ⟨i, placed⟩)

theorem candidates_fit {f : Func} {dead : List (InstRef × Value)}
    (each : ∀ d ∈ dead, ∃ base, f.DeadInsert view live d.1 d.2 base) {r : InstRef}
    (listed : r ∈ dead.map (·.1) ++ emptyVectors view live f) :
    ∃ i v, ⟨r, i⟩ ∈ f.placed ∧ i.opcode.isPure = true ∧ i.result? = some v := by
  rcases List.mem_append.mp listed with insert | empty
  · obtain ⟨d, member, rfl⟩ := List.mem_map.mp insert
    obtain ⟨base, dead⟩ := each d member
    obtain ⟨i, obj, lane, placed, result, parsed, -⟩ := dead.placed
    refine ⟨i, d.2, placed, ?_, result⟩
    rw [(Inst.asInsert?_eq_some.mp parsed).1]
    rfl
  · obtain ⟨p, member, rfl⟩ := List.mem_map.mp empty
    obtain ⟨placed, chosen⟩ := List.mem_filter.mp member
    obtain ⟨pure', vector⟩ := Bool.and_eq_true_iff.mp chosen
    obtain ⟨v, result, -⟩ := (Option.any_eq_true _ _).mp vector
    exact ⟨p.inst, v, placed, pure', result⟩

theorem resultsKnown_mapValues (f : Func) (ρ : Value → Value) : resultsKnown view (f.mapValues ρ) = resultsKnown view f := by
  rw [resultsKnown, Func.insts_mapValues, List.all_map]
  rfl

theorem resultsKnown_bypasses {f g : Func} (steps : Func.Bypasses view live f g) (known : resultsKnown view f = true) :
    resultsKnown view g = true := by
  obtain ⟨ρ, renamed⟩ := steps.mapValues
  rw [renamed, resultsKnown_mapValues]
  exact known

theorem apply_keeping (inserts : insertsKnown view w.body.func = true) {moved : Bool} {middle : Work}
    (ran : bypassAll (deadInserts view live w.body.func) w = (.ok moved, middle)) :
    apply view live false w = (.ok moved, middle) := by
  rw [apply, Attempt.state_bind, Attempt.demand_bind inserts, Attempt.bind_ok ran]
  rfl

theorem apply_erasing (inserts : insertsKnown view w.body.func = true) {moved : Bool} {middle : Work}
    (ran : bypassAll (deadInserts view live w.body.func) w = (.ok moved, middle))
    (results : resultsKnown view middle.body.func = true) {candidates : List InstRef}
    (chosen : (deadInserts view live w.body.func).map (·.1) ++ emptyVectors view live middle.body.func = candidates) :
    apply view live true w =
      (.ok (moved || (eraseUnused candidates middle).1), (eraseUnused candidates middle).2) := by
  rw [apply, Attempt.state_bind, Attempt.demand_bind inserts, Attempt.bind_ok ran, if_pos rfl, Attempt.state_bind,
    Attempt.demand_bind results, chosen]
  rfl

theorem apply_ok (sync : w.body.InSync) (distinct : w.body.func.results.Nodup)
    (inserts : insertsKnown view w.body.func = true) (results : resultsKnown view w.body.func = true) (deleteDead : Bool) :
    ∃ moved middle changed next, bypassAll (deadInserts view live w.body.func) w = (.ok moved, middle) ∧
      apply view live deleteDead w = (.ok changed, next) ∧ next.body.InSync ∧
      Func.Bypasses view live w.body.func middle.body.func ∧ Func.Discards middle.body.func next.body.func ∧
      (changed = false → next.body.func = w.body.func) ∧
      (changed = true → deleteDead = true → next.body.func.placed.length < w.body.func.placed.length) := by
  obtain ⟨moved, middle, ran, synced, steps, same, unused⟩ := bypassAll_dead sync
  refine ⟨moved, middle, ?_⟩
  cases deleteDead with
  | false => exact ⟨moved, middle, ran, apply_keeping inserts ran, synced, steps, .refl, fun none => (same none).1, nofun⟩
  | true =>
    have known := resultsKnown_bypasses steps results
    have still : ∀ d ∈ deadInserts view live w.body.func, ∃ base, middle.body.func.DeadInsert view live d.1 d.2 base :=
      fun d member => steps.deadInsert (mem_deadInserts member)
    generalize candidates : (deadInserts view live w.body.func).map (·.1) ++ emptyVectors view live middle.body.func = cs
    obtain ⟨final, gone, idle, fewer⟩ := @eraseUnused_ok middle synced (steps.results ▸ distinct) cs fun r listed =>
      candidates_fit still (candidates ▸ listed)
    refine ⟨moved || (eraseUnused cs middle).1, _, ran, apply_erasing inserts ran known candidates, final, steps, gone,
      fun neither => ?_, fun either _ => ?_⟩
    · obtain ⟨noMove, noErase⟩ := Bool.or_eq_false_iff.mp neither
      rw [← (same noMove).1]
      exact (idle noErase).1
    · rw [← steps.length]
      refine fewer ?_
      cases erased : (eraseUnused cs middle).1 with
      | true => rfl
      | false =>
        rw [erased, Bool.or_false] at either
        obtain ⟨d, member, -, none⟩ := unused either
        obtain ⟨base, dead⟩ := still d member
        obtain ⟨i, obj, lane, there, result, -⟩ := dead.placed
        have listed : d.1 ∈ cs := candidates ▸ List.mem_append_left _ (List.mem_map_of_mem member)
        exact absurd none ((idle erased).2 _ there listed d.2 result)

end Work

end DeadLanes
