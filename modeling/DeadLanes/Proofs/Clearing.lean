import DeadLanes.Proofs.Convergence
import DeadLanes.Proofs.Redirection

namespace DeadLanes

-- What acting on live lanes leaves of a function, said without the order in
-- which it is done.

-- Where every value leads that starts from another one, step after step.
structure Resolves (starts : Value → Value → Prop) (resolve : Value → Value) : Prop where
  past : ∀ v base, starts v base → resolve v = resolve base
  plain : ∀ v, (∀ base, ¬ starts v base) → resolve v = v

namespace Resolves

variable {starts : Value → Value → Prop} {one two : Value → Value}

theorem of_redirects (redirects : Redirects starts one) : Resolves starts one :=
  ⟨redirects.past, fun _ plain => redirects.stays plain⟩

theorem along (resolves : Resolves starts two) {v u : Value} (path : Relation.ReflTransGen starts v u) : two v = two u := by
  induction path with
  | refl => rfl
  | tail _ step ih => exact ih.trans (resolves.past _ _ step)

theorem unique (redirects : Redirects starts one) (acyclic : ∀ v, ¬ Relation.TransGen starts v v)
    (resolves : Resolves starts two) : two = one := by
  funext v
  have ended : ∀ base, ¬ starts (one v) base := by
    intro base step
    have back : Relation.ReflTransGen starts base (one v) := by
      have path := redirects.along base
      rwa [← redirects.past _ _ step, redirects.settled] at path
    exact acyclic _ (.head' step back)
  exact (resolves.along (redirects.along v)).trans (resolves.plain _ ended)

end Resolves

namespace Func

def Expendable (view : LaneView) (live : Value → LaneSet) (f : Func) : Set InstRef :=
  {r | ∃ i, ⟨r, i⟩ ∈ f.placed ∧ (Wasted view live i ∨ Hollow view live i)}

theorem acyclic_of_falling {view : LaneView} {live : Value → LaneSet} {f : Func}
    (falls : ∀ i ∈ f.insts, ∀ v ∈ i.result?, ∀ parts ∈ i.asInsert?, parts.2.1.id < v.id) (v : Value) :
    ¬ Relation.TransGen (f.DeadBase view live) v v := by
  have step : ∀ u base, f.DeadBase view live u base → base.id < u.id := by
    intro u base dead
    obtain ⟨r, dead⟩ := dead
    obtain ⟨i, obj, lane, placed, result, parsed, -⟩ := dead.placed
    exact falls i (mem_insts_iff_placed.mpr ⟨r, placed⟩) u result _ parsed
  have path : ∀ u, Relation.TransGen (f.DeadBase view live) v u → u.id < v.id := by
    intro u path
    induction path with
    | single dead => exact step _ _ dead
    | tail _ dead ih => exact Nat.lt_trans (step _ _ dead) ih
  exact fun cycle => Nat.lt_irrefl _ (path v cycle)

end Func

namespace Work

variable {view : LaneView} {live : Value → LaneSet} {w : Work}

theorem mem_expendable {f : Func} (ρ : Value → Value) (r : InstRef) :
    r ∈ (deadInserts view live f).map (·.1) ++ emptyVectors view live (f.mapValues ρ) ↔ r ∈ f.Expendable view live := by
  have empty : r ∈ emptyVectors view live (f.mapValues ρ) ↔ r ∈ emptyVectors view live f := by
    simp only [mem_emptyVectors, Func.placed_mapValues, List.mem_map]
    constructor
    · rintro ⟨_, ⟨p, placed, same⟩, hollow⟩
      cases same
      exact ⟨p.inst, placed, hollow⟩
    · rintro ⟨i, placed, hollow⟩
      exact ⟨_, ⟨_, placed, rfl⟩, hollow⟩
  rw [List.mem_append, empty]
  constructor
  · rintro (insert | empty)
    · obtain ⟨d, member, rfl⟩ := List.mem_map.mp insert
      obtain ⟨base, dead⟩ := mem_deadInserts member
      obtain ⟨i, obj, lane, placed, -⟩ := dead.placed
      exact ⟨i, placed, .inl ((mem_deadInserts_iff placed).mp insert)⟩
    · obtain ⟨i, placed, hollow⟩ := mem_emptyVectors.mp empty
      exact ⟨i, placed, .inr hollow⟩
  · rintro ⟨i, placed, wasted | hollow⟩
    · exact .inl ((mem_deadInserts_iff placed).mpr wasted)
    · exact .inr ((mem_emptyVectors_iff placed).mpr hollow)

theorem apply_exact (sync : w.body.InSync) (distinct : w.body.func.results.Nodup)
    (inserts : insertsKnown view w.body.func = true) (results : resultsKnown view w.body.func = true) (deleteDead : Bool) :
    ∃ ρ gone changed next, Redirects (w.body.func.DeadBase view live) ρ ∧
      apply view live deleteDead w = (.ok changed, next) ∧ next.body.InSync ∧
      next.body.func = (w.body.func.mapValues ρ).discard gone ∧ (w.body.func.mapValues ρ).Idle gone ∧
      (deleteDead = false → gone = []) ∧
      (deleteDead = true → (w.body.func.mapValues ρ).Cleared (w.body.func.Expendable view live) gone) := by
  obtain ⟨moved, middle, ρ, ran, synced, func, redirects⟩ := @bypassAll_redirects view live w sync distinct
  cases deleteDead with
  | false =>
    exact ⟨ρ, [], moved, middle, redirects, apply_keeping inserts ran, synced, func.trans (Func.discard_nil _).symm,
      nofun, fun _ => rfl, nofun⟩
  | true =>
    have known : resultsKnown view middle.body.func = true := by
      rw [func, resultsKnown_mapValues]
      exact results
    have others : middle.body.func.results.Nodup := by
      rw [func, Func.results_mapValues]
      exact distinct
    generalize chosen : (deadInserts view live w.body.func).map (·.1) ++ emptyVectors view live middle.body.func = cs
    have spare : {r | r ∈ cs} = w.body.func.Expendable view live := by
      ext r
      rw [Set.mem_ofPred_eq, ← chosen, func]
      exact mem_expendable ρ r
    have still : ∀ d ∈ deadInserts view live w.body.func, ∃ base, middle.body.func.DeadInsert view live d.1 d.2 base := by
      intro d member
      obtain ⟨base, dead⟩ := mem_deadInserts member
      exact ⟨ρ base, func ▸ dead.mapValues ρ⟩
    obtain ⟨gone, final, erased, idle, cleared⟩ := @eraseUnused_cleared middle synced others cs fun r listed =>
      candidates_fit still (chosen ▸ listed)
    rw [spare] at cleared
    rw [func] at erased idle cleared
    exact ⟨ρ, gone, _, _, redirects, apply_erasing inserts ran known chosen, final, erased, idle, nofun, fun _ => cleared⟩

end Work

namespace Scope

variable {s : Scope} {live : Value → LaneSet}

-- The instructions that stay are where they were, in their order, with every
-- operand that was the result of a dead insert replaced by what its chain of
-- bases leads to.
theorem applyLive_exact (accepted : s.check = .ok ()) (typed : s.Typed) {index : UseIndex}
    (sync : Indexed.InSync ⟨s.func, index⟩) (acyclic : ∀ v, ¬ Relation.TransGen (s.func.DeadBase s.view live) v v)
    (deleteDead : Bool) :
    ∃ resolve gone changed,
      (Resolves (s.func.DeadBase s.view live) resolve ∧
        ∀ other, Resolves (s.func.DeadBase s.view live) other → other = resolve) ∧
      (s.applyLive index live deleteDead).changed = .ok changed ∧
      (s.applyLive index live deleteDead).subject.func = (s.func.mapValues resolve).discard gone ∧
      (deleteDead = false → gone = []) ∧
      (deleteDead = true → (s.func.mapValues resolve).Cleared (s.func.Expendable s.view live) gone) := by
  have well := check_ok.mp accepted
  obtain ⟨inserts, results⟩ := typed.looked_up
  obtain ⟨ρ, gone, changed, next, redirects, ran, -, func, -, keeps, clears⟩ :=
    @Work.apply_exact s.view live ⟨⟨s.func, index⟩, []⟩ sync well.distinct inserts results deleteDead
  refine ⟨ρ, gone, changed, ⟨.of_redirects redirects, fun _ => Resolves.unique redirects acyclic⟩, ?_, ?_, keeps, clears⟩
  · exact congrArg Prod.fst ran
  · exact (congrArg (·.2.body.func) ran).trans func

-- Two dead inserts that stand the wrong way round, and what they write. The
-- first scalar is looked at while the second still uses it, and again later.
def stacked : Scope :=
  { types := ⟨[.float 32, .vector ⟨0⟩ 3, .pointer ⟨0⟩ .output], by decide⟩
    globals := ⟨[(⟨1⟩, ⟨⟨1⟩, .undef⟩), (⟨2⟩, ⟨⟨0⟩, .constant 0⟩), (⟨3⟩, ⟨⟨2⟩, .variable .output⟩)]⟩
    func := .ofBlocks "stacked" [
      [⟨.fadd, some (⟨10⟩, ⟨0⟩), [.value ⟨2⟩, .value ⟨2⟩]⟩,
        ⟨.fmul, some (⟨11⟩, ⟨0⟩), [.value ⟨10⟩, .value ⟨2⟩]⟩,
        ⟨.insert, some (⟨13⟩, ⟨1⟩), [.value ⟨10⟩, .value ⟨12⟩, .literal 1]⟩,
        ⟨.insert, some (⟨12⟩, ⟨1⟩), [.value ⟨11⟩, .value ⟨1⟩, .literal 1]⟩,
        ⟨.extract, some (⟨14⟩, ⟨0⟩), [.value ⟨13⟩, .literal 0]⟩,
        ⟨.store, none, [.value ⟨3⟩, .value ⟨14⟩]⟩,
        ⟨.ret, none, []⟩]] }

theorem applyLive_exact_stacked :
    (stacked.applyLive (.build stacked.func) (fun _ => .single 0) true).subject.func.insts =
      [⟨.extract, some (⟨14⟩, ⟨0⟩), [.value ⟨1⟩, .literal 0]⟩, ⟨.store, none, [.value ⟨3⟩, .value ⟨14⟩]⟩, ⟨.ret, none, []⟩] ∧
    ∃ resolve gone changed,
      (Resolves (stacked.func.DeadBase stacked.view fun _ => .single 0) resolve ∧
        ∀ other, Resolves (stacked.func.DeadBase stacked.view fun _ => .single 0) other → other = resolve) ∧
      (stacked.applyLive (.build stacked.func) (fun _ => .single 0) true).changed = .ok changed ∧
      (stacked.applyLive (.build stacked.func) (fun _ => .single 0) true).subject.func =
        (stacked.func.mapValues resolve).discard gone ∧
      (true = false → gone = []) ∧
      (true = true → (stacked.func.mapValues resolve).Cleared (stacked.func.Expendable stacked.view fun _ => .single 0) gone) :=
  ⟨by decide +kernel, applyLive_exact (by decide +kernel) (by decide +kernel) (Indexed.inSync_ofFunc stacked.func)
    (Func.acyclic_of_falling (by decide +kernel)) true⟩

end Scope

end DeadLanes
