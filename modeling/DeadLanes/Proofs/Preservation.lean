import DeadLanes.Proofs.Bypassing
import DeadLanes.Proofs.Discarding
import DeadLanes.Proofs.Rounds

namespace DeadLanes

-- What the pass leaves of a function does what the function did.

open Interp

namespace Scope

-- Whatever the instructions mean, no one can tell which of the two is run.
def Behaves (s t : Scope) : Prop :=
  ∀ {α : Type} (m : Interp α) (n : Nat), (m.run t faithful n).seen = (m.run s faithful n).seen

variable {s : Scope} {g : Func}

theorem Reliable.discard (reliable : s.Reliable) {gone : List InstRef} (idle : s.func.Idle gone) :
    (s.discarded gone).Reliable := by
  have well := reliable.well
  refine ⟨well.discard idle, reliable.typed.discard well.distinct idle, reliable.phisTyped.discard well.distinct idle,
    reliable.dominated.discard well idle, fun i member constant v named => ?_⟩
  obtain ⟨r, before, stays⟩ := Func.mem_insts_discard.mp member
  have kept : ∀ j ∈ s.func.insts, j.result? = some v → j ∈ (s.func.discard gone).insts := by
    intro j there result
    obtain ⟨q, inside⟩ := Func.mem_insts_iff_placed.mp there
    refine Func.mem_insts_discard.mpr ⟨q, inside, fun listed => ?_⟩
    exact stays ((idle _ inside listed).2 v result _ before named)
  rcases reliable.constants i (Func.mem_insts_iff_placed.mpr ⟨r, before⟩) constant v named with
    (global | ⟨j, there, result, op⟩) | ⟨j, there, result, root⟩
  · exact .inl (.inl global)
  · exact .inl (.inr ⟨j, kept j there result, result, op⟩)
  · -- The constant still uses it.
    have used : (Analysis.ofScope (s.discarded gone)).used j = true :=
      used_iff.mpr ⟨v, result, fun unused => unused i member named⟩
    refine .inr ⟨j, kept j there result, result, ?_⟩
    rw [Analysis.isRoot, ruleOf_discarded well.distinct idle (kept j there result)]
    exact Inst.isRoot_mono (fun _ => used) root

theorem Reliable.bypasses (reliable : s.Reliable) {live : Value → LaneSet} (held : (Analysis.ofScope s).Held live)
    (closed : (Analysis.ofScope s).Closed live) (steps : Func.Bypasses s.view live s.func g) :
    ({ s with func := g } : Scope).Reliable ∧ s.Behaves { s with func := g } := by
  have all : ({ s with func := g } : Scope).Reliable ∧ (Analysis.ofScope { s with func := g }).Closed live ∧
      ({ s with func := g } : Scope).view = s.view ∧ s.Behaves { s with func := g } := by
    induction steps with
    | refl => exact ⟨reliable, closed, rfl, fun _ _ => rfl⟩
    | @tail f g _ step ih =>
      obtain ⟨reliable, closed, view, same⟩ := ih
      cases step with
      | insert dead differs =>
        have held : (Analysis.ofScope { s with func := f }).Held live := by
          intro v
          rw [show (Analysis.ofScope { s with func := f }).view = s.view from view]
          exact held v
        have bypassing : Bypassing { s with func := f } live _ _ _ := ⟨reliable, held, closed, view.symm ▸ dead, differs⟩
        refine ⟨bypassing.still_reliable, bypassing.still_closed, bypassing.view_eq.trans view, fun m n => ?_⟩
        exact ((bypassing.lockstep m).seen n).symm.trans (same m n)
  exact ⟨all.1, all.2.2.2⟩

theorem Reliable.discards (reliable : s.Reliable) (steps : Func.Discards s.func g) :
    ({ s with func := g } : Scope).Reliable ∧ s.Behaves { s with func := g } := by
  induction steps with
  | refl => exact ⟨reliable, fun _ _ => rfl⟩
  | @tail f g _ step ih =>
    obtain ⟨reliable, same⟩ := ih
    cases step with
    | @group gone idle =>
      refine ⟨reliable.discard (s := { s with func := f }) idle, fun m n => ?_⟩
      have lockstep := discarded_lockstep (s := { s with func := f }) reliable.well idle m
      exact (lockstep.seen n).symm.trans (same m n)

theorem Reliable.tidies (reliable : s.Reliable) (tidies : s.Tidies g) :
    ({ s with func := g } : Scope).Reliable ∧ s.Behaves { s with func := g } := by
  obtain ⟨live, between, held, closed, bypasses, discards⟩ := tidies
  obtain ⟨reliable, first⟩ := reliable.bypasses held closed bypasses
  obtain ⟨reliable, second⟩ := Reliable.discards (s := { s with func := between }) reliable discards
  exact ⟨reliable, fun m n => (second m n).trans (first m n)⟩

theorem Reliable.tidied (reliable : s.Reliable) (tidied : s.Tidied g) :
    ({ s with func := g } : Scope).Reliable ∧ s.Behaves { s with func := g } := by
  induction tidied with
  | refl => exact ⟨reliable, fun _ _ => rfl⟩
  | tail _ tidies ih =>
    obtain ⟨reliable, first⟩ := ih
    obtain ⟨reliable, second⟩ := reliable.tidies tidies
    exact ⟨reliable, fun m n => (second m n).trans (first m n)⟩

theorem Orderly.tidied (orderly : s.Orderly) (tidied : s.Tidied g) :
    ({ s with func := g } : Scope).Reliable ∧ s.Behaves { s with func := g } :=
  orderly.reliable.tidied tidied

theorem clean_behaves (accepted : s.check = .ok ()) (typed : s.Typed) (dominated : s.Dominated)
    (phisTyped : s.PhisTyped) (constants : s.ConstantsRigid) (config : Config) :
    ∃ changed, (s.clean config).changed = .ok changed ∧
      ∀ {α : Type} (m : Interp α) (n : Nat),
        (m.run { s with func := (s.clean config).subject } faithful n).seen = (m.run s faithful n).seen := by
  have well := check_ok.mp accepted
  obtain ⟨changed, last, cleaned, runs⟩ := clean_ok well typed config
  have orderly : s.Orderly := ⟨well, typed, phisTyped, dominated, constants⟩
  rw [cleaned]
  exact ⟨changed, rfl, (orderly.tidied runs.tidied).2⟩

theorem clean_behaves_looped : ∃ changed, (looped.clean {}).changed = .ok changed ∧
    ∀ {α : Type} (m : Interp α) (n : Nat),
      (m.run { looped with func := (looped.clean {}).subject } faithful n).seen = (m.run looped faithful n).seen := by
  have dominated : looped.DominatedBy fun b => (List.range b.index).map Label.mk := by decide +kernel
  exact clean_behaves (by decide +kernel) (by decide +kernel) dominated.dominated (by decide +kernel) (by decide +kernel) {}

theorem sealed_cleaning_seen : sealed.check = .ok () ∧ sealed.Typed ∧ sealed.Dominated ∧ sealed.PhisTyped ∧
    (∀ i ∈ sealed.func.insts, i.opcode = .constComposite → ∀ v ∈ i.values, sealed.Rigid v) ∧
    ∃ (m : Interp Nat) (n : Nat),
      (m.run { sealed with func := (sealed.clean {}).subject } faithful n).seen ≠ (m.run sealed faithful n).seen := by
  have dominated : sealed.DominatedBy fun _ => [] := by decide +kernel
  have plain : ∀ i ∈ sealed.func.insts, i.opcode ≠ .constComposite := by decide +kernel
  refine ⟨by decide +kernel, by decide +kernel, dominated.dominated, by decide +kernel,
    fun i member composite => absurd composite (plain i member), second, 1, fun same => ?_⟩
  exact absurd (congrArg (fun trace => stored trace.2.1) same) (by decide +kernel)

end Scope

end DeadLanes
