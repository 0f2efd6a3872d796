import DeadLanes.Proofs.Preservation

namespace DeadLanes

open Interp

namespace Scope

variable {s : Scope}

-- No one can tell a function from what cleaning leaves of it, as long as no
-- constant is made from what an insert, an extract, a construct, a shuffle or a
-- phi makes lane by lane.
theorem clean_keeps_constants (accepted : s.check = .ok ()) (typed : s.Typed) (dominated : s.Dominated)
    (phisTyped : s.PhisTyped) (constants : s.ConstantsSteady) (config : Config) :
    ∃ changed, (s.clean config).changed = .ok changed ∧
      ∀ {α : Type} (m : Interp α) (n : Nat),
        (m.run { s with func := (s.clean config).subject } faithful n).seen = (m.run s faithful n).seen := by
  have well := check_ok.mp accepted
  have reliable : s.Reliable := ⟨well, typed, phisTyped, dominated, constants⟩
  obtain ⟨changed, ran, tidied⟩ := well.clean_tidied typed config
  exact ⟨changed, ran, (reliable.tidied tidied).2⟩

-- A sum of vectors, of which a constant is made, and an insert on top of it
-- that is bypassed.
def tinted : Scope :=
  { types := ⟨[.float 32, .vector ⟨0⟩ 2, .vector ⟨0⟩ 4, .pointer ⟨2⟩ .output], by decide⟩
    globals := ⟨[(⟨1⟩, ⟨⟨1⟩, .undef⟩), (⟨2⟩, ⟨⟨0⟩, .constant 0⟩), (⟨3⟩, ⟨⟨3⟩, .variable .output⟩)]⟩
    func := .ofBlocks "tinted" [
      [⟨.fadd, some (⟨10⟩, ⟨1⟩), [.value ⟨1⟩, .value ⟨1⟩]⟩,
        ⟨.insert, some (⟨11⟩, ⟨1⟩), [.value ⟨2⟩, .value ⟨10⟩, .literal 1]⟩,
        ⟨.constComposite, some (⟨12⟩, ⟨2⟩), [.value ⟨10⟩, .value ⟨10⟩]⟩,
        ⟨.store, none, [.value ⟨3⟩, .value ⟨12⟩]⟩,
        ⟨.extract, some (⟨13⟩, ⟨0⟩), [.value ⟨11⟩, .literal 0]⟩,
        ⟨.retv, none, [.value ⟨13⟩]⟩]] }

theorem clean_keeps_constants_tinted : ¬ tinted.ConstantsRigid ∧
    (tinted.clean {}).subject.insts.map (·.opcode) = [.fadd, .constComposite, .store, .extract, .retv] ∧
    ∃ changed, (tinted.clean {}).changed = .ok changed ∧
      ∀ {α : Type} (m : Interp α) (n : Nat),
        (m.run { tinted with func := (tinted.clean {}).subject } faithful n).seen = (m.run tinted faithful n).seen := by
  have dominated : tinted.DominatedBy fun _ => [] := by decide +kernel
  exact ⟨by decide +kernel, by decide +kernel,
    clean_keeps_constants (by decide +kernel) (by decide +kernel) dominated.dominated (by decide +kernel) (by decide +kernel) {}⟩

def doubled : Scope :=
  { types := ⟨[.float 32, .vector ⟨0⟩ 2, .vector ⟨0⟩ 4, .pointer ⟨2⟩ .output], by decide⟩
    globals := ⟨[(⟨1⟩, ⟨⟨1⟩, .undef⟩), (⟨2⟩, ⟨⟨0⟩, .constant 0⟩), (⟨3⟩, ⟨⟨3⟩, .variable .output⟩)]⟩
    func := .ofBlocks "doubled" [
      [⟨.insert, some (⟨10⟩, ⟨1⟩), [.value ⟨2⟩, .value ⟨1⟩, .literal 1]⟩,
        ⟨.constComposite, some (⟨11⟩, ⟨2⟩), [.value ⟨10⟩, .value ⟨10⟩]⟩,
        ⟨.store, none, [.value ⟨3⟩, .value ⟨11⟩]⟩,
        ⟨.ret, none, []⟩]] }

def storedSecond : List (Effect Nat) → Option Nat
  | [⟨_, _, _, [_, x]⟩] => match x.lane 1 with
    | .atom n => some n
    | .lanes _ => none
  | _ => none

theorem doubled_cleaning_seen : doubled.check = .ok () ∧ doubled.Typed ∧ doubled.Dominated ∧ doubled.PhisTyped ∧
    ∃ (m : Interp Nat) (n : Nat),
      (m.run { doubled with func := (doubled.clean {}).subject } faithful n).seen ≠ (m.run doubled faithful n).seen := by
  have dominated : doubled.DominatedBy fun _ => [] := by decide +kernel
  refine ⟨by decide +kernel, by decide +kernel, dominated.dominated, by decide +kernel, second, 1, fun same => ?_⟩
  exact absurd (congrArg (fun trace => storedSecond trace.2.1) same) (by decide +kernel)

end Scope

end DeadLanes
