import DeadLanes.Proofs.Dominance
import DeadLanes.Proofs.Lockstep

namespace DeadLanes

namespace Interp

-- What is stored agrees on the live lanes with what was produced.
def Tampers (live : Value → LaneSet) (store : Store α) : Prop := ∀ v x, Datum.Agree (live v) (store v x) x

def Alike (live : Value → LaneSet) (env other : Env α) : Prop := ∀ v, Datum.Agree (live v) (env v) (other v)

theorem Alike.define {live : Value → LaneSet} {env other : Env α} (alike : Alike live env other)
    {store honest : Store α} {i : Inst} {result expected : Value → TypeRef → Datum α}
    (same : ∀ v ty, i.defines = some (v, ty) → Datum.Agree (live v) (store v (result v ty)) (honest v (expected v ty))) :
    Alike live (env.define store i result) (other.define honest i expected) := by
  intro w
  unfold Env.define
  cases defined : i.defines with
  | none => exact alike w
  | some pair =>
    dsimp only [Env.put]
    by_cases here : w = pair.1
    · rw [if_pos here, if_pos here, here]
      exact same pair.1 pair.2 defined
    · rw [if_neg here, if_neg here]
      exact alike w

end Interp

open Interp

namespace Scope

structure Settled (s : Scope) (live : Value → LaneSet) : Prop where
  well : s.WellFormed
  held : (Analysis.ofScope s).Held live
  closed : (Analysis.ofScope s).Closed live
  phisTyped : s.PhisTyped

namespace Settled

variable {s : Scope} {live : Value → LaneSet} {m : Interp α} {store : Store α} {x y : Frame α}

theorem result_agree (settled : s.Settled live) {i : Inst} (member : i ∈ s.func.insts) (ordinary : i.opcode ≠ .phi)
    {env other : Env α} (operands : ∀ w ∈ i.values, Datum.Agree (live w) (env w) (other w))
    (constant : i.isConstant → ∀ w ∈ i.values, env w = other w) (past : List (Effect α)) {v : Value} {ty : TypeRef}
    (defined : i.defines = some (v, ty)) :
    Datum.Agree (live v) (m.produce s env past i v ty) (m.produce s other past i v ty) := by
  have produced := settled.well.produce_agree settled.closed member defined ordinary operands constant m past
  exact produced.mono (WellFormed.live_le_demanded (Inst.result?_eq_some.mpr ⟨ty, defined⟩))

theorem phi_agree (settled : s.Settled live) {i : Inst} (member : i ∈ s.func.insts) (phi : i.opcode = .phi)
    {origin : Option Label} {env other : Env α}
    (agree : ∀ pair ∈ i.incoming, some pair.2 = origin → Datum.Agree (live pair.1) (env pair.1) (other pair.1))
    {v : Value} {ty : TypeRef} (defined : i.defines = some (v, ty)) :
    Datum.Agree (live v) (m.merge s env origin i v ty) (m.merge s other origin i v ty) := by
  have merged := settled.well.merge_agree settled.held settled.closed settled.phisTyped member phi agree m v ty
  exact merged.mono (WellFormed.live_le_demanded (Inst.result?_eq_some.mpr ⟨ty, defined⟩))

theorem performed_eq (settled : s.Settled live) {i : Inst} (member : i ∈ s.func.insts) (alike : Alike live x.env y.env)
    (effects : x.effects = y.effects) : performed i x = performed i y := by
  unfold performed
  split
  · rename_i visible
    have same := WellFormed.operands_equal settled.closed member (.inl visible) fun w _ => alike w
    rw [effects, List.map_congr_left same]
  · exact effects

theorem body_alike (settled : s.Settled live) (tampers : Tampers live store)
    (constants : ∀ i ∈ s.func.insts, i.isConstant → i.values = []) {rest : List Placed}
    (members : ∀ p ∈ rest, p.inst ∈ s.func.insts) (ordinary : ∀ p ∈ rest, p.inst.opcode ≠ .phi)
    (alike : Alike live x.env y.env) (effects : x.effects = y.effects) :
    Alike live ((rest.map (·.inst)).foldl (m.exec s store) x).env
        ((rest.map (·.inst)).foldl (m.exec s fun _ d => d) y).env ∧
      ((rest.map (·.inst)).foldl (m.exec s store) x).effects =
        ((rest.map (·.inst)).foldl (m.exec s fun _ d => d) y).effects := by
  induction rest generalizing x y with
  | nil => exact ⟨alike, effects⟩
  | cons p rest ih =>
    obtain ⟨member, members⟩ := List.forall_mem_cons.mp members
    obtain ⟨plain, ordinary⟩ := List.forall_mem_cons.mp ordinary
    have same := settled.performed_eq member alike effects
    refine ih members ordinary ?_ same
    unfold exec
    rw [same]
    dsimp only
    refine alike.define fun v ty defined => (tampers v _).trans ?_
    refine settled.result_agree member plain (fun w _ => alike w) (fun constant => ?_) _ defined
    rw [constants p.inst member constant]
    exact nofun

theorem merge_alike (settled : s.Settled live) (tampers : Tampers live store) {o : Option Label} {env other : Env α}
    (before : Alike live env other) {phis : List Placed} (members : ∀ p ∈ phis, p.inst ∈ s.func.insts)
    (leading : ∀ p ∈ phis, p.inst.opcode = .phi) {one two : Env α} (alike : Alike live one two) :
    Alike live
      ((phis.map (·.inst)).foldl (fun next i => Env.define next store i (m.merge s env o i)) one)
      ((phis.map (·.inst)).foldl (fun next i => Env.define next (fun _ d => d) i (m.merge s other o i)) two) := by
  induction phis generalizing one two with
  | nil => exact alike
  | cons p rest ih =>
    obtain ⟨member, members⟩ := List.forall_mem_cons.mp members
    obtain ⟨phi, leading⟩ := List.forall_mem_cons.mp leading
    refine ih members leading (alike.define fun v ty defined => (tampers v _).trans ?_)
    exact settled.phi_agree member phi (fun pair _ _ => before pair.1) defined

theorem tampered_lockstep (settled : s.Settled live) (constants : ∀ i ∈ s.func.insts, i.isConstant → i.values = [])
    {store : Nat → Store α} (tampers : ∀ time, Tampers live (store time)) :
    m.Lockstep s s store faithful fun _ _ => Alike live := by
  refine ⟨fun v => tampers 0 v _, fun origin b env other alike effects time => ?_⟩
  cases found : s.func.blocks[b.index]? with
  | none => exact .inl ⟨rfl, rfl⟩
  | some block =>
    refine .inr ⟨block, block, rfl, rfl, ?_⟩
    have members : ∀ p ∈ block, p.inst ∈ s.func.insts :=
      fun p here => Func.mem_insts.mpr ⟨b, block, found, List.mem_map_of_mem here⟩
    obtain ⟨phis, rest, last, rfl, leading, ordinary, final, ends⟩ :=
      (settled.well.shaped block (List.mem_of_getElem? found)).phis_first
    have merged := settled.merge_alike (m := m) (tampers time) (o := origin) alike
      (fun p here => members p (List.mem_append_left rest here)) leading alike
    obtain ⟨after, same⟩ := settled.body_alike (x := ⟨_, effects⟩) (y := ⟨_, effects⟩) (tampers time) constants
      (fun p here => members p (List.mem_append_right phis here)) ordinary merged rfl
    have read := WellFormed.operands_equal settled.closed (members last (List.mem_of_getLast? final)) (.inr ends)
      fun w _ => after w
    have exits := SameExit.of_values (m := m) (ρ := id) same read
    rw [last.inst.mapValues_id] at exits
    rw [List.getLast?_map, final, through_append leading ordinary fun _ => rfl, through_append leading ordinary fun _ => rfl]
    exact ⟨exits, fun c _ => after⟩

end Settled

theorem dead_lanes_unobservable {s : Scope} (accepted : s.check = .ok ()) (typed : s.Typed) (phisTyped : s.PhisTyped)
    (plain : ∀ i ∈ s.func.insts, i.opcode ≠ .constComposite)
    (constants : ∀ i ∈ s.func.insts, i.opcode = .const → i.values = []) :
    ∃ found events, s.liveness = .ok (found, events) ∧
      ∀ {α : Type} (m : Interp α) (store : Nat → Store α), (∀ time, Tampers found.live (store time)) →
        ∀ n, (m.run s store n).seen = (m.run s faithful n).seen := by
  have well := check_ok.mp accepted
  obtain ⟨found, events, ran, closed, held⟩ := well.liveness_ok typed
  have settled : s.Settled found.live := ⟨well, held, closed, phisTyped⟩
  have bare : ∀ i ∈ s.func.insts, i.isConstant → i.values = [] := fun i member constant =>
    constant.elim (constants i member) fun composite => absurd composite (plain i member)
  exact ⟨found, events, ran, fun m store tampers n => (settled.tampered_lockstep bare tampers).seen n⟩

theorem dead_lanes_unobservable_looped : ∃ found events, looped.liveness = .ok (found, events) ∧
    ∀ {α : Type} (m : Interp α) (store : Nat → Store α), (∀ time, Tampers found.live (store time)) →
      ∀ n, (m.run looped store n).seen = (m.run looped faithful n).seen :=
  dead_lanes_unobservable (by decide +kernel) (by decide +kernel) (by decide +kernel) (by decide +kernel)
    (by decide +kernel)

-- A constant with an operand, which no rule asks for.
def sealed : Scope :=
  { types := ⟨[.float 32, .vector ⟨0⟩ 2, .pointer ⟨1⟩ .output], by decide⟩
    globals := ⟨[(⟨1⟩, ⟨⟨1⟩, .undef⟩), (⟨2⟩, ⟨⟨0⟩, .constant 0⟩), (⟨3⟩, ⟨⟨2⟩, .variable .output⟩)]⟩
    func := .ofBlocks "sealed" [
      [⟨.insert, some (⟨10⟩, ⟨1⟩), [.value ⟨2⟩, .value ⟨1⟩, .literal 1]⟩,
        ⟨.const, some (⟨11⟩, ⟨1⟩), [.value ⟨10⟩]⟩,
        ⟨.store, none, [.value ⟨3⟩, .value ⟨11⟩]⟩, ⟨.ret, none, []⟩]] }

-- Values are known by their numbers, and all other results are what their
-- first operand has in lane 1.
def second : Interp Nat :=
  { start := fun v => .atom v.id
    blank := fun v _ => .atom v.id
    compute := fun _ _ _ _ args _ => (args.headD (.atom 0)).lane 1
    choose := fun _ => 0 }

def stored : List (Effect Nat) → Option Nat
  | [⟨_, _, _, [_, .atom n]⟩] => some n
  | _ => none

theorem sealed_tampering_seen : sealed.check = .ok () ∧ sealed.Typed ∧ sealed.Dominated ∧ sealed.PhisTyped ∧
    (∀ i ∈ sealed.func.insts, i.opcode ≠ .constComposite) ∧
    ∃ found events, sealed.liveness = .ok (found, events) ∧ ∃ (m : Interp Nat) (store : Nat → Store Nat),
      (∀ time, Tampers found.live (store time)) ∧ ∃ n, (m.run sealed store n).seen ≠ (m.run sealed faithful n).seen := by
  have accepted : sealed.check = .ok () := by decide +kernel
  have typed : sealed.Typed := by decide +kernel
  have dominated : sealed.DominatedBy fun _ => [] := by decide +kernel
  obtain ⟨found, events, ran, -⟩ := (check_ok.mp accepted).liveness_ok typed
  refine ⟨accepted, typed, dominated.dominated, by decide +kernel, by decide +kernel, found, events, ran, second,
    fun _ v x => if v = ⟨10⟩ then .atom 7 else x, fun _ v x => ?_, 1, fun same => ?_⟩
  · have empty : sealed.liveness.toOption.map (fun answer => answer.1.live ⟨10⟩) = some .empty := by decide +kernel
    rw [ran] at empty
    dsimp only
    split
    · rename_i here
      rw [here, show found.live ⟨10⟩ = .empty from Option.some.inj empty]
      exact Datum.agree_empty _ _
    · exact Datum.Agree.refl _ _
  · exact absurd (congrArg (fun trace => stored trace.2.1) same) (by decide +kernel)

end Scope

end DeadLanes
