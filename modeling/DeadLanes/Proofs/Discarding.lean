import DeadLanes.Proofs.Lockstep
import DeadLanes.Proofs.Upkeep

namespace DeadLanes

open Interp

namespace Func

def Gone (f : Func) (gone : List InstRef) (v : Value) : Prop := ∃ p ∈ f.placed, p.ref ∈ gone ∧ p.inst.result? = some v

theorem Idle.not_gone {f : Func} {gone : List InstRef} (idle : f.Idle gone) {p : Placed} (placed : p ∈ f.placed)
    (stays : p.ref ∉ gone) {v : Value} (named : v ∈ p.inst.values) : ¬ f.Gone gone v := by
  intro ⟨q, there, listed, result⟩
  exact stays ((idle q there listed).2 v result p placed named)

-- The one run still computes what the other has lost.
def Spared (f : Func) (gone : List InstRef) (x y : Env α) : Prop := ∀ v, ¬ f.Gone gone v → x v = y v

theorem Spared.skip {f : Func} {gone : List InstRef} {x y : Env α} (spared : f.Spared gone x y) {p : Placed}
    (placed : p ∈ f.placed) (listed : p.ref ∈ gone) (store : Store α) (one : Value → TypeRef → Datum α) :
    f.Spared gone (x.define store p.inst one) y := by
  intro v kept
  unfold Env.define
  cases defined : p.inst.defines with
  | none => exact spared v kept
  | some pair =>
    dsimp only [Env.put]
    rw [if_neg]
    · exact spared v kept
    · intro same
      exact kept ⟨p, placed, listed, Inst.result?_eq_some.mpr ⟨pair.2, same ▸ defined⟩⟩

theorem Spared.define {f : Func} {gone : List InstRef} {x y : Env α} (spared : f.Spared gone x y) {i : Inst}
    (store : Store α) {one two : Value → TypeRef → Datum α} (same : ∀ u ty, one u ty = two u ty) :
    f.Spared gone (x.define store i one) (y.define store i two) := by
  intro v kept
  unfold Env.define
  cases i.defines with
  | none => exact spared v kept
  | some pair =>
    dsimp only [Env.put]
    rw [same]
    split
    · rfl
    · exact spared v kept

end Func

namespace Scope

variable {s : Scope} {gone : List InstRef} {m : Interp α}

theorem phis_spared (idle : s.func.Idle gone) {o : Option Label} {env other : Env α}
    (before : s.func.Spared gone env other) {phis : List Placed} (members : ∀ p ∈ phis, p ∈ s.func.placed)
    {x y : Env α} (spared : s.func.Spared gone x y) :
    s.func.Spared gone
      ((phis.map (·.inst)).foldl (fun next i => Env.define next (fun _ d => d) i (m.merge s env o i)) x)
      (((phis.filter (·.ref ∉ gone)).map (·.inst)).foldl
        (fun next i => Env.define next (fun _ d => d) i (m.merge (s.discarded gone) other o i)) y) := by
  induction phis generalizing x y with
  | nil => exact spared
  | cons p rest ih =>
    obtain ⟨placed, members⟩ := List.forall_mem_cons.mp members
    by_cases listed : p.ref ∈ gone
    · rw [List.filter_cons_of_neg (by simpa using listed)]
      exact ih members (spared.skip placed listed _ _)
    · rw [List.filter_cons_of_pos (by simpa using listed)]
      refine ih members (spared.define _ fun u ty => ?_)
      unfold merge
      split
      · rename_i w c found
        have flows : (w, c) ∈ p.inst.incoming := List.mem_of_find?_eq_some found
        exact before w (idle.not_gone placed listed (Inst.mem_incoming flows))
      · rfl

theorem body_spared (well : s.WellFormed) (idle : s.func.Idle gone) {rest : List Placed}
    (members : ∀ p ∈ rest, p ∈ s.func.placed) {x y : Frame α} (spared : s.func.Spared gone x.env y.env)
    (effects : x.effects = y.effects) :
    s.func.Spared gone ((rest.map (·.inst)).foldl (m.exec s fun _ d => d) x).env
        (((rest.filter (·.ref ∉ gone)).map (·.inst)).foldl (m.exec (s.discarded gone) fun _ d => d) y).env ∧
      ((rest.map (·.inst)).foldl (m.exec s fun _ d => d) x).effects =
        (((rest.filter (·.ref ∉ gone)).map (·.inst)).foldl (m.exec (s.discarded gone) fun _ d => d) y).effects := by
  induction rest generalizing x y with
  | nil => exact ⟨spared, effects⟩
  | cons p rest ih =>
    obtain ⟨placed, members⟩ := List.forall_mem_cons.mp members
    by_cases listed : p.ref ∈ gone
    · rw [List.filter_cons_of_neg (by simpa using listed)]
      -- What is erased was never seen, so only the environment knows of it.
      have silent := (Opcode.isPure_iff.mp (idle p placed listed).1).1
      refine ih members ?_ ?_
      · exact spared.skip placed listed (fun _ d => d) (m.produce s x.env (performed p.inst x) p.inst)
      · exact (if_neg (by simp [silent])).trans effects
    · rw [List.filter_cons_of_pos (by simpa using listed)]
      have same : ∀ w ∈ p.inst.values, x.env w = y.env w :=
        fun w named => spared w (idle.not_gone placed listed named)
      have action : performed p.inst x = performed p.inst y := by
        unfold performed
        rw [effects, List.map_congr_left same]
      have stays : p.inst ∈ (s.func.discard gone).insts := Func.mem_insts_discard.mpr ⟨p.ref, placed, listed⟩
      have width : ∀ w ∈ p.inst.values, (s.discarded gone).width? w = s.width? w :=
        fun w named => width_discarded well.distinct idle stays (List.mem_append_right _ named)
      refine ih members (Func.Spared.define (i := p.inst) spared (fun _ d => d) fun u ty => ?_) action
      have renamed : m.produce (s.discarded gone) y.env (performed p.inst y) (p.inst.mapValues id) u ty =
          m.produce s y.env (performed p.inst y) p.inst u ty :=
        produce_mapValues (s := s) (t := s.discarded gone) (ρ := id) rfl width _
      rw [p.inst.mapValues_id] at renamed
      rw [action, renamed]
      exact produce_congr same

theorem discarded_lockstep (well : s.WellFormed) (idle : s.func.Idle gone) (m : Interp α) :
    m.Lockstep s (s.discarded gone) faithful faithful fun _ _ => s.func.Spared gone := by
  refine ⟨fun _ _ => rfl, fun origin b x y before effects time => ?_⟩
  have left := s.func.block_discard gone b.index
  cases found : s.func.blocks[b.index]? with
  | none => exact .inl ⟨rfl, left.trans (congrArg (Option.map _) found)⟩
  | some block =>
    refine .inr ⟨block, block.filter (·.ref ∉ gone), rfl, left.trans (congrArg (Option.map _) found), ?_⟩
    have members : ∀ p ∈ block, p ∈ s.func.placed := fun p here => Func.mem_placed_of_block found here
    have shaped := well.shaped block (List.mem_of_getElem? found)
    have exit := (well.shaped_discard idle (List.mem_of_getElem? found)).2
    obtain ⟨phis, rest, last, rfl, leading, ordinary, final, ends⟩ := shaped.phis_first
    have merged := phis_spared (m := m) (o := origin) idle before
      (fun p here => members p (List.mem_append_left rest here)) before
    obtain ⟨after, same⟩ := body_spared (m := m) well idle (x := ⟨_, effects⟩) (y := ⟨_, effects⟩)
      (fun p here => members p (List.mem_append_right phis here)) merged rfl
    have stays : last.ref ∉ gone := by
      intro listed
      have lone := (Opcode.isPure_iff.mp (idle last (members last (List.mem_of_getLast? final)) listed).1).2
      cases ends.symm.trans lone
    have read : ∀ w ∈ last.inst.values, _ = _ :=
      fun w named => after w (idle.not_gone (members last (List.mem_of_getLast? final)) stays named)
    have exits' := SameExit.of_values (m := m) (ρ := id) same read
    rw [last.inst.mapValues_id] at exits'
    rw [List.getLast?_map, List.getLast?_map, exit, final, List.filter_append, through_append leading ordinary fun _ => rfl,
      through_append (fun p here => leading p (List.mem_filter.mp here).1)
        (fun p here => ordinary p (List.mem_filter.mp here).1) fun _ => rfl]
    exact ⟨exits', fun c _ => after⟩

end Scope

end DeadLanes
