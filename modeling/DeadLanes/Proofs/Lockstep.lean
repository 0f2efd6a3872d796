import DeadLanes.Proofs.Acceptance
import DeadLanes.Proofs.Meaning
import DeadLanes.Proofs.Rewriting

namespace DeadLanes

-- Two runs, of one function or of two, that go through the same blocks.

theorem Shaped.phis_first {block : List Placed} (shaped : Shaped (block.map (·.inst))) : ∃ phis rest last,
    block = phis ++ rest ∧ (∀ p ∈ phis, p.inst.opcode = .phi) ∧ (∀ p ∈ rest, p.inst.opcode ≠ .phi) ∧
      block.getLast? = some last ∧ last.inst.opcode.terminator = true := by
  obtain ⟨phis, body, last, split, first, middle, ends⟩ := shaped
  obtain ⟨front, rest, rfl, rfl, tail⟩ := List.map_eq_append_iff.mp split
  obtain ⟨inner, final, rfl, rfl, single⟩ := List.map_eq_append_iff.mp tail
  obtain ⟨p, rfl, rfl⟩ := List.map_eq_singleton_iff.mp single
  refine ⟨front, inner ++ [p], p, rfl, fun q member => first _ (List.mem_map_of_mem member), fun q member => ?_,
    by simp, ends⟩
  rcases List.mem_append.mp member with within | here
  · exact (middle _ (List.mem_map_of_mem within)).1
  · rw [List.mem_singleton.mp here]
    exact Check.not_phi_of_terminator ends

namespace Interp

theorem through_append {m : Interp α} {s : Scope} {store : Store α} {env : Env α} {effects : List (Effect α)}
    {origin : Option Label} {phis rest : List Placed} (leading : ∀ p ∈ phis, p.inst.opcode = .phi)
    (ordinary : ∀ p ∈ rest, p.inst.opcode ≠ .phi) {g : Placed → Inst} (same : ∀ p, (g p).opcode = p.inst.opcode) :
    m.through s store env effects origin ((phis ++ rest).map g) =
      (rest.map g).foldl (m.exec s store) ⟨m.mergeAll s store env origin (phis.map g), effects⟩ := by
  have all : ∀ i ∈ phis.map g, isPhi i = true := by
    intro i member
    obtain ⟨p, here, rfl⟩ := List.mem_map.mp member
    exact decide_eq_true ((same p).trans (leading p here))
  have none : (rest.map g).takeWhile isPhi = [] ∧ (rest.map g).dropWhile isPhi = rest.map g := by
    cases rest with
    | nil => exact ⟨rfl, rfl⟩
    | cons p others =>
      have plain : isPhi (g p) = false := decide_eq_false fun phi => ordinary p List.mem_cons_self ((same p).symm.trans phi)
      exact ⟨List.takeWhile_cons_of_neg (by simp [plain]), List.dropWhile_cons_of_neg (by simp [plain])⟩
  rw [through, List.map_append, List.takeWhile_append_of_pos all, List.dropWhile_append_of_pos all, none.1, none.2,
    List.append_nil]

section

variable {m : Interp α} {s t : Scope} {ρ : Value → Value} {i : Inst} {env : Env α} {v : Value} {ty : TypeRef}

theorem produce_mapValues (types : t.types = s.types) (width : ∀ w ∈ i.values, t.width? (ρ w) = s.width? w)
    (past : List (Effect α)) :
    m.produce t env past (i.mapValues ρ) v ty = m.produce s (fun w => env (ρ w)) past i v ty := by
  have spreads : ((i.mapValues ρ).values.flatMap fun w => (env w).spread (t.width? w)) =
      i.values.flatMap fun w => (env (ρ w)).spread (s.width? w) := by
    rw [Inst.values_mapValues, List.flatMap_map, List.flatMap_def, List.flatMap_def]
    exact congrArg List.flatten (List.map_congr_left fun w named => by rw [width w named])
  have args : (i.mapValues ρ).values.map env = i.values.map fun w => env (ρ w) := by
    rw [Inst.values_mapValues, List.map_map]
    rfl
  unfold produce
  rw [spreads, args, types, Inst.opcode_mapValues, Inst.literals_mapValues, Inst.asInsert?_mapValues,
    Inst.asExtract?_mapValues, Inst.asShuffle?_mapValues]
  cases op : i.opcode with
  | insert => cases i.asInsert? <;> cases s.types.lanes? ty <;> rfl
  | extract => cases i.asExtract? <;> rfl
  | shuffle =>
    cases parsed : i.asShuffle? with
    | none => rfl
    | some pick =>
      obtain ⟨a, b, sels⟩ := pick
      simp only [Option.map_some, width a (by simp [Inst.asShuffle?_values parsed])]
  | _ => rfl

theorem merge_mapValues (types : t.types = s.types) (origin : Option Label) :
    m.merge t env origin (i.mapValues ρ) v ty = m.merge s (fun w => env (ρ w)) origin i v ty := by
  unfold merge
  rw [Inst.incoming_mapValues, List.find?_map, types]
  simp only [Function.comp_def]
  cases i.incoming.find? fun pair => some pair.2 = origin with
  | none => rfl
  | some pair => rfl

end

-- Two frames from which control goes on alike: the same effects, the same
-- target, and the same answer where there is no target.
structure SameExit (m : Interp α) (x y : Frame α) (last other : Option Inst) : Prop where
  effects : x.effects = y.effects
  target : last.bind (m.target x.env) = other.bind (m.target y.env)
  answer : (last.map fun i => (i.opcode, i.values.map x.env)) = other.map fun i => (i.opcode, i.values.map y.env)

theorem SameExit.of_values {m : Interp α} {x y : Frame α} {last : Inst} {ρ : Value → Value}
    (effects : x.effects = y.effects) (same : ∀ w ∈ last.values, x.env w = y.env (ρ w)) :
    m.SameExit x y (some last) (some (last.mapValues ρ)) := by
  have args : last.values.map x.env = (last.mapValues ρ).values.map y.env := by
    rw [Inst.values_mapValues, List.map_map]
    exact List.map_congr_left same
  refine ⟨effects, ?_, ?_⟩
  · rw [Option.bind_some, Option.bind_some, Interp.target, Interp.target, Inst.opcode_mapValues, Inst.successors_mapValues, args]
  · rw [Option.map_some, Option.map_some, args, Inst.opcode_mapValues]

theorem target_mem {m : Interp α} {env : Env α} {i : Inst} {c : Label} (goes : m.target env i = some c) :
    c ∈ i.successors := by
  unfold target at goes
  split at goes
  · exact List.mem_of_mem_head? goes
  · exact List.mem_of_getElem? goes
  · cases goes

-- A relation between environments on each edge, which blocks carry from the
-- edges into them to the edges out of them.
structure Lockstep (m : Interp α) (s t : Scope) (one two : Nat → Store α)
    (R : Option Label → Label → Env α → Env α → Prop) : Prop where
  start : R none Func.entry (fun v => one 0 v (m.start v)) fun v => two 0 v (m.start v)
  blocks : ∀ origin b x y, R origin b x y → ∀ effects time,
    s.func.blocks[b.index]? = none ∧ t.func.blocks[b.index]? = none ∨
    ∃ block other, s.func.blocks[b.index]? = some block ∧ t.func.blocks[b.index]? = some other ∧
      m.SameExit (m.through s (one time) x effects origin (block.map (·.inst)))
        (m.through t (two time) y effects origin (other.map (·.inst)))
        (block.map (·.inst)).getLast? (other.map (·.inst)).getLast? ∧
      ∀ c, (block.map (·.inst)).getLast?.bind
          (m.target (m.through s (one time) x effects origin (block.map (·.inst))).env) = some c →
        R (some b) c (m.through s (one time) x effects origin (block.map (·.inst))).env
          (m.through t (two time) y effects origin (other.map (·.inst))).env

variable {m : Interp α} {s t : Scope} {one two : Nat → Store α} {R : Option Label → Label → Env α → Env α → Prop}

theorem Lockstep.step (lockstep : m.Lockstep s t one two R) {x y : Machine α} (seen : x.seen = y.seen)
    (ahead : x.ahead = y.ahead) (related : ∀ origin b, x.ahead = some (origin, b) → R origin b x.env y.env) :
    (m.step s one x).seen = (m.step t two y).seen ∧ (m.step s one x).ahead = (m.step t two y).ahead ∧
      ∀ origin b, (m.step s one x).ahead = some (origin, b) → R origin b (m.step s one x).env (m.step t two y).env := by
  unfold Interp.step
  rw [← ahead]
  cases onward : x.ahead with
  | none => exact ⟨seen, ahead, fun origin b here => absurd here (by simp [onward])⟩
  | some edge =>
    obtain ⟨origin, b⟩ := edge
    have entered : y.entered = x.entered := (congrArg (·.1) seen).symm
    have effects : y.effects = x.effects := (congrArg (·.2.1) seen).symm
    dsimp only
    rw [entered, effects]
    rcases lockstep.blocks origin b x.env y.env (related origin b onward) x.effects (x.entered.length + 1) with
      ⟨none, nowhere⟩ | ⟨block, other, found, there, same, next⟩
    · rw [none, nowhere]
      have answer : x.answer = y.answer := congrArg (·.2.2) seen
      exact ⟨congrArg (fun a => (x.entered, x.effects, a)) answer, rfl, nofun⟩
    · rw [found, there]
      dsimp only [Interp.leave, Machine.seen]
      rw [same.effects, same.target, same.answer]
      refine ⟨rfl, rfl, fun source c exits => ?_⟩
      obtain ⟨d, target, edge⟩ := Option.map_eq_some_iff.mp exits
      cases edge
      exact next c (same.target.trans target)

theorem Lockstep.seen (lockstep : m.Lockstep s t one two R) (n : Nat) :
    (m.run s one n).seen = (m.run t two n).seen := by
  have all : (m.run s one n).seen = (m.run t two n).seen ∧ (m.run s one n).ahead = (m.run t two n).ahead ∧
      ∀ origin b, (m.run s one n).ahead = some (origin, b) → R origin b (m.run s one n).env (m.run t two n).env := by
    induction n with
    | zero =>
      refine ⟨rfl, rfl, fun origin b here => ?_⟩
      cases here
      exact lockstep.start
    | succ n ih => exact lockstep.step ih.1 ih.2.1 ih.2.2
  exact all.1

end Interp

end DeadLanes
