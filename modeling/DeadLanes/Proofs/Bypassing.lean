import DeadLanes.Proofs.Dominance
import DeadLanes.Proofs.Noninterference
import DeadLanes.Proofs.Reanalysis

namespace DeadLanes

open Interp

namespace Scope

def Rigid (s : Scope) (v : Value) : Prop :=
  v ∈ s.globals.values ∨ ∃ i ∈ s.func.insts, i.result? = some v ∧ (i.opcode = .undef ∨ i.isConstant)

def ConstantsRigid (s : Scope) : Prop := ∀ i ∈ s.func.insts, i.isConstant → ∀ v ∈ i.values, s.Rigid v

instance (s : Scope) : Decidable s.ConstantsRigid := by
  unfold ConstantsRigid Rigid Inst.isConstant
  infer_instance

-- Nor does the result of a root depend on lanes that are not live: it reads all
-- of its operands.
def Steady (s : Scope) (v : Value) : Prop :=
  s.Rigid v ∨ ∃ i ∈ s.func.insts, i.result? = some v ∧ (Analysis.ofScope s).isRoot i = true

def ConstantsSteady (s : Scope) : Prop := ∀ i ∈ s.func.insts, i.isConstant → ∀ v ∈ i.values, s.Steady v

instance (s : Scope) : Decidable s.ConstantsSteady := by
  unfold ConstantsSteady Steady Rigid Inst.isConstant
  infer_instance

structure Orderly (s : Scope) : Prop where
  well : s.WellFormed
  typed : s.Typed
  phisTyped : s.PhisTyped
  dominated : s.Dominated
  constants : s.ConstantsRigid

structure Reliable (s : Scope) : Prop where
  well : s.WellFormed
  typed : s.Typed
  phisTyped : s.PhisTyped
  dominated : s.Dominated
  constants : s.ConstantsSteady

theorem Orderly.reliable {s : Scope} (orderly : s.Orderly) : s.Reliable :=
  ⟨orderly.well, orderly.typed, orderly.phisTyped, orderly.dominated,
    fun i member constant v named => .inl (orderly.constants i member constant v named)⟩

structure Bypassing (s : Scope) (live : Value → LaneSet) (r : InstRef) (v base : Value) : Prop where
  reliable : s.Reliable
  held : (Analysis.ofScope s).Held live
  closed : (Analysis.ofScope s).Closed live
  dead : s.func.DeadInsert s.view live r v base
  differs : v ≠ base

def bypassed (s : Scope) (v base : Value) : Scope := { s with func := s.func.mapValues (Value.subst v base) }

-- The two runs at a point past the instructions `front` of a block. Where the
-- insert has been passed for sure, its result differs from the base in dead
-- lanes only.
structure Tracks (s : Scope) (live : Value → LaneSet) (v base : Value) (b : Label) (front : List Placed)
    (x y : Env α) : Prop where
  alike : Alike live x y
  steady : ∀ w, s.Steady w → x w = y w
  synced : s.func.Ready b front v → Datum.Agree (live v) (x v) (x base)

namespace Bypassing

variable {s : Scope} {live : Value → LaneSet} {r : InstRef} {v base : Value} {m : Interp α}

theorem settled (bypassing : s.Bypassing live r v base) : s.Settled live :=
  ⟨bypassing.reliable.well, bypassing.held, bypassing.closed, bypassing.reliable.phisTyped⟩

theorem own (bypassing : s.Bypassing live r v base) : v ∉ s.globals.values :=
  bypassing.reliable.well.own_of_dead bypassing.dead

theorem parsed (bypassing : s.Bypassing live r v base) {i : Inst} (member : i ∈ s.func.insts)
    (result : i.result? = some v) : ∃ obj lane, i.asInsert? = some (obj, base, lane) ∧ (live v).contains lane = false := by
  obtain ⟨q, placed⟩ := Func.mem_insts_iff_placed.mp member
  exact bypassing.dead.parsed bypassing.reliable.well.distinct placed result

theorem not_steady (bypassing : s.Bypassing live r v base) : ¬ s.Steady v := by
  intro steady
  rcases steady with (global | ⟨i, member, result, op⟩) | ⟨i, member, result, root⟩
  · exact bypassing.own global
  · obtain ⟨obj, lane, parsed, -⟩ := bypassing.parsed member result
    have insert := (Inst.asInsert?_eq_some.mp parsed).1
    rcases op with op | op | op <;> cases insert.symm.trans op
  · obtain ⟨j, _, _, there, again, -⟩ := bypassing.dead.placed
    obtain ⟨q, placed⟩ := Func.mem_insts_iff_placed.mp member
    cases Func.defined_once bypassing.reliable.well.distinct there placed again result
    cases root.symm.trans (demands_dead bypassing.dead there (le_refl (live v))).1

theorem live_le (bypassing : s.Bypassing live r v base) : live v ≤ live base :=
  bypassing.settled.well.live_le_base bypassing.held bypassing.closed bypassing.dead

theorem le_subst (bypassing : s.Bypassing live r v base) (w : Value) : live w ≤ live (Value.subst v base w) := by
  unfold Value.subst
  split
  · rename_i same
    exact same ▸ bypassing.live_le
  · exact le_refl _

theorem width_subst (bypassing : s.Bypassing live r v base) (w : Value) :
    (s.bypassed v base).width? (Value.subst v base w) = s.width? w := by
  rw [bypassed, width?, ty?_mapValues, bypassing.settled.well.ty?_subst bypassing.dead, width?]

theorem subst_agree (bypassing : s.Bypassing live r v base) {x y : Env α} (alike : Alike live x y) {w : Value}
    (synced : w = v → Datum.Agree (live v) (x v) (x base)) :
    Datum.Agree (live w) (x w) (y (Value.subst v base w)) := by
  unfold Value.subst
  split
  · rename_i same
    subst same
    exact (synced rfl).trans ((alike base).mono bypassing.live_le)
  · exact alike w

theorem subst_steady (bypassing : s.Bypassing live r v base) {x y : Env α} (same : ∀ w, s.Steady w → x w = y w)
    {w : Value} (steady : s.Steady w) : x w = y (Value.subst v base w) := by
  unfold Value.subst
  split
  · rename_i here
    exact absurd (here ▸ steady) bypassing.not_steady
  · exact same w steady

theorem steady_result (bypassing : s.Bypassing live r v base) {i : Inst} (member : i ∈ s.func.insts) {u : Value}
    (result : i.result? = some u) (steady : s.Steady u) :
    (i.opcode = .undef ∨ i.isConstant) ∨ (Analysis.ofScope s).isRoot i = true := by
  obtain ⟨q, there⟩ := Func.mem_insts_iff_placed.mp member
  have only : ∀ j ∈ s.func.insts, j.result? = some u → j = i := by
    intro j inside again
    obtain ⟨q', placed⟩ := Func.mem_insts_iff_placed.mp inside
    exact congrArg Placed.inst (Func.defined_once bypassing.settled.well.distinct placed there again result)
  rcases steady with (global | ⟨j, inside, again, op⟩) | ⟨j, inside, again, root⟩
  · exact absurd global (bypassing.settled.well.fresh u (Func.mem_results.mpr ⟨_, there, result⟩))
  · exact .inl (only j inside again ▸ op)
  · exact .inr (only j inside again ▸ root)

theorem define (bypassing : s.Bypassing live r v base) {b : Label} {before : List Label}
    (path : s.func.Path (b :: before)) {front back : List Placed} {p : Placed}
    (found : s.func.blocks[b.index]? = some (front ++ p :: back)) {x y : Env α}
    (tracks : Tracks s live v base b front x y) {one two : Value → TypeRef → Datum α}
    (agree : ∀ u ty, p.inst.defines = some (u, ty) → Datum.Agree (live u) (one u ty) (two u ty))
    (steady : ∀ u ty, p.inst.defines = some (u, ty) → s.Steady u → one u ty = two u ty)
    (synced : ∀ ty, p.inst.defines = some (v, ty) → Datum.Agree (live v) (one v ty) (x base)) :
    Tracks s live v base b (front ++ [p]) (x.define (fun _ d => d) p.inst one) (y.define (fun _ d => d) p.inst two) := by
  refine ⟨tracks.alike.define agree, fun w same => ?_, fun ready => ?_⟩
  · unfold Env.define
    cases defined : p.inst.defines with
    | none => exact tracks.steady w same
    | some pair =>
      dsimp only [Env.put]
      split
      · rename_i here
        exact steady pair.1 pair.2 defined (here ▸ same)
      · exact tracks.steady w same
  · unfold Env.define
    cases defined : p.inst.defines with
    | none =>
      refine tracks.synced (ready.imp_left fun ⟨q, member, result⟩ => ⟨q, ?_, result⟩)
      apply (List.mem_append.mp member).resolve_right
      intro last
      rw [List.mem_singleton.mp last, Inst.result?, defined] at result
      cases result
    | some pair =>
      obtain ⟨u, ty⟩ := pair
      have result : p.inst.result? = some u := Inst.result?_eq_some.mpr ⟨ty, defined⟩
      have earlier : u ≠ v → s.func.Ready b front v := by
        intro other
        refine ready.imp_left fun ⟨q, member, again⟩ => ⟨q, ?_, again⟩
        apply (List.mem_append.mp member).resolve_right
        intro last
        rw [List.mem_singleton.mp last, result] at again
        exact other (Option.some.inj again)
      dsimp only [Env.put]
      by_cases here : v = u
      · subst here
        rw [if_pos rfl, if_neg bypassing.differs.symm]
        exact synced ty defined
      · rw [if_neg here]
        have before := earlier fun same => here same.symm
        -- The base cannot change once the insert made from it is there.
        by_cases there : base = u
        · subst there
          exact absurd before (bypassing.reliable.dominated.not_ready bypassing.settled.well bypassing.dead path found result)
        · rw [if_neg there]
          exact tracks.synced before

theorem member (_ : s.Bypassing live r v base) {b : Label} {front back : List Placed} {p : Placed}
    (found : s.func.blocks[b.index]? = some (front ++ p :: back)) : p.inst ∈ s.func.insts :=
  Func.mem_insts_iff_placed.mpr ⟨p.ref, Func.mem_placed_of_block found (by simp)⟩

theorem operand_agree (bypassing : s.Bypassing live r v base) {b : Label} {front back : List Placed} {p : Placed}
    (found : s.func.blocks[b.index]? = some (front ++ p :: back)) (ordinary : p.inst.opcode ≠ .phi) {x y : Env α}
    (tracks : Tracks s live v base b front x y) (w : Value) (named : w ∈ p.inst.values) :
    Datum.Agree (live w) (x w) (y (Value.subst v base w)) := by
  refine bypassing.subst_agree tracks.alike fun same => tracks.synced ?_
  exact bypassing.reliable.dominated.ready_operand found ordinary (same ▸ named) bypassing.own

theorem insert_synced (bypassing : s.Bypassing live r v base) {i : Inst} (member : i ∈ s.func.insts) {ty : TypeRef}
    (defined : i.defines = some (v, ty)) (env : Env α) (past : List (Effect α)) :
    Datum.Agree (live v) (m.produce s env past i v ty) (env base) := by
  obtain ⟨obj, lane, parsed, unread⟩ := bypassing.parsed member (Inst.result?_eq_some.mpr ⟨ty, defined⟩)
  obtain ⟨count, tracked⟩ := Option.isSome_iff_exists.mp bypassing.dead.tracked
  have counted : s.types.lanes? ty = some count :=
    (bypassing.settled.well.lanes_result member defined).trans (LaneView.width_tracked tracked)
  have fits : LaneSet.Fits (some count) (live v) := tracked ▸ bypassing.settled.held.fits v
  simp only [produce, (Inst.asInsert?_eq_some.mp parsed).1, parsed, counted]
  cases set : live v with
  | all =>
    rw [set] at unread
    cases unread
  | lanes mask =>
    intro k here
    have low := fits count mask rfl set k here
    rw [Datum.lane_tabulate _ low, if_neg]
    intro same
    rw [set, ← same] at unread
    exact absurd here (by simpa [LaneSet.contains] using unread)

theorem exec_tracks (bypassing : s.Bypassing live r v base) {b : Label} {before : List Label}
    (path : s.func.Path (b :: before)) {front back : List Placed} {p : Placed}
    (found : s.func.blocks[b.index]? = some (front ++ p :: back)) (ordinary : p.inst.opcode ≠ .phi) {x y : Frame α}
    (tracks : Tracks s live v base b front x.env y.env) (effects : x.effects = y.effects) :
    Tracks s live v base b (front ++ [p]) (m.exec s (fun _ d => d) x p.inst).env
        (m.exec (s.bypassed v base) (fun _ d => d) y (p.inst.mapValues (Value.subst v base))).env ∧
      performed p.inst x = performed (p.inst.mapValues (Value.subst v base)) y := by
  have settled := bypassing.settled
  have member := bypassing.member found
  have operands := bypassing.operand_agree found ordinary tracks
  have same : performed p.inst x = performed (p.inst.mapValues (Value.subst v base)) y := by
    unfold performed
    rw [Inst.opcode_mapValues, Inst.defines_mapValues, Inst.literals_mapValues, Inst.values_mapValues, List.map_map, effects]
    split
    · rename_i visible
      have read := WellFormed.operands_equal settled.closed member (.inl visible) operands
      rw [List.map_congr_left read]
      rfl
    · rfl
  have produced : ∀ u ty, m.produce (s.bypassed v base) y.env (performed p.inst x) (p.inst.mapValues (Value.subst v base)) u ty =
      m.produce s (fun w => y.env (Value.subst v base w)) (performed p.inst x) p.inst u ty :=
    fun u ty => produce_mapValues (s := s) (t := s.bypassed v base) rfl (fun w _ => bypassing.width_subst w) _
  have constant : p.inst.isConstant → ∀ w ∈ p.inst.values, x.env w = y.env (Value.subst v base w) :=
    fun constant w named => bypassing.subst_steady tracks.steady (bypassing.reliable.constants p.inst member constant w named)
  refine ⟨?_, same⟩
  unfold exec
  rw [← same]
  refine bypassing.define path found tracks (fun u ty defined => ?_) (fun u ty defined steady => ?_) fun ty defined => ?_
  · rw [produced]
    exact settled.result_agree member ordinary operands constant _ defined
  · rw [produced]
    rcases bypassing.steady_result member (Inst.result?_eq_some.mpr ⟨ty, defined⟩) steady with (undef | made) | root
    · simp only [produce, undef]
    · exact produce_congr (constant made)
    · have agree := settled.well.produce_agree settled.closed member defined ordinary operands constant m
        (performed p.inst x)
      rwa [Analysis.demanded, if_pos root] at agree
  · exact bypassing.insert_synced member defined x.env _

theorem body_tracks (bypassing : s.Bypassing live r v base) {b : Label} {before : List Label}
    (path : s.func.Path (b :: before)) {front rest : List Placed}
    (found : s.func.blocks[b.index]? = some (front ++ rest)) (ordinary : ∀ p ∈ rest, p.inst.opcode ≠ .phi) {x y : Frame α}
    (tracks : Tracks s live v base b front x.env y.env) (effects : x.effects = y.effects) :
    Tracks s live v base b (front ++ rest) ((rest.map (·.inst)).foldl (m.exec s fun _ d => d) x).env
        ((rest.map fun p => p.inst.mapValues (Value.subst v base)).foldl (m.exec (s.bypassed v base) fun _ d => d) y).env ∧
      ((rest.map (·.inst)).foldl (m.exec s fun _ d => d) x).effects =
        ((rest.map fun p => p.inst.mapValues (Value.subst v base)).foldl
          (m.exec (s.bypassed v base) fun _ d => d) y).effects := by
  induction rest generalizing front x y with
  | nil => exact ⟨by rwa [List.append_nil], effects⟩
  | cons p rest ih =>
    obtain ⟨plain, later⟩ := List.forall_mem_cons.mp ordinary
    obtain ⟨next, same⟩ := bypassing.exec_tracks path found plain tracks effects
    have split : front ++ p :: rest = (front ++ [p]) ++ rest := by simp
    rw [split]
    exact ih (split ▸ found) later next same

structure Follows (s : Scope) (live : Value → LaneSet) (v base : Value) (origin : Option Label) (c : Label) (x y : Env α) :
    Prop where
  alike : Alike live x y
  steady : ∀ w, s.Steady w → x w = y w
  edge : match origin with
    | none => c = Func.entry
    | some b => ∃ before block, s.func.Path (b :: before) ∧ s.func.blocks[b.index]? = some block ∧ c ∈ exits block ∧
        (s.func.Ready b block v → Datum.Agree (live v) (x v) (x base))

theorem Follows.enter {origin : Option Label} {c : Label} {x y : Env α} (follows : Follows s live v base origin c x y) :
    (∃ before, s.func.Path (c :: before)) ∧ Tracks s live v base c [] x y := by
  have edge := follows.edge
  cases origin with
  | none =>
    cases edge
    exact ⟨⟨[], .entry⟩, follows.alike, follows.steady, fun ready => absurd ready (Func.not_ready_entry v)⟩
  | some b =>
    obtain ⟨before, block, path, found, exit, synced⟩ := edge
    exact ⟨⟨_, .step path found exit⟩, follows.alike, follows.steady, fun ready => synced (ready.leave found exit)⟩

theorem Follows.incoming_agree (bypassing : s.Bypassing live r v base) {origin : Option Label} {c : Label} {x y : Env α}
    (follows : Follows s live v base origin c x y) {i : Inst} (member : i ∈ s.func.insts) (pair : Value × Label)
    (flows : pair ∈ i.incoming) (source : some pair.2 = origin) :
    Datum.Agree (live pair.1) (x pair.1) (y (Value.subst v base pair.1)) := by
  apply bypassing.subst_agree follows.alike
  intro same
  have edge := follows.edge
  subst source
  obtain ⟨before, block, path, found, exit, synced⟩ := edge
  refine synced (bypassing.reliable.dominated.ready_incoming found member ?_ bypassing.own)
  exact same ▸ flows

theorem phis_tracks (bypassing : s.Bypassing live r v base) {origin : Option Label} {b : Label} {before : List Label}
    (path : s.func.Path (b :: before)) {env other : Env α} (follows : Follows s live v base origin b env other)
    {front phis back : List Placed} (found : s.func.blocks[b.index]? = some (front ++ (phis ++ back)))
    (leading : ∀ p ∈ phis, p.inst.opcode = .phi) {x y : Env α} (tracks : Tracks s live v base b front x y) :
    Tracks s live v base b (front ++ phis)
      ((phis.map (·.inst)).foldl (fun next i => Env.define next (fun _ d => d) i (m.merge s env origin i)) x)
      ((phis.map fun p => p.inst.mapValues (Value.subst v base)).foldl
        (fun next i => Env.define next (fun _ d => d) i (m.merge (s.bypassed v base) other origin i)) y) := by
  induction phis generalizing front x y with
  | nil => rwa [List.append_nil]
  | cons p rest ih =>
    obtain ⟨phi, later⟩ := List.forall_mem_cons.mp leading
    have settled := bypassing.settled
    rw [List.cons_append] at found
    have member := bypassing.member found
    have merged : ∀ u ty, m.merge (s.bypassed v base) other origin (p.inst.mapValues (Value.subst v base)) u ty =
        m.merge s (fun w => other (Value.subst v base w)) origin p.inst u ty :=
      fun u ty => merge_mapValues (s := s) (t := s.bypassed v base) rfl origin
    have next : Tracks s live v base b (front ++ [p]) (x.define (fun _ d => d) p.inst (m.merge s env origin p.inst))
        (y.define (fun _ d => d) p.inst
          (m.merge (s.bypassed v base) other origin (p.inst.mapValues (Value.subst v base)))) := by
      have incoming := fun pair => Follows.incoming_agree bypassing follows member pair
      refine bypassing.define path found tracks (fun u ty defined => ?_) (fun u ty defined steady => ?_)
        fun ty defined => ?_
      · rw [merged]
        exact settled.phi_agree member phi incoming defined
      · rcases bypassing.steady_result member (Inst.result?_eq_some.mpr ⟨ty, defined⟩) steady with (op | op | op) | root
        · cases phi.symm.trans op
        · cases phi.symm.trans op
        · cases phi.symm.trans op
        · rw [merged]
          have agree : Datum.Agree ((Analysis.ofScope s).demanded live p.inst) (m.merge s env origin p.inst u ty)
              (m.merge s (fun w => other (Value.subst v base w)) origin p.inst u ty) :=
            settled.well.merge_agree settled.held settled.closed settled.phisTyped member phi incoming m u ty
          rwa [Analysis.demanded, if_pos root] at agree
      · obtain ⟨obj, lane, parsed, -⟩ := bypassing.parsed member (Inst.result?_eq_some.mpr ⟨ty, defined⟩)
        cases phi.symm.trans (Inst.asInsert?_eq_some.mp parsed).1
    have split : front ++ p :: rest = (front ++ [p]) ++ rest := by simp
    rw [split]
    refine ih ?_ later next
    rw [found]
    simp

theorem lockstep (bypassing : s.Bypassing live r v base) (m : Interp α) :
    m.Lockstep s (s.bypassed v base) faithful faithful (Follows s live v base) := by
  refine ⟨⟨fun w => Datum.Agree.refl _ _, fun _ _ => rfl, rfl⟩, fun origin b x y follows effects time => ?_⟩
  have renamed := s.func.block_mapValues (Value.subst v base) b.index
  cases found : s.func.blocks[b.index]? with
  | none => exact .inl ⟨rfl, renamed.trans (congrArg (Option.map _) found)⟩
  | some block =>
    refine .inr ⟨block, _, rfl, renamed.trans (congrArg (Option.map _) found), ?_⟩
    have settled := bypassing.settled
    obtain ⟨⟨before, path⟩, tracks⟩ := follows.enter
    obtain ⟨phis, rest, last, rfl, leading, ordinary, final, ends⟩ :=
      (settled.well.shaped block (List.mem_of_getElem? found)).phis_first
    have merged := bypassing.phis_tracks (m := m) path follows (show _ = some ([] ++ (phis ++ rest)) from found) leading tracks
    rw [List.nil_append] at merged
    obtain ⟨after, same⟩ :=
      bypassing.body_tracks (m := m) path found ordinary (x := ⟨_, effects⟩) (y := ⟨_, effects⟩) merged rfl
    obtain ⟨front, split⟩ := List.getLast?_eq_some_iff.mp final
    have here : s.func.blocks[b.index]? = some (front ++ last :: []) := by rw [found, split]
    have operands : ∀ w ∈ last.inst.values, Datum.Agree (live w) _ _ := fun w named =>
      bypassing.subst_agree after.alike fun now => after.synced <|
        (bypassing.reliable.dominated.ready_operand here (Check.not_phi_of_terminator ends) (now ▸ named) bypassing.own).mono
          (split ▸ List.subset_append_left front [last])
    have read := WellFormed.operands_equal settled.closed (bypassing.member here) (.inr ends) operands
    have exits' := SameExit.of_values (m := m) same read
    have insts : ((phis ++ rest).map fun p => { p with inst := p.inst.mapValues (Value.subst v base) }).map (·.inst) =
        (phis ++ rest).map fun p => p.inst.mapValues (Value.subst v base) := List.map_map
    rw [insts, List.getLast?_map, List.getLast?_map, final, through_append leading ordinary fun _ => rfl,
      through_append leading ordinary (g := fun p => p.inst.mapValues (Value.subst v base)) fun _ => rfl]
    refine ⟨exits', fun c goes => ⟨after.alike, after.steady, before, _, path, found, ?_, after.synced⟩⟩
    rw [exits, final]
    exact target_mem goes

theorem view_eq (_ : s.Bypassing live r v base) : (s.bypassed v base).view = s.view := s.view_renamed _

theorem still_closed (bypassing : s.Bypassing live r v base) : (Analysis.ofScope (s.bypassed v base)).Closed live := by
  have raises : s.Raises live (Value.subst v base) := ⟨bypassing.settled.well.ty?_subst bypassing.dead, bypassing.le_subst,
    fun _ => (Func.Bypass.insert bypassing.dead bypassing.differs).unused⟩
  exact raises.closed bypassing.held bypassing.closed

theorem still_reliable (bypassing : s.Bypassing live r v base) : (s.bypassed v base).Reliable := by
  have reliable := bypassing.reliable
  have typed := reliable.well.ty?_subst bypassing.dead
  refine ⟨reliable.well.mapValues typed, reliable.typed.mapValues typed, reliable.phisTyped.mapValues typed,
    reliable.dominated.bypass reliable.well bypassing.dead, fun i member constant u named => ?_⟩
  obtain ⟨j, here, rfl⟩ := Func.mem_insts_mapValues.mp member
  obtain ⟨w, read, rfl⟩ := Inst.mem_values_mapValues.mp named
  have steady := reliable.constants j here constant w read
  have other : w ≠ v := fun same => bypassing.not_steady (same ▸ steady)
  rw [Value.subst, if_neg other]
  rcases steady with (global | ⟨k, there, result, op⟩) | ⟨k, there, result, root⟩
  · exact .inl (.inl global)
  · exact .inl (.inr ⟨k.mapValues (Value.subst v base), Func.mem_insts_mapValues.mpr ⟨k, there, rfl⟩, result, op⟩)
  · refine .inr ⟨k.mapValues (Value.subst v base), Func.mem_insts_mapValues.mpr ⟨k, there, rfl⟩, result, ?_⟩
    refine root_after typed (fun u again => ?_) root
    cases again.symm.trans result
    exact if_neg other

end Bypassing

end Scope

end DeadLanes
