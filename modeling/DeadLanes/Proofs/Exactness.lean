import DeadLanes.Proofs.Sufficiency
import DeadLanes.Proofs.Lawfulness

namespace DeadLanes

-- The lane rules ask for what matters and for no more: operands that agree on
-- the demands give results that agree on what was asked, and every lane that
-- is demanded can make a difference on its own.

namespace Datum

-- Two values of a type that look alike to whoever reads only the given lanes.
-- What has no lanes is read as a whole or not at all.
def Alike (width : Option Nat) (read : LaneSet) (x y : Datum α) : Prop :=
  match width with
  | some (n + 1) => ∀ k < n + 1, read.contains k = true → x.lane k = y.lane k
  | _ => read ≠ .empty → x = y

namespace Alike

variable {width : Option Nat} {count k : Nat} {read : LaneSet} {x y : Datum α}

theorem refl (width : Option Nat) (read : LaneSet) (x : Datum α) : Alike width read x x := by
  unfold Alike
  split
  · exact fun _ _ _ => rfl
  · exact fun _ => rfl

theorem lane (alike : Alike (some count) read x y) (low : k < count) (here : read.contains k = true) :
    x.lane k = y.lane k := by
  cases count with
  | zero => exact absurd low (Nat.not_lt_zero k)
  | succ n => exact alike k low here

theorem whole (alike : Alike width .all x y) (left : x.Shaped width) (right : y.Shaped width) : x = y := by
  cases width with
  | none => exact alike nofun
  | some count => exact left.ext right fun k low => alike.lane low rfl

end Alike

theorem Shaped.alike {count : Nat} {read : LaneSet} {x y : Datum α} (left : x.Shaped (some count))
    (right : y.Shaped (some count)) (same : ∀ k < count, read.contains k = true → x.lane k = y.lane k) :
    Alike (some count) read x y := by
  cases count with
  | zero => exact fun _ => left.ext right nofun
  | succ n => exact same

end Datum

theorem LaneSet.exists_contains {s : LaneSet} (nonempty : s ≠ .empty) : ∃ k, s.contains k = true := by
  refine Classical.byContradiction fun nowhere => nonempty (le_empty.mp (le_iff_contains.mpr fun k here => ?_))
  exact absurd ⟨k, here⟩ nowhere

def Scope.Shapes (s : Scope) (env : Env α) : Prop := ∀ v, (env v).Shaped (s.width? v)

def Env.ApartAt (env other : Env α) (w : Value) (k : Nat) : Prop :=
  (∀ v, v ≠ w → env v = other v) ∧ ∀ j, j ≠ k → (env w).lane j = (other w).lane j

-- Whoever meets the demands provides all that was asked of the result,
-- wherever control comes from.
def Inst.Suffices (s : Scope) (i : Inst) (v : Value) (ty : TypeRef) (demands : List (Value × LaneSet)) (asked : LaneSet) :
    Prop :=
  ∀ (α : Type) (m : Interp α) (past : List (Effect α)) (origin : Option Label) (env other : Env α),
    s.Shapes env → s.Shapes other →
    (∀ d ∈ demands, Datum.Alike (s.width? d.1) d.2 (env d.1) (other d.1)) →
    Datum.Alike (s.width? v) asked (m.outcome s env past origin i v ty) (m.outcome s other past origin i v ty)

def Inst.Arrives (s : Scope) (b : Label) (i : Inst) (origin : Option Label) : Prop :=
  i.opcode = .phi → ∃ p ∈ s.func.flowGraph.preds b, origin = some p

-- No lane of a tracked vector is demanded in vain.
def Inst.Needs (s : Scope) (b : Label) (i : Inst) (v : Value) (ty : TypeRef) (demands : List (Value × LaneSet))
    (asked : LaneSet) : Prop :=
  ∀ w read, (w, read) ∈ demands → ∀ n, s.view.tracked w = some n → ∀ k < n, read.contains k = true →
    ∀ (α : Type) [Nontrivial α], ∃ (origin : Option Label) (env other : Env α), i.Arrives s b origin ∧
      s.Shapes env ∧ s.Shapes other ∧ env.ApartAt other w k ∧ ∀ (m : Interp α) (past : List (Effect α)),
        ¬ Datum.Alike (s.width? v) asked (m.outcome s env past origin i v ty) (m.outcome s other past origin i v ty)

def LaneRule.movesLanes : LaneRule → Bool
  | terminal | fallback _ => false
  | _ => true

namespace Source

variable {s : Scope} {env other : Env α} {src : Source} {w : Value} {k : Nat}

def Takes (src : Source) (w : Value) (k : Nat) : Prop := src = lane w k ∨ src = whole w

theorem Takes.read_ne (takes : src.Takes w k) (differ : (env w).lane k ≠ (other w).lane k) :
    src.read env ≠ src.read other := by
  rcases takes with rfl | rfl
  · exact differ
  · exact fun same => differ (congrArg (Datum.lane · k) same)

theorem Due.read_eq {demands : List (Value × LaneSet)} (due : src.Due s demands) (left : s.Shapes env)
    (right : s.Shapes other) (alike : ∀ d ∈ demands, Datum.Alike (s.width? d.1) d.2 (env d.1) (other d.1)) :
    src.read env = src.read other := by
  cases src with
  | lane w k =>
    obtain ⟨⟨count, width, low⟩, read, demand, here⟩ := due
    have same := alike (w, read) demand
    rw [width] at same
    exact same.lane low here
  | whole w =>
    obtain ⟨read, demand, all | ⟨plain, here⟩⟩ := due
    · subst all
      exact (alike _ demand).whole (left w) (right w)
    · have same := alike (w, read) demand
      rw [plain] at same
      refine same ?_
      rintro rfl
      rw [LaneSet.contains_empty] at here
      cases here

end Source

theorem Scope.exists_apart [Nonempty α] (s : Scope) {w : Value} {n k : Nat} (width : s.width? w = some n) (low : k < n)
    (x y : Datum α) : ∃ env other : Env α, s.Shapes env ∧ s.Shapes other ∧ env.ApartAt other w k ∧
      (env w).lane k = x ∧ (other w).lane k = y := by
  obtain ⟨a⟩ := ‹Nonempty α›
  let env : Env α := fun v => (s.width? v).elim (.atom a) fun count => .tabulate count fun _ => x
  have here : env w = .tabulate n fun _ => x := by simp only [env, width, Option.elim_some]
  let apart : Datum α := .tabulate n fun j => if j = k then y else x
  have there : env.put w apart w = apart := if_pos rfl
  have shapes : s.Shapes env := by
    intro v
    dsimp only [env]
    cases s.width? v with
    | some count => exact Datum.shaped_tabulate count _
    | none => exact ⟨a, rfl⟩
  refine ⟨env, env.put w apart, shapes, fun v => ?_, ⟨fun v differs => (if_neg differs).symm, fun j differs => ?_⟩, ?_, ?_⟩
  · by_cases same : v = w
    · subst same
      rw [there, width]
      exact Datum.shaped_tabulate n _
    · rw [Env.put, if_neg same]
      exact shapes v
  · rw [there, here]
    by_cases inside : j < n
    · rw [Datum.lane_tabulate _ inside, Datum.lane_tabulate _ inside, if_neg differs]
    · have high := Nat.not_lt.mp inside
      rw [(Datum.shaped_tabulate n _).lane_beyond high, (Datum.shaped_tabulate n _).lane_beyond high]
  · rw [here, Datum.lane_tabulate _ low]
  · rw [there, Datum.lane_tabulate _ low, if_pos rfl]

theorem Datum.exists_unlike (α : Type) [Nontrivial α] {width : Option Nat} {asked : LaneSet} (nonempty : asked ≠ .empty)
    (inside : ∀ n, width = some (n + 1) → ∃ k < n + 1, asked.contains k = true) :
    ∃ x y : Datum α, ¬ Alike width asked x y := by
  obtain ⟨a, b, differ⟩ := exists_pair_ne α
  have atoms : (atom a : Datum α) ≠ atom b := fun same => differ (Datum.atom.inj same)
  match width with
  | none | some 0 => exact ⟨atom a, atom b, fun alike => atoms (alike nonempty)⟩
  | some (n + 1) =>
    obtain ⟨k, low, here⟩ := inside n rfl
    refine ⟨tabulate (n + 1) fun _ => atom a, tabulate (n + 1) fun _ => atom b, fun alike => atoms ?_⟩
    have same := alike k low here
    rwa [lane_tabulate _ low, lane_tabulate _ low] at same

namespace LaneRule

variable {s : Scope} {asked : LaneSet} {w : Value} {read : LaneSet} {n k count : Nat}

def Reaches (source : Nat → Option Source) (count : Nat) (asked : LaneSet) (w : Value) (k : Nat) : Prop :=
  ∃ c < count, asked.contains c = true ∧ ∃ src, source c = some src ∧ src.Takes w k

theorem reaches_insert {obj base : Value} {lane : Nat} (filled : asked.isEmpty = false) (width : s.width? base = some count)
    (inside : lane < count) (demand : (w, read) ∈ (insert obj base lane count).demands asked)
    (tracked : s.width? w = some n) (low : k < n) (here : read.contains k = true) (origin : Option Label) :
    Reaches (Source.ofInsert obj base lane origin) count asked w k := by
  have passed : w = base → k ≠ lane → asked.contains k = true →
      Reaches (Source.ofInsert obj base lane origin) count asked w k := by
    rintro rfl other asks
    cases width.symm.trans tracked
    exact ⟨k, low, asks, _, rfl, .inl (if_neg other)⟩
  simp only [demands, filled, Bool.false_eq_true, if_false] at demand
  split at demand
  · rename_i writes
    simp only [List.mem_cons, Prod.mk.injEq, List.not_mem_nil, or_false] at demand
    rcases demand with ⟨rfl, -⟩ | ⟨same, rfl⟩
    · exact ⟨lane, inside, writes, _, rfl, .inr (if_pos rfl)⟩
    · obtain ⟨other, asks, -⟩ := (LaneSet.contains_without asked lane count k).mp here
      exact passed same other asks
  · rename_i writes
    simp only [List.mem_singleton, Prod.mk.injEq] at demand
    obtain ⟨same, rfl⟩ := demand
    exact passed same (fun this => writes (this ▸ here)) here

theorem reaches_construct {vs : List Value} (filled : asked.isEmpty = false)
    (total : (vs.map fun u => (s.width? u).getD 1).sum = count)
    (demand : (w, read) ∈ (construct (vs.map fun u => (u, (s.width? u).getD 1))).demands asked)
    (tracked : s.width? w = some n) (low : k < n) (here : read.contains k = true) (origin : Option Label) :
    Reaches (Source.ofConstruct s vs origin) count asked w k := by
  obtain ⟨before, after, rfl, rfl⟩ := (mem_demands_construct filled).mp demand
  have inside : k < (s.width? w).getD 1 := by rwa [tracked]
  rw [LaneSet.contains_slice asked _ inside] at here
  refine ⟨_, ?_, here, .lane w k, ?_, .inl rfl⟩
  · rw [← total, List.map_append, List.map_cons, List.sum_append, List.sum_cons]
    omega
  · exact Source.ofConstruct_eq_some.mpr ⟨before, w, after, k, rfl, rfl, inside, by rw [Source.part, tracked]⟩

theorem reaches_shuffle {a b : Value} {sels : List Nat} {lanesA lanesB : Nat} (filled : asked.isEmpty = false)
    (countA : s.width? a = some lanesA) (countB : s.width? b = some lanesB)
    (inside : ∀ sel ∈ sels, sel = anyLane ∨ sel < lanesA + lanesB) (few : sels.length ≤ trackedLanes)
    (total : sels.length = count) (demand : (w, read) ∈ (shuffle a b lanesA sels).demands asked)
    (tracked : s.view.tracked w = some n) (here : read.contains k = true) (origin : Option Label) :
    Reaches (Source.ofShuffle a b lanesA sels origin) count asked w k := by
  have width := LaneView.width_tracked tracked
  have small := LaneView.tracked_le tracked
  have place : ∀ {c sel : Nat} {src : Source}, sels[c]? = some sel → sel ≠ anyLane → asked.contains (cut c) = true →
      (if sel < lanesA then Source.lane a sel else .lane b (sel - lanesA)) = src → src.Takes w k →
      Reaches (Source.ofShuffle a b lanesA sels origin) count asked w k := by
    rintro c sel src selected picks asks rfl takes
    have low : c < sels.length := (List.getElem?_eq_some_iff.mp selected).1
    rw [cut_of_lt ((low.trans_le few).trans (by decide))] at asks
    refine ⟨c, total ▸ low, asks, _, ?_, takes⟩
    rw [Source.ofShuffle, selected, Option.bind_some, if_neg picks]
  simp only [demands, filled, Bool.false_eq_true, if_false, List.mem_cons, Prod.mk.injEq, List.not_mem_nil, or_false] at demand
  rcases demand with ⟨rfl, rfl⟩ | ⟨rfl, rfl⟩
  · cases countA.symm.trans width
    rw [contains_picked_iff fun sel _ _ picks chosen => ?_] at here
    · obtain ⟨c, sel, selected, picks, asks, chosen⟩ := here
      obtain ⟨left, same⟩ := Option.ite_none_right_eq_some.mp chosen
      cases same
      exact place selected picks asks (if_pos left) (.inl rfl)
    · obtain ⟨left, same⟩ := Option.ite_none_right_eq_some.mp chosen
      cases same
      omega
  · cases countB.symm.trans width
    rw [contains_picked_iff fun sel member any picks chosen => ?_] at here
    · obtain ⟨c, sel, selected, picks, asks, chosen⟩ := here
      obtain ⟨right, same⟩ := Option.ite_none_left_eq_some.mp chosen
      cases same
      exact place selected picks asks (if_neg right) (.inl rfl)
    · obtain ⟨right, same⟩ := Option.ite_none_left_eq_some.mp chosen
      cases same
      have bound := (inside sel member).resolve_left any
      omega

theorem reaches_phi {incoming : List (Value × Label)} (filled : asked.isEmpty = false)
    (once : (incoming.map (·.2)).Nodup) (widths : ∀ pair ∈ incoming, s.width? pair.1 = some count)
    (demand : (w, read) ∈ (phi (incoming.map (·.1))).demands asked) (tracked : s.width? w = some n) (low : k < n)
    (here : read.contains k = true) :
    ∃ p ∈ incoming.map (·.2), Reaches (Source.ofPhi incoming (some p)) count asked w k := by
  simp only [demands, filled, Bool.false_eq_true, if_false, List.mem_map, Prod.mk.injEq] at demand
  obtain ⟨w', ⟨pair, member, rfl⟩, rfl, rfl⟩ := demand
  cases (widths pair member).symm.trans tracked
  refine ⟨pair.2, List.mem_map_of_mem member, k, low, here, .lane pair.1 k, ?_, .inl rfl⟩
  have found : incoming.find? (fun other => some other.2 = some pair.2) = some pair := by
    cases search : incoming.find? (fun other => some other.2 = some pair.2) with
    | none => exact absurd (List.find?_eq_none.mp search pair member) (by simp)
    | some other =>
      have same : other.2 = pair.2 := by simpa using List.find?_some search
      rw [List.inj_on_of_nodup_map once (List.mem_of_find?_eq_some search) member same]
  rw [Source.ofPhi, found]
  rfl

end LaneRule

section

variable {s : Scope} {b : Label} {i : Inst} {v : Value} {ty : TypeRef} {count : Nat} {asked : LaneSet}
  {demands : List (Value × LaneSet)} {source : Option Label → Nat → Option Source}

theorem Inst.Gathers.sufficient (gathers : i.Gathers s v ty count source) (covers : LaneRule.Covers s demands asked count source)
    (counted : s.width? v = some count) (widths : ∀ pair ∈ i.incoming, s.width? pair.1 = some count) :
    i.Suffices s v ty demands asked := by
  intro α m past origin env other left right alike
  have shaped : ∀ env : Env α, s.Shapes env → (m.outcome s env past origin i v ty).Shaped (some count) :=
    fun env shapes => gathers.shaped m past origin env fun pair member => widths pair member ▸ shapes pair.1
  rw [counted]
  refine (shaped env left).alike (shaped other right) fun c low here => ?_
  rw [gathers.lane m past origin env c low, gathers.lane m past origin other c low]
  cases found : source origin c with
  | none => rfl
  | some src => exact (covers origin c low here src found).read_eq left right alike

theorem Inst.Gathers.needed (gathers : i.Gathers s v ty count source) (counted : s.width? v = some count)
    (reaches : ∀ w read, (w, read) ∈ demands → ∀ n, s.view.tracked w = some n → ∀ k < n, read.contains k = true →
      ∃ origin, i.Arrives s b origin ∧ LaneRule.Reaches (source origin) count asked w k) :
    i.Needs s b v ty demands asked := by
  intro w read demand n tracked k low here α _
  obtain ⟨origin, arrives, c, inside, asks, src, found, takes⟩ := reaches w read demand n tracked k low here
  obtain ⟨a, a', differ⟩ := exists_pair_ne α
  obtain ⟨env, other, left, right, apart, this, that⟩ :=
    s.exists_apart (LaneView.width_tracked tracked) low (Datum.atom a) (Datum.atom a')
  refine ⟨origin, env, other, arrives, left, right, apart, fun m past alike => ?_⟩
  rw [counted] at alike
  have same := alike.lane inside asks
  rw [gathers.lane m past origin env c inside, gathers.lane m past origin other c inside, found] at same
  refine takes.read_ne (fun equal => differ ?_) same
  rw [this, that] at equal
  exact Datum.atom.inj equal

theorem Inst.Gathers.exact (gathers : i.Gathers s v ty count source) (ordinary : i.opcode ≠ .phi)
    (counted : s.width? v = some count) (covers : LaneRule.Covers s demands asked count source)
    (reaches : ∀ w read, (w, read) ∈ demands → ∀ n, s.view.tracked w = some n → ∀ k < n, read.contains k = true →
      LaneRule.Reaches (source none) count asked w k) :
    i.Suffices s v ty demands asked ∧ i.Needs s b v ty demands asked := by
  have alone : i.incoming = [] := if_neg ordinary
  refine ⟨gathers.sufficient covers counted (by simp [alone]), gathers.needed counted ?_⟩
  intro w read demand n tracked k low here
  exact ⟨none, fun phi => absurd phi ordinary, reaches w read demand n tracked k low here⟩

theorem Inst.extract_exact {src : Value} {lane : Nat} (parsed : i.asExtract? = some (src, lane))
    (width : s.width? src = some count) (inside : lane < count) (nonempty : asked ≠ .empty)
    (lanes : ∀ n, s.width? v = some (n + 1) → ∃ k < n + 1, asked.contains k = true) :
    i.Suffices s v ty [(src, .single lane)] asked ∧ i.Needs s b v ty [(src, .single lane)] asked := by
  have op := (asExtract?_eq_some.mp parsed).1
  have outcome : ∀ {α : Type} (m : Interp α) (past : List (Effect α)) (origin : Option Label) (env : Env α),
      m.outcome s env past origin i v ty = (env src).lane lane := by
    intro α m past origin env
    simp only [Interp.outcome, Interp.produce, op, parsed, reduceCtorEq, if_false]
  constructor
  · intro α m past origin env other _ _ alike
    have same := alike _ List.mem_cons_self
    rw [width] at same
    rw [outcome, outcome, same.lane inside (LaneSet.contains_single_self lane)]
    exact .refl _ _ _
  · intro w read demand n tracked k low here α _
    cases List.mem_singleton.mp demand
    cases width.symm.trans (LaneView.width_tracked tracked)
    have word : lane < trackedLanes := Nat.lt_of_lt_of_le inside (LaneView.tracked_le tracked)
    obtain ⟨-, rfl⟩ : lane < 64 ∧ lane = k := by simpa [LaneSet.single, word, LaneSet.contains] using here
    obtain ⟨x, y, unlike⟩ := Datum.exists_unlike α nonempty lanes
    obtain ⟨env, other, left, right, apart, rfl, rfl⟩ := s.exists_apart width low x y
    refine ⟨none, env, other, fun phi => ?_, left, right, apart, fun m past alike => unlike ?_⟩
    · rw [op] at phi
      cases phi
    · rwa [outcome, outcome] at alike

end

theorem LaneView.canonical_reaches {view : LaneView} {v : Value} {asked : LaneSet} (nonempty : asked ≠ .empty)
    (canonical : LaneSet.Canonical (view.tracked v) asked) {n : Nat} (width : view.width v = some (n + 1)) :
    ∃ k < n + 1, asked.contains k = true := by
  cases asked with
  | all => exact ⟨0, Nat.succ_pos n, rfl⟩
  | lanes mask =>
    obtain ⟨k, here⟩ := LaneSet.exists_contains nonempty
    cases tracked : view.tracked v with
    | none =>
      rw [tracked] at canonical
      exact absurd (congrArg LaneSet.lanes canonical) nonempty
    | some count =>
      cases width.symm.trans (LaneView.width_tracked tracked)
      exact ⟨k, canonical.fits (n + 1) mask tracked rfl k here, here⟩

namespace Scope

theorem WellFormed.rule_exact {s : Scope} (well : s.WellFormed) {b : Label} {block : List Placed}
    (found : s.func.blocks[b.index]? = some block) {i : Inst} (here : i ∈ block.map (·.inst))
    (moves : (LaneRule.of s.view i).movesLanes = true) (phiTyped : ∀ pair ∈ i.incoming, s.ty? pair.1 = i.ty?)
    {v : Value} {ty : TypeRef} (defined : i.defines = some (v, ty)) {asked : LaneSet} (nonempty : asked ≠ .empty)
    (canonical : LaneSet.Canonical (s.view.tracked v) asked) :
    i.Suffices s v ty ((LaneRule.of s.view i).demands asked) asked ∧
      i.Needs s b v ty ((LaneRule.of s.view i).demands asked) asked := by
  have member := Func.mem_insts.mpr ⟨b, block, found, here⟩
  have filled : asked.isEmpty = false := by simpa [LaneSet.isEmpty] using nonempty
  have lanes := well.lanes_result member defined
  have accepted := well.rule_accepted member defined
  generalize LaneRule.of s.view i = rule at moves accepted ⊢
  cases accepted with
  | insert parsed counted base low small =>
    have ordinary : i.opcode ≠ .phi := by simp [(Inst.asInsert?_eq_some.mp parsed).1]
    refine (Inst.gathers_insert parsed counted).exact ordinary (lanes.symm.trans counted)
      (LaneRule.covers_insert filled base small) fun w read demand n tracked k inside asks => ?_
    exact LaneRule.reaches_insert filled base low demand (LaneView.width_tracked tracked) inside asks none
  | extract parsed width low =>
    have demands : ∀ src lane, (LaneRule.extract src lane).demands asked = [(src, .single lane)] := by
      simp [LaneRule.demands, filled]
    rw [demands]
    exact Inst.extract_exact parsed width low nonempty fun n wide => LaneView.canonical_reaches nonempty canonical wide
  | construct op counted =>
    have ordinary : i.opcode ≠ .phi := by simp [op]
    refine (Inst.gathers_construct op rfl).exact ordinary (lanes.symm.trans counted)
      (LaneRule.covers_construct filled i.values) fun w read demand n tracked k inside asks => ?_
    exact LaneRule.reaches_construct filled rfl demand (LaneView.width_tracked tracked) inside asks none
  | shuffle parsed counted countA countB low small =>
    have ordinary : i.opcode ≠ .phi := by simp [(Inst.asShuffle?_eq_some.mp parsed).1]
    refine (Inst.gathers_shuffle parsed countA rfl).exact ordinary (lanes.symm.trans counted)
      (LaneRule.covers_shuffle filled countA countB low) fun w read demand n tracked k _ asks => ?_
    exact LaneRule.reaches_shuffle filled countA countB low small rfl demand tracked asks none
  | @phi count op counted =>
    have gathers : i.Gathers s v ty _ _ := Inst.gathers_phi op counted
    have width := lanes.symm.trans counted
    have widths : ∀ pair ∈ i.incoming, s.width? pair.1 = some count := by
      intro pair into
      rw [width?, phiTyped pair into, Inst.ty?, defined]
      exact counted
    have edges := (well.phis b block found i here op).2
    have once := edges.nodup_iff.mpr (s.func.flowGraph_lawful.once b)
    refine ⟨gathers.sufficient (LaneRule.covers_phi filled widths) width widths,
      gathers.needed width fun w read demand n tracked k inside asks => ?_⟩
    obtain ⟨p, edge, reaches⟩ :=
      LaneRule.reaches_phi filled once widths demand (LaneView.width_tracked tracked) inside asks
    exact ⟨some p, fun _ => ⟨p, edges.mem_iff.mp edge, rfl⟩, reaches⟩
  | terminal op => cases moves
  | fallback none => cases moves

theorem lane_rules_exact {s : Scope} (accepted : s.check = .ok ()) (typed : s.Typed) {b : Label} {block : List Placed}
    (found : s.func.blocks[b.index]? = some block) {i : Inst} (here : i ∈ block.map (·.inst))
    (moves : (LaneRule.of s.view i).movesLanes = true) (phiTyped : ∀ pair ∈ i.incoming, s.ty? pair.1 = i.ty?)
    {v : Value} {ty : TypeRef} (defined : i.defines = some (v, ty)) {asked : LaneSet} (nonempty : asked ≠ .empty)
    (canonical : LaneSet.Canonical (s.view.tracked v) asked) :
    ∃ rule demands, LaneRule.ofKnown s.view i = .ok rule ∧ rule.checkedDemands asked = .ok demands ∧
      i.Suffices s v ty demands asked ∧ i.Needs s b v ty demands asked := by
  have well := check_ok.mp accepted
  have member := Func.mem_insts.mpr ⟨b, block, found, here⟩
  have answerable : LaneRule.answerable s.view i = true :=
    List.all_eq_true.mpr fun w asks => typed i member w (LaneRule.asked_mentions asks)
  refine ⟨LaneRule.of s.view i, (LaneRule.of s.view i).demands asked, if_pos answerable, if_neg ?_,
    well.rule_exact found here moves phiTyped defined nonempty canonical⟩
  rw [well.fits_word member asked]
  exact Bool.false_ne_true

-- Both sides of the shuffle are the same vector. Of the two lanes that are
-- asked for, one comes from either side, and the third is nobody's.
def interleave : Inst :=
  ⟨.shuffle, some (⟨11⟩, ⟨2⟩), [.value ⟨10⟩, .value ⟨10⟩, .literal 3, .literal anyLane, .literal 0]⟩

def woven : Scope :=
  { types := ⟨[.float 32, .vector ⟨0⟩ 2, .vector ⟨0⟩ 3, .pointer ⟨2⟩ .output], by decide⟩
    globals := ⟨[(⟨1⟩, ⟨⟨1⟩, .undef⟩), (⟨2⟩, ⟨⟨0⟩, .constant 0⟩), (⟨3⟩, ⟨⟨3⟩, .variable .output⟩)]⟩
    func := .ofBlocks "woven" [
      [⟨.insert, some (⟨10⟩, ⟨1⟩), [.value ⟨2⟩, .value ⟨1⟩, .literal 0]⟩, interleave,
        ⟨.store, none, [.value ⟨3⟩, .value ⟨11⟩]⟩, ⟨.ret, none, []⟩]] }

theorem lane_rules_exact_woven :
    interleave.Suffices woven ⟨11⟩ ⟨2⟩ [(⟨10⟩, .lanes 1#64), (⟨10⟩, .lanes 2#64)] (.lanes 5#64) ∧
      interleave.Needs woven Func.entry ⟨11⟩ ⟨2⟩ [(⟨10⟩, .lanes 1#64), (⟨10⟩, .lanes 2#64)] (.lanes 5#64) := by
  have canonical : LaneSet.Canonical (woven.view.tracked ⟨11⟩) (.lanes 5#64) := by
    have normal : (LaneSet.lanes 5#64).normalized (woven.view.tracked ⟨11⟩) = .lanes 5#64 := by decide +kernel
    exact normal ▸ LaneSet.canonical_normalized _ fun n tracked => LaneView.tracked_le tracked
  obtain ⟨rule, demands, known, ran, sufficient, needs⟩ :=
    lane_rules_exact (s := woven) (b := Func.entry) (by decide +kernel) (by decide +kernel) rfl (i := interleave)
      (by decide +kernel) (by decide +kernel) (by decide +kernel) rfl (by decide) canonical
  have evaluated : (LaneRule.ofKnown woven.view interleave).bind (·.checkedDemands (.lanes 5#64)) =
      .ok [(⟨10⟩, .lanes 1#64), (⟨10⟩, .lanes 2#64)] := by decide +kernel
  rw [known] at evaluated
  cases ran.symm.trans evaluated
  exact ⟨sufficient, needs⟩

end Scope

end DeadLanes
