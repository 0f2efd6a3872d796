import DeadLanes.Proofs.Totality

namespace DeadLanes

-- A module grows: it gets types and globals, and values are handed out. What it
-- holds by then stays in order.

namespace Attempt

variable {inv pre pre' : σ → Prop} {act : Attempt σ α} {mid : α → σ → Prop} {post : β → σ → Prop}

-- Where `inv` and `pre` hold, `act` leaves a state where `inv` holds, with a
-- fault or without one, and what it answers is as `post` says.
def Keeps (inv pre : σ → Prop) (act : Attempt σ α) (post : α → σ → Prop) : Prop :=
  ∀ s, inv s → pre s → inv (act s).2 ∧ ∀ a, (act s).1 = .ok a → post a (act s).2

theorem Keeps.bind {next : α → Attempt σ β} (first : Keeps inv pre act mid)
    (later : ∀ a, Keeps inv (mid a) (next a) post) : Keeps inv pre (act >>= next) post := by
  intro s holds ready
  obtain ⟨kept, answered⟩ := first s holds ready
  cases ran : act s with
  | mk answer t =>
    rw [ran] at kept answered
    cases answer with
    | ok a =>
      rw [bind_ok ran]
      exact later a t kept (answered a rfl)
    | error f =>
      rw [bind_error ran]
      exact ⟨kept, nofun⟩

theorem Keeps.given (kept : Keeps inv pre act mid) (implies : ∀ s, inv s → pre' s → pre s) : Keeps inv pre' act mid :=
  fun s holds ready => kept s holds (implies s holds ready)

theorem Keeps.telling {mid' : α → σ → Prop} (kept : Keeps inv pre act mid)
    (implies : ∀ a s, inv s → mid a s → mid' a s) : Keeps inv pre act mid' :=
  fun s holds ready => ⟨(kept s holds ready).1, fun a same => implies a _ (kept s holds ready).1 ((kept s holds ready).2 a same)⟩

theorem Keeps.answer (kept : Keeps inv pre act mid) (view : α → β) :
    Keeps inv pre (act >>= fun a => pure (view a)) fun _ _ => True :=
  kept.bind fun _ _ holds _ => ⟨holds, fun _ _ => trivial⟩

theorem keeps_state : Keeps inv pre state fun s t => s = t ∧ pre t := by
  intro s holds ready
  refine ⟨holds, fun a same => ?_⟩
  cases same
  exact ⟨rfl, ready⟩

theorem keeps_ofExcept {x : Except Fault α} : Keeps inv pre (ofExcept x) fun a t => x = .ok a ∧ pre t := by
  intro s holds ready
  cases x with
  | ok a =>
    refine ⟨holds, fun b same => ?_⟩
    cases same
    exact ⟨rfl, ready⟩
  | error f => exact ⟨holds, nofun⟩

theorem keeps_need {o : Option α} {f : Fault} : Keeps inv pre (need o f) fun a t => o = some a ∧ pre t := by
  intro s holds ready
  cases o with
  | some a =>
    refine ⟨holds, fun b same => ?_⟩
    cases same
    exact ⟨rfl, ready⟩
  | none => exact ⟨holds, nofun⟩

theorem keeps_demand {p : Prop} [Decidable p] {f : Fault} : Keeps inv pre (demand p f) fun _ t => p ∧ pre t := by
  intro s holds ready
  unfold demand
  split
  · rename_i met
    exact ⟨holds, fun _ _ => ⟨met, ready⟩⟩
  · exact ⟨holds, nofun⟩

theorem keeps_modify {g : σ → σ} (fine : ∀ s, inv s → pre s → inv (g s)) : Keeps inv pre (modify g) fun _ _ => True :=
  fun s holds ready => ⟨fine s holds ready, fun _ _ => trivial⟩

end Attempt

def Ty.refs : Ty → List TypeRef
  | .vector elem _ => [elem]
  | .pointer pointee _ => [pointee]
  | _ => []

namespace TypeTable

variable {t t' : TypeTable} {ty : Ty}

def Closed (t : TypeTable) : Prop := ∀ r ty, t.get? r = some ty → ∀ q ∈ ty.refs, t.contains q = true

theorem map_get_ok {r : TypeRef} {view : Ty → α} {a : α} :
    (t.get r).map view = .ok a ↔ ∃ ty, t.get? r = some ty ∧ view ty = a := by
  unfold get
  cases t.get? r <;> simp [Except.map]

theorem Closed.elem (closed : t.Closed) {r elem : TypeRef} {lanes : Nat} (vector : t.vectorInfo r = .ok (some (elem, lanes))) :
    t.contains elem = true := by
  obtain ⟨ty, found, view⟩ := map_get_ok.mp vector
  cases ty with
  | vector e n =>
    cases view
    exact closed r _ found elem (List.mem_singleton_self elem)
  | _ => cases view

theorem Closed.pointee (closed : t.Closed) {r pointee : TypeRef} (points : t.pointeeOf r = .ok (some pointee)) :
    t.contains pointee = true := by
  obtain ⟨ty, found, view⟩ := map_get_ok.mp points
  cases ty with
  | pointer p storage =>
    cases view
    exact closed r _ found pointee (List.mem_singleton_self pointee)
  | _ => cases view

theorem get?_intern_iff {r : TypeRef} {found : Ty} : (t.intern ty).2.get? r = some found ↔
    t.get? r = some found ∨ r = (t.intern ty).1 ∧ found = ty := by
  unfold intern
  split
  · rename_i present
    refine ⟨.inl, fun either => ?_⟩
    rcases either with before | ⟨rfl, rfl⟩
    · exact before
    · exact List.getElem?_idxOf present
  · have last : ∀ k (xs : List Ty), (xs ++ [ty])[k]? = some found ↔ xs[k]? = some found ∨ k = xs.length ∧ found = ty := by
      intro k xs
      rw [List.getElem?_append]
      split
      · rename_i inside
        exact ⟨.inl, fun either => either.resolve_right fun both => absurd both.1 (Nat.ne_of_lt inside)⟩
      · rename_i outside
        rw [List.getElem?_eq_none (Nat.le_of_not_lt outside), List.getElem?_singleton]
        grind
    refine (last r.index t.entries).trans (or_congr_right (and_congr_left fun _ => ?_))
    exact ⟨fun same => congrArg TypeRef.mk same, fun same => congrArg TypeRef.index same⟩

theorem get?_intern (t : TypeTable) (ty : Ty) : (t.intern ty).2.get? (t.intern ty).1 = some ty :=
  get?_intern_iff.mpr (.inr ⟨rfl, rfl⟩)

structure Grown (t t' : TypeTable) : Prop where
  kept : t.Extends t'
  closed : t'.Closed

theorem Grown.intern (grown : t.Grown t') (known : ∀ q ∈ ty.refs, t'.contains q = true) : t.Grown (t'.intern ty).2 := by
  have more : t'.Extends (t'.intern ty).2 := fun r found here => get?_intern_iff.mpr (.inl here)
  refine ⟨fun r found here => more r found (grown.kept r found here), fun r found here q mentioned => ?_⟩
  rcases get?_intern_iff.mp here with before | ⟨-, rfl⟩
  · exact more.contains (grown.closed r found before q mentioned)
  · exact more.contains (known q mentioned)

-- Every place in the table is a reference.
def FitsWord (t : TypeTable) : Prop := t.entries.length ≤ wordBound

theorem Extends.fitsWord (grown : t.Extends t') (fits : t'.FitsWord) : t.FitsWord := by
  refine Nat.le_trans (Nat.le_of_not_lt fun shorter => ?_) fits
  have last : t.get? ⟨t'.entries.length⟩ = some t.entries[t'.entries.length] := List.getElem?_eq_getElem shorter
  exact Nat.lt_irrefl _ (List.getElem?_eq_some_iff.mp (grown _ _ last)).1

theorem get?_nth_intern (t : TypeTable) (ty : Ty) : (t.intern ty).2.contains (.nth (t.intern ty).1.index) = true ∧
    ((t.intern ty).2.FitsWord → (t.intern ty).2.get? (.nth (t.intern ty).1.index) = some ty) := by
  have found := t.get?_intern ty
  have inside := (List.getElem?_eq_some_iff.mp found).1
  refine ⟨decide_eq_true (Nat.lt_of_le_of_lt (cut_le _) inside), fun fits => ?_⟩
  rw [TypeRef.nth, cut_of_lt (Nat.lt_of_lt_of_le inside fits)]
  exact found

theorem enter_keeps (t : TypeTable) (ty : Ty) : Attempt.Keeps t.Grown (fun t' => ∀ q ∈ ty.refs, t'.contains q = true)
    (enter ty) fun r t' => t'.contains r = true ∧ (t'.FitsWord → t'.get? r = some ty) := by
  intro t' grown known
  refine ⟨grown.intern known, fun r same => ?_⟩
  cases same
  exact t'.get?_nth_intern ty

theorem enterVector_keeps (t : TypeTable) (elem : TypeRef) (lanes : Nat) : Attempt.Keeps t.Grown
    (fun t' => t'.contains elem = true) (enterVector elem lanes)
    fun r t' => t'.contains r = true ∧ (t'.FitsWord → t'.get? r = some (.vector elem lanes)) := by
  unfold enterVector
  refine Attempt.keeps_state.bind fun _ => Attempt.keeps_ofExcept.bind fun ty => Attempt.keeps_demand.bind fun _ =>
    Attempt.keeps_demand.bind fun _ => (t.enter_keeps (.vector elem lanes)).given ?_
  rintro t' - ⟨-, -, -, -, known⟩ q mentioned
  cases List.mem_singleton.mp mentioned
  exact known

end TypeTable

namespace Scope

variable {s t : Scope}

theorem WellFormed.grow (well : s.WellFormed) (types : s.types.Extends t.types)
    (globals : ∀ v ty, s.globals.ty? v = some ty → t.globals.ty? v = some ty) (func : t.func = s.func)
    (fresh : ∀ v ∈ s.func.results, v ∉ t.globals.values) : t.WellFormed := by
  obtain ⟨types', globals', f⟩ := t
  subst func
  have typed : ∀ v ty, s.ty? v = some ty → (Scope.ty? ⟨types', globals', s.func⟩ v) = some ty := by
    intro v ty before
    rcases Option.or_eq_some_iff.mp before with own | ⟨other, global⟩
    · exact Option.or_eq_some_iff.mpr (.inl own)
    · exact Option.or_eq_some_iff.mpr (.inr ⟨other, globals v ty global⟩)
  refine ⟨well.paired, well.distinct, fresh, well.shaped, fun i member v named => ?_, well.targets, well.phis,
    fun i member => ?_⟩
  · obtain ⟨ty, before⟩ := Option.isSome_iff_exists.mp (well.defined i member v named)
    exact Option.isSome_iff_exists.mpr ⟨ty, typed v ty before⟩
  · rw [← i.mapValues_id]
    exact (well.composed i member).mapValues (t := ⟨types', globals', s.func⟩) types fun w _ => typed w

theorem Typed.resultsKnown (typed : s.Typed) (well : s.WellFormed) : s.ResultsKnown := by
  intro i member ty result
  obtain ⟨⟨v, ty⟩, defined, rfl⟩ := Option.map_eq_some_iff.mp result
  have known := typed i member v (List.mem_append_left _ (Option.mem_toList.mpr (Inst.result?_eq_some.mpr ⟨ty, defined⟩)))
  rw [Scope.known, well.ty?_result member defined] at known
  exact known

end Scope

namespace Module

variable {m : Module}

-- The values handed out so far: requests for a fresh value count up from 1.
def handedOut (m : Module) : List Value := (List.range' 1 (m.next - 1)).map Value.mk

def ids (m : Module) : List Value := m.globals.values ++ m.funcs.flatMap Func.results

def scope (m : Module) (f : Func) : Scope := ⟨m.types, m.globals, f⟩

-- A module in order. No value is defined twice in it.
structure Sound (m : Module) : Prop where
  started : 0 < m.next
  closed : m.types.Closed
  globals : ∀ entry ∈ m.globals.entries, m.types.contains entry.2.ty = true
  distinct : m.ids.Nodup
  issued : ∀ v ∈ m.ids, v ∈ m.handedOut
  accepted : ∀ f ∈ m.funcs, (m.scope f).WellFormed
  known : ∀ f ∈ m.funcs, (m.scope f).ResultsKnown

theorem next_not_handedOut (started : 0 < m.next) : ⟨m.next⟩ ∉ m.handedOut := by
  intro member
  obtain ⟨n, inside, same⟩ := List.mem_map.mp member
  cases same
  have below := (List.mem_range'_1.mp inside).2
  omega

theorem handedOut_next (started : 0 < m.next) : ({ m with next := m.next + 1 } : Module).handedOut = m.handedOut ++ [⟨m.next⟩] := by
  obtain ⟨n, same⟩ := Nat.exists_eq_succ_of_ne_zero started.ne'
  simp [handedOut, same, List.range'_concat, Nat.add_comm]

theorem mem_handedOut_next (started : 0 < m.next) :
    ⟨m.next⟩ ∈ ({ m with next := m.next + 1 } : Module).handedOut := by
  rw [handedOut_next started]
  exact List.mem_append_right _ (List.mem_singleton_self _)

theorem sound_new : new.Sound := by
  refine ⟨by decide, nofun, nofun, List.nodup_nil, nofun, nofun, nofun⟩

theorem mem_ids {f : Func} (member : f ∈ m.funcs) {v : Value} (result : v ∈ f.results) : v ∈ m.ids :=
  List.mem_append_right _ (List.mem_flatMap.mpr ⟨f, member, result⟩)

theorem Sound.retyped (sound : m.Sound) {types : TypeTable} (grown : m.types.Grown types) :
    ({ m with types := types } : Module).Sound where
  started := sound.started
  closed := grown.closed
  globals := fun entry member => grown.kept.contains (sound.globals entry member)
  distinct := sound.distinct
  issued := sound.issued
  accepted := fun f member => by
    have well := sound.accepted f member
    exact well.grow (t := ⟨types, m.globals, f⟩) grown.kept (fun _ _ => id) rfl well.fresh
  known := fun f member i here ty result => grown.kept.contains (sound.known f member i here ty result)

theorem Sound.advanced (sound : m.Sound) : ({ m with next := m.next + 1 } : Module).Sound := by
  refine { sound with started := Nat.succ_pos _, issued := fun v member => ?_ }
  rw [handedOut_next sound.started]
  exact List.mem_append_left _ (sound.issued v member)

theorem Sound.added (sound : m.Sound) {v : Value} (unused : v ∉ m.ids) (issued : v ∈ m.handedOut) {global : Global}
    (known : m.types.contains global.ty = true) :
    ({ m with globals := ⟨m.globals.entries ++ [(v, global)]⟩ } : Module).Sound := by
  have values : (Globals.values ⟨m.globals.entries ++ [(v, global)]⟩) = m.globals.values ++ [v] := List.map_append
  have ids : (m.globals.values ++ [v] ++ m.funcs.flatMap Func.results).Perm (v :: m.ids) := by
    rw [List.append_assoc]
    exact List.perm_middle
  refine { sound with globals := ?_, distinct := ?_, issued := ?_, accepted := ?_, known := sound.known }
  · exact List.forall_mem_append.mpr ⟨sound.globals, List.forall_mem_singleton.mpr known⟩
  · rw [Module.ids, values]
    exact ids.nodup_iff.mpr (List.nodup_cons.mpr ⟨unused, sound.distinct⟩)
  · intro w member
    rw [Module.ids, values] at member
    rcases List.mem_cons.mp (ids.mem_iff.mp member) with rfl | before
    · exact issued
    · exact sound.issued w before
  · intro f member
    have well := sound.accepted f member
    refine well.grow (.refl _) (fun w ty before => ?_) rfl fun w result global => ?_
    · obtain ⟨g, found, rfl⟩ := Option.map_eq_some_iff.mp before
      refine Option.map_eq_some_iff.mpr ⟨g, ?_, rfl⟩
      exact (List.lookup_append ..).trans (Option.or_eq_some_iff.mpr (.inl found))
    · rcases List.mem_append.mp (values ▸ global) with before | last
      · exact well.fresh w result before
      · cases List.mem_singleton.mp last
        exact unused (mem_ids (m := m) member result)

theorem fresh_eq (m : Module) :
    fresh m = (.ok ⟨m.next⟩, { m with next := m.next + 1 }) ∨ fresh m = (.error .overflow, m) := by
  by_cases room : m.next + 1 < wordBound
  · left
    rw [fresh, Attempt.state_bind, Attempt.demand_bind room, Attempt.modify_bind]
    rfl
  · right
    rw [fresh, Attempt.state_bind, Attempt.demand, if_neg room]
    rfl

theorem fresh_handedOut (started : 0 < m.next) {v : Value} {n : Module} (answered : fresh m = (.ok v, n)) :
    n.handedOut = m.handedOut ++ [v] := by
  rcases fresh_eq m with ran | ran
  · cases ran.symm.trans answered
    exact handedOut_next started
  · cases ran.symm.trans answered

theorem fresh_keeps (p : TypeTable → Prop) : Attempt.Keeps Sound (fun m => p m.types) fresh
    fun v m => v ∉ m.ids ∧ v ∈ m.handedOut ∧ p m.types := by
  intro m sound ready
  rcases fresh_eq m with ran | ran <;> rw [ran]
  · refine ⟨sound.advanced, fun v same => ?_⟩
    cases same
    exact ⟨fun listed => next_not_handedOut sound.started (sound.issued _ listed), mem_handedOut_next sound.started, ready⟩
  · refine ⟨sound, fun v same => ?_⟩
    cases same

theorem onTypes_keeps {act : Attempt TypeTable α} {pre : TypeTable → Prop} {post : α → TypeTable → Prop}
    (fills : ∀ t, Attempt.Keeps (TypeTable.Grown t) pre act post) :
    Attempt.Keeps Sound (fun m => pre m.types) (onTypes act) fun a m => post a m.types := by
  intro m sound ready
  obtain ⟨grown, answered⟩ := fills m.types m.types ⟨.refl _, sound.closed⟩ ready
  exact ⟨sound.retyped grown, answered⟩

theorem addGlobal_keeps (global : Global) : Attempt.Keeps Sound (fun m => m.types.contains global.ty = true)
    (addGlobal global) fun _ _ => True := by
  refine (fresh_keeps (·.contains global.ty = true)).bind fun v => (Attempt.keeps_modify ?_).answer fun _ => v
  rintro m sound ⟨unused, issued, known⟩
  exact sound.added unused issued known

theorem addEntered_keeps (ty : Ty) {global : TypeRef → Global} (same : ∀ r, (global r).ty = r) :
    Attempt.Keeps Sound (fun m => ∀ q ∈ ty.refs, m.types.contains q = true)
      (onTypes (TypeTable.enter ty) >>= fun r => addGlobal (global r)) fun _ _ => True := by
  refine (onTypes_keeps fun t => t.enter_keeps ty).bind fun r => (addGlobal_keeps (global r)).given fun m _ found => ?_
  rw [same r]
  exact found.1

end Module

end DeadLanes
