import DeadLanes.Proofs.Drafting

namespace DeadLanes

-- However a module came about, its functions are accepted and share no value.

def Flaw.Averted (i : Inst) : Flaw → Prop
  | .redefined _ | .badResult _ => True
  | .badOperands op _ => i.opcode ≠ .shuffle ∨ op ≠ .shuffle
  | _ => False

-- A shuffle of two vectors with more selectors than a word counts.
def Scope.Overlong (s : Scope) (i : Inst) : Prop :=
  i.opcode = .shuffle ∧ wordBound ≤ i.literals.length ∧ ∀ v ∈ i.values, (s.width? v).isSome = true

namespace Check

variable {flaw other : Flaw} {s : Scope}

theorem fault_ne {fault : Fault} : (Except.error (.fault fault) : Except Rejection α) ≠ .error (.flaw flaw) := nofun

theorem asking_ne {x : Except Fault α} : asking x ≠ .error (.flaw flaw) := by
  cases x with
  | ok a => exact ok_ne
  | error fault => exact fault_ne

theorem vector_ne (differs : Rejection.flaw flaw ≠ .flaw other) {types : TypeTable} {ty : Option TypeRef} :
    vector types ty other ≠ .error (.flaw flaw) :=
  bind_ne (need_ne (.inr differs)) fun _ _ => bind_ne asking_ne fun _ _ => need_ne (.inr differs)

theorem typeOf_ne {v : Value} : typeOf s v ≠ .error (.flaw flaw) := by
  unfold typeOf
  cases s.ty? v with
  | some ty => exact ok_ne
  | none => exact fault_ne

theorem covered_ne {total : Nat} {vs : List Value} : covered s total vs ≠ .error (.flaw flaw) := by
  induction vs generalizing total with
  | nil => exact ok_ne
  | cons v rest ih =>
    unfold covered
    refine bind_ne typeOf_ne fun _ _ => bind_ne asking_ne fun _ _ => ?_
    split
    · exact ih
    · exact fault_ne

theorem selector_ne {i : Inst} {lanesA lanesB sel : Nat} (differs : Rejection.flaw flaw ≠ .flaw (.badSelector (subject i) sel)) :
    selector i lanesA lanesB sel ≠ .error (.flaw flaw) := by
  unfold selector
  split
  · exact ok_ne
  · split
    · exact ensure_ne (.inr differs)
    · exact fault_ne

theorem composite_ne {i : Inst} (averted : flaw.Averted i) (parsed : i.Parsed s.types) :
    composite s i ≠ .error (.flaw flaw) := by
  have differs : ∀ {other : Flaw}, ¬ other.Averted i → Rejection.flaw flaw ≠ .flaw other := by
    intro other otherwise same
    cases same
    exact otherwise averted
  have ensures : ∀ {p : Prop} [Decidable p] {other : Flaw}, ¬ other.Averted i → ensure p other ≠ .error (.flaw flaw) :=
    fun otherwise => ensure_ne (.inr (differs otherwise))
  unfold Inst.Parsed at parsed
  unfold composite
  split <;> rename_i op <;> simp only [op] at parsed
  · apply bind_ne (need_ne (.inl parsed))
    rintro ⟨obj, base, lane⟩ -
    refine bind_ne (vector_ne (differs id)) fun info _ => bind_ne typeOf_ne fun _ _ => bind_ne (ensures id) fun _ _ => ?_
    exact bind_ne typeOf_ne fun _ _ => bind_ne (ensures id) fun _ _ => ensures id
  · apply bind_ne (need_ne (.inl parsed))
    rintro ⟨src, lane⟩ -
    refine bind_ne typeOf_ne fun _ _ => bind_ne (vector_ne (differs id)) fun info _ => ?_
    exact bind_ne (ensures id) fun _ _ => ensures id
  · refine bind_ne (vector_ne (differs id)) fun info _ => bind_ne (ensure_ne (.inl parsed)) fun _ _ => ?_
    exact bind_ne covered_ne fun _ _ => ensures id
  · obtain ⟨a, b, sels, view, -⟩ := parsed
    refine bind_ne (need_ne (.inl (view ▸ rfl))) fun parts _ => bind_ne (vector_ne (differs id)) fun info own => ?_
    refine bind_ne typeOf_ne fun _ _ => bind_ne (vector_ne (differs id)) fun _ _ => ?_
    refine bind_ne typeOf_ne fun _ _ => bind_ne (vector_ne (differs id)) fun _ _ => ?_
    exact bind_ne (ensures fun averted => averted.elim (· op) (· op)) fun _ _ => each_ne fun sel _ => selector_ne (differs id)
  · exact ok_ne

theorem isSome_width {v : Value} : (s.width? v).isSome = true ↔
    ∃ ty, s.ty? v = some ty ∧ ∃ info, (some ty).bind s.types.vector? = some info := by
  rw [Option.isSome_iff_exists]
  constructor
  · intro given
    obtain ⟨lanes, counted⟩ := given
    obtain ⟨elem, found⟩ := Scope.width_eq_some.mp counted
    obtain ⟨ty, typed, vector⟩ := Option.bind_eq_some_iff.mp found
    exact ⟨ty, typed, _, vector⟩
  · intro given
    obtain ⟨ty, typed, ⟨elem, lanes⟩, vector⟩ := given
    exact ⟨lanes, Scope.width_eq_some.mpr ⟨elem, typed ▸ vector⟩⟩

theorem shuffle_malformed {i : Inst} (op : i.opcode = .shuffle) (parsed : i.Parsed s.types) (word : s.types.FitsWord)
    {v : Value} : composite s i = .error (.flaw (.badOperands .shuffle v)) ↔ s.Overlong i ∧ subject i = v := by
  simp only [Inst.Parsed, op] at parsed
  obtain ⟨a, b, sels, view, lanes⟩ := parsed
  obtain ⟨t, typed, counted⟩ := Option.bind_eq_some_iff.mp (lanes word)
  obtain ⟨⟨elem, _⟩, vector, rfl⟩ := Option.map_eq_some_iff.mp counted
  -- The result has as many lanes as a word has left of the count.
  have own : Check.vector s.types i.ty? (.typeMismatch .shuffle (subject i)) = .ok (elem, cut sels.length) := by
    rw [vector_ok, typed]
    exact vector
  have differs : ∀ {w : Value}, Rejection.flaw (.badOperands .shuffle v) ≠ .flaw (.typeMismatch .shuffle w) := by simp
  have chosen : ∀ lanesA lanesB, each (selector i lanesA lanesB) sels ≠ .error (.flaw (.badOperands .shuffle v)) :=
    fun _ _ => each_ne fun _ _ => selector_ne (by simp)
  have widths : (∀ w ∈ i.values, (s.width? w).isSome = true) ↔ (s.width? a).isSome = true ∧ (s.width? b).isSome = true := by
    simp [Inst.asShuffle?_values view]
  simp only [composite, op, need, view, ok_bind, own, error_iff typeOf_ne, error_iff (vector_ne differs),
    error_first fun _ => chosen _ _, ensure_error, typeOf_ok, vector_ok]
  constructor
  · intro given
    obtain ⟨tyA, typedA, infoA, vectorA, tyB, typedB, infoB, vectorB, miscounted, same⟩ := given
    cases same
    refine ⟨⟨op, ?_, widths.mpr ⟨isSome_width.mpr ⟨tyA, typedA, infoA, vectorA⟩, isSome_width.mpr ⟨tyB, typedB, infoB, vectorB⟩⟩⟩, rfl⟩
    rw [Inst.asShuffle?_literals view]
    exact Nat.le_of_not_lt fun short => miscounted (cut_of_lt short).symm
  · intro given
    obtain ⟨⟨-, long, known⟩, rfl⟩ := given
    obtain ⟨knownA, knownB⟩ := widths.mp known
    obtain ⟨tyA, typedA, infoA, vectorA⟩ := isSome_width.mp knownA
    obtain ⟨tyB, typedB, infoB, vectorB⟩ := isSome_width.mp knownB
    rw [Inst.asShuffle?_literals view] at long
    exact ⟨tyA, typedA, infoA, vectorA, tyB, typedB, infoB, vectorB,
      fun same => absurd (cut_eq_self.mp same.symm) (Nat.not_lt.mpr long), rfl⟩

theorem composite_malformed {i : Inst} (parsed : i.Parsed s.types) (word : s.types.FitsWord) {v : Value} :
    composite s i = .error (.flaw (.badOperands .shuffle v)) ↔ s.Overlong i ∧ subject i = v := by
  by_cases op : i.opcode = .shuffle
  · exact shuffle_malformed op parsed word
  · exact ⟨fun failed => absurd failed (composite_ne (.inl op) parsed), fun long => absurd long.1.1 op⟩

end Check

namespace Draft

variable {m : Module} {d : Draft}

theorem Sound.results_ok (sound : d.Sound m) : Check.results d.scope.globals.values d.scope.func.insts = .ok () := by
  refine Check.results_ok.mpr ⟨fun i member => Check.result_ok.mpr (sound.fits i member).paired, ?_⟩
  obtain ⟨-, distinct, apart⟩ := List.nodup_append.mp sound.distinct
  exact ⟨distinct, fun v result global => apart v (List.mem_append_left _ global) v result rfl⟩

theorem Sound.check_error (sound : d.Sound m) {flaw : Flaw} (plain : ¬ Check.Structural (.flaw flaw)) :
    d.scope.check = .error (.flaw flaw) ↔ ∃ b k i, d.scope.ComesTo b k i ∧ Check.composite d.scope i = .error (.flaw flaw) :=
  Scope.check_error plain (sound.results_ok ▸ Check.ok_ne)

theorem Sound.check_ne (sound : d.Sound m) {flaw : Flaw} (averted : ∀ i, flaw.Averted i) : d.scope.check ≠ .error (.flaw flaw) := by
  have plain : ¬ Check.Structural (.flaw flaw) := by
    cases flaw <;> first | exact id | cases averted ⟨.ret, none, []⟩
  intro rejected
  obtain ⟨b, k, i, comes, failed⟩ := (sound.check_error plain).mp rejected
  exact Check.composite_ne (averted i) (sound.fits i comes.member).parsed failed

theorem Sound.finished (sound : d.Sound m) : d.finish.2.Sound := by
  unfold finish
  split
  · rename_i accepted
    have ids : (d.module.addFunc d.func).2.ids = d.ids := by
      simp [Module.addFunc, Module.ids, ids]
    refine { sound.module with distinct := ids ▸ sound.distinct, issued := ?_, accepted := ?_, known := ?_ }
    · rw [ids]
      exact fun v => sound.issued_ids
    · have last : (d.module.scope d.func).WellFormed := Scope.check_ok.mp accepted
      exact List.forall_mem_append.mpr ⟨sound.module.accepted, List.forall_mem_singleton.mpr last⟩
    · have last : (d.module.scope d.func).ResultsKnown := fun i here => (sound.fits i here).known
      exact List.forall_mem_append.mpr ⟨sound.module.known, List.forall_mem_singleton.mpr last⟩
  · exact sound.module

theorem finish_ok {n : Nat} (taken : d.finish.1 = .ok n) :
    n = d.module.funcs.length ∧ d.finish.2.funcs = d.module.funcs ++ [d.func] := by
  unfold finish at taken ⊢
  split at taken
  · cases taken
    exact ⟨rfl, rfl⟩
  · cases taken

theorem finish_error_iff {r : Rejection} : d.finish.1 = .error r ↔ d.scope.check = .error r := by
  unfold finish
  split
  · rename_i accepted
    exact ⟨nofun, fun rejected => nomatch accepted.symm.trans rejected⟩
  · rename_i rejected
    rw [rejected]
    exact ⟨fun same => congrArg Except.error (Except.error.inj same), fun same => congrArg Except.error (Except.error.inj same)⟩

theorem finish_error {r : Rejection} (failed : d.finish.1 = .error r) : d.finish.2 = d.module := by
  rw [finish, finish_error_iff.mp failed]

inductive Next (d : Draft) : Draft → Prop where
  | step (step : Step) (known : ∀ r ∈ step.refs, d.module.types.contains r = true) : Next d (Draft.step step d).2

def Reached (m : Module) (d : Draft) : Prop := ∃ name, Relation.ReflTransGen Next (start m name) d

theorem Reached.sound (reached : Reached m d) (sound : m.Sound) : d.Sound m := by
  obtain ⟨name, steps⟩ := reached
  induction steps with
  | refl => exact sound_start sound name
  | tail _ next ih =>
    obtain ⟨step, known⟩ := next
    exact (step_keeps step _ ih known).1

end Draft

namespace Scope

variable {s : Scope}

theorem Tidied.results {g : Func} (tidied : s.Tidied g) : g.results.Sublist s.func.results := by
  induction tidied with
  | refl => exact .refl _
  | tail _ tidies ih =>
    obtain ⟨live, between, -, -, bypasses, discards⟩ := tidies
    exact (bypasses.results ▸ discards.results).trans ih

end Scope

theorem cleanEach_ok {types : TypeTable} {globals : Globals} (config : Config) {fs : List Func}
    (all : ∀ f ∈ fs, Scope.WellFormed ⟨types, globals, f⟩ ∧ Scope.Typed ⟨types, globals, f⟩) :
    ∃ changed, (cleanEach types globals config fs).changed = .ok changed ∧
      (cleanEach types globals config fs).subject = fs.map fun f => (Scope.clean ⟨types, globals, f⟩ config).subject := by
  induction fs with
  | nil => exact ⟨false, rfl, rfl⟩
  | cons f rest ih =>
    obtain ⟨⟨well, typed⟩, others⟩ := List.forall_mem_cons.mp all
    obtain ⟨changed, ran, -⟩ := well.clean_tidied typed config
    obtain ⟨later, rest, subjects⟩ := ih others
    refine ⟨changed || later, ?_, ?_⟩ <;> simp only [cleanEach, ran, rest, subjects, Except.map, List.map_cons]

namespace Module

variable {m n : Module}

theorem Sound.cleaned (sound : m.Sound) (config : Config) : (m.clean config).subject.Sound := by
  have typed : ∀ f ∈ m.funcs, (m.scope f).Typed := fun f member => (sound.known f member).typed sound.globals
  have tidied : ∀ f ∈ m.funcs, (m.scope f).Tidied ((m.scope f).clean config).subject := by
    intro f member
    obtain ⟨-, -, tidied⟩ := (sound.accepted f member).clean_tidied (typed f member) config
    exact tidied
  obtain ⟨-, -, subjects⟩ := cleanEach_ok config fun f member => ⟨sound.accepted f member, typed f member⟩
  have cleaned : (m.clean config).subject = { m with funcs := m.funcs.map fun f => ((m.scope f).clean config).subject } := by
    rw [Module.clean, subjects]
    rfl
  have ids : (m.clean config).subject.ids.Sublist m.ids := by
    rw [cleaned, Module.ids, List.flatMap_map]
    exact (List.Sublist.flatMap_right m.funcs fun f member => (tidied f member).results).append_left _
  have upkeep : ∀ g ∈ (m.clean config).subject.funcs, (m.scope g).WellFormed ∧ (m.scope g).Typed := by
    intro g member
    rw [cleaned] at member
    obtain ⟨f, before, rfl⟩ := List.mem_map.mp member
    exact (tidied f before).upkeep (sound.accepted f before) (typed f before)
  exact {
    sound with
    distinct := sound.distinct.sublist ids
    issued := fun v member => sound.issued v (ids.subset member)
    accepted := fun g member => (upkeep g member).1
    known := fun g member => (upkeep g member).2.resultsKnown (upkeep g member).1 }

-- What can be done with a module, one thing at a time: types, globals, single
-- values, functions and clean-ups, in any order. All types that are named are
-- in the table. A fault leaves behind what was done before it, and a function
-- may be given up at any point.
inductive Next (m : Module) : Module → Prop where
  | entered (ty : Ty) (known : ∀ r ∈ ty.refs, m.types.contains r = true) : Next m (onTypes (TypeTable.enter ty) m).2
  | enteredVector (elem : TypeRef) (lanes : Nat) (known : m.types.contains elem = true) :
      Next m (onTypes (TypeTable.enterVector elem lanes) m).2
  | took : Next m (fresh m).2
  | addedConstant (ty : TypeRef) (bits : BitVec 64) (known : m.types.contains ty = true) : Next m (addConstant ty bits m).2
  | addedFloat32 (bits : BitVec 32) : Next m (addFloat32 bits m).2
  | addedInt32 (value : Int) : Next m (addInt32 value m).2
  | addedComposite (ty : TypeRef) (parts : List Value) (known : m.types.contains ty = true) : Next m (addComposite ty parts m).2
  | addedUndef (ty : TypeRef) (known : m.types.contains ty = true) : Next m (addUndef ty m).2
  | addedVariable (pointee : TypeRef) (storage : Storage) (known : m.types.contains pointee = true) :
      Next m (addVariable pointee storage m).2
  | finished (d : Draft) (drafted : Draft.Reached m d) : Next m d.finish.2
  | abandoned (d : Draft) (drafted : Draft.Reached m d) : Next m d.module
  | cleaned (config : Config) : Next m (m.clean config).subject

abbrev Reached : Module → Prop := Relation.ReflTransGen Next new

theorem Next.keeps (next : Next m n) (sound : m.Sound) : n.Sound := by
  cases next with
  | entered ty known => exact (onTypes_keeps (fun t => t.enter_keeps ty) m sound known).1
  | enteredVector elem lanes known => exact (onTypes_keeps (fun t => t.enterVector_keeps elem lanes) m sound known).1
  | took => exact (fresh_keeps (fun _ => True) m sound trivial).1
  | addedConstant ty bits known => exact (addGlobal_keeps ⟨ty, .constant bits⟩ m sound known).1
  | addedFloat32 bits => exact (addEntered_keeps (.float 32) (fun _ => rfl) m sound nofun).1
  | addedInt32 value => exact (addEntered_keeps (.int 32 true) (fun _ => rfl) m sound nofun).1
  | addedComposite ty parts known => exact (addGlobal_keeps ⟨ty, .composite parts⟩ m sound known).1
  | addedUndef ty known => exact (addGlobal_keeps ⟨ty, .undef⟩ m sound known).1
  | addedVariable pointee storage known =>
    exact (addEntered_keeps (.pointer pointee storage) (fun _ => rfl) m sound (List.forall_mem_singleton.mpr known)).1
  | finished d drafted => exact (drafted.sound sound).finished
  | abandoned d drafted => exact (drafted.sound sound).module
  | cleaned config => exact sound.cleaned config

theorem Reached.sound (reached : Reached m) : m.Sound := by
  induction reached with
  | refl => exact sound_new
  | tail _ next ih => exact next.keeps ih

end Module

namespace Draft

variable {m : Module} {d : Draft}

-- What becomes of a draft of a function for `m`. The checker finds no fault
-- with its results, nor with any operands but those of a shuffle.
structure Ends (m : Module) (d : Draft) : Prop where
  taken : ∀ n, d.finish.1 = .ok n → n = m.funcs.length ∧ d.finish.2.funcs = m.funcs ++ [d.func]
  kept : ∀ r, d.finish.1 = .error r → d.finish.2.funcs = m.funcs
  distinct : ∀ v, d.finish.1 ≠ .error (.flaw (.redefined v))
  paired : ∀ op, d.finish.1 ≠ .error (.flaw (.badResult op))
  parsed : ∀ op v, d.finish.1 = .error (.flaw (.badOperands op v)) → op = .shuffle
  malformed : d.module.types.FitsWord → ∀ v, d.finish.1 = .error (.flaw (.badOperands .shuffle v)) ↔
    ∃ b k i, d.scope.ComesTo b k i ∧ d.scope.Overlong i ∧ Check.subject i = v

theorem Sound.ends (sound : d.Sound m) : d.Ends m := by
  have averts : ∀ flaw : Flaw, (∀ i, flaw.Averted i) → d.finish.1 ≠ .error (.flaw flaw) :=
    fun flaw averted failed => sound.check_ne averted (finish_error_iff.mp failed)
  refine ⟨fun n taken => ?_, fun r failed => ?_, fun v => averts _ fun _ => trivial, fun op => averts _ fun _ => trivial,
    fun op v failed => ?_, fun word v => ?_⟩
  · obtain ⟨last, more⟩ := finish_ok taken
    exact ⟨sound.funcs ▸ last, sound.funcs ▸ more⟩
  · rw [finish_error failed]
    exact sound.funcs
  · by_contra otherwise
    exact averts (.badOperands op v) (fun _ => .inr otherwise) failed
  · rw [finish_error_iff, sound.check_error id]
    constructor
    · intro given
      obtain ⟨b, k, i, comes, failed⟩ := given
      exact ⟨b, k, i, comes, (Check.composite_malformed (sound.fits i comes.member).parsed word).mp failed⟩
    · intro given
      obtain ⟨b, k, i, comes, long⟩ := given
      exact ⟨b, k, i, comes, (Check.composite_malformed (sound.fits i comes.member).parsed word).mpr long⟩

end Draft

namespace Module

variable {m : Module}

structure Consistent (m : Module) : Prop where
  distinct : m.ids.Nodup
  issued : ∀ v ∈ m.ids, v ∈ m.handedOut
  next : ∀ v n, fresh m = (.ok v, n) → n.handedOut = m.handedOut ++ [v]
  accepted : ∀ f ∈ m.funcs, (m.scope f).check = .ok ()
  drafts : ∀ d, Draft.Reached m d → d.Ends m

-- However a module came about, the values of its globals and all results in it
-- are different and were handed out, and the checker accepts every function.
theorem reached_consistent (reached : Reached m) : m.Consistent := by
  have sound := Reached.sound reached
  refine ⟨sound.distinct, sound.issued, fun v n => fresh_handedOut sound.started, fun f member => ?_, fun d drafted => ?_⟩
  · exact Scope.check_ok.mpr (sound.accepted f member)
  · exact (drafted.sound sound).ends

def outlet : Module := (addUndef ⟨1⟩ (addVariable ⟨1⟩ .output
  (onTypes (TypeTable.enterVector ⟨0⟩ 2) (onTypes (TypeTable.enter (.float 32)) new).2).2).2).2

theorem outlet_reached : Reached outlet := (((Relation.ReflTransGen.refl.tail (.entered (.float 32) nofun)).tail
  (.enteredVector ⟨0⟩ 2 (by decide))).tail (.addedVariable ⟨1⟩ .output (by decide))).tail (.addedUndef ⟨1⟩ (by decide))

-- The copy comes before there is a block, so that its value is lost.
def twice : Draft := ((Draft.start outlet "twice").steps [.copy ⟨1⟩, .block, .load ⟨1⟩, .extract ⟨4⟩ 0,
  .insert ⟨5⟩ ⟨4⟩ 1, .insert ⟨5⟩ ⟨6⟩ 1, .store ⟨1⟩ ⟨7⟩, .ret]).2

def once : Module := (twice.finish.2.clean {}).subject

def unfinished : Draft := ((Draft.start once "unfinished").steps [.block, .load ⟨1⟩]).2

theorem reached_consistent_cleaned : Reached once ∧ once.Consistent ∧
    twice.finish.1 = .ok 0 ∧ twice.finish.2.funcs = [twice.func] ∧
    once.ids = [⟨1⟩, ⟨2⟩, ⟨4⟩, ⟨5⟩, ⟨7⟩] ∧ once.handedOut.length = 7 ∧
    once.funcs.map Func.insts = [[⟨.load, some (⟨4⟩, ⟨1⟩), [.value ⟨1⟩]⟩, ⟨.extract, some (⟨5⟩, ⟨0⟩), [.value ⟨4⟩, .literal 0]⟩,
      ⟨.insert, some (⟨7⟩, ⟨1⟩), [.value ⟨5⟩, .value ⟨4⟩, .literal 1]⟩, ⟨.store, none, [.value ⟨1⟩, .value ⟨7⟩]⟩, ⟨.ret, none, []⟩]] ∧
    unfinished.finish.1 = .error (.flaw (.missingTerminator ⟨0⟩)) ∧ unfinished.finish.2.funcs = once.funcs := by
  have drafted : Draft.Reached outlet twice := ⟨"twice", (((((((Relation.ReflTransGen.refl.tail
    (.step (.copy ⟨1⟩) nofun)).tail (.step .block nofun)).tail (.step (.load ⟨1⟩) nofun)).tail
    (.step (.extract ⟨4⟩ 0) nofun)).tail (.step (.insert ⟨5⟩ ⟨4⟩ 1) nofun)).tail
    (.step (.insert ⟨5⟩ ⟨6⟩ 1) nofun)).tail (.step (.store ⟨1⟩ ⟨7⟩) nofun)).tail (.step .ret nofun)⟩
  have taken : twice.finish.1 = .ok 0 := by decide +kernel
  have reached : Reached once := (outlet_reached.tail (.finished twice drafted)).tail (.cleaned {})
  have consistent := reached_consistent reached
  have again : Draft.Reached once unfinished := ⟨"unfinished",
    (Relation.ReflTransGen.refl.tail (.step .block nofun)).tail (.step (.load ⟨1⟩) nofun)⟩
  have failed : unfinished.finish.1 = .error (.flaw (.missingTerminator ⟨0⟩)) := by decide +kernel
  refine ⟨reached, consistent, taken, ?_, by decide +kernel, by decide +kernel, by decide +kernel, failed, ?_⟩
  · exact (((reached_consistent outlet_reached).drafts twice drafted).taken 0 taken).2
  · exact (consistent.drafts unfinished again).kept _ failed

def widened (sels : List Nat) : Draft := ((Draft.start outlet "widened").steps [.block, .shuffle ⟨2⟩ ⟨2⟩ sels, .ret]).2

theorem widened_reached (sels : List Nat) : Draft.Reached outlet (widened sels) := ⟨"widened",
  ((Relation.ReflTransGen.refl.tail (.step .block nofun)).tail (.step (.shuffle ⟨2⟩ ⟨2⟩ sels) nofun)).tail
    (.step .ret nofun)⟩

theorem widened_scope {sels : List Nat} (two : cut sels.length = 2) : (widened sels).scope =
    ⟨outlet.types, outlet.globals, .ofBlocks "widened"
      [[⟨.shuffle, some (⟨3⟩, ⟨1⟩), .value ⟨2⟩ :: .value ⟨2⟩ :: sels.map .literal⟩, ⟨.ret, none, []⟩]]⟩ := by
  simp only [widened, Draft.steps, Draft.step, Draft.shuffle, two]
  rfl

-- Nothing but the number of its selectors can be wrong with it.
theorem widened_comesTo {sels : List Nat} (two : cut sels.length = 2) : ∃ i, (widened sels).scope.ComesTo ⟨0⟩ 0 i ∧
    i.asShuffle? = some (⟨2⟩, ⟨2⟩, sels) ∧ Check.subject i = ⟨3⟩ ∧ (widened sels).scope.width? ⟨2⟩ = some 2 := by
  rw [widened_scope two]
  refine ⟨⟨.shuffle, some (⟨3⟩, ⟨1⟩), .value ⟨2⟩ :: .value ⟨2⟩ :: sels.map .literal⟩, ⟨rfl, nofun, ?_, ?_, rfl⟩,
    Inst.asShuffle?_eq_some.mpr ⟨rfl, rfl⟩, rfl, rfl⟩
  · exact ⟨_, rfl, rfl, rfl, nofun⟩
  · refine Check.operands_ok.mpr ⟨fun v named => ?_, fun b named => ?_⟩
    · obtain rfl : v = ⟨2⟩ := by simpa using named
      rfl
    · simp at named

theorem widened_malformed {sels : List Nat} (two : cut sels.length = 2) (long : wordBound ≤ sels.length) :
    (widened sels).finish.1 = .error (.flaw (.badOperands .shuffle ⟨3⟩)) := by
  obtain ⟨i, comes, view, subject, width⟩ := widened_comesTo two
  have sound := (widened_reached sels).sound (Reached.sound outlet_reached)
  have word : (widened sels).scope.types.FitsWord := by
    rw [widened_scope two]
    exact Nat.le_of_ble_eq_true rfl
  refine (sound.ends.malformed word ⟨3⟩).mpr ⟨⟨0⟩, 0, i, comes, ⟨(Inst.asShuffle?_eq_some.mp view).1, ?_, ?_⟩, subject⟩
  · rw [Inst.asShuffle?_literals view]
    exact long
  · simp [Inst.asShuffle?_values view, width]

-- Two lanes is what a word has left of so many selectors.
theorem overlong_rejected : Reached outlet ∧ Draft.Reached outlet (widened (List.replicate (wordBound + 2) 0)) ∧
    (widened (List.replicate (wordBound + 2) 0)).finish.1 = .error (.flaw (.badOperands .shuffle ⟨3⟩)) := by
  have length := List.length_replicate (n := wordBound + 2) (a := 0)
  have two : cut (List.replicate (wordBound + 2) 0).length = 2 := by
    rw [length]
    rfl
  exact ⟨outlet_reached, widened_reached _, widened_malformed two ((Nat.le_add_right wordBound 2).trans_eq length.symm)⟩

end Module

end DeadLanes
