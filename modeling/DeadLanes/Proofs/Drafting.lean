import DeadLanes.Module.Draft
import DeadLanes.Proofs.Growth
import DeadLanes.Proofs.Lawfulness

namespace DeadLanes

-- Whatever is asked of a draft, in whatever order and with whatever operands,
-- it keeps to what its module relies on.

namespace Inst

-- Operands in the shape that the opcode asks for; what they name may be
-- anything. A shuffle is typed by its selectors only as far as a word counts.
def Parsed (types : TypeTable) (i : Inst) : Prop :=
  match i.opcode with
  | .insert => i.asInsert?.isSome = true
  | .extract => i.asExtract?.isSome = true
  | .construct => i.literals = []
  | .shuffle => ∃ a b sels, i.asShuffle? = some (a, b, sels) ∧
      (types.FitsWord → i.ty?.bind types.lanes? = some (cut sels.length))
  | _ => True

structure Fits (types : TypeTable) (i : Inst) : Prop where
  paired : i.opcode = .call ∨ i.defines.isSome = !i.opcode.resultless
  known : ∀ t ∈ i.ty?, types.contains t = true
  parsed : i.Parsed types

theorem Fits.grow {types types' : TypeTable} {i : Inst} (fits : i.Fits types) (grown : types.Extends types') :
    i.Fits types' := by
  obtain ⟨paired, known, parsed⟩ := fits
  refine ⟨paired, fun t result => grown.contains (known t result), ?_⟩
  unfold Parsed at parsed ⊢
  split
  case h_4 op =>
    rw [op] at parsed
    obtain ⟨a, b, sels, view, lanes⟩ := parsed
    refine ⟨a, b, sels, view, fun word => ?_⟩
    obtain ⟨t, result, count⟩ := Option.bind_eq_some_iff.mp (lanes (grown.fitsWord word))
    refine Option.bind_eq_some_iff.mpr ⟨t, result, ?_⟩
    rw [TypeTable.lanes?, grown.vector? (known t result)]
    exact count
  all_goals simp_all

theorem Fits.addOperands {types : TypeTable} {i : Inst} (fits : i.Fits types) (phi : i.opcode = .phi) (more : List Operand) :
    (i.addOperands more).Fits types := by
  refine ⟨fits.paired, fits.known, ?_⟩
  rw [Parsed, Inst.addOperands, phi]
  trivial

end Inst

theorem Func.insts_append (f : Func) (b : Label) (i : Inst) :
    (append b i f).2.insts.Perm (i :: f.insts) ∨ (append b i f).2.insts = f.insts := by
  unfold append
  split
  · rename_i here
    have perm := flatten_modify_perm here (g := (· ++ [⟨⟨f.issued⟩, i⟩])) List.perm_append_comm
    exact .inl (perm.map Placed.inst)
  · exact .inr rfl

theorem Func.results_revise (f : Func) (r : InstRef) {g : Inst → Inst} (same : ∀ i, (g i).defines = i.defines) :
    (f.revise r g).results = f.results := by
  rw [results_eq_placed, results_eq_placed, placed_revise, List.filterMap_map]
  refine List.filterMap_congr fun p _ => ?_
  dsimp only [Function.comp]
  split
  · exact congrArg (Option.map (·.1)) (same p.inst)
  · rfl

theorem Func.mem_insts_revise {f : Func} {r : InstRef} {i j : Inst} {g : Inst → Inst} (here : f.inst? r = some i)
    (member : j ∈ (f.revise r g).insts) : j = g i ∨ j ∈ f.insts := by
  rw [insts, placed_revise, List.map_map] at member
  obtain ⟨p, placed, rfl⟩ := List.mem_map.mp member
  dsimp only [Function.comp]
  split
  · rename_i this
    cases placed_unique placed (inst?_eq_some.mp here) this
    exact .inl rfl
  · exact .inr (List.mem_map_of_mem placed)

def Draft.Step.refs : Draft.Step → List TypeRef
  | .undef ty | .const ty _ | .accessChain ty .. | .extInst ty .. | .construct ty _ | .phi ty _ | .call ty _ => [ty]
  | _ => []

namespace Draft

variable {m : Module} {d : Draft}

def ids (d : Draft) : List Value := d.module.ids ++ d.func.results

-- A draft of a function for `m`, in order. Its module still has the functions
-- of `m`, and its own results are apart from everything in there.
structure Sound (m : Module) (d : Draft) : Prop where
  module : d.module.Sound
  funcs : d.module.funcs = m.funcs
  distinct : d.ids.Nodup
  issued : ∀ v ∈ d.func.results, v ∈ d.module.handedOut
  fits : ∀ i ∈ d.func.insts, i.Fits d.module.types
  defs : ∀ entry ∈ d.defs, d.module.types.contains entry.2.2 = true

theorem sound_start (sound : m.Sound) (name : String) : (start m name).Sound m := by
  refine ⟨sound, rfl, ?_, nofun, nofun, nofun⟩
  rw [ids, start, Func.results]
  exact (List.append_nil _).symm ▸ sound.distinct

theorem Sound.retyped (sound : d.Sound m) {types : TypeTable} (grown : d.module.types.Grown types) :
    ({ d with module := { d.module with types := types } } : Draft).Sound m where
  module := sound.module.retyped grown
  funcs := sound.funcs
  distinct := sound.distinct
  issued := sound.issued
  fits := fun i member => (sound.fits i member).grow grown.kept
  defs := fun entry member => grown.kept.contains (sound.defs entry member)

theorem Sound.advanced (sound : d.Sound m) :
    ({ d with module := { d.module with next := d.module.next + 1 } } : Draft).Sound m := by
  refine { sound with module := sound.module.advanced, issued := fun v result => ?_ }
  rw [Module.handedOut_next sound.module.started]
  exact List.mem_append_left _ (sound.issued v result)

theorem Sound.issued_ids (sound : d.Sound m) {v : Value} (member : v ∈ d.ids) : v ∈ d.module.handedOut := by
  rcases List.mem_append.mp member with before | own
  · exact sound.module.issued v before
  · exact sound.issued v own

theorem Sound.unused (sound : d.Sound m) : ⟨d.module.next⟩ ∉ d.ids :=
  fun listed => Module.next_not_handedOut sound.module.started (sound.issued_ids listed)

theorem Sound.placed (sound : d.Sound m) {i : Inst} (fits : i.Fits d.module.types)
    (fresh : ∀ v ∈ i.result?, v ∉ d.ids ∧ v ∈ d.module.handedOut) {f : Func} (insts : f.insts.Perm (i :: d.func.insts)) :
    ({ d with func := f } : Draft).Sound m := by
  have results : f.results.Perm (i.result?.toList ++ d.func.results) := by
    refine (insts.filterMap Inst.result?).trans ?_
    rw [List.filterMap_cons]
    cases i.result? <;> exact .refl _
  have ids : (d.module.ids ++ f.results).Perm (i.result?.toList ++ d.ids) :=
    (results.append_left _).trans (List.perm_append_comm_assoc ..)
  refine { sound with distinct := ids.nodup_iff.mpr ?_, issued := ?_, fits := ?_ }
  · cases result : i.result? with
    | none => exact sound.distinct
    | some v => exact List.nodup_cons.mpr ⟨(fresh v result).1, sound.distinct⟩
  · intro v result
    rcases List.mem_append.mp (results.mem_iff.mp result) with new | before
    · exact (fresh v (Option.mem_toList.mp new)).2
    · exact sound.issued v before
  · intro j member
    rcases List.mem_cons.mp (insts.mem_iff.mp member) with rfl | before
    · exact fits
    · exact sound.fits j before

theorem Sound.refit (sound : d.Sound m) {f : Func} (results : f.results = d.func.results)
    (fits : ∀ i ∈ f.insts, i.Fits d.module.types) : ({ d with func := f } : Draft).Sound m := by
  refine { sound with distinct := ?_, issued := ?_, fits := fits }
  · rw [ids, results]
    exact sound.distinct
  · rw [results]
    exact sound.issued

theorem fresh_keeps (p : TypeTable → Prop) : Attempt.Keeps (Sound m) (fun d => p d.module.types) (inModule Module.fresh)
    fun v d => (v ∉ d.ids ∧ v ∈ d.module.handedOut) ∧ p d.module.types := by
  intro d sound ready
  rw [inModule, Attempt.on]
  rcases Module.fresh_eq d.module with ran | ran <;> rw [ran]
  · refine ⟨sound.advanced, fun v same => ?_⟩
    cases same
    exact ⟨⟨sound.unused, Module.mem_handedOut_next sound.module.started⟩, ready⟩
  · refine ⟨sound, fun v same => ?_⟩
    cases same

theorem onTypes_keeps {act : Attempt TypeTable α} {pre : TypeTable → Prop} {post : α → TypeTable → Prop}
    (fills : ∀ t, Attempt.Keeps (TypeTable.Grown t) pre act post) :
    Attempt.Keeps (Sound m) (fun d => pre d.module.types) (inModule (Module.onTypes act)) fun a d => post a d.module.types := by
  intro d sound ready
  obtain ⟨grown, answered⟩ := fills d.module.types d.module.types ⟨.refl _, sound.module.closed⟩ ready
  exact ⟨sound.retyped grown, answered⟩

theorem place_keeps (i : Inst) : Attempt.Keeps (Sound m)
    (fun d => i.Fits d.module.types ∧ ∀ v ∈ i.result?, v ∉ d.ids ∧ v ∈ d.module.handedOut) (place i)
    fun _ d => i.Fits d.module.types := by
  refine Attempt.keeps_state.bind fun _ => Attempt.keeps_need.bind fun b => ?_
  rintro d sound ⟨-, -, fits, fresh⟩
  refine ⟨?_, fun _ _ => fits⟩
  -- an instruction for a block that does not exist is in no block
  rcases d.func.insts_append b i with more | same
  · exact sound.placed fits fresh more
  · exact sound.refit (congrArg (List.filterMap Inst.result?) same) (same ▸ sound.fits)

theorem define_keeps {op : Opcode} (produces : op.resultless = false) (ty : TypeRef) (operands : List Operand) :
    Attempt.Keeps (Sound m)
      (fun d => d.module.types.contains ty = true ∧ ∀ v, Inst.Parsed d.module.types ⟨op, some (v, ty), operands⟩)
      (define op ty operands) fun _ _ => True := by
  refine (fresh_keeps fun types => types.contains ty = true ∧ ∀ v, Inst.Parsed types ⟨op, some (v, ty), operands⟩).bind fun v => ?_
  refine ((place_keeps ⟨op, some (v, ty), operands⟩).given ?_).bind fun r => (Attempt.keeps_modify ?_).answer fun _ => v
  · rintro d - ⟨unused, known, parsed⟩
    refine ⟨⟨.inr ?_, ?_, parsed v⟩, ?_⟩
    · rw [produces]
      rfl
    · intro t same
      cases same
      exact known
    · intro w same
      cases same
      exact unused
  · intro d sound fits
    refine { sound with defs := fun entry member => ?_ }
    rcases List.mem_cons.mp member with rfl | before
    · exact fits.known ty rfl
    · exact sound.defs entry before

theorem define_known_keeps (op : Opcode) (produces : op.resultless = false) (ty : TypeRef) (operands : List Operand)
    (parsed : ∀ types v, Inst.Parsed types ⟨op, some (v, ty), operands⟩) :
    Attempt.Keeps (Sound m) (fun d => d.module.types.contains ty = true) (define op ty operands) fun _ _ => True :=
  (define_keeps produces ty operands).given fun _ _ known => ⟨known, parsed _⟩

theorem define_named_keeps (op : Opcode) (produces : op.resultless = false) (ty : TypeRef) (operands : List Operand)
    (parsed : ∀ types v, Inst.Parsed types ⟨op, some (v, ty), operands⟩) :
    Attempt.Keeps (Sound m) (fun d => ∀ r ∈ [ty], d.module.types.contains r = true) (giving (define op ty operands))
      fun _ _ => True :=
  ((define_known_keeps op produces ty operands parsed).given fun _ _ known =>
    known ty (List.mem_singleton_self ty)).answer _

theorem effect_keeps (op : Opcode) (silent : op = .call ∨ op.resultless = true) (operands : List Operand)
    (parsed : ∀ types, Inst.Parsed types ⟨op, none, operands⟩) :
    Attempt.Keeps (Sound m) (fun _ => True) (effect op operands) fun _ _ => True := by
  refine ((place_keeps ⟨op, none, operands⟩).given fun d _ _ => ⟨⟨?_, nofun, parsed _⟩, nofun⟩).answer fun _ => ()
  rcases silent with call | resultless
  · exact .inl call
  · exact .inr (by rw [resultless]; rfl)

theorem addBlock_keeps : Attempt.Keeps (Sound m) (fun _ => True) addBlock fun _ _ => True := by
  have empty : Attempt.Keeps (Sound m) (fun _ => True) (inFunc (Attempt.step Func.addBlock)) fun _ _ => True := by
    intro d sound _
    have insts : d.func.addBlock.2.insts = d.func.insts := by
      simp [Func.insts, Func.placed, Func.addBlock]
    exact ⟨sound.refit (congrArg (List.filterMap Inst.result?) insts) (insts ▸ sound.fits), fun _ _ => trivial⟩
  apply empty.bind
  intro b
  exact (Attempt.keeps_modify fun d sound _ => { sound with }).answer fun _ => b

theorem switchTo_keeps (b : Label) : Attempt.Keeps (Sound m) (fun _ => True) (switchTo b) fun _ _ => True := by
  refine Attempt.keeps_state.bind fun _ => Attempt.keeps_demand.bind fun _ => Attempt.keeps_modify ?_
  exact fun d sound _ => { sound with }

theorem tyOf_keeps (v : Value) : Attempt.Keeps (Sound m) (fun _ => True) (tyOf v) fun ty d =>
    d.module.types.contains ty = true := by
  refine Attempt.keeps_state.bind fun _ => Attempt.keeps_need.telling ?_
  rintro ty d sound ⟨found, rfl, -⟩
  rcases Option.or_eq_some_iff.mp found with own | ⟨-, global⟩
  · obtain ⟨⟨r, ty⟩, here, rfl⟩ := Option.map_eq_some_iff.mp own
    obtain ⟨front, back, split, -⟩ := List.lookup_eq_some_iff.mp here
    exact sound.defs (v, r, ty) (by simp [split])
  · obtain ⟨entry, member, rfl⟩ := Globals.ty?_mem global
    exact sound.module.globals entry member

theorem elemOf_keeps (v : Value) : Attempt.Keeps (Sound m) (fun _ => True) (elemOf v) fun elem d =>
    d.module.types.contains elem = true := by
  refine (tyOf_keeps v).bind fun ty => Attempt.keeps_state.bind fun _ => Attempt.keeps_ofExcept.bind fun info =>
    Attempt.keeps_need.bind fun (elem, lanes) => ?_
  rintro d sound ⟨rfl, vector, rfl, -⟩
  refine ⟨sound, fun _ same => ?_⟩
  cases same
  exact sound.module.closed.elem vector

theorem load_keeps (ptr : Value) : Attempt.Keeps (Sound m) (fun _ => True) (load ptr) fun _ _ => True := by
  refine (tyOf_keeps ptr).bind fun ty => Attempt.keeps_state.bind fun _ => Attempt.keeps_ofExcept.bind fun pointee =>
    Attempt.keeps_need.bind fun target => (define_keeps rfl target [.value ptr]).given ?_
  rintro d sound ⟨rfl, points, rfl, -⟩
  exact ⟨sound.module.closed.pointee points, fun _ => trivial⟩

theorem shuffle_keeps (a b : Value) (sels : List Nat) :
    Attempt.Keeps (Sound m) (fun _ => True) (Draft.shuffle a b sels) fun _ _ => True := by
  refine (elemOf_keeps a).bind fun elem => (onTypes_keeps fun t => t.enterVector_keeps elem (cut sels.length)).bind fun ty =>
    (define_keeps rfl ty (.value a :: .value b :: sels.map .literal)).given fun d _ found => ?_
  refine ⟨found.1, fun v => ⟨a, b, sels, Inst.asShuffle?_eq_some.mpr ⟨rfl, rfl⟩, fun word => ?_⟩⟩
  rw [Inst.ty?, Option.map_some, Option.bind_some, TypeTable.lanes?, TypeTable.vector?, found.2 word]
  rfl

theorem addIncoming_keeps (phi v : Value) (pred : Label) :
    Attempt.Keeps (Sound m) (fun _ => True) (Draft.addIncoming phi v pred) fun _ _ => True := by
  refine Attempt.keeps_state.bind fun d => Attempt.keeps_need.bind fun (r, _) => Attempt.keeps_need.bind fun i =>
    Attempt.keeps_demand.bind fun _ => ?_
  rintro _ sound ⟨isPhi, here, -, rfl, -⟩
  refine ⟨sound.refit (d.func.results_revise r fun _ => rfl) fun j member => ?_, fun _ _ => trivial⟩
  rcases Func.mem_insts_revise here member with rfl | before
  · exact (sound.fits i (Func.mem_insts_iff_placed.mpr ⟨r, Func.inst?_eq_some.mp here⟩)).addOperands isPhi _
  · exact sound.fits j before

theorem step_keeps (step : Step) : Attempt.Keeps (Sound m) (fun d => ∀ r ∈ step.refs, d.module.types.contains r = true)
    (Draft.step step) fun _ _ => True := by
  have free : ∀ {α} {act : Attempt Draft α} {mid : α → Draft → Prop}, Attempt.Keeps (Sound m) (fun _ => True) act mid →
      Attempt.Keeps (Sound m) (fun d => ∀ r ∈ step.refs, d.module.types.contains r = true) act mid :=
    fun kept => kept.given fun _ _ _ => trivial
  cases step with
  | block => exact (free addBlock_keeps).answer _
  | switchTo b => exact (free (switchTo_keeps b)).answer _
  | tyOf v => exact (free (tyOf_keeps v)).answer _
  | undef ty => exact define_named_keeps .undef rfl ty _ fun _ _ => trivial
  | const ty bits => exact define_named_keeps .const rfl ty _ fun _ _ => trivial
  | accessChain ty base indices => exact define_named_keeps .accessChain rfl ty _ fun _ _ => trivial
  | extInst ty number args => exact define_named_keeps .extInst rfl ty _ fun _ _ => trivial
  | call ty args => exact define_named_keeps .call rfl ty _ fun _ _ => trivial
  | phi ty incoming => exact define_named_keeps .phi rfl ty _ fun _ _ => trivial
  | construct ty parts =>
    refine define_named_keeps .construct rfl ty _ fun _ _ => Inst.literals_eq_nil.mpr fun n named => ?_
    obtain ⟨v, -, same⟩ := List.mem_map.mp named
    cases same
  | load ptr => exact (free (load_keeps ptr)).answer _
  | copy v => exact (free ((tyOf_keeps v).bind fun ty => define_known_keeps .copy rfl ty _ fun _ _ => trivial)).answer _
  | arith op a b =>
    refine (free ((tyOf_keeps a).bind fun ty => define_known_keeps op.opcode ?_ ty _ ?_)).answer _
    · cases op <;> rfl
    · cases op <;> exact fun _ _ => trivial
  | compare op a b =>
    refine (free (((onTypes_keeps fun t => t.enter_keeps .bool).given fun _ _ _ => nofun).bind fun ty =>
      (define_known_keeps op.opcode ?_ ty _ ?_).given fun _ _ found => found.1)).answer _
    · cases op <;> rfl
    · cases op <;> exact fun _ _ => trivial
  | dot a b => exact (free ((elemOf_keeps a).bind fun ty => define_known_keeps .dot rfl ty _ fun _ _ => trivial)).answer _
  | insert obj base lane =>
    exact (free ((tyOf_keeps base).bind fun ty =>
      define_known_keeps .insert rfl ty [.value obj, .value base, .literal lane] fun _ _ => rfl)).answer _
  | extract src lane =>
    exact (free ((elemOf_keeps src).bind fun ty =>
      define_known_keeps .extract rfl ty [.value src, .literal lane] fun _ _ => rfl)).answer _
  | shuffle a b sels => exact (free (shuffle_keeps a b sels)).answer _
  | addIncoming phi v pred => exact (free (addIncoming_keeps phi v pred)).answer _
  | callVoid args => exact (free (effect_keeps .call (.inl rfl) _ fun _ => trivial)).answer _
  | store ptr v => exact (free (effect_keeps .store (.inr rfl) _ fun _ => trivial)).answer _
  | br target => exact (free (effect_keeps .br (.inr rfl) _ fun _ => trivial)).answer _
  | brc cond yes no => exact (free (effect_keeps .brc (.inr rfl) _ fun _ => trivial)).answer _
  | ret => exact (free (effect_keeps .ret (.inr rfl) _ fun _ => trivial)).answer _
  | retv v => exact (free (effect_keeps .retv (.inr rfl) _ fun _ => trivial)).answer _
  | unreachable => exact (free (effect_keeps .unreachable (.inr rfl) _ fun _ => trivial)).answer _

end Draft

end DeadLanes
