import DeadLanes.Proofs.Totality

namespace DeadLanes

-- What stops the checker. It looks up types and adds up lane counts while it
-- works on functions of any form. All look-ups have been made safe by then; the
-- sums have not.

namespace Check

section

variable {r : Rejection} {flaw : Flaw}

theorem ok_ne {a : α} : (Except.ok a : Except Rejection α) ≠ .error r := nofun

theorem bind_ne {x : Except Rejection α} {next : α → Except Rejection β} (first : x ≠ .error r)
    (later : ∀ a, x = .ok a → next a ≠ .error r) : (x >>= next) ≠ .error r := by
  cases x with
  | ok a => exact later a rfl
  | error other =>
    intro same
    cases same
    exact first rfl

theorem ensure_ne {p : Prop} [Decidable p] (other : p ∨ r ≠ .flaw flaw) : ensure p flaw ≠ .error r := by
  unfold ensure
  split
  · exact ok_ne
  · rename_i fails
    intro same
    cases same
    exact other.elim fails (· rfl)

theorem need_ne {o : Option α} (other : o.isSome = true ∨ r ≠ .flaw flaw) : need o flaw ≠ .error r := by
  cases o with
  | some a => exact ok_ne
  | none =>
    intro same
    cases same
    exact other.elim Bool.false_ne_true (· rfl)

theorem ensure_error {p : Prop} [Decidable p] : ensure p flaw = .error r ↔ ¬ p ∧ r = .flaw flaw := by
  unfold ensure
  split
  · rename_i holds
    exact ⟨nofun, fun given => absurd holds given.1⟩
  · rename_i fails
    exact ⟨fun same => ⟨fails, (Except.error.inj same).symm⟩, fun given => congrArg Except.error given.2.symm⟩

theorem each_ne {check : α → Verdict} {xs : List α} (all : ∀ x ∈ xs, check x ≠ .error r) : each check xs ≠ .error r := by
  induction xs with
  | nil => exact ok_ne
  | cons x rest ih =>
    obtain ⟨first, others⟩ := List.forall_mem_cons.mp all
    unfold each
    split
    · exact ih others
    · rename_i bad
      rw [← bad]
      exact first

end

-- The flaws of blocks, of what operands name, and of phis.
def Structural : Rejection → Prop
  | .flaw (.missingTerminator _) | .flaw (.earlyTerminator _) | .flaw (.misplacedPhi _) => True
  | .flaw (.undefinedValue _) | .flaw (.unknownBlock _) | .flaw (.phiPredecessors ..) => True
  | _ => False

section

variable {r : Rejection} (other : ¬ Structural r)

include other

theorem structural_ne {p : Prop} [Decidable p] {flaw : Flaw} (structural : Structural (.flaw flaw)) :
    ensure p flaw ≠ .error r :=
  ensure_ne (.inr fun same => other (same ▸ structural))

theorem shape_ne {b : Label} {body : Bool} {is : List Inst} : shape b body is ≠ .error r := by
  fun_induction shape b body is with
  | case1 =>
    intro same
    cases same
    exact other trivial
  | case2 => exact bind_ne (structural_ne other trivial) fun _ _ => structural_ne other trivial
  | case3 _ _ _ _ ih =>
    exact bind_ne (structural_ne other trivial) fun _ _ => bind_ne (structural_ne other trivial) fun _ _ => ih

theorem operand_ne {s : Scope} {o : Operand} : operand s o ≠ .error r := by
  cases o with
  | value v => exact structural_ne other trivial
  | label b => exact structural_ne other trivial
  | literal n => exact ok_ne

theorem phi_ne {g : FlowGraph} {b : Label} {i : Inst} : phi g b i ≠ .error r :=
  structural_ne other trivial

end

def Answers (x : Except Rejection α) : Prop := ∀ fault, x ≠ .error (.fault fault)

theorem answers_ok {a : α} : Answers (.ok a) := fun _ => ok_ne

theorem Answers.bind {x : Except Rejection α} {next : α → Except Rejection β} (first : Answers x)
    (later : ∀ a, x = .ok a → Answers (next a)) : Answers (x >>= next) :=
  fun fault => bind_ne (first fault) fun a ran => later a ran fault

theorem answers_ensure {p : Prop} [Decidable p] {flaw : Flaw} : Answers (ensure p flaw) :=
  fun _ => ensure_ne (.inr nofun)

theorem answers_need {o : Option α} {flaw : Flaw} : Answers (need o flaw) := fun _ => need_ne (.inr nofun)

theorem answers_results {before : List Value} {is : List Inst} : Answers (results before is) := by
  induction is generalizing before with
  | nil => exact answers_ok
  | cons i rest ih =>
    rw [results]
    refine answers_ensure.bind fun _ _ => ?_
    cases i.result? with
    | none => exact ih
    | some v => exact answers_ensure.bind fun _ _ => ih

theorem answers_vector {types : TypeTable} {ty : Option TypeRef} {flaw : Flaw}
    (contained : ∀ t ∈ ty, types.contains t = true) : Answers (vector types ty flaw) := by
  refine answers_need.bind fun t found => ?_
  obtain ⟨entry, -, get⟩ := TypeTable.get_of_contains (contained t (need_ok.mp found))
  rw [TypeTable.vectorInfo, get]
  exact answers_need

theorem answers_typeOf {s : Scope} {v : Value} (known : (s.ty? v).isSome = true) : Answers (typeOf s v) := by
  obtain ⟨ty, typed⟩ := Option.isSome_iff_exists.mp known
  rw [typeOf_ok.mpr typed]
  exact answers_ok

theorem ok_bind {a : α} {next : α → Except Rejection β} : (Except.ok a >>= next) = next a := rfl

theorem error_iff {x : Except Rejection α} {next : α → Except Rejection β} {r : Rejection} (first : x ≠ .error r) :
    (x >>= next) = .error r ↔ ∃ a, x = .ok a ∧ next a = .error r := by
  cases x with
  | ok a =>
    constructor
    · exact fun stopped => ⟨a, rfl, stopped⟩
    · intro given
      obtain ⟨_, same, stopped⟩ := given
      cases same
      exact stopped
  | error other =>
    constructor
    · intro stopped
      cases stopped
      exact absurd rfl first
    · intro given
      obtain ⟨_, same, -⟩ := given
      cases same

theorem Answers.fault_iff {x : Except Rejection α} {next : α → Except Rejection β} (first : Answers x) {fault : Fault} :
    (x >>= next) = .error (.fault fault) ↔ ∃ a, x = .ok a ∧ next a = .error (.fault fault) := error_iff (first fault)

theorem error_first {x : Except Rejection α} {next : α → Except Rejection β} {r : Rejection}
    (later : ∀ a, next a ≠ .error r) : (x >>= next) = .error r ↔ x = .error r := by
  cases x with
  | ok a => exact ⟨fun stopped => absurd stopped (later a), nofun⟩
  | error other => simp [bind, Except.bind]

theorem each_error {check : α → Verdict} {xs : List α} {r : Rejection} : each check xs = .error r ↔
    ∃ (k : Nat) (x : α), xs[k]? = some x ∧ (∀ j < k, ∀ y ∈ xs[j]?, check y = .ok ()) ∧ check x = .error r := by
  induction xs with
  | nil => simp [each]
  | cons first rest ih =>
    rw [each]
    split
    · rename_i passed
      rw [ih]
      constructor
      · intro given
        obtain ⟨k, x, found, before, failed⟩ := given
        refine ⟨k + 1, x, found, fun j inside y here => ?_, failed⟩
        cases j with
        | zero =>
          cases here
          exact passed
        | succ j => exact before j (Nat.lt_of_succ_lt_succ inside) y here
      · intro given
        obtain ⟨k, x, found, before, failed⟩ := given
        cases k with
        | zero =>
          cases found
          cases passed.symm.trans failed
        | succ k => exact ⟨k, x, found, fun j inside => before (j + 1) (Nat.succ_lt_succ inside), failed⟩
    · rename_i r' stopped
      constructor
      · intro same
        exact ⟨0, first, rfl, fun j inside => absurd inside (Nat.not_lt_zero j), stopped.trans same⟩
      · intro given
        obtain ⟨k, x, found, before, failed⟩ := given
        cases k with
        | zero =>
          cases found
          exact stopped.symm.trans failed
        | succ k => cases stopped.symm.trans (before 0 (Nat.succ_pos k) first rfl)

theorem covered_fault {s : Scope} {total : Nat} {vs : List Value} (held : total < wordBound)
    (known : ∀ v ∈ vs, ∃ ty, s.ty? v = some ty ∧ s.types.contains ty = true) {fault : Fault} :
    covered s total vs = .error (.fault fault) ↔
      fault = .overflow ∧ wordBound ≤ total + (vs.map fun v => (s.width? v).getD 1).sum := by
  induction vs generalizing total with
  | nil =>
    simp only [covered, List.map_nil, List.sum_nil, Nat.add_zero]
    exact ⟨fun stopped => absurd stopped ok_ne, fun given => absurd held (Nat.not_lt.mpr given.2)⟩
  | cons v rest ih =>
    obtain ⟨⟨ty, typed, contained⟩, others⟩ := List.forall_mem_cons.mp known
    have counted : asking (s.types.laneCount ty) = .ok (s.width? v) := by
      obtain ⟨entry, found, get⟩ := TypeTable.get_of_contains contained
      simp [TypeTable.laneCount, TypeTable.vectorInfo, get, asking, Except.map, Scope.width?, typed,
        TypeTable.lanes?, TypeTable.vector?, found]
    have unfolded : covered s total (v :: rest) =
        if total + (s.width? v).getD 1 < wordBound then covered s (total + (s.width? v).getD 1) rest
        else .error (.fault .overflow) := by
      rw [covered, typeOf_ok.mpr typed]
      simp only [bind, Except.bind, counted]
    rw [unfolded, List.map_cons, List.sum_cons, ← Nat.add_assoc]
    split
    · rename_i small
      exact ih small others
    · rename_i large
      constructor
      · intro same
        cases same
        exact ⟨rfl, Nat.le_trans (Nat.le_of_not_lt large) (Nat.le_add_right ..)⟩
      · intro given
        obtain ⟨rfl, -⟩ := given
        rfl

theorem selector_fault {i : Inst} {lanesA lanesB sel : Nat} {fault : Fault} :
    selector i lanesA lanesB sel = .error (.fault fault) ↔
      fault = .overflow ∧ wordBound ≤ lanesA + lanesB ∧ sel ≠ anyLane := by
  unfold selector
  split
  · rename_i any
    exact ⟨fun stopped => absurd stopped ok_ne, fun given => absurd any given.2.2⟩
  · rename_i picks
    split
    · rename_i small
      exact ⟨fun stopped => absurd stopped (answers_ensure fault), fun given => absurd small (Nat.not_lt.mpr given.2.1)⟩
    · rename_i large
      constructor
      · intro same
        cases same
        exact ⟨rfl, Nat.le_of_not_lt large, picks⟩
      · intro given
        obtain ⟨rfl, -⟩ := given
        rfl

theorem selectors_fault {i : Inst} {lanesA lanesB : Nat} {sels : List Nat} {fault : Fault} :
    each (selector i lanesA lanesB) sels = .error (.fault fault) ↔
      fault = .overflow ∧ wordBound ≤ lanesA + lanesB ∧ ∃ sel ∈ sels, sel ≠ anyLane := by
  induction sels with
  | nil => simp [each]
  | cons sel rest ih =>
    rw [each]
    split
    · rename_i passed
      rw [ih]
      refine and_congr_right fun _ => and_congr_right fun wide => ?_
      have any : sel = anyLane :=
        (selector_ok.mp passed).resolve_right fun small => absurd small.1 (Nat.not_lt.mpr wide)
      simp [any]
    · rename_i r stopped
      have picks : sel ≠ anyLane := by
        rintro rfl
        rw [selector, if_pos rfl] at stopped
        cases stopped
      constructor
      · intro same
        obtain ⟨rfl, wide, -⟩ := selector_fault.mp (stopped.trans same)
        exact ⟨rfl, wide, sel, List.mem_cons_self, picks⟩
      · intro given
        obtain ⟨rfl, wide, -⟩ := given
        exact stopped.symm.trans (selector_fault.mpr ⟨rfl, wide, picks⟩)

end Check

theorem Func.getElem?_labelled {f : Func} {k : Nat} :
    (f.labels.zip f.blocks)[k]? = f.blocks[k]?.map fun block => (⟨k⟩, block) := by
  rw [List.zip, List.getElem?_zipWith, labels, List.getElem?_map]
  cases found : f.blocks[k]? with
  | none => cases (List.range f.blocks.length)[k]? <;> rfl
  | some block => rw [List.getElem?_range (List.getElem?_eq_some_iff.mp found).1]; rfl

namespace Scope

-- A sum that the checker forms of lane counts cannot be held: that of the
-- operands of a construct, or that of the two inputs of a shuffle, which is
-- formed only if some selector picks a lane.
def Overflows (s : Scope) (i : Inst) : Prop :=
  match i.opcode with
  | .construct => (i.ty?.bind s.types.vector?).isSome = true ∧ i.literals = [] ∧
      wordBound ≤ (i.values.map fun v => (s.width? v).getD 1).sum
  | .shuffle => ∃ a b sels lanesA lanesB, i.asShuffle? = some (a, b, sels) ∧
      (i.ty?.bind s.types.vector?).map (·.2) = some sels.length ∧ s.width? a = some lanesA ∧ s.width? b = some lanesB ∧
      wordBound ≤ lanesA + lanesB ∧ ∃ sel ∈ sels, sel ≠ anyLane
  | _ => False

-- The checker comes to the lanes of `i`, the instruction at `k` in block `b`:
-- it found no flaw before.
structure ComesTo (s : Scope) (b : Label) (k : Nat) (i : Inst) : Prop where
  results : Check.results s.globals.values s.func.insts = .ok ()
  earlier : ∀ c < b.index, ∀ block ∈ s.func.blocks[c]?,
    Check.block s s.func.flowGraph ⟨c⟩ (block.map (·.inst)) = .ok ()
  here : ∃ block, s.func.blocks[b.index]? = some block ∧ Check.shape b false (block.map (·.inst)) = .ok () ∧
    (block.map (·.inst))[k]? = some i ∧
    ∀ j < k, ∀ before ∈ (block.map (·.inst))[j]?, Check.inst s s.func.flowGraph b before = .ok ()
  operands : ∀ o ∈ i.operands, Check.operand s o = .ok ()
  phi : Check.phi s.func.flowGraph b i = .ok ()

variable {s : Scope}

structure Contained (s : Scope) (i : Inst) : Prop where
  own : ∀ t ∈ i.ty?, s.types.contains t = true
  known : ∀ v ∈ i.values, ∃ t, s.ty? v = some t ∧ s.types.contains t = true

namespace Contained

variable {i : Inst} {v : Value}

theorem looked (contained : s.Contained i) (named : v ∈ i.values) : Check.Answers (Check.typeOf s v) := by
  obtain ⟨t, typed, -⟩ := contained.known v named
  exact Check.answers_typeOf (Option.isSome_of_eq_some typed)

theorem vector (contained : s.Contained i) (named : v ∈ i.values) {ty : TypeRef} (typed : s.ty? v = some ty)
    (flaw : Flaw) : Check.Answers (Check.vector s.types (some ty) flaw) := by
  apply Check.answers_vector
  intro t same
  obtain ⟨_, again, present⟩ := contained.known v named
  cases same
  cases again.symm.trans typed
  exact present

theorem insert_answers (contained : s.Contained i) (op : i.opcode = .insert) : Check.Answers (Check.composite s i) := by
  simp only [Check.composite, op]
  refine Check.answers_need.bind fun parts parsed => ?_
  have named := Inst.asInsert?_values (Check.need_ok.mp parsed)
  refine (Check.answers_vector contained.own).bind fun info _ => ?_
  refine (contained.looked (by simp [named])).bind fun _ _ => Check.answers_ensure.bind fun _ _ => ?_
  refine (contained.looked (by simp [named])).bind fun _ _ => Check.answers_ensure.bind fun _ _ => ?_
  exact Check.answers_ensure

theorem extract_answers (contained : s.Contained i) (op : i.opcode = .extract) : Check.Answers (Check.composite s i) := by
  simp only [Check.composite, op]
  refine Check.answers_need.bind fun parts parsed => ?_
  have named : parts.1 ∈ i.values := by simp [Inst.asExtract?_values (Check.need_ok.mp parsed)]
  refine (contained.looked named).bind fun ty typed => ?_
  refine (contained.vector named (Check.typeOf_ok.mp typed) _).bind fun info _ => ?_
  exact Check.answers_ensure.bind fun _ _ => Check.answers_ensure

theorem construct_fault (contained : s.Contained i) (op : i.opcode = .construct) {fault : Fault} :
    Check.composite s i = .error (.fault fault) ↔ fault = .overflow ∧ s.Overflows i := by
  simp only [Check.composite, Overflows, op]
  rw [(Check.answers_vector contained.own).fault_iff]
  simp only [Check.answers_ensure.fault_iff, Check.error_first fun _ => Check.answers_ensure fault, Check.vector_ok,
    Check.ensure_ok, Check.exists_unit, Check.covered_fault (by decide : 0 < wordBound) contained.known, Nat.zero_add]
  constructor
  · intro given
    obtain ⟨info, vector, plain, same, wide⟩ := given
    exact ⟨same, Option.isSome_of_eq_some vector, plain, wide⟩
  · intro given
    obtain ⟨same, vector, plain, wide⟩ := given
    obtain ⟨info, vector⟩ := Option.isSome_iff_exists.mp vector
    exact ⟨info, vector, plain, same, wide⟩

theorem shuffle_fault (contained : s.Contained i) (op : i.opcode = .shuffle) {fault : Fault} :
    Check.composite s i = .error (.fault fault) ↔ fault = .overflow ∧ s.Overflows i := by
  simp only [Check.composite, Overflows, op]
  rw [Check.answers_need.fault_iff]
  simp only [Prod.exists, Check.need_ok]
  cases parsed : i.asShuffle? with
  | none => simp
  | some parts =>
    obtain ⟨a, b, sels⟩ := parts
    have namedA : a ∈ i.values := by simp [Inst.asShuffle?_values parsed]
    have namedB : b ∈ i.values := by simp [Inst.asShuffle?_values parsed]
    obtain ⟨tyA, typedA, -⟩ := contained.known a namedA
    obtain ⟨tyB, typedB, -⟩ := contained.known b namedB
    simp only [Option.some.injEq, Prod.mk.injEq, and_assoc, exists_and_left, exists_eq_left', Check.typeOf_ok.mpr typedA,
      Check.typeOf_ok.mpr typedB, Check.ok_bind, (Check.answers_vector contained.own).fault_iff,
      (contained.vector namedA typedA _).fault_iff, (contained.vector namedB typedB _).fault_iff,
      Check.answers_ensure.fault_iff, Check.vector_ok, Check.ensure_ok, Check.exists_unit, Check.selectors_fault]
    constructor
    · intro given
      obtain ⟨⟨elem, _⟩, own, ⟨elemA, lanesA⟩, inA, ⟨elemB, lanesB⟩, inB, rfl, same, wide, picks⟩ := given
      refine ⟨same, by rw [own]; rfl, lanesA, ?_, lanesB, ?_, wide, picks⟩
      · exact width_eq_some.mpr ⟨elemA, typedA ▸ inA⟩
      · exact width_eq_some.mpr ⟨elemB, typedB ▸ inB⟩
    · intro given
      obtain ⟨same, count, lanesA, widthA, lanesB, widthB, wide, picks⟩ := given
      obtain ⟨info, own, lanes⟩ := Option.map_eq_some_iff.mp count
      obtain ⟨elemA, inA⟩ := width_eq_some.mp widthA
      obtain ⟨elemB, inB⟩ := width_eq_some.mp widthB
      exact ⟨info, own, (elemA, lanesA), typedA ▸ inA, (elemB, lanesB), typedB ▸ inB, lanes.symm, same, wide, picks⟩

theorem composite_fault (contained : s.Contained i) {fault : Fault} :
    Check.composite s i = .error (.fault fault) ↔ fault = .overflow ∧ s.Overflows i := by
  cases op : i.opcode with
  | insert =>
    simp only [Overflows, op, and_false, iff_false]
    exact contained.insert_answers op fault
  | extract =>
    simp only [Overflows, op, and_false, iff_false]
    exact contained.extract_answers op fault
  | construct => exact contained.construct_fault op
  | shuffle => exact contained.shuffle_fault op
  | _ =>
    simp only [Check.composite, Overflows, op, and_false, iff_false]
    exact Check.answers_ok fault

end Contained

-- All else that a block is checked for is a matter of structure.
section

variable {r : Rejection} (other : ¬ Check.Structural r)

include other

theorem inst_error {b : Label} {i : Inst} : Check.inst s s.func.flowGraph b i = .error r ↔
    (∀ o ∈ i.operands, Check.operand s o = .ok ()) ∧ Check.phi s.func.flowGraph b i = .ok () ∧
      Check.composite s i = .error r := by
  rw [Check.inst, Check.error_iff (Check.each_ne fun _ _ => Check.operand_ne other), Check.exists_unit, Check.each_ok,
    Check.error_iff (Check.phi_ne other), Check.exists_unit]

theorem block_error {b : Label} {is : List Inst} : Check.block s s.func.flowGraph b is = .error r ↔
    Check.shape b false is = .ok () ∧ ∃ (k : Nat) (i : Inst), is[k]? = some i ∧
      (∀ j < k, ∀ before ∈ is[j]?, Check.inst s s.func.flowGraph b before = .ok ()) ∧
      (∀ o ∈ i.operands, Check.operand s o = .ok ()) ∧ Check.phi s.func.flowGraph b i = .ok () ∧
      Check.composite s i = .error r := by
  rw [Check.block, Check.error_iff (Check.shape_ne other), Check.exists_unit, Check.each_error]
  simp only [inst_error other]

theorem check_error (results : Check.results s.globals.values s.func.insts ≠ .error r) :
    s.check = .error r ↔ ∃ b k i, s.ComesTo b k i ∧ Check.composite s i = .error r := by
  rw [check, Check.error_iff results, Check.exists_unit, Check.each_error]
  simp only [Func.getElem?_labelled, Option.mem_map, Option.map_eq_some_iff]
  constructor
  · intro given
    obtain ⟨paired, index, entry, ⟨block, found, rfl⟩, before, stopped⟩ := given
    obtain ⟨shape, k, i, here, passed, operands, phi, last⟩ := (block_error other).mp stopped
    have earlier : ∀ c < index, ∀ block ∈ s.func.blocks[c]?,
        Check.block s s.func.flowGraph ⟨c⟩ (block.map (·.inst)) = .ok () :=
      fun c inside block there => before c inside _ ⟨block, there, rfl⟩
    exact ⟨⟨index⟩, k, i, ⟨paired, earlier, ⟨block, found, shape, here, passed⟩, operands, phi⟩, last⟩
  · intro given
    obtain ⟨b, k, i, comes, last⟩ := given
    obtain ⟨block, found, shape, here, passed⟩ := comes.here
    refine ⟨comes.results, b.index, (b, block), ⟨block, found, rfl⟩, ?_, ?_⟩
    · intro c inside entry listed
      obtain ⟨block, there, rfl⟩ := listed
      exact comes.earlier c inside block there
    · exact (block_error other).mpr ⟨shape, k, i, here, passed, comes.operands, comes.phi, last⟩

end

theorem ComesTo.member {b : Label} {k : Nat} {i : Inst} (comes : s.ComesTo b k i) : i ∈ s.func.insts := by
  obtain ⟨block, found, -, here, -⟩ := comes.here
  exact Func.mem_insts.mpr ⟨b, block, found, List.mem_of_getElem? here⟩

theorem check_fault (results : s.ResultsKnown) (globals : s.GlobalsKnown) {fault : Fault} :
    s.check = .error (.fault fault) ↔ fault = .overflow ∧ ∃ b k i, s.ComesTo b k i ∧ s.Overflows i := by
  have lanes : ∀ {b k i}, s.ComesTo b k i →
      (Check.composite s i = .error (.fault fault) ↔ fault = .overflow ∧ s.Overflows i) := by
    intro b k i comes
    refine Contained.composite_fault ⟨results i comes.member, fun v named => ?_⟩
    obtain ⟨t, typed⟩ := Option.isSome_iff_exists.mp ((Check.operands_ok.mp comes.operands).1 v (Inst.mem_values.mp named))
    exact ⟨t, typed, results.contains globals typed⟩
  rw [check_error id (Check.answers_results fault)]
  constructor
  · intro given
    obtain ⟨b, k, i, comes, stopped⟩ := given
    obtain ⟨same, wide⟩ := (lanes comes).mp stopped
    exact ⟨same, b, k, i, comes, wide⟩
  · intro given
    obtain ⟨same, b, k, i, comes, wide⟩ := given
    exact ⟨b, k, i, comes, (lanes comes).mpr ⟨same, wide⟩⟩

-- The checker answers, unless the first thing in its way is a sum of lane
-- counts that it cannot hold. No look-up fails, and nothing else overflows.
theorem check_answers_unless_overflow (results : s.ResultsKnown) (globals : s.GlobalsKnown) :
    ((∃ b k i, s.ComesTo b k i ∧ s.Overflows i) → s.check = .error (.fault .overflow)) ∧
    ((¬ ∃ b k i, s.ComesTo b k i ∧ s.Overflows i) → s.check = .ok () ∨ ∃ flaw, s.check = .error (.flaw flaw)) := by
  constructor
  · exact fun wide => (check_fault results globals).mpr ⟨rfl, wide⟩
  · intro narrow
    cases verdict : s.check with
    | ok => exact .inl rfl
    | error rejection =>
      cases rejection with
      | flaw flaw => exact .inr ⟨flaw, rfl⟩
      | fault fault => exact absurd ((check_fault results globals).mp verdict).2 narrow

def stretched (sels : List Nat) : Scope :=
  { types := (TypeTable.enterVector ⟨0⟩ 2
      (TypeTable.enterVector ⟨0⟩ 0x80000000 (TypeTable.enter (.float 32) .empty).2).2).2
    globals := ⟨[(⟨1⟩, ⟨⟨1⟩, .undef⟩)]⟩
    func := .ofBlocks "stretched" [
      [⟨.shuffle, some (⟨10⟩, ⟨2⟩), .value ⟨1⟩ :: .value ⟨1⟩ :: sels.map .literal⟩, ⟨.retv, none, [.value ⟨10⟩]⟩]] }

theorem check_answers_unless_overflow_stretched :
    (∃ b k i, (stretched [anyLane, 1]).ComesTo b k i ∧ (stretched [anyLane, 1]).Overflows i) ∧
    (stretched [anyLane, 1]).check = .error (.fault .overflow) ∧
    (¬ ∃ b k i, (stretched [anyLane, anyLane]).ComesTo b k i ∧ (stretched [anyLane, anyLane]).Overflows i) ∧
    ((stretched [anyLane, anyLane]).check = .ok () ∨ ∃ flaw, (stretched [anyLane, anyLane]).check = .error (.flaw flaw)) := by
  have wide : ∃ b k i, (stretched [anyLane, 1]).ComesTo b k i ∧ (stretched [anyLane, 1]).Overflows i := by
    refine ⟨⟨0⟩, 0, ⟨.shuffle, some (⟨10⟩, ⟨2⟩), [.value ⟨1⟩, .value ⟨1⟩, .literal anyLane, .literal 1]⟩, ?_, ?_⟩
    · exact ⟨by decide +kernel, nofun, ⟨_, rfl, by decide +kernel, rfl, nofun⟩, by decide +kernel, by decide +kernel⟩
    · exact ⟨⟨1⟩, ⟨1⟩, [anyLane, 1], 0x80000000, 0x80000000, rfl, by decide +kernel, by decide +kernel, by decide +kernel,
        by decide +kernel, 1, by decide, by decide⟩
  have narrow : ¬ ∃ b k i, (stretched [anyLane, anyLane]).ComesTo b k i ∧ (stretched [anyLane, anyLane]).Overflows i := by
    intro wide
    have passed : (stretched [anyLane, anyLane]).check = .ok () := by decide +kernel
    have stopped := (check_answers_unless_overflow (s := stretched [anyLane, anyLane]) (by decide +kernel) (by decide +kernel)).1 wide
    cases passed.symm.trans stopped
  exact ⟨wide, (check_answers_unless_overflow (by decide +kernel) (by decide +kernel)).1 wide, narrow,
    (check_answers_unless_overflow (by decide +kernel) (by decide +kernel)).2 narrow⟩

theorem stretched_unanswered : (stretched [0, 1]).ResultsKnown ∧ (stretched [0, 1]).GlobalsKnown ∧
    ¬ ((stretched [0, 1]).check = .ok () ∨ ∃ flaw, (stretched [0, 1]).check = .error (.flaw flaw)) := by
  have stopped : (stretched [0, 1]).check = .error (.fault .overflow) := by decide +kernel
  refine ⟨by decide +kernel, by decide +kernel, ?_⟩
  rw [stopped]
  exact fun answered => answered.elim nofun fun ⟨_, same⟩ => nomatch same

end Scope

end DeadLanes
