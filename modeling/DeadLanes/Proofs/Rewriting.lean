import DeadLanes.Proofs.Resolution

namespace DeadLanes

-- The two edits that a clean-up is made of: values are replaced by others in
-- all operands, and instructions are left out.

def Operand.mapValue (ρ : Value → Value) : Operand → Operand
  | value v => value (ρ v)
  | label b => label b
  | literal n => literal n

namespace Inst

def mapValues (ρ : Value → Value) (i : Inst) : Inst := { i with operands := i.operands.map (.mapValue ρ) }

variable (ρ : Value → Value) (i : Inst)

@[simp] theorem opcode_mapValues : (i.mapValues ρ).opcode = i.opcode := rfl

@[simp] theorem defines_mapValues : (i.mapValues ρ).defines = i.defines := rfl

@[simp] theorem result?_mapValues : (i.mapValues ρ).result? = i.result? := rfl

@[simp] theorem ty?_mapValues : (i.mapValues ρ).ty? = i.ty? := rfl

@[simp] theorem values_mapValues : (i.mapValues ρ).values = i.values.map ρ := by
  simp only [values, mapValues, List.filterMap_map, List.map_filterMap]
  apply List.filterMap_congr
  intro o _
  cases o <;> rfl

@[simp] theorem literals_mapValues : (i.mapValues ρ).literals = i.literals := by
  simp only [literals, mapValues, List.filterMap_map]
  apply List.filterMap_congr
  intro o _
  cases o <;> rfl

@[simp] theorem successors_mapValues : (i.mapValues ρ).successors = i.successors := by
  have labels : (i.operands.map (Operand.mapValue ρ)).filterMap Operand.label? = i.operands.filterMap Operand.label? := by
    rw [List.filterMap_map]
    apply List.filterMap_congr
    intro o _
    cases o <;> rfl
  unfold successors
  rw [show (i.mapValues ρ).operands = i.operands.map (Operand.mapValue ρ) from rfl, labels]
  rfl

@[simp] theorem asInsert?_mapValues :
    (i.mapValues ρ).asInsert? = i.asInsert?.map fun (obj, base, lane) => (ρ obj, ρ base, lane) := by
  obtain ⟨op, defines, operands⟩ := i
  cases op
  case insert =>
    rcases operands with _ | ⟨_ | _ | _, _ | ⟨_ | _ | _, _ | ⟨_ | _ | _, _ | _⟩⟩⟩ <;> rfl
  all_goals rfl

@[simp] theorem asExtract?_mapValues :
    (i.mapValues ρ).asExtract? = i.asExtract?.map fun (src, lane) => (ρ src, lane) := by
  obtain ⟨op, defines, operands⟩ := i
  cases op
  case extract => rcases operands with _ | ⟨_ | _ | _, _ | ⟨_ | _ | _, _ | _⟩⟩ <;> rfl
  all_goals rfl

theorem mapM_literal_mapValue (os : List Operand) :
    (os.map (Operand.mapValue ρ)).mapM Operand.literal? = os.mapM Operand.literal? := by
  induction os with
  | nil => rfl
  | cons o rest ih =>
    rw [List.map_cons, List.mapM_cons, List.mapM_cons, ih]
    cases o <;> rfl

@[simp] theorem asShuffle?_mapValues :
    (i.mapValues ρ).asShuffle? = i.asShuffle?.map fun (a, b, sels) => (ρ a, ρ b, sels) := by
  obtain ⟨op, defines, operands⟩ := i
  cases op
  case shuffle =>
    rcases operands with _ | ⟨_ | _ | _, _ | ⟨_ | _ | _, rest⟩⟩ <;> try rfl
    simp only [mapValues, asShuffle?, List.map_cons, Operand.mapValue, mapM_literal_mapValue, Option.map_map]
    rfl
  all_goals rfl

theorem pairs_mapValue (os : List Operand) :
    pairs (os.map (Operand.mapValue ρ)) = (pairs os).map fun (v, b) => (ρ v, b) := by
  fun_induction pairs os with
  | case1 v b rest ih =>
    rw [List.map_cons, List.map_cons, List.map_cons, ← ih]
    rfl
  | case2 o p rest other ih =>
    rw [← ih, List.map_cons, List.map_cons]
    cases o <;> cases p <;> first | rfl | exact absurd rfl (other _ _ rfl)
  | case3 os short other =>
    rcases os with _ | ⟨o, _ | ⟨p, rest⟩⟩
    · rfl
    · cases o <;> rfl
    · exact absurd rfl (other _ _ _)

@[simp] theorem incoming_mapValues : (i.mapValues ρ).incoming = i.incoming.map fun (v, b) => (ρ v, b) := by
  unfold incoming
  rw [opcode_mapValues]
  split
  · exact pairs_mapValue ρ i.operands
  · rfl

theorem mem_values_mapValues {ρ : Value → Value} {i : Inst} {v : Value} :
    v ∈ (i.mapValues ρ).values ↔ ∃ w ∈ i.values, ρ w = v := by
  rw [values_mapValues, List.mem_map]

theorem mapValues_id : i.mapValues id = i := by
  have same : Operand.mapValue id = id := by
    funext o
    cases o <;> rfl
  simp [mapValues, same]

theorem mapValues_mapValues (σ : Value → Value) : (i.mapValues ρ).mapValues σ = i.mapValues (σ ∘ ρ) := by
  have same : Operand.mapValue σ ∘ Operand.mapValue ρ = Operand.mapValue (σ ∘ ρ) := by
    funext o
    cases o <;> rfl
  simp [mapValues, same]

end Inst

def Value.subst (old fresh v : Value) : Value := if v = old then fresh else v

namespace Func

theorem eq_of_blocks {f g : Func} (name : f.name = g.name) (blocks : f.blocks = g.blocks) (issued : f.issued = g.issued)
    (strays : f.strays = g.strays) : f = g := by
  cases f
  cases g
  cases name
  cases blocks
  cases issued
  cases strays
  rfl

def mapInsts (g : Inst → Inst) (f : Func) : Func :=
  have flat : (f.blocks.map (·.map fun p => { p with inst := g p.inst })).flatten =
      f.blocks.flatten.map fun p => { p with inst := g p.inst } := by
    simp [List.map_flatten]
  { f with
    blocks := f.blocks.map (·.map fun p => { p with inst := g p.inst })
    distinct := by
      rw [flat, List.map_map]
      exact f.distinct
    old := fun p member => by
      rw [flat] at member
      obtain ⟨q, before, rfl⟩ := List.mem_map.mp member
      exact f.old q before }

def mapValues (ρ : Value → Value) (f : Func) : Func := f.mapInsts (·.mapValues ρ)

def discard (gone : List InstRef) (f : Func) : Func :=
  have flat : (f.blocks.map (·.filter (·.ref ∉ gone))).flatten = f.blocks.flatten.filter (·.ref ∉ gone) :=
    List.filter_flatten.symm
  { f with
    blocks := f.blocks.map (·.filter (·.ref ∉ gone))
    distinct := by
      rw [flat]
      exact f.distinct.sublist (List.filter_sublist.map _)
    old := fun p member => by
      rw [flat] at member
      exact f.old p (List.mem_filter.mp member).1 }

section

variable (f : Func)

@[simp] theorem placed_mapInsts (g : Inst → Inst) :
    (f.mapInsts g).placed = f.placed.map fun p => { p with inst := g p.inst } := by
  simp [placed, mapInsts, List.map_flatten]

@[simp] theorem placed_discard (gone : List InstRef) : (f.discard gone).placed = f.placed.filter (·.ref ∉ gone) :=
  List.filter_flatten.symm

@[simp] theorem insts_mapInsts (g : Inst → Inst) : (f.mapInsts g).insts = f.insts.map g := by
  simp [insts]

theorem placed_mapValues (ρ : Value → Value) :
    (f.mapValues ρ).placed = f.placed.map fun p => { p with inst := p.inst.mapValues ρ } :=
  f.placed_mapInsts _

theorem mapValues_id : f.mapValues id = f := by
  refine eq_of_blocks rfl ?_ rfl rfl
  simp [mapValues, mapInsts, Inst.mapValues_id]

theorem mapValues_mapValues (ρ σ : Value → Value) : (f.mapValues ρ).mapValues σ = f.mapValues (σ ∘ ρ) := by
  refine eq_of_blocks rfl ?_ rfl rfl
  simp [mapValues, mapInsts, Inst.mapValues_mapValues]

theorem mapValues_subst_self (v : Value) : f.mapValues (Value.subst v v) = f := by
  have same : Value.subst v v = id := by
    funext w
    simp only [Value.subst, id, ite_eq_right_iff]
    exact Eq.symm
  rw [same, mapValues_id]

theorem insts_mapValues (ρ : Value → Value) : (f.mapValues ρ).insts = f.insts.map (·.mapValues ρ) := f.insts_mapInsts _

theorem mem_insts_mapValues {f : Func} {ρ : Value → Value} {i : Inst} :
    i ∈ (f.mapValues ρ).insts ↔ ∃ j ∈ f.insts, j.mapValues ρ = i := by
  rw [insts_mapValues, List.mem_map]

theorem block_mapValues (ρ : Value → Value) (k : Nat) : (f.mapValues ρ).blocks[k]? =
    f.blocks[k]?.map (·.map fun p => { p with inst := p.inst.mapValues ρ }) :=
  List.getElem?_map ..

theorem block_discard (gone : List InstRef) (k : Nat) :
    (f.discard gone).blocks[k]? = f.blocks[k]?.map (·.filter (·.ref ∉ gone)) :=
  List.getElem?_map ..

theorem definitions_exchange (ρ : Inst → Value → Value) : (f.mapInsts fun i => i.mapValues (ρ i)).definitions = f.definitions := by
  rw [definitions, insts_mapInsts, List.filterMap_map]
  rfl

theorem results_exchange (ρ : Inst → Value → Value) : (f.mapInsts fun i => i.mapValues (ρ i)).results = f.results := by
  rw [results_eq_definitions, definitions_exchange, ← results_eq_definitions]

theorem ty?_exchange (ρ : Inst → Value → Value) : (f.mapInsts fun i => i.mapValues (ρ i)).ty? = f.ty? := by
  funext v
  rw [ty?, definitions_exchange, ty?]

@[simp] theorem results_mapValues (ρ : Value → Value) : (f.mapValues ρ).results = f.results :=
  f.results_exchange fun _ => ρ

@[simp] theorem ty?_mapValues (ρ : Value → Value) : (f.mapValues ρ).ty? = f.ty? := f.ty?_exchange fun _ => ρ

@[simp] theorem hasBlock_mapInsts (g : Inst → Inst) (b : Label) : (f.mapInsts g).hasBlock b = f.hasBlock b := by
  simp [hasBlock, mapInsts]

@[simp] theorem hasBlock_discard (gone : List InstRef) (b : Label) : (f.discard gone).hasBlock b = f.hasBlock b := by
  simp [hasBlock, discard]

theorem discard_nil : f.discard [] = f :=
  eq_of_blocks rfl (by simp [discard]) rfl rfl

theorem discard_discard (gone more : List InstRef) : (f.discard gone).discard more = f.discard (gone ++ more) := by
  refine eq_of_blocks rfl ?_ rfl rfl
  simp only [discard, List.map_map]
  apply List.map_congr_left
  intro block _
  simp only [Function.comp, List.filter_filter, List.mem_append, not_or]
  apply List.filter_congr
  intro p _
  simp [Bool.and_comm]

theorem erase_eq_discard (r : InstRef) : f.erase r = f.discard [r] := by
  refine eq_of_blocks rfl ?_ rfl rfl
  simp [erase, discard]

end

theorem mem_placed_discard {f : Func} {gone : List InstRef} {p : Placed} :
    p ∈ (f.discard gone).placed ↔ p ∈ f.placed ∧ p.ref ∉ gone := by
  rw [placed_discard, List.mem_filter, decide_eq_true_eq]

theorem mem_insts_discard {f : Func} {gone : List InstRef} {i : Inst} :
    i ∈ (f.discard gone).insts ↔ ∃ r, ⟨r, i⟩ ∈ f.placed ∧ r ∉ gone := by
  simp only [mem_insts_iff_placed, mem_placed_discard]

theorem insts_discard_subset (f : Func) (gone : List InstRef) : (f.discard gone).insts ⊆ f.insts := by
  intro i member
  obtain ⟨r, placed, -⟩ := mem_insts_discard.mp member
  exact mem_insts_iff_placed.mpr ⟨r, placed⟩

theorem results_discard_sublist (f : Func) (gone : List InstRef) : (f.discard gone).results.Sublist f.results := by
  rw [results_eq_placed, results_eq_placed, placed_discard]
  exact List.filter_sublist.filterMap _

theorem discard_of_absent {f : Func} {gone : List InstRef} (absent : ∀ r ∈ gone, r ∉ f.refs) : f.discard gone = f := by
  refine eq_of_blocks rfl ?_ rfl rfl
  have same : ∀ block ∈ f.blocks, block.filter (·.ref ∉ gone) = block := by
    intro block member
    refine List.filter_eq_self.mpr fun p here => decide_eq_true fun listed => ?_
    exact absent p.ref listed (mem_refs.mpr ⟨p.inst, List.mem_flatten.mpr ⟨block, member, here⟩⟩)
  exact (List.map_congr_left same).trans (List.map_id _)

end Func

end DeadLanes
