import DeadLanes.Lane.LaneMap
import DeadLanes.Proofs.Rewriting

namespace DeadLanes

-- The index of a function that is edited step by step stays the one that would
-- be built from scratch.

theorem Inst.slots_mapValues (ρ : Value → Value) (i : Inst) :
    (i.mapValues ρ).slots = i.slots.map fun (k, v) => (k, ρ v) := by
  unfold slots
  rw [show (i.mapValues ρ).operands = i.operands.map (Operand.mapValue ρ) from rfl, List.zipIdx_map,
    List.filterMap_map, List.map_filterMap]
  refine List.filterMap_congr fun (o, k) _ => ?_
  cases o <;> rfl

def Func.HasOperand (f : Func) (u : Use) : Prop := ∃ i, ⟨u.user, i⟩ ∈ f.placed ∧ u.position < i.operands.length

theorem Func.HasOperand.revise {f : Func} {u : Use} (there : f.HasOperand u) (r : InstRef) {g : Inst → Inst}
    (same : ∀ i, (g i).operands.length = i.operands.length) : (f.revise r g).HasOperand u := by
  obtain ⟨i, placed, inside⟩ := there
  have change := List.mem_map_of_mem (f := fun p => if p.ref = r then { p with inst := g p.inst } else p) placed
  rw [← Func.placed_revise] at change
  dsimp only at change
  split at change
  · exact ⟨g i, change, same i ▸ inside⟩
  · exact ⟨i, change, inside⟩

namespace Indexed

structure InSync (x : Indexed) : Prop where
  defs : ∀ v, x.index.def? v = (UseIndex.build x.func).def? v
  uses : x.index.uses.Perm (UseIndex.build x.func).uses

theorem inSync_ofFunc (f : Func) : (ofFunc f).InSync := ⟨fun _ => rfl, .refl _⟩

variable {x : Indexed}

theorem InSync.mem_usesOf (sync : x.InSync) {v : Value} {u : Use} :
    u ∈ x.index.usesOf v ↔ ∃ i, ⟨u.user, i⟩ ∈ x.func.placed ∧ (u.position, v) ∈ i.slots := by
  rw [UseIndex.mem_usesOf, sync.uses.mem_iff, UseIndex.mem_build_uses]

theorem InSync.hasOperand (sync : x.InSync) {v : Value} {u : Use} (used : u ∈ x.index.usesOf v) : x.func.HasOperand u := by
  obtain ⟨i, placed, slot⟩ := sync.mem_usesOf.mp used
  exact ⟨i, placed, (List.getElem?_eq_some_iff.mp (Inst.mem_slots.mp slot)).1⟩

theorem InSync.useCount (sync : x.InSync) (v : Value) : x.index.useCount v = (UseIndex.build x.func).useCount v := by
  simp only [UseIndex.useCount, UseIndex.usesOf, List.length_map]
  exact (sync.uses.filter _).length_eq

def written (fresh : Value) (us : List Use) (p : Placed) : Placed :=
  { p with inst := (us.filter (·.user = p.ref)).foldl (fun i u => i.setOperand u.position (.value fresh)) p.inst }

theorem operands_foldl_setOperand (fresh : Value) (us : List Use) (i : Inst) (k : Nat) :
    (us.foldl (fun i u => i.setOperand u.position (.value fresh)) i).operands[k]? =
      if k < i.operands.length ∧ k ∈ us.map (·.position) then some (.value fresh) else i.operands[k]? := by
  induction us generalizing i with
  | nil => simp
  | cons u rest ih =>
    rw [List.foldl_cons, ih]
    simp only [Inst.setOperand, List.length_set, List.map_cons, List.mem_cons, List.getElem?_set]
    by_cases inside : k < i.operands.length
    · by_cases later : k ∈ rest.map (·.position)
      · simp [inside, later]
      · by_cases here : k = u.position
        · subst here
          simp [inside]
        · simp [later, here, Ne.symm here]
    · have outside : i.operands[k]? = none := List.getElem?_eq_none (Nat.not_lt.mp inside)
      simp only [inside, false_and, if_false, outside]
      split
      · split
        · rename_i same low
          exact absurd (same ▸ low) inside
        · rfl
      · rfl

theorem foldl_setOperand_frame (fresh : Value) (us : List Use) (i : Inst) :
    us.foldl (fun i u => i.setOperand u.position (.value fresh)) i =
      { i with operands := (us.foldl (fun i u => i.setOperand u.position (.value fresh)) i).operands } := by
  induction us generalizing i with
  | nil => rfl
  | cons u rest ih => exact ih _

theorem redirectAll_ok (fresh : Value) (us : List Use) (f : Func) (known : ∀ u ∈ us, f.HasOperand u) :
    ∃ g, redirectAll fresh us f = (.ok (), g) ∧ g.name = f.name ∧ g.issued = f.issued ∧ g.strays = f.strays ∧
      g.blocks = f.blocks.map (·.map (written fresh us)) := by
  induction us generalizing f with
  | nil =>
    have same : written fresh [] = id := rfl
    exact ⟨f, rfl, rfl, rfl, rfl, by simp [same]⟩
  | cons u rest ih =>
    obtain ⟨here, later⟩ := List.forall_mem_cons.mp known
    obtain ⟨i, placed, inside⟩ := here
    have first : redirect fresh u f = (.ok (), f.revise u.user (·.setOperand u.position (.value fresh))) := by
      simp only [redirect, Func.inst?_eq_some.mpr placed, if_pos inside]
    obtain ⟨g, ran, name, issued, strays, blocks⟩ :=
      ih (f.revise u.user (·.setOperand u.position (.value fresh)))
        (fun w member => (later w member).revise u.user fun _ => List.length_set)
    refine ⟨g, (Attempt.bind_ok first).trans ran, name, issued, strays, ?_⟩
    rw [blocks, Func.revise, List.map_map]
    apply List.map_congr_left
    intro block _
    simp only [Function.comp, List.map_map]
    apply List.map_congr_left
    intro p _
    simp only [Function.comp, written, List.filter_cons]
    by_cases same : p.ref = u.user
    · simp [same]
    · simp [same, Ne.symm same]

theorem written_usesOf (sync : x.InSync) (old fresh : Value) {p : Placed} (member : p ∈ x.func.placed) :
    written fresh (x.index.usesOf old) p = { p with inst := p.inst.mapValues (Value.subst old fresh) } := by
  have operands : (((x.index.usesOf old).filter (·.user = p.ref)).foldl
      (fun i u => i.setOperand u.position (.value fresh)) p.inst).operands =
        p.inst.operands.map (.mapValue (Value.subst old fresh)) := by
    apply List.ext_getElem?
    intro k
    rw [operands_foldl_setOperand, List.getElem?_map]
    have slot : k ∈ ((x.index.usesOf old).filter (·.user = p.ref)).map (·.position) ↔
        p.inst.operands[k]? = some (.value old) := by
      rw [← Inst.mem_slots, List.mem_map]
      constructor
      · intro ⟨u, found, position⟩
        obtain ⟨used, user⟩ := List.mem_filter.mp found
        obtain ⟨i, placed, slot⟩ := sync.mem_usesOf.mp used
        cases Func.placed_unique placed member (of_decide_eq_true user)
        exact position ▸ slot
      · intro slot
        refine ⟨⟨p.ref, k⟩, List.mem_filter.mpr ⟨sync.mem_usesOf.mpr ⟨p.inst, member, slot⟩, by simp⟩, rfl⟩
    simp only [slot]
    cases operand : p.inst.operands[k]? with
    | none => simp
    | some o =>
      have inside : k < p.inst.operands.length := (List.getElem?_eq_some_iff.mp operand).1
      cases o with
      | value v =>
        by_cases named : v = old
        · simp [inside, named, Operand.mapValue, Value.subst]
        · simp [named, Operand.mapValue, Value.subst]
      | label b => simp [Operand.mapValue]
      | literal n => simp [Operand.mapValue]
  rw [written, foldl_setOperand_frame, operands]
  rfl

end Indexed

namespace UseIndex

theorem build_uses_mapValues (f : Func) (ρ : Value → Value) :
    (build (f.mapValues ρ)).uses = (build f).uses.map fun (v, u) => (ρ v, u) := by
  simp only [build, Func.placed_mapValues, List.flatMap_map, List.map_flatMap]
  rw [List.flatMap_def, List.flatMap_def]
  congr 1
  apply List.map_congr_left
  intro p _
  simp only [Inst.slots_mapValues, List.map_map]
  rfl

theorem build_defs_mapValues (f : Func) (ρ : Value → Value) : (build (f.mapValues ρ)).defs = (build f).defs := by
  simp only [build, Func.placed_mapValues, List.filterMap_map]
  rfl

theorem move_perm (x : UseIndex) (old fresh : Value) :
    (x.move old fresh).uses.Perm (x.uses.map fun (v, u) => (Value.subst old fresh v, u)) := by
  have parts := (List.filter_append_perm (fun e : Value × Use => decide (e.1 ≠ old)) x.uses).map
    fun (v, u) => (Value.subst old fresh v, u)
  rw [List.map_append] at parts
  have kept : (x.uses.filter (·.1 ≠ old)).map (fun (v, u) => (Value.subst old fresh v, u)) =
      x.uses.filter (·.1 ≠ old) := by
    refine (List.map_congr_left fun e member => ?_).trans (List.map_id _)
    have other := of_decide_eq_true (List.mem_filter.mp member).2
    simp [Value.subst, other]
  have moved : (x.uses.filter fun e => !decide (e.1 ≠ old)).map (fun (v, u) => (Value.subst old fresh v, u)) =
      (x.usesOf old).map (fresh, ·) := by
    rw [usesOf, List.map_map]
    have same : (x.uses.filter fun e => !decide (e.1 ≠ old)) = x.uses.filter (·.1 = old) := by
      apply List.filter_congr
      intro e _
      simp
    rw [same]
    apply List.map_congr_left
    intro e member
    have named := of_decide_eq_true (List.mem_filter.mp member).2
    simp [Value.subst, named]
  rw [kept, moved] at parts
  exact parts

theorem build_uses_discard (f : Func) (gone : List InstRef) :
    (build (f.discard gone)).uses = (build f).uses.filter fun u => u.2.user ∉ gone := by
  simp only [build, Func.placed_discard, List.filter_flatMap]
  induction f.placed with
  | nil => rfl
  | cons p rest ih =>
    rw [List.flatMap_cons, List.filter_cons]
    by_cases listed : p.ref ∈ gone
    · rw [if_neg (by simpa using listed), ih]
      have none : (p.inst.slots.map fun (k, v) => (v, (⟨p.ref, k⟩ : Use))).filter (fun u => u.2.user ∉ gone) = [] := by
        apply List.filter_eq_nil_iff.mpr
        intro e member
        obtain ⟨slot, -, rfl⟩ := List.mem_map.mp member
        simpa using listed
      rw [none, List.nil_append]
    · rw [if_pos (by simpa using listed), List.flatMap_cons, ih]
      have all : (p.inst.slots.map fun (k, v) => (v, (⟨p.ref, k⟩ : Use))).filter (fun u => u.2.user ∉ gone) =
          p.inst.slots.map fun (k, v) => (v, (⟨p.ref, k⟩ : Use)) := by
        apply List.filter_eq_self.mpr
        intro e member
        obtain ⟨slot, -, rfl⟩ := List.mem_map.mp member
        simpa using listed
      rw [all]

theorem build_def?_discard {f : Func} (distinct : f.results.Nodup) {r : InstRef} {i : Inst} (placed : ⟨r, i⟩ ∈ f.placed)
    (v : Value) : (build (f.discard [r])).def? v = if i.result? = some v then none else (build f).def? v := by
  have others := distinct.sublist (f.results_discard_sublist [r])
  apply Option.ext
  intro q
  rw [build_def? others]
  simp only [Func.mem_placed_discard, List.mem_singleton]
  split
  · rename_i result
    refine ⟨fun left => ?_, fun none => absurd none (by simp)⟩
    obtain ⟨j, ⟨there, other⟩, again⟩ := left
    cases Func.defined_once distinct there placed again result
    exact absurd rfl other
  · rename_i other
    rw [build_def? distinct]
    refine exists_congr fun j => ⟨fun both => ⟨both.1.1, both.2⟩, fun both => ⟨⟨both.1, fun same => ?_⟩, both.2⟩⟩
    cases Func.placed_unique both.1 placed same
    exact other both.2

theorem def?_forget (x : UseIndex) (r : InstRef) (i : Inst) (v : Value) :
    (x.forget r i).def? v = if i.result? = some v then none else x.def? v := by
  rw [forget, def?]
  cases result : i.result? with
  | none =>
    rw [if_neg (by simp)]
    simp [def?]
  | some w =>
    have same : (x.defs.filter fun d => some d.1 ≠ some w) = x.defs.filter fun d => d.1 ≠ w := by
      apply List.filter_congr
      intro d _
      simp
    dsimp only
    rw [same, lookup_filter_ne]
    by_cases here : v = w
    · rw [if_pos here, if_pos (congrArg some here.symm)]
    · rw [if_neg here, if_neg fun same => here (Option.some.inj same).symm]
      rfl

theorem forget_perm {x : UseIndex} {f : Func} (uses : x.uses.Perm (build f).uses) {r : InstRef} {i : Inst}
    (placed : ⟨r, i⟩ ∈ f.placed) : (x.forget r i).uses.Perm (build (f.discard [r])).uses := by
  rw [build_uses_discard, forget]
  refine (uses.filter _).trans (List.Perm.of_eq (List.filter_congr fun e used => ?_))
  have mine : e.2.user = r → e.1 ∈ i.values := by
    intro same
    obtain ⟨j, there, slot⟩ := mem_build_uses.mp used
    cases Func.placed_unique there placed same
    exact Inst.mem_values_of_slot slot
  rw [decide_eq_decide, List.mem_singleton]
  exact ⟨fun kept same => kept ⟨same, mine same⟩, fun other both => other both.1⟩

end UseIndex

namespace Indexed

variable {x : Indexed}

theorem replaceUses_ok (sync : x.InSync) {old fresh : Value} (differs : old ≠ fresh) :
    ∃ y : Indexed, replaceUses old fresh x = (.ok (x.index.useCount old), y) ∧ y.InSync ∧
      y.func = x.func.mapValues (Value.subst old fresh) := by
  obtain ⟨g, ran, name, issued, strays, blocks⟩ :=
    redirectAll_ok fresh (x.index.usesOf old) x.func fun _ used => sync.hasOperand used
  have same : g = x.func.mapValues (Value.subst old fresh) := by
    refine Func.eq_of_blocks name ?_ issued strays
    rw [blocks]
    refine List.map_congr_left fun block member => List.map_congr_left fun p here => ?_
    exact written_usesOf sync old fresh (List.mem_flatten.mpr ⟨block, member, here⟩)
  have defs : ∀ v, (x.index.move old fresh).def? v = (UseIndex.build g).def? v := by
    intro v
    rw [same, UseIndex.def?, UseIndex.def?, UseIndex.build_defs_mapValues]
    exact sync.defs v
  have uses : (x.index.move old fresh).uses.Perm (UseIndex.build g).uses := by
    rw [same, UseIndex.build_uses_mapValues]
    exact (x.index.move_perm old fresh).trans (sync.uses.map _)
  refine ⟨⟨g, x.index.move old fresh⟩, ?_, ⟨defs, uses⟩, same⟩
  simp only [replaceUses, if_neg differs, ran]
  rfl

theorem erase_ok (sync : x.InSync) (distinct : x.func.results.Nodup) (r : InstRef) :
    (x.erase r).1 = x.func.inst? r ∧ (x.erase r).2.InSync ∧ (x.erase r).2.func = x.func.discard [r] := by
  unfold erase
  cases found : x.func.inst? r with
  | none =>
    refine ⟨rfl, sync, (Func.discard_of_absent fun q member => ?_).symm⟩
    rw [List.mem_singleton.mp member]
    exact Func.inst?_eq_none.mp found
  | some i =>
    have placed := Func.inst?_eq_some.mp found
    refine ⟨rfl, ⟨fun v => ?_, ?_⟩, x.func.erase_eq_discard r⟩
    · dsimp only
      rw [Func.erase_eq_discard, UseIndex.build_def?_discard distinct placed, UseIndex.def?_forget, sync.defs v]
    · dsimp only
      rw [Func.erase_eq_discard]
      exact UseIndex.forget_perm sync.uses placed

end Indexed

end DeadLanes
