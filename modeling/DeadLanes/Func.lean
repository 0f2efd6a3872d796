import DeadLanes.Inst
import DeadLanes.Fault

namespace DeadLanes

structure Placed where
  ref : InstRef
  inst : Inst
  deriving DecidableEq

-- A function body: blocks in order, each the instructions placed in it. All
-- references in it are different, and all were handed out by this function.
structure Func where
  name : String
  blocks : List (List Placed)
  issued : Nat
  -- instructions taken for a block that does not exist; they count as held,
  -- but no block lists them
  strays : Nat
  distinct : (blocks.flatten.map (·.ref)).Nodup
  old : ∀ p ∈ blocks.flatten, p.ref.serial < issued

namespace Func

def new (name : String) : Func := ⟨name, [], 0, 0, .nil, by simp⟩

def entry : Label := ⟨0⟩

def placed (f : Func) : List Placed := f.blocks.flatten

def refs (f : Func) : List InstRef := f.placed.map (·.ref)

def insts (f : Func) : List Inst := f.placed.map (·.inst)

def size (f : Func) : Nat := f.placed.length + f.strays

-- As long as there are no more than `wordBound` blocks, these are all the labels.
def labels (f : Func) : List Label := (List.range f.blocks.length).map Label.mk

def hasBlock (f : Func) (b : Label) : Bool := b.index < f.blocks.length

def block (f : Func) (b : Label) : Except Fault (List Placed) :=
  match f.blocks[b.index]? with
  | some block => .ok block
  | none => .error .unknownIndex

def inst? (f : Func) (r : InstRef) : Option Inst := (f.placed.find? (·.ref = r)).map (·.inst)

def contains (f : Func) (r : InstRef) : Bool := f.refs.contains r

def place? (f : Func) (r : InstRef) : Option Nat := f.blocks.findIdx? fun block => block.any (·.ref = r)

def blockOf? (f : Func) (r : InstRef) : Option Label := (f.place? r).map Label.nth

def definitions (f : Func) : List (Value × TypeRef) := f.insts.filterMap Inst.defines

-- The type of a result. Should a value be defined twice, the last one counts.
def ty? (f : Func) (v : Value) : Option TypeRef := f.definitions.reverse.lookup v

theorem flatten_modify_perm {blocks : List (List Placed)} {index : Nat} {block : List Placed}
    {g : List Placed → List Placed} {p : Placed} (here : blocks[index]? = some block)
    (more : (g block).Perm (p :: block)) : (blocks.modify index g).flatten.Perm (p :: blocks.flatten) := by
  induction blocks generalizing index with
  | nil => simp at here
  | cons head rest ih =>
    cases index with
    | zero =>
      simp only [List.getElem?_cons_zero, Option.some.injEq] at here
      subst here
      simpa using more.append_right rest.flatten
    | succ index =>
      simp only [List.getElem?_cons_succ] at here
      simp only [List.modify_succ_cons, List.flatten_cons]
      exact ((ih here).append_left head).trans List.perm_middle

def grow (f : Func) (index : Nat) (g : List Placed → List Placed) (inst : Inst) {block : List Placed}
    (here : f.blocks[index]? = some block)
    (more : (g block).Perm (⟨⟨f.issued⟩, inst⟩ :: block)) : Func :=
  have perm := flatten_modify_perm here more
  { f with
    blocks := f.blocks.modify index g
    issued := f.issued + 1
    distinct := by
      refine (perm.map (·.ref)).nodup_iff.mpr (List.nodup_cons.mpr ⟨fun seen => ?_, f.distinct⟩)
      obtain ⟨q, member, same⟩ := List.mem_map.mp seen
      have := f.old q member
      simp [same] at this
    old := fun q member => by
      rcases List.mem_cons.mp (perm.mem_iff.mp member) with rfl | before
      · simp
      · exact Nat.lt_succ_of_lt (f.old q before) }

def addBlock (f : Func) : Label × Func :=
  (.nth f.blocks.length, { f with
    blocks := f.blocks ++ [[]]
    distinct := by simpa using f.distinct
    old := by simpa using f.old })

-- Places an instruction at the end of a block. Naming a block that does not
-- exist is a fault, and the instruction is held without a place.
def append (b : Label) (inst : Inst) : Attempt Func InstRef := fun f =>
  match here : f.blocks[b.index]? with
  | some _ =>
    (.ok ⟨f.issued⟩, f.grow b.index (· ++ [⟨⟨f.issued⟩, inst⟩]) inst here List.perm_append_comm)
  | none =>
    (.error .unknownIndex, { f with
      issued := f.issued + 1
      strays := f.strays + 1
      old := fun p member => Nat.lt_succ_of_lt (f.old p member) })

def placeBefore (before : InstRef) (p : Placed) : List Placed → List Placed
  | [] => [p]
  | q :: rest => if q.ref = before then p :: q :: rest else q :: placeBefore before p rest

theorem placeBefore_perm (before : InstRef) (p : Placed) (block : List Placed) :
    (placeBefore before p block).Perm (p :: block) := by
  induction block with
  | nil => exact .refl _
  | cons q rest ih =>
    unfold placeBefore
    split
    · exact .refl _
    · exact (ih.cons q).trans (.swap p q rest)

def insertBefore (f : Func) (before : InstRef) (inst : Inst) : Option (InstRef × Func) :=
  match f.place? before with
  | none => none
  | some index =>
    match here : f.blocks[index]? with
    | none => none
    | some block =>
      some (⟨f.issued⟩,
        f.grow index (placeBefore before ⟨⟨f.issued⟩, inst⟩) inst here (placeBefore_perm before _ block))

def erase (f : Func) (r : InstRef) : Func :=
  have flat : (f.blocks.map (·.filter (·.ref ≠ r))).flatten = f.blocks.flatten.filter (·.ref ≠ r) :=
    List.filter_flatten.symm
  { f with
    blocks := f.blocks.map (·.filter (·.ref ≠ r))
    distinct := by
      rw [flat]
      exact f.distinct.sublist (List.filter_sublist.map _)
    old := fun p member => by
      rw [flat] at member
      exact f.old p (List.mem_filter.mp member).1 }

def revise (f : Func) (r : InstRef) (g : Inst → Inst) : Func :=
  let change (p : Placed) : Placed := if p.ref = r then { p with inst := g p.inst } else p
  have refs : ∀ ps : List Placed, (ps.map change).map (·.ref) = ps.map (·.ref) := by
    intro ps
    simp only [List.map_map]
    refine List.map_congr_left fun p _ => ?_
    simp only [Function.comp, change]
    split <;> rfl
  have flat : (f.blocks.map (·.map change)).flatten = f.blocks.flatten.map change := by
    simp [List.map_flatten]
  { f with
    blocks := f.blocks.map (·.map change)
    distinct := by
      rw [flat, refs]
      exact f.distinct
    old := fun p member => by
      rw [flat] at member
      obtain ⟨q, before, rfl⟩ := List.mem_map.mp member
      have bound := f.old q before
      simp only [change]
      split <;> exact bound }

@[simp] theorem placed_erase (f : Func) (r : InstRef) :
    (f.erase r).placed = f.placed.filter (·.ref ≠ r) :=
  List.filter_flatten.symm

@[simp] theorem placed_revise (f : Func) (r : InstRef) (g : Inst → Inst) :
    (f.revise r g).placed =
      f.placed.map fun p => if p.ref = r then { p with inst := g p.inst } else p := by
  simp [placed, revise, List.map_flatten]

def demandCount (f : Func) : Nat := (f.insts.flatMap (·.values)).length

theorem demandCount_erase {f : Func} {r : InstRef} {i : Inst} (here : f.inst? r = some i) :
    (f.erase r).demandCount + i.values.length ≤ f.demandCount := by
  obtain ⟨p, found, rfl⟩ := Option.map_eq_some_iff.mp here
  simp only [demandCount, insts, placed_erase]
  generalize f.placed = ps at found
  have shrinks : ∀ qs : List Placed,
      (((qs.filter (·.ref ≠ r)).map (·.inst)).flatMap (·.values)).length ≤ ((qs.map (·.inst)).flatMap (·.values)).length := by
    intro qs
    induction qs with
    | nil => simp
    | cons q qs ih =>
      simp only [List.filter_cons]
      split <;> simp only [List.map_cons, List.flatMap_cons, List.length_append] <;> omega
  induction ps with
  | nil => simp at found
  | cons q qs ih =>
    by_cases same : q.ref = r
    · have : q = p := by simpa [List.find?_cons, same] using found
      subst this
      have rest := shrinks qs
      rw [List.filter_cons_of_neg (by simp [same]), List.map_cons, List.flatMap_cons, List.length_append]
      omega
    · have later := ih (by simpa [List.find?_cons, same] using found)
      rw [List.filter_cons_of_pos (by simp [same]), List.map_cons, List.flatMap_cons, List.length_append, List.map_cons,
        List.flatMap_cons, List.length_append]
      omega

end Func

end DeadLanes
