import DeadLanes.Module
import DeadLanes.Func.FlowGraph
import DeadLanes.WellFormed.Flaw

namespace DeadLanes

-- The checker: functions it accepts are SSA that the passes can rely on. It
-- says nothing on whether definitions dominate their uses. The first flaw in
-- program order wins, results of the whole function before anything else.
namespace Check

abbrev Verdict := Except Rejection Unit

def ensure (p : Prop) [Decidable p] (flaw : Flaw) : Verdict :=
  if p then .ok () else .error (.flaw flaw)

def need (o : Option α) (flaw : Flaw) : Except Rejection α :=
  match o with
  | some a => .ok a
  | none => .error (.flaw flaw)

def asking : Except Fault α → Except Rejection α
  | .ok a => .ok a
  | .error f => .error (.fault f)

def each (check : α → Verdict) : List α → Verdict
  | [] => .ok ()
  | x :: rest =>
    match check x with
    | .ok () => each check rest
    | .error r => .error r

@[simp] theorem ensure_ok {p : Prop} [Decidable p] {flaw : Flaw} : ensure p flaw = .ok () ↔ p := by
  unfold ensure
  split <;> simp_all

@[simp] theorem need_ok {o : Option α} {flaw : Flaw} {a : α} : need o flaw = .ok a ↔ o = some a := by
  cases o <;> simp [need]

@[simp] theorem each_ok {check : α → Verdict} {xs : List α} :
    each check xs = .ok () ↔ ∀ x ∈ xs, check x = .ok () := by
  induction xs with
  | nil => simp [each]
  | cons x rest ih =>
    unfold each
    split
    · rename_i good
      simp [good, ih]
    · rename_i r bad
      simp [bad]

def subject (i : Inst) : Value := i.result?.getD ⟨0⟩

def result (i : Inst) : Verdict :=
  ensure (i.opcode = .call ∨ i.defines.isSome = !i.opcode.resultless) (.badResult i.opcode)

def results (before : List Value) : List Inst → Verdict
  | [] => .ok ()
  | i :: rest => do
    result i
    match i.result? with
    | none => results before rest
    | some v => do
      ensure (v ∉ before) (.redefined v)
      results (v :: before) rest

-- Phis come first, and the last instruction is the only terminator. `body`
-- tells whether an instruction other than a phi was seen.
def shape (b : Label) (body : Bool) : List Inst → Verdict
  | [] => .error (.flaw (.missingTerminator b))
  | [i] => do
    ensure (i.opcode = .phi → body = false) (.misplacedPhi (subject i))
    ensure (i.opcode.terminator = true) (.missingTerminator b)
  | i :: j :: rest => do
    ensure (i.opcode.terminator = false) (.earlyTerminator b)
    ensure (i.opcode = .phi → body = false) (.misplacedPhi (subject i))
    shape b (body || i.opcode ≠ .phi) (j :: rest)

def operand (s : Scope) : Operand → Verdict
  | .value v => ensure ((s.ty? v).isSome = true) (.undefinedValue v)
  | .label b => ensure (s.func.hasBlock b = true) (.unknownBlock b)
  | .literal _ => .ok ()

def phi (g : FlowGraph) (b : Label) (i : Inst) : Verdict :=
  ensure (i.opcode = .phi →
      i.operands.length = 2 * i.incoming.length ∧ (i.incoming.map (·.2)).isPerm (g.preds b) = true)
    (.phiPredecessors (subject i) b)

def vector (types : TypeTable) (ty : Option TypeRef) (flaw : Flaw) : Except Rejection (TypeRef × Nat) := do
  let ty ← need ty flaw
  let info ← asking (types.vectorInfo ty)
  need info flaw

-- The type that an operand was found to have. Asking for the type of a value
-- that has none is a fault.
def typeOf (s : Scope) (v : Value) : Except Rejection TypeRef :=
  match s.ty? v with
  | some ty => .ok ty
  | none => .error (.fault .unknownIndex)

def covered (s : Scope) (total : Nat) : List Value → Except Rejection Nat
  | [] => .ok total
  | v :: rest => do
    let ty ← typeOf s v
    let lanes ← asking (s.types.laneCount ty)
    if total + lanes.getD 1 < wordBound then covered s (total + lanes.getD 1) rest
    else .error (.fault .overflow)

def selector (i : Inst) (lanesA lanesB sel : Nat) : Verdict :=
  if sel = anyLane then .ok ()
  else if lanesA + lanesB < wordBound then ensure (sel < lanesA + lanesB) (.badSelector (subject i) sel)
  else .error (.fault .overflow)

def composite (s : Scope) (i : Inst) : Verdict :=
  let malformed := Flaw.badOperands i.opcode (subject i)
  let mismatch := Flaw.typeMismatch i.opcode (subject i)
  match i.opcode with
  | .insert => do
    let (obj, base, lane) ← need i.asInsert? malformed
    let (elem, lanes) ← vector s.types i.ty? mismatch
    let baseTy ← typeOf s base
    ensure (some baseTy = i.ty?) mismatch
    let objTy ← typeOf s obj
    ensure (objTy = elem) mismatch
    ensure (lane < lanes) (.laneOutOfRange (subject i) lane lanes)
  | .extract => do
    let (src, lane) ← need i.asExtract? malformed
    let srcTy ← typeOf s src
    let (elem, lanes) ← vector s.types srcTy mismatch
    ensure (i.ty? = some elem) mismatch
    ensure (lane < lanes) (.laneOutOfRange src lane lanes)
  | .construct => do
    let (_, lanes) ← vector s.types i.ty? mismatch
    ensure (i.literals = []) malformed
    let total ← covered s 0 i.values
    ensure (total = lanes) mismatch
  | .shuffle => do
    let (a, b, sels) ← need i.asShuffle? malformed
    let (_, lanes) ← vector s.types i.ty? mismatch
    let tyA ← typeOf s a
    let (_, lanesA) ← vector s.types tyA mismatch
    let tyB ← typeOf s b
    let (_, lanesB) ← vector s.types tyB mismatch
    ensure (sels.length = lanes) malformed
    each (selector i lanesA lanesB) sels
  | _ => .ok ()

def inst (s : Scope) (g : FlowGraph) (b : Label) (i : Inst) : Verdict := do
  each (operand s) i.operands
  phi g b i
  composite s i

def block (s : Scope) (g : FlowGraph) (b : Label) (insts : List Inst) : Verdict := do
  shape b false insts
  each (inst s g b) insts

end Check

def Scope.check (s : Scope) : Check.Verdict := do
  Check.results s.globals.values s.func.insts
  let g := s.func.flowGraph
  Check.each (fun (b, block) => Check.block s g b (block.map (·.inst))) (s.func.labels.zip s.func.blocks)

end DeadLanes
