namespace DeadLanes

-- First in, first out, and nothing waits twice.
structure Worklist (ι : Type) where
  waiting : List ι
  distinct : waiting.Nodup

namespace Worklist

def empty : Worklist ι := ⟨[], .nil⟩

def isEmpty (w : Worklist ι) : Bool := w.waiting.isEmpty

def pop? (w : Worklist ι) : Option (ι × Worklist ι) :=
  match same : w.waiting with
  | [] => none
  | i :: rest => some (i, ⟨rest, (List.nodup_cons.mp (same ▸ w.distinct)).2⟩)

theorem pop?_some {w rest : Worklist ι} {i : ι} :
    w.pop? = some (i, rest) ↔ w.waiting = i :: rest.waiting := by
  obtain ⟨waiting, distinct⟩ := w
  cases waiting with
  | nil => simp [pop?]
  | cons j js =>
    obtain ⟨others, rest⟩ := rest
    simp [pop?]

theorem pop?_none {w : Worklist ι} : w.pop? = none ↔ w.waiting = [] := by
  obtain ⟨waiting, distinct⟩ := w
  cases waiting <;> simp [pop?]

variable [DecidableEq ι]

def push (w : Worklist ι) (i : ι) : Worklist ι :=
  if present : i ∈ w.waiting then w
  else
    have distinct : (w.waiting ++ [i]).Nodup := by
      refine List.nodup_append.mpr ⟨w.distinct, by simp, ?_⟩
      intro a old b new
      rw [List.mem_singleton.mp new]
      exact fun equal => present (equal ▸ old)
    ⟨w.waiting ++ [i], distinct⟩

def pushAll (w : Worklist ι) (is : List ι) : Worklist ι := is.foldl push w

theorem waiting_push (w : Worklist ι) (i : ι) :
    (w.push i).waiting = if i ∈ w.waiting then w.waiting else w.waiting ++ [i] := by
  unfold push
  split <;> rfl

@[simp] theorem mem_push {w : Worklist ι} {i j : ι} :
    j ∈ (w.push i).waiting ↔ j ∈ w.waiting ∨ j = i := by
  rw [waiting_push]
  split
  · rename_i present
    exact ⟨.inl, fun h => h.elim id (fun e => e ▸ present)⟩
  · simp

@[simp] theorem mem_pushAll {w : Worklist ι} {is : List ι} {j : ι} :
    j ∈ (w.pushAll is).waiting ↔ j ∈ w.waiting ∨ j ∈ is := by
  unfold pushAll
  induction is generalizing w with
  | nil => simp
  | cons i is ih => simp [ih, or_assoc]

theorem length_pushAll (w : Worklist ι) (is : List ι) :
    (w.pushAll is).waiting.length ≤ w.waiting.length + is.length := by
  unfold pushAll
  induction is generalizing w with
  | nil => simp
  | cons i is ih =>
    have one : (w.push i).waiting.length ≤ w.waiting.length + 1 := by
      rw [waiting_push]
      split <;> simp
    have rest := ih (w.push i)
    simp only [List.foldl_cons, List.length_cons]
    omega

end Worklist

-- A worklist algorithm. A visit changes the state and reports whom to visit
-- next; the reports are paid for out of the room that the state has left, so
-- there are only so many visits, whatever the order and however many cycles.
structure Flow (ι σ : Type) where
  visit : ι → σ → σ × List ι
  room : σ → Nat
  paid : ∀ i s, room (visit i s).1 + (visit i s).2.length ≤ room s

namespace Flow

variable [DecidableEq ι]

def drain (f : Flow ι σ) (w : Worklist ι) (s : σ) : List ι × σ :=
  match _next : w.pop? with
  | none => ([], s)
  | some (i, rest) =>
    let later := f.drain (rest.pushAll (f.visit i s).2) (f.visit i s).1
    (i :: later.1, later.2)
termination_by f.room s + w.waiting.length
decreasing_by
  have paid := f.paid i s
  have pushed := Worklist.length_pushAll rest (f.visit i s).2
  have popped := congrArg List.length (Worklist.pop?_some.mp _next)
  simp only [List.length_cons] at popped
  omega

def run (f : Flow ι σ) (seeds : List ι) (s : σ) : List ι × σ :=
  f.drain (Worklist.empty.pushAll seeds) s

theorem drain_none {f : Flow ι σ} {w : Worklist ι} (h : w.pop? = none) (s : σ) :
    f.drain w s = ([], s) := by
  rw [drain]
  split
  · rfl
  · simp_all

theorem drain_some {f : Flow ι σ} {w rest : Worklist ι} {i : ι} (h : w.pop? = some (i, rest)) (s : σ) :
    f.drain w s = (i :: (f.drain (rest.pushAll (f.visit i s).2) (f.visit i s).1).1,
      (f.drain (rest.pushAll (f.visit i s).2) (f.visit i s).1).2) := by
  rw [drain]
  split
  · simp_all
  · rename_i j others next
    rw [h] at next
    cases next
    rfl

theorem left_lt (f : Flow ι σ) {w rest : Worklist ι} {i : ι} (next : w.pop? = some (i, rest)) (s : σ) :
    f.room (f.visit i s).1 + (rest.pushAll (f.visit i s).2).waiting.length < f.room s + w.waiting.length := by
  have paid := f.paid i s
  have pushed := Worklist.length_pushAll rest (f.visit i s).2
  have popped := congrArg List.length (Worklist.pop?_some.mp next)
  simp only [List.length_cons] at popped
  omega

-- What holds of the visits so far, the queue and the state at the start and
-- after each visit holds in the end, when the queue is empty.
theorem drain_history {f : Flow ι σ} {P : List ι → (ι → Prop) → σ → Prop}
    (step : ∀ past waiting i s, P past waiting s → waiting i →
      P (past ++ [i]) (fun j => (waiting j ∧ j ≠ i) ∨ j ∈ (f.visit i s).2) (f.visit i s).1)
    (past : List ι) (w : Worklist ι) (s : σ) (start : P past (· ∈ w.waiting) s) :
    P (past ++ (f.drain w s).1) (fun _ => False) (f.drain w s).2 := by
  cases next : w.pop? with
  | none =>
    rw [drain_none next, List.append_nil]
    simpa [Worklist.pop?_none.mp next] using start
  | some popped =>
    obtain ⟨i, rest⟩ := popped
    have queue := Worklist.pop?_some.mp next
    have once : i ∉ rest.waiting := (List.nodup_cons.mp (queue ▸ w.distinct)).1
    have after := step past _ i s start (by simp [queue])
    have same : (fun j => (j ∈ w.waiting ∧ j ≠ i) ∨ j ∈ (f.visit i s).2) =
        (· ∈ (rest.pushAll (f.visit i s).2).waiting) := by
      funext j
      simp only [queue, List.mem_cons, Worklist.mem_pushAll, eq_iff_iff]
      refine or_congr_left ⟨fun both => both.1.resolve_left both.2, fun later => ⟨.inr later, ?_⟩⟩
      exact fun same => once (same ▸ later)
    rw [same] at after
    rw [drain_some next, List.append_cons]
    exact drain_history step _ _ _ after
termination_by f.room s + w.waiting.length
decreasing_by exact f.left_lt next s

theorem drain_invariant {f : Flow ι σ} {P : (ι → Prop) → σ → Prop}
    (step : ∀ waiting i s, P waiting s → waiting i →
      P (fun j => (waiting j ∧ j ≠ i) ∨ j ∈ (f.visit i s).2) (f.visit i s).1)
    (w : Worklist ι) (s : σ) (start : P (· ∈ w.waiting) s) : P (fun _ => False) (f.drain w s).2 :=
  drain_history (P := fun _ => P) (fun _ => step) [] w s start

theorem drain_related {f : Flow ι σ} {R : σ → σ → Prop}
    (step : ∀ i s t, R s t → (f.visit i s).2 = (f.visit i t).2 ∧ R (f.visit i s).1 (f.visit i t).1)
    (w : Worklist ι) (s t : σ) (related : R s t) : (f.drain w s).1 = (f.drain w t).1 ∧ R (f.drain w s).2 (f.drain w t).2 := by
  cases next : w.pop? with
  | none =>
    rw [drain_none next, drain_none next]
    exact ⟨rfl, related⟩
  | some popped =>
    obtain ⟨i, rest⟩ := popped
    obtain ⟨report, after⟩ := step i s t related
    have later := drain_related step (rest.pushAll (f.visit i s).2) _ _ after
    rw [drain_some next, drain_some next, ← report]
    exact ⟨congrArg (i :: ·) later.1, later.2⟩
termination_by f.room s + w.waiting.length
decreasing_by exact f.left_lt next s

theorem length_drain (f : Flow ι σ) (w : Worklist ι) (s : σ) :
    (f.drain w s).1.length + f.room (f.drain w s).2 ≤ w.waiting.length + f.room s := by
  cases next : w.pop? with
  | none => simp [drain_none next]
  | some popped =>
    obtain ⟨i, rest⟩ := popped
    have later := length_drain f (rest.pushAll (f.visit i s).2) (f.visit i s).1
    have spent := f.left_lt next s
    simp only [drain_some next, List.length_cons]
    omega
termination_by f.room s + w.waiting.length
decreasing_by exact f.left_lt next s

end Flow

end DeadLanes
