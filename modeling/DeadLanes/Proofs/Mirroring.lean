import DeadLanes.Proofs.Generations
import DeadLanes.Proofs.Sync

namespace DeadLanes

-- A function numbers its instructions and keeps each where it is listed. It does
-- the same as a body over any arena, whatever the handles are.

namespace Func

variable {f : Func} {pre post : List (List Placed)} {front back : List Placed} {p : Placed}

theorem elsewhere_of_split (here : f.blocks = pre ++ (front ++ p :: back) :: post) :
    ∀ block ∈ pre ++ (front ++ back) :: post, ∀ q ∈ block, q.ref ≠ p.ref := by
  intro block member q inside same
  have distinct := f.distinct
  rw [here, ((Body.flatten_split_perm pre post front back p).map _).nodup_iff, List.map_cons, List.nodup_cons] at distinct
  exact distinct.1 (List.mem_map.mpr ⟨q, List.mem_flatten.mpr ⟨block, member, inside⟩, same⟩)

theorem append_inside {block : List Placed} {label : Label} (i : Inst) (here : f.blocks = pre ++ block :: post)
    (index : pre.length = label.index) : (append label i f).1 = .ok ⟨f.issued⟩ ∧
      (append label i f).2.blocks = pre ++ (block ++ [⟨⟨f.issued⟩, i⟩]) :: post ∧
      (append label i f).2.issued = f.issued + 1 ∧ (append label i f).2.strays = f.strays := by
  unfold append
  split
  · refine ⟨rfl, ?_, rfl, rfl⟩
    simp only [grow, here, ← index]
    exact Body.modify_split ..
  · rename_i outside
    simp [here, ← index] at outside

theorem append_outside {label : Label} (i : Inst) (outside : f.blocks.length ≤ label.index) :
    (append label i f).1 = .error .unknownIndex ∧ (append label i f).2.blocks = f.blocks ∧
      (append label i f).2.issued = f.issued + 1 ∧ (append label i f).2.strays = f.strays + 1 := by
  unfold append
  split
  · rename_i inside
    exact absurd (List.getElem?_eq_some_iff.mp inside).1 (Nat.not_lt.mpr outside)
  · exact ⟨rfl, rfl, rfl, rfl⟩

theorem place?_split (here : f.blocks = pre ++ (front ++ p :: back) :: post) : f.place? p.ref = some pre.length := by
  have before : pre.findIdx? (fun block => block.any (·.ref = p.ref)) = none := by
    simp only [List.findIdx?_eq_none_iff, List.any_eq_false, decide_eq_true_eq]
    exact fun block member => elsewhere_of_split here block (List.mem_append_left _ member)
  rw [place?, here, List.findIdx?_append, before, List.findIdx?_cons]
  simp

theorem placeBefore_split {x : Placed} (others : ∀ q ∈ front, q.ref ≠ p.ref) :
    placeBefore p.ref x (front ++ p :: back) = front ++ x :: p :: back := by
  induction front with
  | nil => exact if_pos rfl
  | cons q front ih =>
    obtain ⟨other, others⟩ := List.forall_mem_cons.mp others
    rw [List.cons_append, placeBefore, if_neg other, ih others]
    rfl

theorem insertBefore_split (i : Inst) (here : f.blocks = pre ++ (front ++ p :: back) :: post) :
    ∃ g, f.insertBefore p.ref i = some (⟨f.issued⟩, g) ∧
      g.blocks = pre ++ (front ++ ⟨⟨f.issued⟩, i⟩ :: p :: back) :: post ∧ g.issued = f.issued + 1 ∧
      g.strays = f.strays := by
  have others := elsewhere_of_split here (front ++ back) (by simp)
  simp only [insertBefore, place?_split here]
  split
  · rename_i outside
    simp [here] at outside
  · refine ⟨_, rfl, ?_, rfl, rfl⟩
    simp only [grow, here, Body.modify_split]
    rw [placeBefore_split fun q member => others q (List.mem_append_left _ member)]

theorem mem_refs_flatten {r : InstRef} : r ∈ f.refs ↔ ∃ block ∈ f.blocks, ∃ p ∈ block, p.ref = r := by
  simp [refs, placed]

theorem place?_absent {r : InstRef} (absent : r ∉ f.refs) : f.place? r = none := by
  simp only [place?, List.findIdx?_eq_none_iff, List.any_eq_false, decide_eq_true_eq]
  exact fun block member q inside same => absent (mem_refs_flatten.mpr ⟨block, member, q, inside, same⟩)

theorem insertBefore_absent {r : InstRef} (i : Inst) (absent : r ∉ f.refs) : f.insertBefore r i = none := by
  simp only [insertBefore, place?_absent absent]

theorem filter_others {blocks : List (List Placed)} {r : InstRef} (others : ∀ block ∈ blocks, ∀ q ∈ block, q.ref ≠ r) :
    blocks.map (·.filter (·.ref ≠ r)) = blocks := by
  conv_rhs => rw [← List.map_id blocks]
  apply List.map_congr_left
  intro block member
  apply List.filter_eq_self.mpr
  intro q inside
  exact decide_eq_true (others block member q inside)

theorem erase_split (here : f.blocks = pre ++ (front ++ p :: back) :: post) :
    f.inst? p.ref = some p.inst ∧ (f.erase p.ref).blocks = pre ++ (front ++ back) :: post := by
  constructor
  · exact inst?_eq_some.mpr (by simp [placed, here])
  · have dropped : (front ++ p :: back).filter (·.ref ≠ p.ref) = (front ++ back).filter (·.ref ≠ p.ref) := by simp
    calc
      (f.erase p.ref).blocks = f.blocks.map (·.filter (·.ref ≠ p.ref)) := rfl
      _ = (pre ++ (front ++ back) :: post).map (·.filter (·.ref ≠ p.ref)) := by
        rw [here, List.map_append, List.map_cons, List.map_append, List.map_cons, dropped]
      _ = pre ++ (front ++ back) :: post := filter_others (elsewhere_of_split here)

theorem erase_absent {r : InstRef} (absent : r ∉ f.refs) : f.inst? r = none ∧ (f.erase r).blocks = f.blocks := by
  refine ⟨inst?_eq_none.mpr absent, filter_others fun block member q inside same => ?_⟩
  exact absent (mem_refs_flatten.mpr ⟨block, member, q, inside, same⟩)

end Func

namespace Body

variable {σ κ : Type} {a : Arena σ κ}

def Request.map (g : κ → ι) : Request κ → Request ι
  | .addBlock => .addBlock
  | .append label i => .append label i
  | .insertBefore before i => .insertBefore (g before) i
  | .erase r => .erase (g r)

def Response.map (g : κ → ι) : Response κ → Response ι
  | .block label => .block label
  | .handle r => .handle (g r)
  | .inst i => .inst i
  | .nothing => .nothing
  | .fault f => .fault f

theorem Response.map_ofInst (g : κ → ι) (i : Option Inst) : (ofInst i).map g = ofInst i := by
  cases i <;> rfl

def Entry.map (g : κ → ι) (entry : Entry κ) : Entry ι := (entry.1.map g, entry.2.map g)

theorem replay_append (step : β → Request κ → Response κ × β) (start : β) (requests : List (Request κ))
    (request : Request κ) : replay step start (requests ++ [request]) =
      ((replay step start requests).1 ++ [(request, (step (replay step start requests).2 request).1)],
        (step (replay step start requests).2 request).2) := by
  rw [replay, List.foldl_append]
  rfl

variable [DecidableEq κ]

-- Handles are numbered in the order in which an arena gave them out.
def number (all : List κ) (r : κ) : InstRef := ⟨all.idxOf r⟩

theorem number_next {all seen : List κ} {r : κ} (distinct : all.Nodup) (next : seen ++ [r] <+: all) :
    number all r = ⟨seen.length⟩ := by
  obtain ⟨later, rfl⟩ := next
  have fresh : r ∉ seen := fun old =>
    (List.nodup_append.mp (List.nodup_append.mp distinct).1).2.2 r old r (List.mem_singleton_self r) rfl
  rw [number, List.append_assoc, List.idxOf_append_of_notMem fresh]
  simp

theorem number_inj {all : List κ} {r q : κ} (member : r ∈ all) (same : number all r = number all q) : r = q :=
  (List.idxOf_inj member).mp (InstRef.mk.inj same)

def shown (a : Arena σ κ) (all : List κ) (b : Body σ κ) (block : List κ) : List Placed :=
  block.filterMap fun r => (b.inst? a r).map (⟨number all r, ·⟩)

structure Mirrors (a : Arena σ κ) (all : List κ) (log : List (Entry κ)) (b : Body σ κ) (seen : List κ) (f : Func) :
    Prop where
  blocks : f.blocks = b.blocks.map (shown a all b)
  issued : f.issued = seen.length
  strays : f.strays = log.countP Entry.failedAppend

variable {all seen : List κ} {log : List (Entry κ)} {b b' : Body σ κ} {f : Func}

theorem shown_append (front back : List κ) : shown a all b (front ++ back) = shown a all b front ++ shown a all b back :=
  List.filterMap_append ..

theorem shown_cons {r : κ} {i : Inst} (found : b.inst? a r = some i) (back : List κ) :
    shown a all b (r :: back) = ⟨number all r, i⟩ :: shown a all b back :=
  List.filterMap_cons_some (by rw [found]; rfl)

theorem shown_congr {block : List κ} (same : ∀ q ∈ block, b'.inst? a q = b.inst? a q) :
    shown a all b' block = shown a all b block := by
  apply List.filterMap_congr
  intro q inside
  rw [same q inside]

theorem shown_all_congr {blocks : List (List κ)} (same : ∀ q ∈ blocks.flatten, b'.inst? a q = b.inst? a q) :
    blocks.map (shown a all b') = blocks.map (shown a all b) := by
  apply List.map_congr_left
  intro block member
  exact shown_congr fun q inside => same q (List.mem_flatten.mpr ⟨block, member, inside⟩)

namespace Mirrors

theorem unlisted (mirrors : Mirrors a all log b seen f) (kept : Kept a log b seen) (known : seen ⊆ all) {r : κ}
    (absent : r ∉ b.blocks.flatten) : number all r ∉ f.refs := by
  intro listed
  obtain ⟨block, member, p, inside, same⟩ := Func.mem_refs_flatten.mp listed
  rw [mirrors.blocks] at member
  obtain ⟨handles, here, rfl⟩ := List.mem_map.mp member
  obtain ⟨q, place, found⟩ := List.mem_filterMap.mp inside
  obtain ⟨i, -, rfl⟩ := Option.map_eq_some_iff.mp found
  have there : q ∈ b.blocks.flatten := List.mem_flatten.mpr ⟨handles, here, place⟩
  exact absent (number_inj (known (kept.listed_known there)) same ▸ there)

theorem gains (mirrors : Mirrors a all log b seen f) (lawful : a.Lawful) (kept : Kept a log b seen)
    {i : Inst} (numbered : number all (a.insert i b.arena).1 = ⟨f.issued⟩) {pre post : List (List κ)} {front back : List κ}
    (here : b.blocks = pre ++ (front ++ back) :: post) {g : Func} (blocks : g.blocks = pre.map (shown a all b) ++
      (shown a all b front ++ ⟨⟨f.issued⟩, i⟩ :: shown a all b back) :: post.map (shown a all b))
    (count : g.issued = f.issued + 1) (left : g.strays = f.strays) {entry : Entry κ} (fine : entry.failedAppend = false)
    (arena : b'.arena = (a.insert i b.arena).2)
    (listed : b'.blocks = pre ++ (front ++ (a.insert i b.arena).1 :: back) :: post) :
    Mirrors a all (log ++ [entry]) b' (seen ++ [(a.insert i b.arena).1]) g := by
  have same : ∀ q ∈ b.blocks.flatten, b'.inst? a q = b.inst? a q :=
    fun q member => kept.inst?_insert lawful arena (kept.listed_known member)
  have new : b'.inst? a (a.insert i b.arena).1 = some i := kept.inst?_inserted lawful arena
  rw [here] at same
  simp only [List.flatten_append, List.flatten_cons, List.mem_append] at same
  refine ⟨?_, ?_, ?_⟩
  · rw [blocks, listed, List.map_append, List.map_cons, shown_append, shown_cons new, numbered]
    congr 1
    · exact (shown_all_congr fun q member => same q (.inl member)).symm
    · congr 1
      · congr 1
        · exact (shown_congr fun q member => same q (.inr (.inl (.inl member)))).symm
        · exact congrArg _ (shown_congr fun q member => same q (.inr (.inl (.inr member)))).symm
      · exact (shown_all_congr fun q member => same q (.inr (.inr member))).symm
  · rw [count, mirrors.issued, List.length_append, List.length_singleton]
  · rw [left, mirrors.strays, List.countP_append, List.countP_singleton, fine]
    rfl

theorem strays_on (mirrors : Mirrors a all log b seen f) (lawful : a.Lawful) (kept : Kept a log b seen) {i : Inst}
    {g : Func} (blocks : g.blocks = f.blocks) (count : g.issued = f.issued + 1) (left : g.strays = f.strays + 1)
    {entry : Entry κ} (failed : entry.failedAppend = true) :
    Mirrors a all (log ++ [entry]) ⟨b.blocks, (a.insert i b.arena).2⟩ (seen ++ [(a.insert i b.arena).1]) g := by
  refine ⟨?_, ?_, ?_⟩
  · rw [blocks, mirrors.blocks]
    exact (shown_all_congr fun q listed => kept.inst?_insert lawful rfl (kept.listed_known listed)).symm
  · rw [count, mirrors.issued, List.length_append, List.length_singleton]
  · rw [left, mirrors.strays, List.countP_append, List.countP_singleton, failed]
    rfl

theorem settles (mirrors : Mirrors a all log b seen f) {g : Func} (blocks : g.blocks = b'.blocks.map (shown a all b'))
    (count : g.issued = f.issued) (left : g.strays = f.strays) {entry : Entry κ} (fine : entry.failedAppend = false) :
    Mirrors a all (log ++ [entry]) b' (seen ++ []) g := by
  refine ⟨blocks, ?_, ?_⟩
  · rw [List.append_nil, count, mirrors.issued]
  · rw [left, mirrors.strays, List.countP_append, List.countP_singleton, fine]
    rfl

theorem at_handle (mirrors : Mirrors a all log b seen f) {pre post : List (List κ)} {front back : List κ} {r : κ} {i : Inst}
    (found : b.inst? a r = some i) (here : b.blocks = pre ++ (front ++ r :: back) :: post) :
    f.blocks = pre.map (shown a all b) ++ (shown a all b front ++ ⟨number all r, i⟩ :: shown a all b back) ::
      post.map (shown a all b) := by
  rw [mirrors.blocks, here, List.map_append, List.map_cons, shown_append, shown_cons found]

theorem loses (mirrors : Mirrors a all log b seen f) (lawful : a.Lawful) (kept : Kept a log b seen)
    {pre post : List (List κ)} {front back : List κ} {r : κ} (here : b.blocks = pre ++ (front ++ r :: back) :: post)
    {entry : Entry κ} (fine : entry.failedAppend = false) :
    f.inst? (number all r) = b.inst? a r ∧ Mirrors a all (log ++ [entry])
      ⟨pre ++ (front ++ back) :: post, (a.remove r b.arena).2⟩ (seen ++ []) (f.erase (number all r)) := by
  obtain ⟨i, holds⟩ := (kept.listed r).mp (listed_here here)
  have found := kept.resolves r i holds
  obtain ⟨answer, blocks⟩ := Func.erase_split (mirrors.at_handle found here)
  have once := kept.once
  rw [here, (flatten_split_perm pre post front back r).nodup_iff, List.nodup_cons] at once
  refine ⟨answer.trans found.symm, mirrors.settles (g := f.erase (number all r)) ?_ rfl rfl fine⟩
  rw [blocks, ← shown_append, ← List.map_cons, ← List.map_append]
  apply Eq.symm
  apply shown_all_congr
  intro q listed
  rw [kept.inst?_remove lawful rfl q, if_neg]
  exact fun same => once.1 (same ▸ listed)

theorem moves (mirrors : Mirrors a all log b seen f) (lawful : a.Lawful) (kept : Kept a log b seen)
    (distinct : all.Nodup) {request : Request κ} {response : Response κ} {given : List κ}
    (moved : Moves a b request response given b') (known : seen ++ given <+: all) :
    (f.step (request.map (number all))).1 = response.map (number all) ∧
      Mirrors a all (log ++ [(request, response)]) b' (seen ++ given) (f.step (request.map (number all))).2 := by
  have old : seen ⊆ all := fun r member => known.subset (List.mem_append_left _ member)
  have next {r : κ} (known : seen ++ [r] <+: all) : number all r = ⟨f.issued⟩ :=
    mirrors.issued ▸ number_next distinct known
  have length : f.blocks.length = b.blocks.length := by rw [mirrors.blocks, List.length_map]
  cases moved with
  | addBlock =>
    refine ⟨?_, mirrors.settles (g := f.addBlock.2) ?_ rfl rfl rfl⟩
    · exact congrArg (fun place => Response.block (.nth place)) length
    · have blocks : f.addBlock.2.blocks = (b.blocks ++ [[]]).map (shown a all b) := by
        rw [List.map_append, ← mirrors.blocks]
        rfl
      exact blocks
  | @append pre block post label i here index =>
    have numbered := next known
    have pictured : f.blocks = pre.map (shown a all b) ++ shown a all b block :: post.map (shown a all b) := by
      rw [mirrors.blocks, here, List.map_append, List.map_cons]
    obtain ⟨answer, blocks, count, left⟩ := Func.append_inside i pictured ((List.length_map _).trans index)
    have last : b.blocks = pre ++ (block ++ []) :: post := by rw [List.append_nil, here]
    refine ⟨?_, mirrors.gains lawful kept numbered last blocks count left rfl rfl rfl⟩
    rw [Request.map, Func.step, Response.map, numbered, answer, Response.ofAttempt]
  | @stray label i outside =>
    obtain ⟨answer, blocks, count, left⟩ := Func.append_outside i (length ▸ outside)
    refine ⟨?_, mirrors.strays_on lawful kept blocks count left rfl⟩
    rw [Request.map, Func.step, answer]
    rfl
  | @insertBefore pre front before back post i here present =>
    have numbered := next known
    obtain ⟨j, holds⟩ := (kept.listed before).mp (listed_here here)
    have found := kept.resolves before j holds
    obtain ⟨g, answer, blocks, count, left⟩ := Func.insertBefore_split i (mirrors.at_handle found here)
    rw [← shown_cons found] at blocks
    simp only [Func.step, Request.map, answer]
    exact ⟨by rw [Response.map, numbered], mirrors.gains lawful kept numbered here blocks count left rfl rfl rfl⟩
  | @misplaced before i absent =>
    have unlisted := mirrors.unlisted kept old (kept.absent_of_unlisted lawful absent)
    simp only [Func.step, Request.map, Func.insertBefore_absent i unlisted]
    exact ⟨rfl, mirrors.settles mirrors.blocks rfl rfl rfl⟩
  | @erase pre front back post r here present =>
    have fine : Entry.failedAppend (.erase r, .ofInst (a.remove r b.arena).1) = false := rfl
    obtain ⟨answer, mirrors⟩ := mirrors.loses lawful kept here fine
    refine ⟨?_, mirrors⟩
    rw [Request.map, Func.step, answer, Response.map_ofInst, lawful.removed r kept.reached]
    rfl
  | @gone r absent =>
    have unlisted := mirrors.unlisted kept old (kept.absent_of_unlisted lawful absent)
    obtain ⟨answer, blocks⟩ := Func.erase_absent unlisted
    simp only [Func.step, Request.map, answer]
    exact ⟨rfl, mirrors.settles (blocks.trans mirrors.blocks) rfl rfl rfl⟩

end Mirrors

theorem replay_mirrors (lawful : a.Lawful) (requests : List (Request κ)) :
    ∃ seen, Kept a (replay (step a) (new a) requests).1 (replay (step a) (new a) requests).2 seen ∧
      ∀ (name : String) (all : List κ), all.Nodup → seen <+: all →
        (replay Func.step (.new name) (requests.map (Request.map (number all)))).1 =
          (replay (step a) (new a) requests).1.map (Entry.map (number all)) ∧
        Mirrors a all (replay (step a) (new a) requests).1 (replay (step a) (new a) requests).2 seen
          (replay Func.step (.new name) (requests.map (Request.map (number all)))).2 := by
  induction requests using List.reverseRecOn with
  | nil => exact ⟨[], .start lawful, fun name all _ _ => ⟨rfl, rfl, rfl, rfl⟩⟩
  | append_singleton requests request ih =>
    obtain ⟨seen, kept, mirrored⟩ := ih
    rw [replay_append]
    generalize replay (step a) (new a) requests = past at kept mirrored ⊢
    obtain ⟨given, moved⟩ := step_moves (a := a) (b := past.2) request
    refine ⟨seen ++ given, kept.moves lawful moved, fun name all distinct known => ?_⟩
    obtain ⟨same, mirrors⟩ := mirrored name all distinct ((List.prefix_append ..).trans known)
    obtain ⟨answer, mirrors⟩ := mirrors.moves lawful kept distinct moved known
    rw [List.map_append, List.map_singleton, replay_append]
    refine ⟨?_, mirrors⟩
    rw [same, answer, List.map_append]
    rfl

structure Stands (a : Arena σ κ) (b : Body σ κ) (r : κ) (i : Inst) : Prop where
  resolves : b.inst? a r = some i
  place : ∃ place : Nat × Nat, b.locate a r = some place ∧ b.blockOf? a r = some (.nth place.1) ∧
    ∀ other : Nat × Nat, b.blocks[other.1]?.bind (·[other.2]?) = some r ↔ other = place

-- The request before a handle, and at it, changes one place of one block.
structure Yields (a : Arena σ κ) (log : List (Entry κ)) (b : Body σ κ) (r : κ) (i : Inst) : Prop where
  insertBefore : ∀ j, ∃ new pre front back post arena, new ∉ (handed log).map (·.1) ∧
    b.blocks = pre ++ (front ++ r :: back) :: post ∧
    b.step a (.insertBefore r j) = (.handle new, ⟨pre ++ (front ++ new :: r :: back) :: post, arena⟩)
  erase : ∃ pre front back post arena, b.blocks = pre ++ (front ++ r :: back) :: post ∧
    b.step a (.erase r) = (.inst i, ⟨pre ++ (front ++ back) :: post, arena⟩)

structure Void (a : Arena σ κ) (b : Body σ κ) (r : κ) : Prop where
  unresolved : b.inst? a r = none
  unlisted : ∀ block ∈ b.blocks, r ∉ block
  blockOf? : b.blockOf? a r = none
  insertBefore : ∀ i, b.step a (.insertBefore r i) = (.nothing, b)
  erase : b.step a (.erase r) = (.nothing, b)

namespace Kept

theorem stands (kept : Kept a log b seen) (lawful : a.Lawful) {r : κ} {i : Inst} (holds : Holds log r i) :
    Stands a b r i := by
  obtain ⟨place, found, only⟩ := kept.place lawful holds
  exact ⟨kept.resolves r i holds, place, found, by rw [Body.blockOf?, found]; rfl, only⟩

theorem yields (kept : Kept a log b seen) (lawful : a.Lawful) {r : κ} {i : Inst} (holds : Holds log r i) :
    Yields a log b r i := by
  have listed := (kept.listed r).mpr ⟨i, holds⟩
  have present := kept.present lawful holds
  constructor
  · intro j
    obtain ⟨given, moved⟩ := step_moves (a := a) (b := b) (.insertBefore r j)
    generalize after : b.step a (.insertBefore r j) = next at moved ⊢
    obtain ⟨response, b'⟩ := next
    cases moved with
    | @insertBefore pre front _ back post _ here =>
      refine ⟨_, pre, front, back, post, _, fun old => ?_, here, rfl⟩
      obtain ⟨⟨q, k⟩, member, same⟩ := List.mem_map.mp old
      exact lawful.fresh j kept.reached (same ▸ kept.known q k member)
    | misplaced _ absent => exact absurd listed (absent present)
  · obtain ⟨given, moved⟩ := step_moves (a := a) (b := b) (.erase r)
    generalize after : b.step a (.erase r) = next at moved ⊢
    obtain ⟨response, b'⟩ := next
    cases moved with
    | @erase pre front back post _ here =>
      have found : a.get? b.arena r = some i := kept.resolves r i holds
      rw [lawful.removed r kept.reached, found]
      exact ⟨pre, front, back, post, _, here, rfl⟩
    | gone absent => exact absurd listed (absent present)

theorem void (kept : Kept a log b seen) {r : κ} (gone : r ∈ erased log) : Void a b r := by
  have unresolved := kept.gone r gone
  have unlisted : r ∉ b.blocks.flatten := by
    intro listed
    obtain ⟨i, holds⟩ := (kept.listed r).mp listed
    exact holds.2 gone
  have nowhere : b.locate a r = none := locate_eq_none.mpr fun _ => unlisted
  refine ⟨unresolved, fun block member inside => ?_, ?_, fun i => ?_, ?_⟩
  · exact unlisted (List.mem_flatten.mpr ⟨block, member, inside⟩)
  · rw [Body.blockOf?, nowhere]
    rfl
  · simp only [step, Body.insertBefore, nowhere]
    rfl
  · simp only [step, Body.erase, nowhere]
    rfl

end Kept

structure Pictures (a : Arena σ κ) (log : List (Entry κ)) (b : Body σ κ) (number : κ → InstRef) (f : Func) : Prop where
  blocks : f.blocks.map (·.map (·.ref)) = b.blocks.map (·.map number)
  insts : ∀ r i, (r, i) ∈ handed log → f.inst? (number r) = b.inst? a r
  size : f.size = b.size a

theorem refs_shown {block : List κ} (resolve : ∀ q ∈ block, ∃ i, b.inst? a q = some i) :
    (shown a all b block).map (·.ref) = block.map (number all) := by
  induction block with
  | nil => rfl
  | cons q block ih =>
    obtain ⟨⟨i, found⟩, resolve⟩ := List.forall_mem_cons.mp resolve
    rw [shown_cons found, List.map_cons, ih resolve, List.map_cons]

theorem Mirrors.pictures (mirrors : Mirrors a all log b seen f) (kept : Kept a log b seen)
    (known : seen ⊆ all) : Pictures a log b (number all) f := by
  have refs : f.blocks.map (·.map (·.ref)) = b.blocks.map (·.map (number all)) := by
    rw [mirrors.blocks, List.map_map]
    apply List.map_congr_left
    intro block member
    apply refs_shown
    intro q inside
    obtain ⟨i, holds⟩ := (kept.listed q).mp (List.mem_flatten.mpr ⟨block, member, inside⟩)
    exact ⟨i, kept.resolves q i holds⟩
  refine ⟨refs, fun r i given => ?_, ?_⟩
  · by_cases gone : r ∈ erased log
    · have unlisted : r ∉ b.blocks.flatten := by
        intro listed
        obtain ⟨j, holds⟩ := (kept.listed r).mp listed
        exact holds.2 gone
      rw [kept.gone r gone]
      exact Func.inst?_eq_none.mpr (mirrors.unlisted kept known unlisted)
    · have holds : Holds log r i := ⟨given, gone⟩
      obtain ⟨block, member, inside⟩ := List.mem_flatten.mp ((kept.listed r).mpr ⟨i, holds⟩)
      rw [kept.resolves r i holds]
      apply Func.inst?_eq_some.mpr
      refine List.mem_flatten.mpr ⟨shown a all b block, ?_, ?_⟩
      · rw [mirrors.blocks]
        exact List.mem_map_of_mem member
      · refine List.mem_filterMap.mpr ⟨r, inside, ?_⟩
        rw [kept.resolves r i holds]
        rfl
  · have length : f.placed.length = b.blocks.flatten.length := by
      have lengths := congrArg (fun blocks => blocks.flatten.length) refs
      rwa [← List.map_flatten, ← List.map_flatten, List.length_map, List.length_map] at lengths
    rw [Func.size, length, mirrors.strays, kept.counted]

theorem append_fails (label : Label) (i : Inst) :
    (∃ fault, (b.step a (.append label i)).1 = .fault fault) ↔ b.blocks.length ≤ label.index := by
  simp only [step, append]
  split
  · rename_i inside
    simp [Response.ofAttempt, inside]
  · rename_i outside
    simp [Response.ofAttempt, Nat.not_lt.mp outside]

theorem replay_keeps (lawful : a.Lawful) (requests : List (Request κ)) :
    ∃ log b, replay (step a) (new a) requests = (log, b) ∧
      (∀ r i, Holds log r i → Stands a b r i ∧ Yields a log b r i) ∧ (∀ r ∈ erased log, Void a b r) ∧
      b.size a = (b.blocks.map List.length).sum + log.countP Entry.failedAppend ∧
      (∀ label i, (∃ fault, (b.step a (.append label i)).1 = .fault fault) ↔ b.blocks.length ≤ label.index) ∧
      ∃ number : κ → InstRef, (∀ r ∈ (handed log).map (·.1), ∀ q, number r = number q → r = q) ∧
        ∀ name, ∃ f, replay Func.step (.new name) (requests.map (Request.map number)) = (log.map (Entry.map number), f) ∧
          Pictures a log b number f := by
  obtain ⟨seen, kept, mirrored⟩ := replay_mirrors lawful requests
  generalize replay (step a) (new a) requests = past at kept mirrored
  obtain ⟨log, b⟩ := past
  refine ⟨log, b, rfl, fun r i holds => ⟨kept.stands lawful holds, kept.yields lawful holds⟩, fun r gone => kept.void gone, ?_,
    append_fails, number seen, ?_, fun name => ?_⟩
  · rw [kept.counted, List.length_flatten]
  · intro r given q same
    obtain ⟨⟨_, i⟩, member, rfl⟩ := List.mem_map.mp given
    exact number_inj (kept.known _ i member) same
  · obtain ⟨same, mirrors⟩ := mirrored name seen (lawful.nodup kept.reached) (List.prefix_refl seen)
    exact ⟨_, Prod.ext same rfl, mirrors.pictures kept (List.Subset.refl seen)⟩

-- The first slot is left and taken again, and one append goes to a block that is not there.
def relet : List (Request Slot) :=
  [.addBlock, .append ⟨0⟩ ⟨.ret, none, []⟩, .insertBefore ⟨0, 0⟩ ⟨.undef, some (⟨1⟩, ⟨0⟩), []⟩, .erase ⟨0, 0⟩,
    .insertBefore ⟨0, 0⟩ ⟨.ret, none, []⟩, .append ⟨0⟩ ⟨.ret, none, []⟩, .append ⟨1⟩ ⟨.ret, none, []⟩]

theorem replay_keeps_relet : Slots.arena.Lawful ∧
    ∃ log b, replay (step Slots.arena) (new Slots.arena) relet = (log, b) ∧
      log.map (·.2) = [.block ⟨0⟩, .handle ⟨0, 0⟩, .handle ⟨1, 0⟩, .inst ⟨.ret, none, []⟩, .nothing, .handle ⟨0, 1⟩,
        .fault .unknownIndex] ∧
      Stands Slots.arena b ⟨0, 1⟩ ⟨.ret, none, []⟩ ∧ Yields Slots.arena log b ⟨0, 1⟩ ⟨.ret, none, []⟩ ∧
      Void Slots.arena b ⟨0, 0⟩ ∧ b.size Slots.arena = (b.blocks.map List.length).sum + 1 := by
  obtain ⟨log, b, ran, live, gone, size, -⟩ := replay_keeps Slots.arena_lawful relet
  have logged : (replay (step Slots.arena) (new Slots.arena) relet).1 = log := congrArg Prod.fst ran
  have holds : Holds log ⟨0, 1⟩ ⟨.ret, none, []⟩ := by
    rw [← logged]
    exact ⟨by decide +kernel, by decide +kernel⟩
  obtain ⟨stands, yields⟩ := live _ _ holds
  refine ⟨Slots.arena_lawful, log, b, ran, ?_, stands, yields, gone _ ?_, ?_⟩
  · rw [← logged]
    decide +kernel
  · rw [← logged]
    decide +kernel
  · rw [size, ← logged]
    rfl

end Body

end DeadLanes
