import DeadLanes.Proofs.LaneOrder
import DeadLanes.Proofs.Resolution
import DeadLanes.Lane.Rule

namespace DeadLanes

namespace LaneSet

theorem contains_of_fits {s : LaneSet} {count lane : Nat} (fits : Fits (some count) s) (part : s ≠ all)
    (here : s.contains lane = true) : lane < count := by
  cases s with
  | all => exact absurd rfl part
  | lanes mask => exact fits count mask rfl rfl lane here

theorem contains_without (s : LaneSet) (lane count other : Nat) :
    (s.without lane count).contains other = true ↔
      other ≠ lane ∧ s.contains other = true ∧ (s = all → other < count ∧ other < 64) := by
  have cleared : ∀ mask : BitVec 64, lane < trackedLanes →
      ((mask &&& ~~~(BitVec.twoPow 64 lane)).getLsbD other = true ↔ other ≠ lane ∧ mask.getLsbD other = true) := by
    intro mask low
    rw [BitVec.getLsbD_and, BitVec.getLsbD_not, BitVec.getLsbD_twoPow]
    cases member : mask.getLsbD other with
    | false => simp
    | true =>
      have word : other < 64 := BitVec.lt_of_getLsbD member
      simp only [word, decide_true, Bool.true_and, Bool.not_and, Bool.or_eq_true, Bool.not_eq_true',
        decide_eq_false_iff_not, and_true]
      exact ⟨fun h => h.elim (fun far => absurd low far) Ne.symm, fun h => .inr h.symm⟩
  have untouched : ∀ mask : BitVec 64, ¬ lane < trackedLanes →
      (mask.getLsbD other = true ↔ other ≠ lane ∧ mask.getLsbD other = true) := by
    intro mask high
    refine ⟨fun member => ⟨fun same => ?_, member⟩, And.right⟩
    exact high (same ▸ BitVec.lt_of_getLsbD member)
  cases s with
  | all =>
    have full : (below count).getLsbD other = true ↔ all.contains other = true ∧
        (all = all → other < count ∧ other < 64) := by
      rw [getLsbD_below, Bool.and_eq_true, decide_eq_true_eq, decide_eq_true_eq]
      exact ⟨fun low => ⟨rfl, fun _ => low⟩, fun both => both.2 rfl⟩
    unfold without
    dsimp only
    split
    · rename_i low
      exact (cleared (below count) low).trans (and_congr_right fun _ => full)
    · rename_i high
      exact (untouched (below count) high).trans (and_congr_right fun _ => full)
  | lanes mask =>
    have plain : mask.getLsbD other = true ↔ (lanes mask).contains other = true ∧
        (lanes mask = all → other < count ∧ other < 64) := ⟨fun member => ⟨member, nofun⟩, And.left⟩
    unfold without
    dsimp only
    split
    · rename_i low
      exact (cleared mask low).trans (and_congr_right fun _ => plain)
    · rename_i high
      exact (untouched mask high).trans (and_congr_right fun _ => plain)

theorem without_mono {s t : LaneSet} (h : s ≤ t) {count : Nat} (fits : Fits (some count) s) (lane : Nat) :
    s.without lane count ≤ t.without lane count := by
  rw [le_iff_contains]
  intro other here
  obtain ⟨differs, member, low⟩ := (contains_without s lane count other).mp here
  refine (contains_without t lane count other).mpr ⟨differs, contains_of_le h member, fun full => ?_⟩
  cases s with
  | all => exact low rfl
  | lanes a => exact ⟨fits count a rfl rfl other member, BitVec.lt_of_getLsbD member⟩

theorem le_without {s t : LaneSet} (h : s ≤ t) {count lane : Nat} (fits : Fits (some count) s)
    (missing : s.contains lane = false) : s ≤ t.without lane count := by
  have part : s ≠ all := by
    rintro rfl
    cases missing
  rw [le_iff_contains]
  intro other member
  have differs : other ≠ lane := by
    rintro rfl
    rw [missing] at member
    cases member
  refine (contains_without t lane count other).mpr ⟨differs, contains_of_le h member, fun _ => ?_⟩
  refine ⟨contains_of_fits fits part member, ?_⟩
  cases s with
  | all => exact absurd rfl part
  | lanes a => exact BitVec.lt_of_getLsbD member

theorem contains_slice (s : LaneSet) (offset : Nat) {width lane : Nat} (low : lane < width) :
    (s.slice offset width).contains lane = s.contains (offset + lane) := by
  cases s with
  | all => rfl
  | lanes mask =>
    by_cases word : lane < 64
    · simp [slice, contains, low, word]
    · have beyond : mask.getLsbD (offset + lane) = false := BitVec.getLsbD_of_ge mask _ (by omega)
      simp [slice, contains, beyond]

theorem slice_mono {s t : LaneSet} (h : s ≤ t) (offset width : Nat) :
    s.slice offset width ≤ t.slice offset width := by
  cases t with
  | all => exact le_all _
  | lanes b =>
    cases s with
    | all => exact absurd h (not_all_le b)
    | lanes a =>
      intro i here
      rw [BitVec.getLsbD_and, BitVec.getLsbD_ushiftRight, Bool.and_eq_true] at here ⊢
      exact ⟨h _ here.1, here.2⟩

theorem contains_cut {s : LaneSet} {lane : Nat} (here : s.contains lane = true) : s.contains (cut lane) = true := by
  cases s with
  | all => rfl
  | lanes mask =>
    have low : lane < 64 := BitVec.lt_of_getLsbD here
    rwa [cut_of_lt (low.trans (by decide))]

end LaneSet

namespace LaneRule

-- How a rule comes to be chosen. The last case is left when none of the others
-- applies.
inductive Chosen (view : LaneView) (i : Inst) : LaneRule → Prop where
  | insert : i.asInsert? = some (obj, base, lane) → i.result?.bind view.tracked = some lanes →
      Chosen view i (.insert obj base lane lanes)
  | extract : i.asExtract? = some (src, lane) → (view.tracked src).isSome = true →
      Chosen view i (.extract src lane)
  | construct : i.opcode = .construct → i.result?.bind view.tracked = some lanes →
      Chosen view i (.construct (i.values.map fun v => (v, (view.width v).getD 1)))
  | shuffle : i.asShuffle? = some (a, b, sels) → i.result?.bind view.tracked = some lanes →
      view.width a = some lanesA → Chosen view i (.shuffle a b lanesA sels)
  | phi : i.opcode = .phi → i.result?.bind view.tracked = some lanes →
      Chosen view i (.phi (i.incoming.map (·.1)))
  | terminal : i.opcode = .undef ∨ i.opcode = .const ∨ i.opcode = .constComposite → Chosen view i .terminal
  | fallback : lanewise? view i = none → Chosen view i (.fallback i.values)

theorem lanewise_chosen {view : LaneView} {i : Inst} {rule : LaneRule}
    (exact' : lanewise? view i = some rule) : Chosen view i rule := by
  unfold lanewise? at exact'
  split at exact'
  case h_1 op => cases exact'; exact .terminal (.inl op)
  case h_2 op => cases exact'; exact .terminal (.inr (.inl op))
  case h_3 op => cases exact'; exact .terminal (.inr (.inr op))
  case h_4 tracked =>
    obtain ⟨⟨obj, base, lane⟩, view, rfl⟩ := Option.map_eq_some_iff.mp exact'
    exact .insert view tracked
  case h_5 =>
    obtain ⟨⟨src, lane⟩, filtered, rfl⟩ := Option.map_eq_some_iff.mp exact'
    obtain ⟨view, tracked⟩ := Option.filter_eq_some_iff.mp filtered
    exact .extract view tracked
  case h_6 op tracked => cases exact'; exact .construct op tracked
  case h_7 tracked =>
    obtain ⟨⟨a, b, sels⟩, view, chosen⟩ := Option.bind_eq_some_iff.mp exact'
    obtain ⟨lanesA, counted, rfl⟩ := Option.map_eq_some_iff.mp chosen
    exact .shuffle view tracked counted
  case h_8 op tracked => cases exact'; exact .phi op tracked
  case h_9 => cases exact'

theorem of_insert {view : LaneView} {i : Inst} {v obj base : Value} {lane lanes : Nat} (result : i.result? = some v)
    (parsed : i.asInsert? = some (obj, base, lane)) (tracked : view.tracked v = some lanes) :
    of view i = .insert obj base lane lanes := by
  simp only [of, lanewise?, (Inst.asInsert?_eq_some.mp parsed).1, result, Option.bind_some, tracked, parsed,
    Option.map_some, Option.getD_some]

theorem of_chosen (view : LaneView) (i : Inst) : Chosen view i (of view i) := by
  unfold of
  cases exact' : lanewise? view i with
  | none => exact .fallback exact'
  | some rule => exact lanewise_chosen exact'

theorem of_phi {view : LaneView} {i : Inst} (phi : i.opcode = .phi) :
    of view i = match i.result?.bind view.tracked with
      | some _ => .phi (i.incoming.map (·.1))
      | none => .fallback i.values := by
  unfold of lanewise?
  rw [phi]
  cases i.result?.bind view.tracked with
  | none => rfl
  | some lanes => rfl

theorem mem_partDemands {live : LaneSet} {start : Nat} {parts : List (Value × Nat)} {d : Value × LaneSet} :
    d ∈ partDemands live start parts ↔ ∃ before part width after,
      parts = before ++ (part, width) :: after ∧ d = (part, live.slice (start + (before.map (·.2)).sum) width) := by
  induction parts generalizing start with
  | nil => simp [partDemands]
  | cons p rest ih =>
    obtain ⟨part, width⟩ := p
    rw [partDemands, List.mem_cons, ih]
    constructor
    · rintro (rfl | ⟨before, part', width', after, rfl, rfl⟩)
      · exact ⟨[], part, width, rest, rfl, rfl⟩
      · refine ⟨(part, width) :: before, part', width', after, rfl, ?_⟩
        rw [List.map_cons, List.sum_cons, Nat.add_assoc]
    · intro given
      obtain ⟨before, part', width', after, same, rfl⟩ := given
      cases before with
      | nil =>
        cases same
        exact .inl rfl
      | cons p before =>
        obtain ⟨rfl, later⟩ := List.cons.inj same
        refine .inr ⟨before, part', width', after, later, ?_⟩
        rw [List.map_cons, List.sum_cons, Nat.add_assoc]

theorem demands_operand {view : LaneView} {i : Inst} {live : LaneSet} {d : Value × LaneSet}
    (asked : d ∈ (of view i).demands live) : d.1 ∈ i.values := by
  have chosen := of_chosen view i
  generalize of view i = rule at asked chosen
  unfold demands at asked
  split at asked
  · cases asked
  · cases chosen with
    | insert parsed tracked =>
      rw [Inst.asInsert?_values parsed]
      dsimp only at asked
      split at asked <;> simp only [List.mem_cons, List.not_mem_nil, or_false] at asked
      · rcases asked with rfl | rfl <;> simp
      · simp [asked]
    | extract parsed tracked =>
      rw [List.mem_singleton] at asked
      rw [asked]
      simp [Inst.asExtract?_values parsed]
    | construct op tracked =>
      obtain ⟨before, part, width, after, split, rfl⟩ := mem_partDemands.mp asked
      have member : (part, width) ∈ i.values.map fun v => (v, (view.width v).getD 1) := by simp [split]
      obtain ⟨v, named, same⟩ := List.mem_map.mp member
      cases same
      exact named
    | shuffle parsed tracked counted =>
      simp only [List.mem_cons, List.not_mem_nil, or_false] at asked
      rcases asked with rfl | rfl <;> simp [Inst.asShuffle?_values parsed]
    | phi op tracked =>
      obtain ⟨v, member, rfl⟩ := List.mem_map.mp asked
      obtain ⟨⟨w, b⟩, pair, rfl⟩ := List.mem_map.mp member
      exact Inst.mem_incoming pair
    | terminal op => cases asked
    | fallback none =>
      obtain ⟨v, named, rfl⟩ := List.mem_map.mp asked
      exact named

theorem picked_le {live u : LaneSet} {pick : Nat → Option Nat} {sels : List Nat} :
    picked live pick sels ≤ u ↔ ∀ c sel, sels[c]? = some sel → sel ≠ anyLane → live.contains (cut c) = true →
      ∀ lane, pick sel = some lane → LaneSet.single lane ≤ u := by
  have folded : ∀ (xs : List (Nat × Nat)) (start : LaneSet),
      xs.foldl (pickMore live pick) start ≤ u ↔
        start ≤ u ∧ ∀ x ∈ xs, x.1 ≠ anyLane → live.contains (cut x.2) = true →
          ∀ lane, pick x.1 = some lane → LaneSet.single lane ≤ u := by
    intro xs
    induction xs with
    | nil => simp
    | cons x rest ih =>
      intro start
      obtain ⟨sel, c⟩ := x
      rw [List.foldl_cons, ih, List.forall_mem_cons, ← and_assoc]
      apply and_congr_left
      intro _
      unfold pickMore
      dsimp only
      by_cases skipped : sel = anyLane ∨ live.contains (cut c) = false
      · rw [if_pos skipped]
        refine ⟨fun below => ⟨below, fun picks reads => ?_⟩, And.left⟩
        rcases skipped with any | unread
        · exact absurd any picks
        · exact absurd reads (by simp [unread])
      · rw [if_neg skipped]
        obtain ⟨picks, reads⟩ := not_or.mp skipped
        rw [Bool.not_eq_false] at reads
        cases chosen : pick sel with
        | none => exact ⟨fun below => ⟨below, fun _ _ lane same => by cases same⟩, And.left⟩
        | some lane =>
          refine (sup_le_iff (a := start) (b := .single lane)).trans (and_congr_right fun _ => ?_)
          constructor
          · intro one _ _ other same
            cases same
            exact one
          · exact fun every => every picks reads lane rfl
  refine (folded sels.zipIdx .empty).trans ?_
  refine ⟨fun h c sel here => h.2 (sel, c) (List.mk_mem_zipIdx_iff_getElem?.mpr here), fun h => ?_⟩
  refine ⟨LaneSet.empty_le u, fun x member => ?_⟩
  exact h x.2 x.1 (List.mk_mem_zipIdx_iff_getElem?.mp member)

theorem contains_picked {live : LaneSet} {pick : Nat → Option Nat} {sels : List Nat} {c sel lane : Nat}
    (here : sels[c]? = some sel) (picks : sel ≠ anyLane) (reads : live.contains (cut c) = true) (chosen : pick sel = some lane) :
    (picked live pick sels).contains lane = true :=
  LaneSet.contains_of_le (picked_le.mp (le_refl _) c sel here picks reads lane chosen)
    (LaneSet.contains_single_self lane)

theorem contains_picked_iff {live : LaneSet} {pick : Nat → Option Nat} {sels : List Nat} {lane : Nat}
    (small : ∀ sel ∈ sels, sel ≠ anyLane → ∀ picks, pick sel = some picks → picks < trackedLanes) :
    (picked live pick sels).contains lane = true ↔
      ∃ c sel, sels[c]? = some sel ∧ sel ≠ anyLane ∧ live.contains (cut c) = true ∧ pick sel = some lane := by
  constructor
  · intro member
    refine Classical.byContradiction fun unpicked => ?_
    -- All that is picked would be below the set of all other lanes.
    have below : picked live pick sels ≤ LaneSet.all.without lane trackedLanes := by
      refine picked_le.mpr fun c sel here picks reads other chosen => ?_
      have word := small sel (List.mem_of_getElem? here) picks other chosen
      rw [LaneSet.single, if_pos word]
      refine LaneSet.le_iff_contains.mpr fun k one => ?_
      obtain ⟨-, rfl⟩ : other < 64 ∧ other = k := by simpa [LaneSet.contains] using one
      refine (LaneSet.contains_without .all lane trackedLanes other).mpr ⟨?_, rfl, fun _ => ⟨word, word⟩⟩
      rintro rfl
      exact unpicked ⟨c, sel, here, picks, reads, chosen⟩
    exact ((LaneSet.contains_without .all lane trackedLanes lane).mp (LaneSet.contains_of_le below member)).1 rfl
  · rintro ⟨c, sel, here, picks, reads, chosen⟩
    exact contains_picked here picks reads chosen

theorem picked_mono {s t : LaneSet} (h : s ≤ t) (pick : Nat → Option Nat) (sels : List Nat) :
    picked s pick sels ≤ picked t pick sels := by
  apply picked_le.mpr
  intro c sel here picks reads lane chosen
  exact picked_le.mp (le_refl _) c sel here picks (LaneSet.contains_of_le h reads) lane chosen

theorem demands_mono {rule : LaneRule} {s t : LaneSet} (h : s ≤ t)
    (fits : ∀ obj base lane lanes, rule = .insert obj base lane lanes → LaneSet.Fits (some lanes) s)
    {d : Value × LaneSet} (asked : d ∈ rule.demands s) : ∃ e ∈ rule.demands t, e.1 = d.1 ∧ d.2 ≤ e.2 := by
  have some' : s.isEmpty = false := by
    cases nothing : s.isEmpty with
    | false => rfl
    | true => simp [demands, nothing] at asked
  have more : t.isEmpty = false := by
    cases nothing : t.isEmpty with
    | false => rfl
    | true =>
      rw [LaneSet.isEmpty_iff] at nothing
      rw [nothing, LaneSet.le_empty, ← LaneSet.isEmpty_iff, some'] at h
      cases h
  simp only [demands, some', more, Bool.false_eq_true, if_false] at asked ⊢
  cases rule with
  | insert obj base lane lanes =>
    have inside := fits obj base lane lanes rfl
    dsimp only at asked ⊢
    cases write : s.contains lane with
    | true =>
      rw [if_pos (LaneSet.contains_of_le h write)]
      rw [if_pos write, List.mem_cons, List.mem_singleton] at asked
      rcases asked with rfl | rfl
      · exact ⟨_, List.mem_cons_self, rfl, le_refl _⟩
      · exact ⟨_, List.mem_cons_of_mem _ List.mem_cons_self, rfl, LaneSet.without_mono h inside lane⟩
    | false =>
      rw [write, if_neg Bool.false_ne_true, List.mem_singleton] at asked
      subst asked
      split
      · exact ⟨_, List.mem_cons_of_mem _ List.mem_cons_self, rfl, LaneSet.le_without h inside write⟩
      · exact ⟨_, List.mem_cons_self, rfl, h⟩
  | extract src lane =>
    rw [List.mem_singleton] at asked
    subst asked
    exact ⟨_, List.mem_cons_self, rfl, le_refl _⟩
  | construct parts =>
    obtain ⟨before, part, width, after, split, rfl⟩ := mem_partDemands.mp asked
    exact ⟨_, mem_partDemands.mpr ⟨before, part, width, after, split, rfl⟩, rfl, LaneSet.slice_mono h _ _⟩
  | shuffle a b lanesA sels =>
    rw [List.mem_cons, List.mem_singleton] at asked
    rcases asked with rfl | rfl
    · refine ⟨_, List.mem_cons_self, rfl, ?_⟩
      dsimp only
      exact picked_mono h _ sels
    · refine ⟨_, List.mem_cons_of_mem _ List.mem_cons_self, rfl, ?_⟩
      dsimp only
      exact picked_mono h _ sels
  | phi incoming =>
    obtain ⟨v, member, rfl⟩ := List.mem_map.mp asked
    exact ⟨_, List.mem_map.mpr ⟨v, member, rfl⟩, rfl, h⟩
  | terminal => cases asked
  | fallback operands =>
    obtain ⟨v, member, rfl⟩ := List.mem_map.mp asked
    exact ⟨_, List.mem_map.mpr ⟨v, member, rfl⟩, rfl, le_refl _⟩

end LaneRule

end DeadLanes
