import DeadLanes.Ty.Interner
import DeadLanes.Proofs.Growth
import DeadLanes.Proofs.Wording

namespace DeadLanes

-- Names of types tell the types apart. They nest by reference, and no
-- reference leads to a type that was entered later.

theorem internAll_append (intern : τ → Ty → TypeRef × τ) (start : τ) (tys : List Ty) (ty : Ty) :
    internAll intern start (tys ++ [ty]) =
      ((internAll intern start tys).1 ++ [(intern (internAll intern start tys).2 ty).1],
        (intern (internAll intern start tys).2 ty).2) := by
  rw [internAll, List.foldl_append]
  rfl

namespace TypeTable

variable {t : TypeTable} {r : TypeRef} {ty : Ty}

theorem fill_append (tys : List Ty) (ty : Ty) : fill (tys ++ [ty]) =
    ((fill tys).1 ++ [((fill tys).2.intern ty).1], ((fill tys).2.intern ty).2) := internAll_append ..

-- Types are mentioned only once they are in the table.
def InOrder (tys : List Ty) : Prop :=
  ∀ n, (inside : n < tys.length) → ∀ q ∈ tys[n].refs, (fill (tys.take n)).2.contains q = true

instance (tys : List Ty) : Decidable (InOrder tys) := inferInstanceAs
  (Decidable (∀ n, (inside : n < tys.length) → ∀ q ∈ tys[n].refs, (fill (tys.take n)).2.contains q = true))

theorem InOrder.front {tys more : List Ty} (order : InOrder (tys ++ more)) : InOrder tys := by
  intro n inside q mentioned
  have known := order n (by simp only [List.length_append]; omega) q
  rw [List.getElem_append_left inside, List.take_append_of_le_length (Nat.le_of_lt inside)] at known
  exact known mentioned

theorem InOrder.last {tys : List Ty} {ty : Ty} (order : InOrder (tys ++ [ty])) :
    ∀ q ∈ ty.refs, (fill tys).2.contains q = true := by
  intro q mentioned
  have known := order tys.length (by simp) q
  rw [List.getElem_append_right (Nat.le_refl _), List.take_left] at known
  exact known (by simpa using mentioned)

def Layered (t : TypeTable) : Prop := ∀ r ty, t.get? r = some ty → ∀ q ∈ ty.refs, q.index < r.index

theorem Layered.intern (layered : t.Layered) (known : ∀ q ∈ ty.refs, t.contains q = true) : (t.intern ty).2.Layered := by
  intro r found here q mentioned
  by_cases present : ty ∈ t.entries
  · rw [TypeTable.intern, dif_pos present] at here
    exact layered r found here q mentioned
  · rcases get?_intern_iff.mp here with before | ⟨rfl, rfl⟩
    · exact layered r found before q mentioned
    · rw [TypeTable.intern, dif_neg present]
      exact of_decide_eq_true (known q mentioned)

theorem fill_layered {tys : List Ty} (order : InOrder tys) : (fill tys).2.Layered := by
  induction tys using List.reverseRecOn with
  | nil => exact fun r ty here => nomatch here
  | append_singleton tys ty ih =>
    rw [fill_append]
    exact (ih order.front).intern order.last

theorem entries_intern (t : TypeTable) (ty : Ty) : ∃ more, (t.intern ty).2.entries = t.entries ++ more := by
  unfold intern
  split
  · exact ⟨[], (List.append_nil _).symm⟩
  · exact ⟨[ty], rfl⟩

theorem mem_entries_intern (t : TypeTable) (ty : Ty) : ty ∈ (t.intern ty).2.entries := by
  unfold intern
  split
  · assumption
  · exact List.mem_append_right _ (List.mem_singleton_self ty)

theorem intern_ref (t : TypeTable) (ty : Ty) : (t.intern ty).1 = ⟨(t.intern ty).2.entries.idxOf ty⟩ := by
  unfold intern
  split
  · rfl
  · rename_i absent
    dsimp only
    rw [List.idxOf_append_of_notMem absent]
    simp

theorem fill_refs (tys : List Ty) : (∀ ty ∈ tys, ty ∈ (fill tys).2.entries) ∧
    (fill tys).1 = tys.map fun ty => ⟨(fill tys).2.entries.idxOf ty⟩ := by
  induction tys using List.reverseRecOn with
  | nil => exact ⟨fun ty member => absurd member List.not_mem_nil, rfl⟩
  | append_singleton tys ty ih =>
    obtain ⟨entered, refs⟩ := ih
    obtain ⟨more, entries⟩ := (fill tys).2.entries_intern ty
    rw [fill_append]
    constructor
    · intro other member
      rcases List.mem_append.mp member with before | last
      · dsimp only
        rw [entries]
        exact List.mem_append_left _ (entered other before)
      · cases List.mem_singleton.mp last
        exact mem_entries_intern _ ty
    · rw [List.map_append, refs, List.map_singleton]
      dsimp only
      rw [intern_ref, entries]
      congr 1
      apply List.map_congr_left
      intro other member
      rw [List.idxOf_append_of_mem (entered other member)]

theorem fill_refs_eq {tys : List Ty} {i j : Nat} {one two : Ty} (first : tys[i]? = some one) (second : tys[j]? = some two) :
    (fill tys).1[i]? = (fill tys).1[j]? ↔ one = two := by
  obtain ⟨entered, refs⟩ := fill_refs tys
  rw [refs, List.getElem?_map, List.getElem?_map, first, second, Option.map_some, Option.map_some, Option.some.injEq,
    TypeRef.mk.injEq, List.idxOf_inj (entered one (List.mem_of_getElem? first))]

end TypeTable

namespace Interner

variable {s : Interner} {t : TypeTable}

structure Keeps (s : Interner) (t : TypeTable) : Prop where
  types : s.types = t.entries
  places : ∀ ty, s.places.lookup ty = if ty ∈ t.entries then some ⟨t.entries.idxOf ty⟩ else none

theorem Keeps.intern (keeps : s.Keeps t) (ty : Ty) :
    (s.intern ty).1 = (t.intern ty).1 ∧ (s.intern ty).2.Keeps (t.intern ty).2 := by
  unfold Interner.intern TypeTable.intern
  rw [keeps.places ty]
  by_cases present : ty ∈ t.entries
  · rw [if_pos present, dif_pos present]
    exact ⟨rfl, keeps⟩
  · rw [if_neg present, dif_neg present]
    dsimp only
    rw [keeps.types]
    refine ⟨rfl, rfl, fun other => ?_⟩
    dsimp only
    rw [List.lookup_cons]
    by_cases same : other = ty
    · subst same
      simp [List.idxOf_append_of_notMem present]
    · rw [beq_false_of_ne same, keeps.places other]
      by_cases old : other ∈ t.entries
      · simp [old, List.idxOf_append_of_mem old]
      · simp [old, same]

theorem fill_keeps (tys : List Ty) : (fill tys).1 = (TypeTable.fill tys).1 ∧ (fill tys).2.Keeps (TypeTable.fill tys).2 := by
  induction tys using List.reverseRecOn with
  | nil => exact ⟨rfl, rfl, fun ty => rfl⟩
  | append_singleton tys ty ih =>
    obtain ⟨refs, keeps⟩ := ih
    obtain ⟨same, keeps⟩ := keeps.intern ty
    rw [fill, internAll_append, TypeTable.fill_append]
    exact ⟨congrArg₂ (· ++ [·]) refs same, keeps⟩

end Interner

namespace Ty

def textWith (name : TypeRef → String) : Ty → String
  | void => "void"
  | bool => "bool"
  | int width signed => (if signed then "i" else "u") ++ width.repr
  | float width => "f" ++ width.repr
  | vector elem lanes => "v" ++ lanes.repr ++ name elem
  | pointer pointee storage => "ptr<" ++ storage.text ++ ", " ++ name pointee ++ ">"

theorem textWith_congr {name other : TypeRef → String} {ty : Ty} (same : ∀ q ∈ ty.refs, name q = other q) :
    ty.textWith name = ty.textWith other := by
  cases ty with
  | vector elem lanes => rw [textWith, textWith, same elem (List.mem_singleton_self elem)]
  | pointer pointee storage => rw [textWith, textWith, same pointee (List.mem_singleton_self pointee)]
  | _ => rfl

def initial : Ty → Char
  | void | vector .. => 'v'
  | bool => 'b'
  | int _ signed => if signed then 'i' else 'u'
  | float _ => 'f'
  | pointer .. => 'p'

def afterInitial (name : TypeRef → String) : Ty → List Char
  | void => ['o', 'i', 'd']
  | bool => ['o', 'o', 'l']
  | int width _ | float width => width.repr.toList
  | vector elem lanes => lanes.repr.toList ++ (name elem).toList
  | pointer pointee storage => ['t', 'r', '<'] ++ (storage.text.toList ++ ',' :: ' ' :: ((name pointee).toList ++ ['>']))

theorem toList_textWith (name : TypeRef → String) (ty : Ty) :
    (ty.textWith name).toList = ty.initial :: ty.afterInitial name := by
  cases ty with
  | void => simp [textWith, initial, afterInitial]
  | bool => simp [textWith, initial, afterInitial]
  | int width signed => cases signed <;> simp [textWith, initial, afterInitial, String.toList_append]
  | float width => simp [textWith, initial, afterInitial, String.toList_append]
  | vector elem lanes => simp [textWith, initial, afterInitial, String.toList_append]
  | pointer pointee storage => simp [textWith, initial, afterInitial, String.toList_append]

theorem initial_letter (ty : Ty) : ty.initial.isDigit = false ∧ ty.initial ≠ 't' := by
  cases ty with
  | int width signed => cases signed <;> simp [initial]
  | _ => simp [initial]

theorem textWith_word {name : TypeRef → String} {ty : Ty} (words : ∀ q ∈ ty.refs, Word (name q).toList) :
    Word (ty.textWith name).toList := by
  cases ty with
  | void => exact .plain (by simp [textWith]) (by simp [Simple, textWith])
  | bool => exact .plain (by simp [textWith]) (by simp [Simple, textWith])
  | int width signed => cases signed <;> exact .tagged (by simp [Simple]) width
  | float width => exact .tagged (by simp [Simple]) width
  | vector elem lanes =>
    have letter : Simple ['v'] := by simp [Simple]
    rw [toList_textWith]
    exact .prepend (by simp) (letter.append (simple_repr lanes)) (words elem (List.mem_singleton_self elem))
  | pointer pointee storage =>
    have front : Word (['p', 't', 'r', '<'] ++ storage.text.toList) := by
      cases storage <;> exact .plain (by simp) (by simp [Simple, Storage.text])
    have inner := front.listed (words pointee (List.mem_singleton_self pointee))
    rw [toList_textWith]
    simpa [initial, afterInitial] using inner.closed

theorem void_ne_vector {name : TypeRef → String} {elem : TypeRef} {lanes : Nat} :
    afterInitial name void ≠ afterInitial name (vector elem lanes) := by
  intro same
  obtain ⟨c, digits, number⟩ := List.exists_cons_of_ne_nil (repr_ne_nil lanes)
  have digit : c.isDigit = true := isDigit_of_mem_repr (number ▸ List.mem_cons_self ..)
  rw [afterInitial, afterInitial, number] at same
  obtain ⟨rfl, -⟩ := List.cons.inj same
  exact absurd digit (by decide)

theorem storage_unique {one two : Storage} {rest rest' : List Char}
    (same : one.text.toList ++ ',' :: rest = two.text.toList ++ ',' :: rest') : one = two ∧ rest = rest' := by
  have clear (storage : Storage) : ',' ∉ storage.text.toList := by cases storage <;> simp [Storage.text]
  obtain ⟨texts, rests⟩ := upto_unique (clear one) (clear two) same
  refine ⟨?_, rests⟩
  have texts := String.toList_inj.mp texts
  cases one <;> cases two <;> first | rfl | exact absurd texts (by decide)

theorem textWith_inj {name : TypeRef → String} {one two : Ty}
    (letter : ∀ q, q ∈ one.refs ∨ q ∈ two.refs → ∀ c ∈ (name q).toList.head?, c.isDigit = false)
    (apart : ∀ q ∈ one.refs, ∀ r ∈ two.refs, name q = name r → q = r) (same : one.textWith name = two.textWith name) :
    one = two := by
  have chars := congrArg String.toList same
  rw [toList_textWith, toList_textWith] at chars
  obtain ⟨heads, tails⟩ := List.cons.inj chars
  cases one with
  | void =>
    cases two with
    | void => rfl
    | vector elem lanes => exact absurd tails void_ne_vector
    | _ => simp [initial, eq_ite_iff] at heads
  | bool =>
    cases two with
    | bool => rfl
    | _ => simp [initial, eq_ite_iff] at heads
  | int width signed =>
    cases two with
    | int width' signed' =>
      have sign : signed = signed' := by
        cases signed <;> cases signed' <;> simp_all [initial]
      rw [repr_toList_inj.mp tails, sign]
    | _ => simp [initial, ite_eq_iff] at heads
  | float width =>
    cases two with
    | float width' => rw [repr_toList_inj.mp tails]
    | _ => simp [initial, eq_ite_iff] at heads
  | vector elem lanes =>
    cases two with
    | vector elem' lanes' =>
      obtain ⟨lanes, elems⟩ := number_unique (letter elem (.inl (List.mem_singleton_self elem)))
        (letter elem' (.inr (List.mem_singleton_self elem'))) tails
      have elem := apart elem (List.mem_singleton_self elem) elem' (List.mem_singleton_self elem') (String.toList_inj.mp elems)
      rw [lanes, elem]
    | void => exact absurd tails.symm void_ne_vector
    | _ => simp [initial, eq_ite_iff] at heads
  | pointer pointee storage =>
    cases two with
    | pointer pointee' storage' =>
      obtain ⟨storage, rest⟩ := storage_unique (List.append_cancel_left tails)
      have names := String.toList_inj.mp (List.append_cancel_right (List.cons.inj rest).2)
      have pointee := apart pointee (List.mem_singleton_self pointee) pointee' (List.mem_singleton_self pointee') names
      rw [storage, pointee]
    | _ => simp [initial, eq_ite_iff] at heads

end Ty

namespace TypeTable

variable {t : TypeTable} {r : TypeRef} {ty : Ty}

theorem nameWithin_succ (t : TypeTable) (depth : Nat) (r : TypeRef) : t.nameWithin (depth + 1) r =
    match t.get? r with
    | none => r.text
    | some ty => ty.textWith (t.nameWithin depth) := by
  rw [nameWithin]
  cases found : t.get? r with
  | none => rfl
  | some ty => cases ty <;> rfl

theorem Layered.enough (layered : t.Layered) {shallow deep : Nat} (low : r.index < shallow) (more : shallow ≤ deep) :
    t.nameWithin shallow r = t.nameWithin deep r := by
  induction shallow generalizing r deep with
  | zero => exact absurd low (Nat.not_lt_zero _)
  | succ shallow ih =>
    obtain ⟨deep, rfl⟩ := Nat.exists_eq_add_of_le' (Nat.le_trans (Nat.succ_pos shallow) more)
    rw [nameWithin_succ, nameWithin_succ]
    cases found : t.get? r with
    | none => rfl
    | some ty =>
      apply Ty.textWith_congr
      intro q mentioned
      have below := layered r ty found q mentioned
      exact ih (Nat.lt_of_lt_of_le below (Nat.le_of_lt_succ low)) (Nat.le_of_succ_le_succ more)

theorem name_of_none (missing : t.get? r = none) : t.name r = r.text := by
  rw [name, nameWithin_succ, missing]

theorem Layered.name_eq (layered : t.Layered) (found : t.get? r = some ty) : t.name r = ty.textWith t.name := by
  rw [name, nameWithin_succ, found]
  apply Ty.textWith_congr
  intro q mentioned
  have inside := (List.getElem?_eq_some_iff.mp found).1
  exact layered.enough (Nat.lt_trans (layered r ty found q mentioned) inside) (Nat.le_succ _)

theorem Layered.name_word (layered : t.Layered) (r : TypeRef) : Word (t.name r).toList := by
  induction at' : r.index using Nat.strong_induction_on generalizing r with
  | _ n ih =>
    cases found : t.get? r with
    | none =>
      rw [name_of_none found]
      exact .tagged (by simp [Simple]) r.index
    | some ty =>
      rw [layered.name_eq found]
      apply Ty.textWith_word
      intro q mentioned
      exact ih q.index (at' ▸ layered r ty found q mentioned) q rfl

theorem head?_name_of_none (missing : t.get? r = none) : (t.name r).toList.head? = some 't' := by
  rw [name_of_none missing, TypeRef.text, String.toList_append]
  rfl

theorem Layered.head?_name (layered : t.Layered) (found : t.get? r = some ty) : (t.name r).toList.head? = some ty.initial := by
  rw [layered.name_eq found, Ty.toList_textWith]
  rfl

theorem Layered.name_letter (layered : t.Layered) (r : TypeRef) : ∀ c ∈ (t.name r).toList.head?, c.isDigit = false := by
  intro c first
  cases found : t.get? r with
  | none =>
    cases (head?_name_of_none found).symm.trans first
    decide
  | some ty =>
    cases (layered.head?_name found).symm.trans first
    exact ty.initial_letter.1

theorem get?_inj {q : TypeRef} (here : t.get? r = some ty) (there : t.get? q = some ty) : r = q := by
  obtain ⟨inside, first⟩ := List.getElem?_eq_some_iff.mp here
  obtain ⟨inside', second⟩ := List.getElem?_eq_some_iff.mp there
  have index := t.distinct.getElem_inj_iff.mp (first.trans second.symm)
  cases r
  cases q
  cases index
  rfl

theorem Layered.name_inj (layered : t.Layered) {r q : TypeRef} (same : t.name r = t.name q) : r = q := by
  induction at' : r.index using Nat.strong_induction_on generalizing r q with
  | _ n ih =>
    have heads : (t.name r).toList.head? = (t.name q).toList.head? := by rw [same]
    cases found : t.get? r with
    | none =>
      cases found' : t.get? q with
      | none =>
        rw [name_of_none found, name_of_none found'] at same
        have index := tagged_inj same
        cases r
        cases q
        cases index
        rfl
      | some ty =>
        rw [head?_name_of_none found, layered.head?_name found', Option.some.injEq] at heads
        exact absurd heads.symm ty.initial_letter.2
    | some one =>
      cases found' : t.get? q with
      | none =>
        rw [head?_name_of_none found', layered.head?_name found, Option.some.injEq] at heads
        exact absurd heads one.initial_letter.2
      | some two =>
        rw [layered.name_eq found, layered.name_eq found'] at same
        have types : one = two := by
          apply Ty.textWith_inj (fun q _ => layered.name_letter q) _ same
          intro p mentioned p' _ names
          exact ih p.index (at' ▸ layered r one found p mentioned) names rfl
        exact get?_inj found (types ▸ found')

end TypeTable

end DeadLanes
