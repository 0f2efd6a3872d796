import Mathlib
import DeadLanes.Text

namespace DeadLanes

-- Text can be read back: it is plain from the text where a number, a word, a
-- line or a block ends.

theorem split_unique (valid : List α → Prop) (stops : α → Prop)
    (cut : ∀ front c back, valid front → valid (front ++ c :: back) → ¬ stops c) {front front' rest rest' : List α}
    (left : valid front) (right : valid front') (here : ∀ c ∈ rest.head?, stops c) (there : ∀ c ∈ rest'.head?, stops c)
    (same : front ++ rest = front' ++ rest') : front = front' ∧ rest = rest' := by
  rcases List.append_eq_append_iff.mp same with ⟨more, rfl, rfl⟩ | ⟨more, rfl, rfl⟩
  · cases more with
    | nil => simp
    | cons c more => exact absurd (here c rfl) (cut front c more left right)
  · cases more with
    | nil => simp
    | cons c more => exact absurd (there c rfl) (cut front' c more right left)

theorem upto_unique {mark : α} {front front' rest rest' : List α} (left : mark ∉ front) (right : mark ∉ front')
    (same : front ++ mark :: rest = front' ++ mark :: rest') : front = front' ∧ rest = rest' := by
  have apart := split_unique (fun front => mark ∉ front) (· = mark)
    (fun front c back _ clear stop => clear (by simp [stop])) left right (by simp) (by simp) same
  exact ⟨apart.1, (List.cons.inj apart.2).2⟩

-- Numbers.

theorem isDigit_of_mem_repr {n : Nat} {c : Char} (member : c ∈ n.repr.toList) : c.isDigit = true := by
  rw [Nat.toList_repr] at member
  exact Nat.isDigit_of_mem_toDigits (by decide) (by decide) member

theorem repr_ne_nil (n : Nat) : n.repr.toList ≠ [] := by
  rw [Nat.toList_repr]
  exact Nat.toDigits_ne_nil

theorem repr_toList_inj {n m : Nat} : n.repr.toList = m.repr.toList ↔ n = m := by
  rw [String.toList_inj, Nat.repr_inj]

theorem tagged_inj {tag : String} {n m : Nat} (same : tag ++ n.repr = tag ++ m.repr) : n = m := by
  have chars := congrArg String.toList same
  rw [String.toList_append, String.toList_append] at chars
  exact repr_toList_inj.mp (List.append_cancel_left chars)

theorem number_unique {n m : Nat} {rest rest' : List Char} (here : ∀ c ∈ rest.head?, c.isDigit = false)
    (there : ∀ c ∈ rest'.head?, c.isDigit = false) (same : n.repr.toList ++ rest = m.repr.toList ++ rest') :
    n = m ∧ rest = rest' := by
  have apart := split_unique (fun word => ∀ c ∈ word, c.isDigit = true) (fun c => c.isDigit = false)
    (fun front c back _ digits stop => absurd ((digits c (by simp)).symm.trans stop) (by decide))
    (fun c => isDigit_of_mem_repr) (fun c => isDigit_of_mem_repr) here there same
  exact ⟨repr_toList_inj.mp apart.1, apart.2⟩

def Simple (chars : List Char) : Prop := ∀ c ∈ chars, c ≠ ' ' ∧ c ≠ ',' ∧ c ≠ '\n'

theorem Simple.append {front back : List Char} (first : Simple front) (second : Simple back) : Simple (front ++ back) :=
  List.forall_mem_append.mpr ⟨first, second⟩

theorem Simple.glued {chars : List Char} (simple : Simple chars) : chars.IsChain fun c d => d = ' ' → c = ',' := by
  apply List.isChain_iff_getElem.mpr
  intro k inside blank
  exact absurd blank (simple _ (List.getElem_mem inside)).1

theorem simple_repr (n : Nat) : Simple n.repr.toList := by
  intro c member
  have digit := isDigit_of_mem_repr member
  refine ⟨?_, ?_, ?_⟩ <;> rintro rfl <;> exact absurd digit (by decide)

-- Words. There may be blanks in a word, but only after a comma, and a comma is
-- never the last of it.
structure Word (word : List Char) : Prop where
  nonempty : word ≠ []
  glued : word.IsChain fun c d => d = ' ' → c = ','
  starts : word.head? ≠ some ' '
  ends : word.getLast? ≠ some ','
  line : '\n' ∉ word

namespace Word

variable {word : List Char}

theorem plain (nonempty : word ≠ []) (simple : Simple word) : Word word := by
  refine ⟨nonempty, simple.glued, ?_, ?_, ?_⟩
  · intro starts
    exact (simple ' ' (List.mem_of_head? starts)).1 rfl
  · intro ends
    exact (simple ',' (List.mem_of_getLast? ends)).2.1 rfl
  · intro member
    exact (simple '\n' member).2.2 rfl

theorem prepend {front : List Char} (nonempty : front ≠ []) (simple : Simple front) (back : Word word) :
    Word (front ++ word) := by
  refine ⟨by simp [nonempty], ?_, ?_, ?_, ?_⟩
  · apply List.isChain_append.mpr
    refine ⟨simple.glued, back.glued, ?_⟩
    rintro x - y first rfl
    exact absurd first back.starts
  · rw [List.head?_append_of_ne_nil _ nonempty]
    intro starts
    exact (simple ' ' (List.mem_of_head? starts)).1 rfl
  · rw [List.getLast?_append_of_ne_nil _ back.nonempty]
    exact back.ends
  · rw [List.mem_append]
    rintro (member | member)
    · exact (simple '\n' member).2.2 rfl
    · exact back.line member

theorem tagged {tag : String} (simple : Simple tag.toList) (n : Nat) : Word (tag ++ n.repr).toList := by
  rw [String.toList_append]
  exact plain (by simp) (simple.append (simple_repr n))

theorem listed {front : List Char} (first : Word front) (back : Word word) : Word (front ++ ',' :: ' ' :: word) := by
  refine ⟨by simp, ?_, ?_, ?_, ?_⟩
  · refine List.isChain_append.mpr ⟨first.glued, List.isChain_cons.mpr ⟨?_, List.isChain_cons.mpr ⟨?_, back.glued⟩⟩, ?_⟩
    · intro d blank _
      rfl
    · rintro d starts rfl
      exact absurd starts back.starts
    · rintro c - d starts rfl
      cases starts
  · rw [List.head?_append_of_ne_nil _ first.nonempty]
    exact first.starts
  · rw [List.append_cons, List.append_cons, List.getLast?_append_of_ne_nil _ back.nonempty]
    exact back.ends
  · simp [first.line, back.line]

theorem closed (inner : Word word) : Word (word ++ ['>']) := by
  refine ⟨by simp, ?_, ?_, by simp, by simp [inner.line]⟩
  · refine List.isChain_append.mpr ⟨inner.glued, List.isChain_singleton _, ?_⟩
    rintro c - d starts rfl
    cases starts
  · rw [List.head?_append_of_ne_nil _ inner.nonempty]
    exact inner.starts

theorem unique {other rest rest' : List Char} (left : Word word) (right : Word other) (here : ∀ c ∈ rest.head?, c = ' ')
    (there : ∀ c ∈ rest'.head?, c = ' ') (same : word ++ rest = other ++ rest') : word = other ∧ rest = rest' := by
  refine split_unique Word (· = ' ') ?_ left right here there same
  rintro front c back one two rfl
  obtain ⟨last, ends⟩ := Option.isSome_iff_exists.mp (List.getLast?_isSome.mpr one.nonempty)
  have comma := (List.isChain_append.mp two.glued).2.2 last ends ' ' rfl rfl
  exact one.ends (comma ▸ ends)

end Word

def trail (words : List (List Char)) : List Char := words.flatMap (' ' :: ·)

theorem blank_of_trail (words : List (List Char)) : ∀ c ∈ (trail words).head?, c = ' ' := by
  cases words with
  | nil => exact nofun
  | cons word words =>
    intro c first
    cases first
    rfl

theorem trail_unique {words others : List (List Char)} (left : ∀ word ∈ words, Word word)
    (right : ∀ word ∈ others, Word word) (same : trail words = trail others) : words = others := by
  induction words generalizing others with
  | nil =>
    cases others with
    | nil => rfl
    | cons other others => cases same
  | cons word words ih =>
    cases others with
    | nil => cases same
    | cons other others =>
      obtain ⟨first, left⟩ := List.forall_mem_cons.mp left
      obtain ⟨first', right⟩ := List.forall_mem_cons.mp right
      have apart := first.unique first' (blank_of_trail words) (blank_of_trail others) (List.cons.inj same).2
      rw [apart.1, ih left right apart.2]

theorem trail_eq {word : List Char} {words : List (List Char)} :
    ' ' :: [' '].intercalate (word :: words) = trail (word :: words) := by
  induction words generalizing word with
  | nil => simp [trail, List.intercalate]
  | cons next words ih =>
    rw [List.intercalate_cons_cons, trail, List.flatMap_cons, ← trail, ← ih]
    simp

theorem words_unique {words others : List String} (some' : words ≠ []) (some'' : others ≠ [])
    (left : ∀ word ∈ words, Word word.toList) (right : ∀ word ∈ others, Word word.toList)
    (same : " ".intercalate words = " ".intercalate others) : words = others := by
  have chars : trail (words.map String.toList) = trail (others.map String.toList) := by
    obtain ⟨word, words, rfl⟩ := List.exists_cons_of_ne_nil some'
    obtain ⟨other, others, rfl⟩ := List.exists_cons_of_ne_nil some''
    have joined := congrArg String.toList same
    rw [String.toList_intercalate, String.toList_intercalate] at joined
    rw [List.map_cons, List.map_cons, ← trail_eq, ← trail_eq]
    exact congrArg (' ' :: ·) joined
  have lists := trail_unique (by simpa using left) (by simpa using right) chars
  exact List.map_injective_iff.mpr (fun _ _ => String.toList_inj.mp) lists

theorem line_of_words {words : List String} (all : ∀ word ∈ words, Word word.toList) :
    '\n' ∉ (" ".intercalate words).toList := by
  cases words with
  | nil => simp
  | cons word words =>
    intro member
    have inside : '\n' ∈ trail ((word :: words).map String.toList) := by
      rw [List.map_cons, ← trail_eq, ← List.map_cons]
      rw [String.toList_intercalate] at member
      exact List.mem_cons_of_mem _ member
    obtain ⟨chars, listed, here⟩ := List.mem_flatMap.mp inside
    obtain ⟨word, member, rfl⟩ := List.mem_map.mp listed
    exact (all word member).line (List.mem_of_ne_of_mem (by decide) here)

-- Lines.

theorem toList_joinLines (lines : List String) :
    (joinLines lines).toList = lines.flatMap fun line => line.toList ++ ['\n'] := by
  rw [joinLines, String.toList_join, List.flatMap_map]
  apply List.flatMap_congr
  intro line _
  rw [String.toList_append]
  rfl

theorem lines_unique {lines others : List String} (left : ∀ line ∈ lines, '\n' ∉ line.toList)
    (right : ∀ line ∈ others, '\n' ∉ line.toList) (same : joinLines lines = joinLines others) : lines = others := by
  have chars := congrArg String.toList same
  rw [toList_joinLines, toList_joinLines] at chars
  clear same
  induction lines generalizing others with
  | nil =>
    cases others with
    | nil => rfl
    | cons other others => simp at chars
  | cons line lines ih =>
    cases others with
    | nil => simp at chars
    | cons other others =>
      obtain ⟨first, left⟩ := List.forall_mem_cons.mp left
      obtain ⟨first', right⟩ := List.forall_mem_cons.mp right
      rw [List.flatMap_cons, List.flatMap_cons, List.append_assoc, List.append_assoc] at chars
      have apart := upto_unique first first' chars
      rw [String.toList_inj.mp apart.1, ih left right apart.2]

end DeadLanes
