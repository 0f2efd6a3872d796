import DeadLanes.Proofs.Naming

namespace DeadLanes

-- The text of a function tells all of its instructions.

theorem Value.text_word (v : Value) : Word v.text.toList := .tagged (by simp [Simple]) v.id

theorem Label.text_word (b : Label) : Word b.text.toList := .tagged (by simp [Simple]) b.index

theorem Value.head?_text (v : Value) : v.text.toList.head? = some '%' := by
  rw [text, String.toList_append]
  rfl

theorem Label.head?_text (b : Label) : b.text.toList.head? = some 'b' := by
  rw [text, String.toList_append]
  rfl

theorem Value.text_inj {v w : Value} (same : v.text = w.text) : v = w := by
  cases v
  cases w
  exact congrArg Value.mk (tagged_inj same)

theorem Label.text_inj {b c : Label} (same : b.text = c.text) : b = c := by
  cases b
  cases c
  exact congrArg Label.mk (tagged_inj same)

theorem head?_repr (n : Nat) : ∀ c ∈ n.repr.toList.head?, c.isDigit = true :=
  fun _ first => isDigit_of_mem_repr (List.mem_of_head? first)

namespace Operand

theorem text_word (o : Operand) : Word o.text.toList := by
  cases o with
  | value v => exact v.text_word
  | label b => exact b.text_word
  | literal n => exact .plain (repr_ne_nil n) (simple_repr n)

theorem text_inj {o p : Operand} (same : o.text = p.text) : o = p := by
  have heads : o.text.toList.head? = p.text.toList.head? := by rw [same]
  have digit {n : Nat} {c : Char} (first : n.repr.toList.head? = some c) : c.isDigit = true := head?_repr n c first
  cases o with
  | value v =>
    cases p with
    | value w => rw [Value.text_inj same]
    | label b => exact absurd ((v.head?_text.symm.trans heads).trans b.head?_text) (by decide)
    | literal n => exact absurd (digit (heads.symm.trans v.head?_text)) (by decide)
  | label b =>
    cases p with
    | value w => exact absurd ((b.head?_text.symm.trans heads).trans w.head?_text) (by decide)
    | label c => rw [Label.text_inj same]
    | literal n => exact absurd (digit (heads.symm.trans b.head?_text)) (by decide)
  | literal n =>
    cases p with
    | value w => exact absurd (digit (heads.trans w.head?_text)) (by decide)
    | label c => exact absurd (digit (heads.trans c.head?_text)) (by decide)
    | literal m => rw [Nat.repr_inj.mp same]

end Operand

namespace Opcode

theorem mnemonic_word (op : Opcode) : Word op.mnemonic.toList := by
  cases op <;> exact .plain (by simp [mnemonic]) (by simp [Simple, mnemonic])

theorem ofMnemonic?_mnemonic (op : Opcode) : ofMnemonic? op.mnemonic = some op := by
  cases op <;> decide

theorem mnemonic_inj {op other : Opcode} (same : op.mnemonic = other.mnemonic) : op = other := by
  have read : some op = some other := by rw [← ofMnemonic?_mnemonic, ← ofMnemonic?_mnemonic, same]
  exact Option.some.inj read

theorem head?_mnemonic (op : Opcode) : op.mnemonic.toList.head? ≠ some '%' := by
  cases op <;> simp [mnemonic]

end Opcode

namespace Inst

variable {name : TypeRef → String} {i j : Inst}

theorem words_none (name : TypeRef → String) (op : Opcode) (operands : List Operand) :
    words name ⟨op, none, operands⟩ = op.mnemonic :: operands.map Operand.text := rfl

theorem words_some (name : TypeRef → String) (op : Opcode) (v : Value) (t : TypeRef) (operands : List Operand) :
    words name ⟨op, some (v, t), operands⟩ = v.text :: "=" :: op.mnemonic :: name t :: operands.map Operand.text := rfl

theorem words_word (names : ∀ r, Word (name r).toList) (i : Inst) : ∀ word ∈ i.words name, Word word.toList := by
  obtain ⟨op, defines, operands⟩ := i
  have equals : Word "=".toList := .plain (by simp) (by simp [Simple])
  have rest : ∀ word ∈ operands.map Operand.text, Word word.toList := by
    intro word member
    obtain ⟨o, -, rfl⟩ := List.mem_map.mp member
    exact o.text_word
  cases defines with
  | none =>
    rw [words_none]
    exact List.forall_mem_cons.mpr ⟨op.mnemonic_word, rest⟩
  | some result =>
    rw [words_some]
    simp only [List.forall_mem_cons]
    exact ⟨result.1.text_word, equals, op.mnemonic_word, names result.2, rest⟩

theorem words_inj (names : ∀ r q, name r = name q → r = q) (same : i.words name = j.words name) : i = j := by
  obtain ⟨op, defines, operands⟩ := i
  obtain ⟨op', defines', operands'⟩ := j
  have operand : Function.Injective Operand.text := fun _ _ => Operand.text_inj
  have target {v : Value} {op : Opcode} : v.text ≠ op.mnemonic := by
    intro same
    apply op.head?_mnemonic
    rw [← same, Value.head?_text]
  cases defines with
  | none =>
    cases defines' with
    | none =>
      rw [words_none, words_none] at same
      obtain ⟨opcode, rest⟩ := List.cons.inj same
      rw [Opcode.mnemonic_inj opcode, operand.list_map rest]
    | some result' =>
      rw [words_none, words_some] at same
      exact absurd (List.cons.inj same).1.symm target
  | some result =>
    cases defines' with
    | none =>
      rw [words_none, words_some] at same
      exact absurd (List.cons.inj same).1 target
    | some result' =>
      rw [words_some, words_some] at same
      obtain ⟨value, rest⟩ := List.cons.inj same
      obtain ⟨opcode, rest⟩ := List.cons.inj (List.cons.inj rest).2
      obtain ⟨type, rest⟩ := List.cons.inj rest
      rw [Opcode.mnemonic_inj opcode, operand.list_map rest, Prod.ext (Value.text_inj value) (names _ _ type)]

theorem words_ne_nil (name : TypeRef → String) (i : Inst) : i.words name ≠ [] := by
  unfold words
  simp

theorem textWith_inj (words : ∀ r, Word (name r).toList) (names : ∀ r q, name r = name q → r = q)
    (same : i.textWith name = j.textWith name) : i = j :=
  words_inj names (words_unique (i.words_ne_nil name) (j.words_ne_nil name) (i.words_word words) (j.words_word words) same)

theorem textWith_line (words : ∀ r, Word (name r).toList) (i : Inst) : '\n' ∉ (i.textWith name).toList :=
  line_of_words (i.words_word words)

end Inst

namespace Func

variable {name : TypeRef → String}

def blocksLines (name : TypeRef → String) : Nat → List (List Placed) → List String
  | _, [] => []
  | k, block :: rest => blockLines name ⟨k⟩ block ++ blocksLines name (k + 1) rest

theorem lines_eq (f : Func) (name : TypeRef → String) :
    f.lines name = ("fn " ++ f.name ++ " \x7b") :: (blocksLines name 0 f.blocks ++ ["\x7d"]) := by
  have numbered (k : Nat) (blocks : List (List Placed)) :
      (((List.range' k blocks.length).map Label.mk).zip blocks).flatMap (fun p => blockLines name p.1 p.2) =
        blocksLines name k blocks := by
    induction blocks generalizing k with
    | nil => rfl
    | cons block rest ih =>
      rw [List.length_cons, List.range'_succ, List.map_cons, List.zip_cons_cons, List.flatMap_cons, ih]
      rfl
  rw [lines, labels, List.range_eq_range', numbered]
  rfl

theorem header_starts (b : Label) : (b.text ++ ":").toList.head? = some 'b' := by
  rw [String.toList_append, List.head?_append, b.head?_text]
  rfl

theorem blocksLines_starts (k : Nat) (blocks : List (List Placed)) :
    ∀ line ∈ (blocksLines name k blocks).head?, line.toList.head? = some 'b' := by
  cases blocks with
  | nil => exact nofun
  | cons block rest =>
    intro line first
    cases first
    exact header_starts ⟨k⟩

theorem inst_line_starts (i : Inst) : ("    " ++ i.textWith name).toList.head? = some ' ' := by
  rw [String.toList_append]
  rfl

theorem blocksLines_inj (words : ∀ r, Word (name r).toList) (names : ∀ r q, name r = name q → r = q) {k : Nat}
    {blocks others : List (List Placed)} (same : blocksLines name k blocks = blocksLines name k others) :
    blocks.map (·.map (·.inst)) = others.map (·.map (·.inst)) := by
  induction blocks generalizing k others with
  | nil =>
    cases others with
    | nil => rfl
    | cons block rest => cases same
  | cons block rest ih =>
    cases others with
    | nil => cases same
    | cons block' rest' =>
      have indented (block : List Placed) :
          ∀ line ∈ block.map fun p => "    " ++ p.inst.textWith name, line.toList.head? = some ' ' := by
        intro line member
        obtain ⟨p, -, rfl⟩ := List.mem_map.mp member
        exact inst_line_starts p.inst
      obtain ⟨insts, rests⟩ := split_unique (fun lines => ∀ line ∈ lines, line.toList.head? = some ' ')
        (fun line => line.toList.head? = some 'b')
        (fun front line back _ indented header => absurd ((indented line (by simp)).symm.trans header) (by decide))
        (indented block) (indented block') (blocksLines_starts (k + 1) rest) (blocksLines_starts (k + 1) rest')
        (List.cons.inj same).2
      have single : Function.Injective fun i : Inst => "    " ++ i.textWith name := by
        intro i j same
        have chars := congrArg String.toList same
        rw [String.toList_append, String.toList_append] at chars
        exact Inst.textWith_inj words names (String.toList_inj.mp (List.append_cancel_left chars))
      rw [List.map_cons, List.map_cons, ih rests]
      congr 1
      apply single.list_map
      rw [List.map_map, List.map_map]
      exact insts

theorem blocksLines_line (words : ∀ r, Word (name r).toList) (k : Nat) (blocks : List (List Placed)) :
    ∀ line ∈ blocksLines name k blocks, '\n' ∉ line.toList := by
  induction blocks generalizing k with
  | nil => exact fun line member => absurd member List.not_mem_nil
  | cons block rest ih =>
    refine List.forall_mem_append.mpr ⟨List.forall_mem_cons.mpr ⟨?_, ?_⟩, ih (k + 1)⟩
    · rw [String.toList_append, List.mem_append, not_or]
      exact ⟨(Label.text_word ⟨k⟩).line, by simp⟩
    · intro line member
      obtain ⟨p, -, rfl⟩ := List.mem_map.mp member
      rw [String.toList_append, List.mem_append, not_or]
      exact ⟨by simp, p.inst.textWith_line words⟩

theorem blocksLines_congr {blocks others : List (List Placed)}
    (same : blocks.map (·.map (·.inst)) = others.map (·.map (·.inst))) (k : Nat) :
    blocksLines name k blocks = blocksLines name k others := by
  induction blocks generalizing k others with
  | nil =>
    cases others with
    | nil => rfl
    | cons block rest => cases same
  | cons block rest ih =>
    cases others with
    | nil => cases same
    | cons block' rest' =>
      obtain ⟨insts, rests⟩ := List.cons.inj same
      have lines := congrArg (List.map fun i : Inst => "    " ++ i.textWith name) insts
      rw [List.map_map, List.map_map] at lines
      rw [blocksLines, blocksLines, ih rests, blockLines, blockLines]
      exact congrArg (fun lines => (_ :: lines) ++ _) lines

theorem text_inj (words : ∀ r, Word (name r).toList) (names : ∀ r q, name r = name q → r = q) {f g : Func}
    (called : f.name = g.name) : joinLines (f.lines name) = joinLines (g.lines name) ↔
      f.blocks.map (·.map (·.inst)) = g.blocks.map (·.map (·.inst)) := by
  have last : '\n' ∉ ("\x7d" : String).toList := by simp
  have clear (h : Func) : ∀ line ∈ blocksLines name 0 h.blocks ++ ["\x7d"], '\n' ∉ line.toList :=
    List.forall_mem_append.mpr ⟨blocksLines_line words 0 h.blocks, List.forall_mem_singleton.mpr last⟩
  rw [lines_eq, lines_eq, called]
  constructor
  · intro same
    have chars := congrArg String.toList same
    rw [toList_joinLines, toList_joinLines, List.flatMap_cons, List.flatMap_cons] at chars
    have rest := List.append_cancel_left chars
    rw [← toList_joinLines, ← toList_joinLines, String.toList_inj] at rest
    exact blocksLines_inj words names (List.append_cancel_right (lines_unique (clear f) (clear g) rest))
  · intro same
    rw [blocksLines_congr same]

end Func

-- Text is faithful: with a table that was filled in order, the text of a
-- function tells its instructions, equal types have one reference, and each
-- reference has a name of its own.
theorem text_faithful {tys : List Ty} (order : TypeTable.InOrder tys) :
    (∀ f g : Func, f.name = g.name → (f.text (TypeTable.fill tys).2 = g.text (TypeTable.fill tys).2 ↔
      f.blocks.map (·.map (·.inst)) = g.blocks.map (·.map (·.inst)))) ∧
    (∀ (i j : Nat) (one two : Ty), tys[i]? = some one → tys[j]? = some two →
      ((TypeTable.fill tys).1[i]? = (TypeTable.fill tys).1[j]? ↔ one = two)) ∧
    (∀ r q, (TypeTable.fill tys).2.name r = (TypeTable.fill tys).2.name q → r = q) ∧
    (Interner.fill tys).1 = (TypeTable.fill tys).1 ∧ (Interner.fill tys).2.types = (TypeTable.fill tys).2.entries := by
  have layered := TypeTable.fill_layered order
  have names : ∀ r q, (TypeTable.fill tys).2.name r = (TypeTable.fill tys).2.name q → r = q :=
    fun _ _ same => layered.name_inj same
  refine ⟨fun f g called => Func.text_inj layered.name_word names called, fun i j one two first second => ?_, names, ?_, ?_⟩
  · exact TypeTable.fill_refs_eq first second
  · exact (Interner.fill_keeps tys).1
  · exact (Interner.fill_keeps tys).2.types

-- A pointer to a pointer to a vector, and a vector that is entered twice.
def nestedTypes : List Ty :=
  [.float 32, .vector ⟨0⟩ 2, .pointer ⟨1⟩ .input, .pointer ⟨2⟩ .output, .vector ⟨0⟩ 2]

def nested (t : TypeRef) : Func :=
  .ofBlocks "nested" [[⟨.undef, some (⟨3⟩, ⟨0⟩), []⟩, ⟨.load, some (⟨2⟩, t), [.value ⟨1⟩]⟩, ⟨.retv, none, [.value ⟨2⟩]⟩]]

theorem text_faithful_nested : TypeTable.InOrder nestedTypes ∧
    (TypeTable.fill nestedTypes).2.name ⟨3⟩ = "ptr<Output, ptr<Input, v2f32>>" ∧
    (TypeTable.fill nestedTypes).1[1]? = (TypeTable.fill nestedTypes).1[4]? ∧
    (nested ⟨3⟩).text (TypeTable.fill nestedTypes).2 ≠ (nested ⟨5⟩).text (TypeTable.fill nestedTypes).2 ∧
    ((nested ⟨3⟩).erase ⟨0⟩).text (TypeTable.fill nestedTypes).2 ≠ (nested ⟨3⟩).text (TypeTable.fill nestedTypes).2 := by
  have order : TypeTable.InOrder nestedTypes := by decide +kernel
  obtain ⟨texts, refs, -⟩ := text_faithful order
  refine ⟨order, by decide +kernel, ?_, ?_, ?_⟩
  · exact (refs 1 4 _ _ rfl rfl).mpr rfl
  · intro same
    exact absurd ((texts (nested ⟨3⟩) (nested ⟨5⟩) rfl).mp same) (by decide +kernel)
  · intro same
    exact absurd ((texts ((nested ⟨3⟩).erase ⟨0⟩) (nested ⟨3⟩) rfl).mp same) (by decide +kernel)

end DeadLanes
