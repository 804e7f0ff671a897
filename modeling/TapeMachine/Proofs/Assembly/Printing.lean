import TapeMachine.Assembly.Listing
import TapeMachine.Proofs.Assembly.Parsing

namespace TapeMachine.Assembly

open Text

theorem expandTabs_of_not_mem {text : List Char} (h : '\t' ∉ text) (column : Nat) :
    expandTabs column text = text := by
  induction text generalizing column with
  | nil => rfl
  | cons c text ih =>
    rw [List.mem_cons, not_or] at h
    rw [expandTabs, if_neg (Ne.symm h.1), ih h.2]

theorem mem_intercalate {c : Char} {separator : String} {items : List String}
    (h : c ∈ (separator.intercalate items).toList) :
    c ∈ separator.toList ∨ ∃ item ∈ items, c ∈ item.toList := by
  induction items with
  | nil =>
    rw [String.intercalate_nil] at h
    cases h
  | cons item items ih =>
    cases items with
    | nil =>
      rw [String.intercalate_singleton] at h
      exact .inr ⟨item, List.mem_cons_self, h⟩
    | cons item' items =>
      rw [String.intercalate_cons_cons, String.toList_append, String.toList_append,
        List.mem_append, List.mem_append] at h
      obtain (h | h) | h := h
      · exact .inr ⟨item, List.mem_cons_self, h⟩
      · exact .inl h
      · obtain h | ⟨found, hfound, h⟩ := ih h
        · exact .inl h
        · exact .inr ⟨found, List.mem_cons_of_mem _ hfound, h⟩

theorem spells_intercalate {α : Type} {text : α → String} {result : α → List Token}
    {items : List α} (h : ∀ item ∈ items, Spells (text item).toList (result item))
    {first : String} {s : List Token} (hfirst : Spells first.toList s) :
    Spells (" ".intercalate (first :: items.map text)).toList (s ++ items.flatMap result) := by
  induction items generalizing first s with
  | nil =>
    rw [List.map_nil, String.intercalate_singleton, List.flatMap_nil, List.append_nil]
    exact hfirst
  | cons item items ih =>
    rw [List.forall_mem_cons] at h
    rw [List.map_cons, String.intercalate_cons_cons, String.toList_append, String.toList_append,
      List.flatMap_cons, List.append_assoc]
    exact hfirst.append (ih h.2 h.1) (.layout rfl .nil) (List.cons_ne_nil _ _)

theorem spells_operand {operand : Operand Term}
    (h : Spells operand.value.text.toList [operand.value.token]) :
    Spells (operandText operand).toList (operandTokens operand) := by
  obtain ⟨mode, value⟩ := operand
  rw [operandText, String.toList_append]
  cases mode with
  | position => exact h
  | immediate =>
    have hsigil : Mode.immediate.sigil.toList = ['#'] := rfl
    rw [hsigil]
    exact h.hash
  | relative =>
    have hsigil : Mode.relative.sigil.toList = ['@'] := rfl
    rw [hsigil]
    exact h.atSign

theorem toString_ne_nil (n : Int) : (toString n).toList ≠ [] := by
  intro h
  have hread : Decimal.integer? ((toString n).toList ++ []) = some (n, []) :=
    Decimal.integer?_toString n (by rintro c ⟨⟩)
  rw [h] at hread
  cases hread

def isCodeChar (c : Char) : Bool := isNameChar c || isNumberStart c || c == '#' || c == '@'

structure Solid (item : String) : Prop where
  ne_nil : item.toList ≠ []
  isCodeChar : ∀ c ∈ item.toList, isCodeChar c = true

theorem isCodeChar_of_isNumberStart {c : Char} (h : isNumberStart c = true) :
    isCodeChar c = true := by
  rw [isCodeChar, h, Bool.or_true, Bool.true_or, Bool.true_or]

theorem solid_mnemonic (op : Opcode) : Solid op.mnemonic where
  ne_nil := by cases op <;> decide
  isCodeChar := List.all_eq_true.1 (by cases op <;> decide)

theorem solid_toString (n : Int) : Solid (toString n) where
  ne_nil := toString_ne_nil n
  isCodeChar := fun _ hc => isCodeChar_of_isNumberStart (mem_toString hc)

theorem isCodeChar_of_mem_sigil {mode : Mode} : ∀ c ∈ mode.sigil.toList, isCodeChar c = true :=
  List.all_eq_true.1 (by cases mode <;> decide)

theorem solid_operandText {operand : Operand Term} {n : Int} (h : operand.value = .literal n) :
    Solid (operandText operand) where
  ne_nil := by
    rw [operandText, h, String.toList_append]
    exact List.append_ne_nil_of_right_ne_nil _ (toString_ne_nil n)
  isCodeChar := by
    intro c hc
    rw [operandText, h, String.toList_append] at hc
    obtain hc | hc := List.mem_append.1 hc
    · exact isCodeChar_of_mem_sigil c hc
    · exact (solid_toString n).isCodeChar c hc

theorem getLast?_intercalate {separator : String} {items : List String} (hne : items ≠ [])
    (h : ∀ item ∈ items, item.toList ≠ []) :
    ∃ item ∈ items, (separator.intercalate items).toList.getLast? = item.toList.getLast? := by
  induction items with
  | nil => exact absurd rfl hne
  | cons item items ih =>
    cases items with
    | nil => exact ⟨item, List.mem_cons_self, by rw [String.intercalate_singleton]⟩
    | cons item' items =>
      obtain ⟨last, hlast, heq⟩ := ih (List.cons_ne_nil _ _) (List.forall_mem_cons.1 h).2
      have hmem := List.mem_cons_of_mem item hlast
      refine ⟨last, hmem, ?_⟩
      rw [String.intercalate_cons_cons, String.toList_append, List.getLast?_append, heq,
        List.getLast?_eq_some_getLast (h last hmem), Option.some_or]

namespace Statement

def Closed : Statement → Prop
  | label _ => False
  | instruction i => ∀ operand ∈ i.operands, ∃ n, operand.value = .literal n
  | data terms => ∀ term ∈ terms, ∃ n, term = .literal n

theorem Closed.spells {statement : Statement} (h : statement.Closed) :
    Spells statement.text.toList statement.tokens := by
  cases statement with
  | label name => cases h
  | instruction i =>
    refine spells_intercalate (s := [.mnemonic i.op]) ?_ (spells_mnemonic i.op)
    intro operand hoperand
    obtain ⟨n, hn⟩ := h operand hoperand
    apply spells_operand
    rw [hn]
    exact spells_toString n
  | data terms =>
    rw [tokens, List.map_eq_flatMap]
    refine spells_intercalate (s := [.data]) ?_ spells_data
    intro term hterm
    obtain ⟨n, rfl⟩ := h term hterm
    exact spells_toString n

theorem Closed.tokens_eq {statement : Statement} (h : statement.Closed) :
    Assembly.tokens false statement.text.toList = statement.tokens := by
  obtain ⟨glued, htokens⟩ := h.spells [] (by rintro _ ⟨⟩)
  rwa [tokens_nil, List.append_nil, List.append_nil] at htokens

def items : Statement → List String
  | label name => [name ++ ":"]
  | instruction ⟨op, operands⟩ => op.mnemonic :: operands.map operandText
  | data terms => "DW" :: terms.map Term.text

theorem text_eq (statement : Statement) : statement.text = " ".intercalate statement.items := by
  cases statement with
  | label name => exact String.intercalate_singleton.symm
  | instruction i => rfl
  | data terms => rfl

theorem items_ne_nil (statement : Statement) : statement.items ≠ [] := by
  cases statement <;> exact List.cons_ne_nil _ _

theorem Closed.solid {statement : Statement} (h : statement.Closed) :
    ∀ item ∈ statement.items, Solid item := by
  cases statement with
  | label name => cases h
  | instruction i =>
    refine List.forall_mem_cons.2 ⟨solid_mnemonic i.op, List.forall_mem_map.2 ?_⟩
    intro operand hoperand
    obtain ⟨n, hn⟩ := h operand hoperand
    exact solid_operandText hn
  | data terms =>
    refine List.forall_mem_cons.2
      ⟨⟨by decide, List.all_eq_true.1 (by decide)⟩, List.forall_mem_map.2 ?_⟩
    intro term hterm
    obtain ⟨n, rfl⟩ := h term hterm
    exact solid_toString n

theorem Closed.isCodeChar_of_mem {statement : Statement} (h : statement.Closed) {c : Char}
    (hc : c ∈ statement.text.toList) : c = ' ' ∨ isCodeChar c = true := by
  rw [text_eq] at hc
  obtain hblank | ⟨item, hitem, hc⟩ := mem_intercalate hc
  · exact .inl (List.mem_singleton.1 hblank)
  · exact .inr ((h.solid item hitem).isCodeChar c hc)

theorem Closed.not_mem_tab {statement : Statement} (h : statement.Closed) :
    '\t' ∉ statement.text.toList := by
  intro htab
  obtain hblank | hcode := h.isCodeChar_of_mem htab
  · cases hblank
  · cases hcode

theorem Closed.getLast? {statement : Statement} (h : statement.Closed) :
    ∃ c, statement.text.toList.getLast? = some c ∧ isCodeChar c = true := by
  rw [text_eq]
  obtain ⟨item, hitem, hlast⟩ := getLast?_intercalate statement.items_ne_nil
    fun item hitem => (h.solid item hitem).ne_nil
  have hitem := h.solid item hitem
  rw [hlast, List.getLast?_eq_some_getLast hitem.ne_nil]
  exact ⟨_, rfl, hitem.isCodeChar _ (List.getLast_mem hitem.ne_nil)⟩

end Statement

structure Entry : Type where
  address : Nat
  statement : Statement

def Entry.line (entry : Entry) : Line := ⟨entry.address, entry.statement.text⟩

def Entry.text (entry : Entry) : String := entry.line.text

theorem toList_entryText (entry : Entry) :
    entry.text.toList = entry.statement.text.toList ++
      (List.replicate (32 - entry.statement.text.length) ' ' ++
        '/' :: '/' :: ' ' :: (toString (entry.address : Int)).toList) := by
  have hmark : "// ".toList = ['/', '/', ' '] := rfl
  change (entry.statement.text ++ .ofList (List.replicate (32 - entry.statement.text.length) ' ') ++
    "// " ++ toString (entry.address : Int)).toList = _
  simp only [String.toList_append, String.toList_ofList, hmark, List.append_assoc,
    List.cons_append, List.nil_append]

theorem not_mem_newline_toString (n : Int) : '\n' ∉ ' ' :: (toString n).toList := by
  intro h
  obtain h | h := List.mem_cons.1 h
  · cases h
  · cases mem_toString h

theorem stops_gap (n : Nat) (text : List Char) : Stops (List.replicate n ' ' ++ '/' :: text) := by
  cases n with
  | zero => exact stops_cons rfl (by decide) _
  | succ n => exact stops_cons rfl (by decide) _

theorem tokens_entry {entry : Entry} (h : entry.statement.Closed) {rest : List Char}
    (hrest : rest.head? = none ∨ rest.head? = some '\n') :
    tokens false (entry.text.toList ++ rest) = entry.statement.tokens ++ tokens false rest := by
  rw [toList_entryText, List.append_assoc, List.append_assoc, List.cons_append, List.cons_append]
  obtain ⟨glued, htokens⟩ := h.spells _ (stops_gap _ _)
  rw [htokens, tokens_blank (blank_replicate _),
    tokens_comment (not_mem_newline_toString _) hrest]

theorem tokens_entries {entries : List Entry} (h : ∀ entry ∈ entries, entry.statement.Closed) :
    tokens false ("\n".intercalate (entries.map Entry.text)).toList =
      entries.flatMap fun entry => entry.statement.tokens := by
  induction entries with
  | nil => exact tokens_nil false
  | cons entry entries ih =>
    rw [List.forall_mem_cons] at h
    cases entries with
    | nil =>
      have hentry : tokens false (entry.text.toList ++ []) =
          entry.statement.tokens ++ tokens false [] :=
        tokens_entry h.1 (.inl rfl)
      rw [List.append_nil, tokens_nil] at hentry
      rw [List.map_singleton, String.intercalate_singleton, hentry]
      rfl
    | cons entry' entries =>
      have hbreak : "\n".toList = ['\n'] := rfl
      rw [List.map_cons, List.map_cons, String.intercalate_cons_cons, String.toList_append,
        String.toList_append, List.append_assoc, hbreak, List.singleton_append,
        tokens_entry h.1 (.inr rfl), tokens_layout rfl, ← List.map_cons, ih h.2]
      rfl

theorem not_mem_tab_entries {entries : List Entry} (h : ∀ entry ∈ entries, entry.statement.Closed) :
    '\t' ∉ ("\n".intercalate (entries.map Entry.text)).toList := by
  intro htab
  obtain hbreak | ⟨item, hitem, htab⟩ := mem_intercalate htab
  · exact absurd hbreak (by decide)
  · obtain ⟨entry, hentry, rfl⟩ := List.mem_map.1 hitem
    rw [toList_entryText, List.mem_append, List.mem_append] at htab
    obtain htab | htab | htab := htab
    · exact (h entry hentry).not_mem_tab htab
    · cases List.eq_of_mem_replicate htab
    · simp only [List.mem_cons, Char.reduceEq, false_or] at htab
      cases mem_toString htab

end TapeMachine.Assembly
