import TapeMachine.Proofs.Assembly.Drafting

namespace TapeMachine.Assembly

open Text

namespace Statement

def words (address : String → Nat) : Statement → List Int
  | label _ => []
  | instruction ⟨op, operands⟩ =>
    Instruction.encode op (operands.map Operand.mode) ::
      operands.map fun operand => operand.value.word address
  | data terms => terms.map (Term.word address)

def Uses (name : String) : Statement → Prop
  | label _ => False
  | instruction i => ∃ operand ∈ i.operands, operand.value = .reference name
  | data terms => .reference name ∈ terms

theorem words_eq (address : String → Nat) (statement : Statement) :
    statement.words address = statement.terms.map (Term.word address) := by
  cases statement with
  | label name => rfl
  | instruction i =>
    rw [words, terms, instructionTerms, List.map_cons, Instruction.values, List.map_map]
    rfl
  | data terms => rfl

theorem uses_iff {name : String} {statement : Statement} :
    statement.Uses name ↔ .reference name ∈ statement.terms := by
  cases statement with
  | label key => exact (iff_false_intro List.not_mem_nil).symm
  | instruction i => simp [Uses, terms, instructionTerms, Instruction.values]
  | data terms => rfl

end Statement

theorem flatMap_words (address : String → Nat) (statements : List Statement) :
    statements.flatMap (Statement.words address) =
      (statements.flatMap Statement.terms).map (Term.word address) := by
  rw [List.map_flatMap]
  exact List.flatMap_congr fun statement _ => statement.words_eq address

theorem length_flatMap_words (address : String → Nat) (statements : List Statement) :
    (statements.flatMap (Statement.words address)).length =
      (statements.flatMap Statement.terms).length := by
  rw [flatMap_words, List.length_map]

/-- Every label that is used is defined, none is defined twice, and no instruction stores into an
immediate operand. -/
structure Consistent (statements : List Statement) : Prop where
  unique : ∀ before name after, statements = before ++ .label name :: after →
    .label name ∉ before
  defined : ∀ statement ∈ statements, ∀ name, statement.Uses name → .label name ∈ statements
  storable : ∀ i, .instruction i ∈ statements → i.storesImmediate = false

/-- Each label has the number of words in front of its definition as its address. -/
def Locates (statements : List Statement) (address : String → Nat) : Prop :=
  ∀ before name after, statements = before ++ .label name :: after →
    address name = (before.flatMap (Statement.words address)).length

section

variable {statements : List Statement}

theorem admits_iff (hwritable : ∀ statement ∈ statements, statement.Writable) :
    (∀ before statement after, statements = before ++ statement :: after →
      (Draft.empty.extendAll before).Admits statement) ↔
    (∀ before name after, statements = before ++ .label name :: after →
      .label name ∉ before) ∧
    ∀ i, .instruction i ∈ statements → i.storesImmediate = false := by
  constructor
  · intro h
    constructor
    · intro before name after hsplit
      exact Draft.address?_empty_extendAll.1 (h before _ after hsplit)
    · intro i hi
      obtain ⟨before, after, hsplit⟩ := List.append_of_mem hi
      exact (h before _ after hsplit).2
  · rintro ⟨hunique, hstorable⟩ before statement after hsplit
    have hmem : statement ∈ statements := by
      rw [hsplit]
      exact List.mem_append_right _ List.mem_cons_self
    cases statement with
    | label name =>
      exact Draft.address?_empty_extendAll.2 (hunique before name after hsplit)
    | instruction i => exact ⟨lacksDestination_eq_false (hwritable _ hmem).1, hstorable i hmem⟩
    | data terms => trivial

theorem knows_iff :
    (∀ term ∈ statements.flatMap Statement.terms,
      (Draft.empty.extendAll statements).Knows term) ↔
    ∀ statement ∈ statements, ∀ name, statement.Uses name → .label name ∈ statements := by
  rw [Draft.knows_empty_extendAll]
  constructor
  · intro h statement hstatement name huses
    exact h name (List.mem_flatMap.2 ⟨statement, hstatement, Statement.uses_iff.1 huses⟩)
  · intro h name hname
    obtain ⟨statement, hstatement, hmem⟩ := List.mem_flatMap.1 hname
    exact h statement hstatement name (Statement.uses_iff.2 hmem)

theorem Consistent.locates (h : Consistent statements) :
    Locates statements (Draft.empty.extendAll statements).addressOf := by
  intro before name after hsplit
  rw [length_flatMap_words, Draft.addressOf, hsplit,
    Draft.address?_extendAll_label (h.unique before name after hsplit), Option.getD_some]

theorem Consistent.exists_split (h : Consistent statements) {name : String}
    (hname : .reference name ∈ statements.flatMap Statement.terms) :
    ∃ before after, statements = before ++ .label name :: after := by
  obtain ⟨statement, hstatement, hmem⟩ := List.mem_flatMap.1 hname
  exact List.append_of_mem (h.defined statement hstatement name (Statement.uses_iff.2 hmem))

theorem Consistent.words_eq (h : Consistent statements) {a b : String → Nat}
    (ha : Locates statements a) (hb : Locates statements b) :
    statements.flatMap (Statement.words a) = statements.flatMap (Statement.words b) := by
  rw [flatMap_words, flatMap_words]
  apply List.map_congr_left
  intro term hterm
  cases term with
  | literal value => rfl
  | reference name =>
    obtain ⟨before, after, hsplit⟩ := h.exists_split hterm
    rw [Term.word, Term.word, ha before name after hsplit, hb before name after hsplit,
      length_flatMap_words, length_flatMap_words]

theorem assembleStatements_eq_ok {words : List Int}
    (hwritable : ∀ statement ∈ statements, statement.Writable) :
    assembleStatements statements = .ok words ↔
      Consistent statements ∧ ∃ address, Locates statements address ∧
        words = statements.flatMap (Statement.words address) := by
  -- The second pass asks for nothing but the definition of every name that is used.
  have hresolve : (Draft.empty.extendAll statements).resolve = .ok words ↔
      (∀ statement ∈ statements, ∀ name, statement.Uses name → .label name ∈ statements) ∧
        words = statements.flatMap
          (Statement.words (Draft.empty.extendAll statements).addressOf) := by
    rw [Draft.resolve, Draft.toList_extendAll, flatMap_words, ← knows_iff]
    exact Draft.resolveAll_eq_ok
  rw [assembleStatements]
  cases hadd : Draft.empty.addAll statements with
  | error error =>
    constructor
    · intro h
      cases h
    · rintro ⟨h, -⟩
      rw [Draft.addAll_eq_ok.2 ⟨(admits_iff hwritable).2 ⟨h.unique, h.storable⟩, rfl⟩] at hadd
      cases hadd
  | ok draft =>
    obtain ⟨hadmits, rfl⟩ := Draft.addAll_eq_ok.1 hadd
    obtain ⟨hunique, hstorable⟩ := (admits_iff hwritable).1 hadmits
    refine hresolve.trans ?_
    constructor
    · rintro ⟨hdefined, rfl⟩
      have h : Consistent statements := ⟨hunique, hdefined, hstorable⟩
      exact ⟨h, _, h.locates, rfl⟩
    · rintro ⟨h, address, haddress, rfl⟩
      exact ⟨h.defined, h.words_eq haddress h.locates⟩

end

/-- A text is assembled exactly if its statements are consistent, and then to what they contribute,
with the address of a label in place of its name. -/
theorem assemble_eq_ok_iff (text : String) (words : List Int) :
    assemble text = .ok words ↔
      ∃ statements, parse (expandTabs 0 text.toList) = .ok statements ∧ Consistent statements ∧
        ∃ address, Locates statements address ∧
          words = statements.flatMap (Statement.words address) := by
  rw [assemble]
  cases hparse : parse (expandTabs 0 text.toList) with
  | error error => simp
  | ok statements =>
    refine (assembleStatements_eq_ok (writable_of_parse hparse)).trans ?_
    simp

example : assemble "out #end\nout table hlt\ntable: DW -7 end end:" =
    .ok [104, 7, 4, 5, 99, -7, 7] := by
  decide +kernel

end TapeMachine.Assembly
