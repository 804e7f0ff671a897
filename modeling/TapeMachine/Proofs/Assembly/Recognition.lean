import TapeMachine.Proofs.Assembly.Layout
import TapeMachine.Proofs.Assembly.Legality

namespace TapeMachine

structure Instruction.Legal (i : Instruction Int) : Prop where
  arity : i.operands.length = i.op.arity
  storable : i.storesImmediate = false

namespace Assembly

open Text

theorem zipWith_modes_values (operands : List (Operand Int)) (rest : List Int) :
    List.zipWith Operand.mk (operands.map Operand.mode) (operands.map Operand.value ++ rest) =
      operands := by
  induction operands with
  | nil => rfl
  | cons operand operands ih =>
    rw [List.map_cons, List.map_cons, List.cons_append, List.zipWith_cons_cons, ih]

theorem instruction?_words {i : Instruction Int} (h : i.Legal) (rest : List Int) :
    instruction? (i.words ++ rest) = some i := by
  have hmodes : i.modes.length = i.op.arity := i.length_modes.trans h.arity
  have hoperands : List.zipWith Operand.mk i.modes (i.values ++ rest) = i.operands :=
    zipWith_modes_values i.operands rest
  simp only [Instruction.words, List.cons_append, instruction?, Instruction.decode_encode hmodes,
    hoperands, h.arity, h.storable, Bool.not_false, and_self, if_true]

theorem instruction?_eq_some {words : List Int} {i : Instruction Int} :
    instruction? words = some i ↔ i.Legal ∧ i.words <+: words := by
  constructor
  · intro h
    cases words with
    | nil => cases h
    | cons word rest =>
      have hshows := shows_of_instruction? h
      refine ⟨⟨hshows.arity, hshows.storable⟩, ?_⟩
      rw [Instruction.words, hshows.encode, hshows.values, List.cons_prefix_cons]
      exact ⟨rfl, List.take_prefix _ _⟩
  · rintro ⟨hlegal, rest, rfl⟩
    exact instruction?_words hlegal rest

/-- The assembler accepts the instruction and issues these words for it: the parser reads it, and
the first pass does not refuse it. -/
structure Accepted (i : Instruction Int) (issued : List Int) : Prop where
  writable : (Statement.instruction (literalInstruction i)).Writable
  issue : ∀ draft : Draft,
    draft.issue (literalInstruction i) = .ok (draft.append (issued.map .literal))

theorem map_literal_inj {words words' : List Int}
    (h : words.map Term.literal = words'.map Term.literal) : words = words' :=
  List.map_injective_iff.2 (fun _ _ => Term.literal.inj) h

theorem append_empty_inj {terms terms' : List Term}
    (h : Draft.empty.append terms = Draft.empty.append terms') : terms = terms' := by
  have hterms := congrArg (fun draft => draft.terms.toList) h
  simpa only [Draft.append, Draft.empty, Array.toList_appendList, List.nil_append] using hterms

theorem accepted_iff {i : Instruction Int} {issued : List Int} :
    Accepted i issued ↔ i.Legal ∧ issued = i.words := by
  constructor
  · intro h
    have harity : i.operands.length = i.op.arity := length_literal i ▸ h.writable.1
    have hissue := h.issue Draft.empty
    rw [issue_literal _ harity] at hissue
    cases hstores : i.storesImmediate with
    | true =>
      rw [hstores] at hissue
      cases hissue
    | false =>
      rw [hstores] at hissue
      exact ⟨⟨harity, hstores⟩, map_literal_inj (append_empty_inj (Except.ok.inj hissue)).symm⟩
  · rintro ⟨hlegal, rfl⟩
    refine ⟨writable_literal hlegal.arity, ?_⟩
    intro draft
    rw [issue_literal draft hlegal.arity, hlegal.storable]
    rfl

theorem operandTokens_append_inj {operand operand' : Operand Term} {more more' : List Token}
    (h : operandTokens operand ++ more = operandTokens operand' ++ more') :
    operand = operand' ∧ more = more' := by
  have htoken : ∀ {a b : Term}, a.token = b.token → a = b := by
    intro a b hab
    cases a <;> cases b <;> cases hab <;> rfl
  obtain ⟨mode, value⟩ := operand
  obtain ⟨mode', value'⟩ := operand'
  cases mode with
  | position =>
    cases mode' with
    | position =>
      obtain ⟨hvalue, hmore⟩ := List.cons.inj h
      exact ⟨congrArg _ (htoken hvalue), hmore⟩
    | immediate | relative => cases value <;> cases h
  | immediate | relative =>
    cases mode' with
    | position => cases value' <;> cases h
    | immediate | relative =>
      obtain ⟨hmark, hrest⟩ := List.cons.inj h
      cases hmark
      all_goals
        obtain ⟨hvalue, hmore⟩ := List.cons.inj hrest
        exact ⟨congrArg _ (htoken hvalue), hmore⟩

theorem not_restarts_operand {operand : Operand Term} {more : List Token}
    (hliteral : ∃ n, operand.value = .literal n) : ¬ Restarts (operandTokens operand ++ more) := by
  intro h
  obtain ⟨mode, value⟩ := operand
  obtain ⟨n, rfl⟩ := hliteral
  cases mode <;> cases h

theorem operands_of_tokens {operands operands' : List (Operand Term)} {statements : List Statement}
    (hliteral : ∀ operand ∈ operands', ∃ n, operand.value = .literal n)
    (h : operands.flatMap operandTokens ++ statements.flatMap Statement.tokens =
      operands'.flatMap operandTokens) : operands = operands' ∧ statements = [] := by
  induction operands generalizing operands' with
  | nil =>
    cases operands' with
    | nil =>
      cases statements with
      | nil => exact ⟨rfl, rfl⟩
      | cons statement statements => cases statement <;> cases h
    | cons operand operands' =>
      have hrestarts := restarts_flatMap statements
      rw [List.flatMap_nil, List.nil_append, List.flatMap_cons] at h
      rw [h] at hrestarts
      exact absurd hrestarts (not_restarts_operand (hliteral operand List.mem_cons_self))
  | cons operand operands ih =>
    cases operands' with
    | nil =>
      obtain ⟨mode, value⟩ := operand
      cases mode <;> cases h
    | cons operand' operands' =>
      rw [List.forall_mem_cons] at hliteral
      rw [List.flatMap_cons, List.flatMap_cons, List.append_assoc] at h
      obtain ⟨rfl, hrest⟩ := operandTokens_append_inj h
      obtain ⟨rfl, rfl⟩ := ih hliteral.2 hrest
      exact ⟨rfl, rfl⟩

theorem statements_of_tokens {i : Instruction Int} {statements : List Statement}
    (h : statements.flatMap Statement.tokens =
      (Statement.instruction (literalInstruction i)).tokens) :
    statements = [.instruction (literalInstruction i)] := by
  cases statements with
  | nil => cases h
  | cons statement statements =>
    cases statement with
    | label name => cases h
    | data terms => cases h
    | instruction j =>
      obtain ⟨op, operands⟩ := j
      obtain ⟨hop, hrest⟩ := List.cons.inj h
      cases hop
      obtain ⟨rfl, rfl⟩ := operands_of_tokens (fun _ => exists_of_mem_literal) hrest
      rfl

theorem words_literal (address : String → Nat) (i : Instruction Int) :
    (Statement.instruction (literalInstruction i)).words address = i.words := by
  rw [Statement.words_eq, Statement.terms, instructionTerms, modes_literal, values_literal,
    List.map_cons, List.map_map]
  exact congrArg (_ :: ·) (List.map_id i.values)

theorem assemble_instructionText {i : Instruction Int} {issued : List Int} :
    assemble (instructionText i) = .ok issued ↔ Accepted i issued := by
  have hclosed : (Statement.instruction (literalInstruction i)).Closed :=
    fun _ => exists_of_mem_literal
  constructor
  · intro h
    rw [assemble, instructionText, expandTabs_of_not_mem hclosed.not_mem_tab] at h
    cases hparse : parse (Statement.instruction (literalInstruction i)).text.toList with
    | error error =>
      rw [hparse] at h
      cases h
    | ok statements =>
      rw [hparse] at h
      obtain rfl := statements_of_tokens ((tokens_of_parse hparse).symm.trans hclosed.tokens_eq)
      have hwritable := writable_of_parse hparse
      obtain ⟨hconsistent, address, -, rfl⟩ := (assembleStatements_eq_ok hwritable).1 h
      have harity : i.operands.length = i.op.arity :=
        length_literal i ▸ (hwritable _ List.mem_cons_self).1
      have hstorable : i.storesImmediate = false :=
        storesImmediate_literal i ▸ hconsistent.storable _ List.mem_cons_self
      rw [List.flatMap_singleton, words_literal]
      exact accepted_iff.2 ⟨⟨harity, hstorable⟩, rfl⟩
  · intro h
    obtain ⟨hlegal, rfl⟩ := accepted_iff.1 h
    apply assemble_text (listed_literal hlegal.arity hlegal.storable)
    rw [Statement.terms, instructionTerms, modes_literal, values_literal]
    rfl

/-- An instruction is shown exactly where words stand that the assembler issues for one. There is
only one such instruction, and the text shown is assembled to these words. What the assembler
accepts is what it takes as a text of its own. -/
theorem rendering_exact (words : List Int) (address : Nat) :
    ((rendering? words address).isSome ↔
      ∃ i issued, Accepted i issued ∧ issued <+: words.drop address) ∧
    (∀ i issued, Accepted i issued → issued <+: words.drop address →
      (∀ j issued', Accepted j issued' → issued' <+: words.drop address → j = i) ∧
      ∃ text, rendering? words address = some text ∧ assemble text = .ok issued) ∧
    ∀ i issued, Accepted i issued ↔ assemble (instructionText i) = .ok issued := by
  have hrecognised {i : Instruction Int} {issued : List Int} (h : Accepted i issued)
      (hissued : issued <+: words.drop address) : instruction? (words.drop address) = some i := by
    obtain ⟨hlegal, rfl⟩ := accepted_iff.1 h
    exact instruction?_eq_some.2 ⟨hlegal, hissued⟩
  refine ⟨?_, ?_, fun i issued => assemble_instructionText.symm⟩
  · rw [rendering?, Option.isSome_map, Option.isSome_iff_exists]
    constructor
    · rintro ⟨i, hi⟩
      obtain ⟨hlegal, hissued⟩ := instruction?_eq_some.1 hi
      exact ⟨i, i.words, accepted_iff.2 ⟨hlegal, rfl⟩, hissued⟩
    · rintro ⟨i, issued, h, hissued⟩
      exact ⟨i, hrecognised h hissued⟩
  · intro i issued h hissued
    have hi := hrecognised h hissued
    constructor
    · intro j issued' h' hissued'
      exact Option.some.inj ((hrecognised h' hissued').symm.trans hi)
    · refine ⟨instructionText i, ?_, assemble_instructionText.2 h⟩
      rw [rendering?, hi, Option.map_some]

example : [[104, 7], [1004, 7], [103, 7], [104]].map (rendering? · 0) =
    [some "out #7", none, none, none] := by
  decide +kernel

end Assembly

end TapeMachine
