import TapeMachine.Proofs.Assembly.Tiling

namespace TapeMachine.Assembly

open Text

def instructions (statements : List Statement) : List (Instruction Term) :=
  statements.filterMap fun
    | .instruction i => some i
    | _ => none

/-- An instruction as it is written where labels have these addresses: its mnemonic, and each
operand with its prefix, as a number. -/
def sourceText (address : String → Nat) (i : Instruction Term) : String :=
  " ".intercalate (i.op.mnemonic ::
    i.operands.map fun operand => operand.mode.sigil ++ toString (operand.value.word address))

def resolved (address : String → Nat) (i : Instruction Term) : Instruction Int :=
  ⟨i.op, i.operands.map fun operand => ⟨operand.mode, operand.value.word address⟩⟩

section

variable (address : String → Nat)

theorem instructionText_resolved (i : Instruction Term) :
    instructionText (resolved address i) = sourceText address i := by
  simp only [instructionText, literalInstruction, resolved, List.map_map, Statement.text,
    sourceText]
  rfl

theorem storesImmediate_resolved (i : Instruction Term) :
    (resolved address i).storesImmediate = i.storesImmediate := by
  simp only [Instruction.storesImmediate, resolved, List.getElem?_map, Option.any_map]

theorem legal_resolved {i : Instruction Term} (harity : i.operands.length = i.op.arity)
    (hstorable : i.storesImmediate = false) : (resolved address i).Legal where
  arity := (List.length_map _).trans harity
  storable := (storesImmediate_resolved address i).trans hstorable

theorem words_resolved (i : Instruction Term) :
    (resolved address i).words = (Statement.instruction i).words address := by
  simp only [Instruction.words, resolved, Instruction.modes, Instruction.values, List.map_map,
    Statement.words]
  rfl

theorem flatMap_words_instructions {statements : List Statement}
    (hcode : ∀ terms, .data terms ∉ statements) :
    statements.flatMap (Statement.words address) =
      ((instructions statements).map (resolved address)).flatMap Instruction.words := by
  induction statements with
  | nil => rfl
  | cons statement statements ih =>
    have hrest := ih fun terms hterms => hcode terms (List.mem_cons_of_mem _ hterms)
    cases statement with
    | label name => exact hrest
    | instruction i =>
      rw [List.flatMap_cons, hrest, ← words_resolved]
      rfl
    | data terms => exact absurd List.mem_cons_self (hcode terms)

end

theorem mem_instructions {statements : List Statement} {i : Instruction Term} :
    i ∈ instructions statements ↔ .instruction i ∈ statements := by
  rw [instructions, List.mem_filterMap]
  constructor
  · rintro ⟨statement, hstatement, hi⟩
    cases statement <;> cases hi
    exact hstatement
  · intro hi
    exact ⟨_, hi, rfl⟩

theorem statements_entries {is : List (Instruction Int)} (h : ∀ i ∈ is, i.Legal) (address : Nat) :
    (entries address (is.flatMap Instruction.words)).map Entry.statement =
      is.map fun i => .instruction (literalInstruction i) := by
  induction is generalizing address with
  | nil => rw [List.flatMap_nil, entries, List.map_nil, List.map_nil]
  | cons i is ih =>
    rw [List.forall_mem_cons] at h
    have hi := instruction?_words h.1 (is.flatMap Instruction.words)
    have hvalues : i.values.length = i.op.arity := i.length_values.trans h.1.arity
    rw [Instruction.words, List.cons_append] at hi
    rw [List.flatMap_cons, Instruction.words, List.cons_append, entries_of_instruction? hi,
      List.drop_left' hvalues, List.map_cons, ih h.2, List.map_cons]

theorem map_code_disassemble (words : List Int) :
    (disassemble words).map code = ((entries 0 words).map Entry.statement).map Statement.text := by
  rw [disassemble_eq, List.map_map, List.map_map]
  refine List.map_congr_left fun entry hentry => ?_
  exact code_entry (listed_entries 0 words entry hentry).closed

/-- What a source without data is assembled to is listed with one line for each instruction of the
source, in the same order, and its code is the instruction with every integer in decimal and the
address of every label in place of its name. -/
theorem disassemble_assembled {text : String} {statements : List Statement} {words : List Int}
    (hparse : parse (expandTabs 0 text.toList) = .ok statements)
    (hcode : ∀ terms, .data terms ∉ statements) (h : assemble text = .ok words) :
    (∃ address, Locates statements address) ∧
      ∀ address, Locates statements address →
        (disassemble words).map code = (instructions statements).map (sourceText address) := by
  have hwritable := writable_of_parse hparse
  rw [assemble, hparse] at h
  obtain ⟨hconsistent, located, hlocated, rfl⟩ := (assembleStatements_eq_ok hwritable).1 h
  refine ⟨⟨located, hlocated⟩, ?_⟩
  intro address haddress
  have hlegal : ∀ i ∈ (instructions statements).map (resolved address), i.Legal := by
    refine List.forall_mem_map.2 ?_
    intro i hi
    have hmem := mem_instructions.1 hi
    exact legal_resolved address (hwritable _ hmem).1 (hconsistent.storable i hmem)
  rw [hconsistent.words_eq hlocated haddress, flatMap_words_instructions address hcode,
    map_code_disassemble, statements_entries hlegal, List.map_map, List.map_map]
  exact List.map_congr_left fun i _ => instructionText_resolved address i

def reading : List Statement :=
  [.label "loop", .instruction ⟨.input, [⟨.relative, .literal (-2)⟩]⟩,
    .instruction ⟨.jumpTrue, [⟨.relative, .literal (-2)⟩, ⟨.immediate, .reference "loop"⟩]⟩,
    .instruction ⟨.add, [⟨.immediate, .literal 7⟩, ⟨.position, .reference "end"⟩,
      ⟨.relative, .literal 1⟩]⟩,
    .label "end", .instruction ⟨.halt, []⟩]

theorem disassemble_assembled_reading :
    parse (expandTabs 0 "loop:in @-02 // value\n\tjt@-2#loop add #+7 end @1\nend:hlt".toList) =
      .ok reading ∧
    assemble "loop:in @-02 // value\n\tjt@-2#loop add #+7 end @1\nend:hlt" =
      .ok [203, -2, 1205, -2, 0, 20101, 7, 9, 1, 99] ∧
    (disassemble [203, -2, 1205, -2, 0, 20101, 7, 9, 1, 99]).map code =
      ["in @-2", "jt @-2 #0", "add #7 9 @1", "hlt"] := by
  have hparse : parse (expandTabs 0
      "loop:in @-02 // value\n\tjt@-2#loop add #+7 end @1\nend:hlt".toList) = .ok reading := by
    decide +kernel
  have hassemble : assemble "loop:in @-02 // value\n\tjt@-2#loop add #+7 end @1\nend:hlt" =
      .ok [203, -2, 1205, -2, 0, 20101, 7, 9, 1, 99] := by
    decide +kernel
  obtain ⟨⟨address, haddress⟩, hlisted⟩ :=
    disassemble_assembled hparse (by simp [reading]) hassemble
  have hloop : address "loop" = 0 := haddress [] "loop" _ rfl
  have hend : address "end" = 9 := haddress (reading.take 4) "end" _ rfl
  refine ⟨hparse, hassemble, ?_⟩
  rw [hlisted address haddress]
  simp only [reading, instructions, sourceText, List.filterMap, List.map, Term.word, hloop, hend]
  decide +kernel

end TapeMachine.Assembly
