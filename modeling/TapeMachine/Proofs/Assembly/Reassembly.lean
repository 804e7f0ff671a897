import TapeMachine.Proofs.Assembly.Printing

namespace TapeMachine.Assembly

theorem modes_zipWith {modes : List Mode} {words : List Int} (h : modes.length ≤ words.length) :
    (List.zipWith Operand.mk modes words).map Operand.mode = modes := by
  induction modes generalizing words with
  | nil => rfl
  | cons mode modes ih =>
    cases words with
    | nil => cases h
    | cons word words =>
      rw [List.zipWith_cons_cons, List.map_cons, ih (Nat.le_of_succ_le_succ h)]

theorem values_zipWith (modes : List Mode) (words : List Int) :
    (List.zipWith Operand.mk modes words).map Operand.value = words.take modes.length := by
  induction modes generalizing words with
  | nil => rfl
  | cons mode modes ih =>
    cases words with
    | nil => rfl
    | cons word words =>
      rw [List.zipWith_cons_cons, List.map_cons, ih, List.length_cons, List.take_succ_cons]

structure Shows (instruction : Instruction Int) (word : Int) (rest : List Int) : Prop where
  arity : instruction.operands.length = instruction.op.arity
  storable : instruction.storesImmediate = false
  encode : Instruction.encode instruction.op instruction.modes = word
  values : instruction.values = rest.take instruction.op.arity

theorem shows_of_instruction? {word : Int} {rest : List Int} {i : Instruction Int}
    (h : instruction? (word :: rest) = some i) : Shows i word rest := by
  simp only [instruction?] at h
  split at h
  · cases h
  · next op modes hdecode =>
    split at h
    · next hshown =>
      cases h
      obtain ⟨harity, hencode, hstorable⟩ := hshown
      have hmodes := Instruction.length_of_decode hdecode
      have hfits : modes.length ≤ rest.length := by
        rw [List.length_zipWith, ← hmodes] at harity
        omega
      exact {
        arity := harity
        storable := by simpa using hstorable
        encode := by rw [Instruction.modes, modes_zipWith hfits, hencode]
        values := by rw [Instruction.values, values_zipWith, hmodes] }
    · cases h

theorem modes_literal (i : Instruction Int) : (literalInstruction i).modes = i.modes := by
  simp only [literalInstruction, Instruction.modes, List.map_map]
  rfl

theorem values_literal (i : Instruction Int) :
    (literalInstruction i).values = i.values.map Term.literal := by
  simp only [literalInstruction, Instruction.values, List.map_map]
  rfl

theorem storesImmediate_literal (i : Instruction Int) :
    (literalInstruction i).storesImmediate = i.storesImmediate := by
  simp only [Instruction.storesImmediate, literalInstruction, List.getElem?_map, Option.any_map]

theorem length_literal (i : Instruction Int) :
    (literalInstruction i).operands.length = i.operands.length :=
  List.length_map _

theorem exists_of_mem_literal {i : Instruction Int} {operand : Operand Term}
    (h : operand ∈ (literalInstruction i).operands) : ∃ n, operand.value = .literal n := by
  obtain ⟨source, -, rfl⟩ := List.mem_map.1 h
  exact ⟨source.value, rfl⟩

theorem writable_literal {i : Instruction Int} (h : i.operands.length = i.op.arity) :
    (Statement.instruction (literalInstruction i)).Writable :=
  ⟨(length_literal i).trans h, fun _ hoperand _ => exists_of_mem_literal hoperand⟩

theorem lacksDestination_eq_false {α : Type} {i : Instruction α}
    (h : i.operands.length = i.op.arity) : i.lacksDestination = false := by
  simp only [Instruction.lacksDestination]
  split
  · rfl
  · next n hn =>
    rw [h, decide_eq_false_iff_not, Nat.not_le]
    exact Opcode.destination_lt_arity hn

structure Listed (statement : Statement) : Prop where
  closed : statement.Closed
  writable : statement.Writable
  added : ∀ draft : Draft, draft.add statement = .ok (draft.append statement.terms)

theorem listed_data (word : Int) : Listed (.data [.literal word]) where
  closed := by
    intro term hterm
    exact ⟨word, List.mem_singleton.1 hterm⟩
  writable := List.cons_ne_nil _ _
  added := fun _ => rfl

theorem listed_literal {i : Instruction Int} (harity : i.operands.length = i.op.arity)
    (hstorable : i.storesImmediate = false) : Listed (.instruction (literalInstruction i)) where
  closed := fun _ => exists_of_mem_literal
  writable := writable_literal harity
  added := by
    intro draft
    have hlacks := lacksDestination_eq_false ((length_literal i).trans harity)
    rw [Draft.add, Draft.issue, hlacks, storesImmediate_literal, hstorable]
    rfl

theorem Shows.terms {i : Instruction Int} {word : Int} {rest : List Int} (h : Shows i word rest) :
    (Statement.instruction (literalInstruction i)).terms =
      (word :: rest.take i.op.arity).map .literal := by
  rw [Statement.terms, instructionTerms, modes_literal, values_literal, h.values, List.map_cons,
    ← h.encode]
  rfl

def entries (address : Nat) (words : List Int) : List Entry :=
  match words with
  | [] => []
  | word :: rest =>
    match instruction? (word :: rest) with
    | none => ⟨address, .data [.literal word]⟩ :: entries (address + 1) rest
    | some i =>
      ⟨address, .instruction (literalInstruction i)⟩ ::
        entries (address + 1 + i.op.arity) (rest.drop i.op.arity)
termination_by words.length
decreasing_by
  · simp only [List.length_cons]
    omega
  · simp only [List.length_cons, List.length_drop]
    omega

theorem entries_of_instruction? {word : Int} {rest : List Int} {i : Instruction Int}
    (h : instruction? (word :: rest) = some i) (address : Nat) :
    entries address (word :: rest) = ⟨address, .instruction (literalInstruction i)⟩ ::
      entries (address + 1 + i.op.arity) (rest.drop i.op.arity) := by
  rw [entries]
  simp only [h]

theorem listed_entries (address : Nat) (words : List Int) :
    ∀ entry ∈ entries address words, Listed entry.statement := by
  fun_induction entries address words with
  | case1 address => exact List.forall_mem_nil _
  | case2 address word rest _ ih => exact List.forall_mem_cons.2 ⟨listed_data word, ih⟩
  | case3 address word rest i hi ih =>
    have hshows := shows_of_instruction? hi
    exact List.forall_mem_cons.2 ⟨listed_literal hshows.arity hshows.storable, ih⟩

theorem terms_entries (address : Nat) (words : List Int) :
    (entries address words).flatMap (fun entry => entry.statement.terms) =
      words.map .literal := by
  fun_induction entries address words with
  | case1 address => rfl
  | case2 address word rest _ ih =>
    rw [List.flatMap_cons, ih]
    rfl
  | case3 address word rest i hi ih =>
    rw [List.flatMap_cons, ih, (shows_of_instruction? hi).terms, ← List.map_append,
      List.cons_append, List.take_append_drop]

theorem width_of_instruction? {word : Int} {rest : List Int} {i : Instruction Int}
    (h : instruction? (word :: rest) = some i) : width word = 1 + i.op.arity := by
  rw [width, ← (shows_of_instruction? h).encode, Instruction.opcode_encode]

theorem listing_eq (words : List Int) (address : Nat) :
    listing words address = (entries address (words.drop address)).map Entry.line := by
  fun_induction listing words address with
  | case1 address h hnone ih =>
    rw [rendering?, Option.map_eq_none_iff, List.drop_eq_getElem_cons h] at hnone
    rw [List.drop_eq_getElem_cons h, entries, hnone, ih]
    rfl
  | case2 address h text htext ih =>
    rw [rendering?, Option.map_eq_some_iff, List.drop_eq_getElem_cons h] at htext
    obtain ⟨i, hi, rfl⟩ := htext
    rw [List.drop_eq_getElem_cons h, entries_of_instruction? hi, ih, width_of_instruction? hi,
      List.drop_drop, ← Nat.add_assoc]
    rfl
  | case3 address h => rw [List.drop_eq_nil_of_le (Nat.not_lt.1 h), entries, List.map_nil]

theorem disassemble_eq (words : List Int) :
    disassemble words = (entries 0 words).map Entry.text := by
  rw [disassemble, listing_eq, List.drop_zero, List.map_map]
  rfl

theorem Draft.append_append (draft : Draft) (s t : List Term) :
    (draft.append s).append t = draft.append (s ++ t) := by
  simp only [append, mk.injEq, and_true, ← Array.toList_inj, Array.toList_appendList,
    List.append_assoc]

theorem Draft.append_nil (draft : Draft) : draft.append [] = draft := by
  simp only [append, Array.appendList_nil]

theorem addAll_eq_append {statements : List Statement}
    (h : ∀ statement ∈ statements, ∀ draft : Draft,
      draft.add statement = .ok (draft.append statement.terms)) (draft : Draft) :
    draft.addAll statements = .ok (draft.append (statements.flatMap Statement.terms)) := by
  induction statements generalizing draft with
  | nil => rw [Draft.addAll, List.flatMap_nil, Draft.append_nil]
  | cons statement statements ih =>
    rw [List.forall_mem_cons] at h
    rw [Draft.addAll, h.1]
    change (draft.append statement.terms).addAll statements = _
    rw [ih h.2, Draft.append_append, List.flatMap_cons]

theorem resolveAll_literal (draft : Draft) (words : List Int) :
    draft.resolveAll (words.map .literal) = .ok words := by
  induction words with
  | nil => rfl
  | cons word words ih =>
    rw [List.map_cons, Draft.resolveAll, ih]
    rfl

theorem assembleStatements_listed {statements : List Statement} {words : List Int}
    (h : ∀ statement ∈ statements, Listed statement)
    (hterms : statements.flatMap Statement.terms = words.map .literal) :
    assembleStatements statements = .ok words := by
  have hadd := addAll_eq_append (fun statement hs => (h statement hs).added) Draft.empty
  rw [assembleStatements, hadd]
  change Draft.resolveAll _ (Draft.append _ _).terms.toList = _
  rw [Draft.append, Array.toList_appendList, hterms]
  exact resolveAll_literal _ words

theorem assemble_of_tokens {text : String} {statements : List Statement} {words : List Int}
    (htab : '\t' ∉ text.toList)
    (htokens : tokens false text.toList = statements.flatMap Statement.tokens)
    (h : ∀ statement ∈ statements, Listed statement)
    (hterms : statements.flatMap Statement.terms = words.map .literal) :
    assemble text = .ok words := by
  have hparse : parse text.toList = .ok statements :=
    parse_tokens (fun statement hstatement => (h statement hstatement).writable) htokens
  rw [assemble, expandTabs_of_not_mem htab, hparse]
  exact assembleStatements_listed h hterms

theorem assemble_text {statement : Statement} {words : List Int} (h : Listed statement)
    (hterms : statement.terms = words.map .literal) : assemble statement.text = .ok words := by
  have htokens : tokens false statement.text.toList = [statement].flatMap Statement.tokens := by
    rw [h.closed.tokens_eq, List.flatMap_singleton]
  apply assemble_of_tokens h.closed.not_mem_tab htokens (List.forall_mem_singleton.2 h)
  rw [List.flatMap_singleton, hterms]

theorem assemble_entries {entries : List Entry} {words : List Int}
    (h : ∀ entry ∈ entries, Listed entry.statement)
    (hterms : entries.flatMap (fun entry => entry.statement.terms) = words.map .literal) :
    assemble ("\n".intercalate (entries.map Entry.text)) = .ok words := by
  have hclosed : ∀ entry ∈ entries, entry.statement.Closed :=
    fun entry hentry => (h entry hentry).closed
  have htokens : tokens false ("\n".intercalate (entries.map Entry.text)).toList =
      (entries.map Entry.statement).flatMap Statement.tokens := by
    rw [tokens_entries hclosed, List.flatMap_map]
  apply assemble_of_tokens (not_mem_tab_entries hclosed) htokens (List.forall_mem_map.2 h)
  rw [List.flatMap_map, hterms]

/-- A program is what its listing assembles to. -/
theorem assemble_disassemble (words : List Int) :
    assemble ("\n".intercalate (disassemble words)) = .ok words := by
  rw [disassemble_eq]
  exact assemble_entries (listed_entries 0 words) (terms_entries 0 words)

end TapeMachine.Assembly
