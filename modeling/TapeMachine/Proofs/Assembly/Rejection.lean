import TapeMachine.Proofs.Assembly.Layout

namespace TapeMachine

def Instruction.HasImmediateDestination {α : Type} (i : Instruction α) : Prop :=
  ∃ n operand, i.op.destination? = some n ∧ i.operands[n]? = some operand ∧
    operand.mode = .immediate

theorem Instruction.storesImmediate_iff {α : Type} {i : Instruction α} :
    i.storesImmediate = true ↔ i.HasImmediateDestination := by
  rw [storesImmediate, HasImmediateDestination]
  cases i.op.destination? with
  | none => simp
  | some n => simp [Option.any_eq_true]

namespace Assembly

open Text

inductive Refused (before : List Statement) : Statement → AssemblyError → Prop
  | duplicate {name : String} : .label name ∈ before →
      Refused before (.label name) (.duplicateLabel name)
  | immediate {i : Instruction Term} : i.HasImmediateDestination →
      Refused before (.instruction i)
        (.immediateDestination i.op (before.flatMap Statement.terms).length)

def Sound (statements : List Statement) : Prop :=
  ∀ before statement after, statements = before ++ statement :: after →
    ∀ error, ¬ Refused before statement error

/-- What is reported of a list of statements. -/
inductive Reported (statements : List Statement) : AssemblyError → Prop
  | refused {before after : List Statement} {statement : Statement} {error : AssemblyError} :
      statements = before ++ statement :: after → Sound before → Refused before statement error →
      Reported statements error
  | unknown {front rest : List Term} {name : String} :
      Sound statements → statements.flatMap Statement.terms = front ++ .reference name :: rest →
      (∀ other, .reference other ∈ front → .label other ∈ statements) →
      .label name ∉ statements → Reported statements (.unknownLabel name)

theorem exists_split_cons {α : Type} {p : List α → α → Prop} {a : α} {as : List α} :
    (∃ before b after, a :: as = before ++ b :: after ∧ p before b) ↔
      p [] a ∨ ∃ before b after, as = before ++ b :: after ∧ p (a :: before) b := by
  constructor
  · rintro ⟨before, b, after, heq, hb⟩
    obtain ⟨rfl, hfirst⟩ | ⟨before, rfl, hsplit⟩ := List.cons_eq_append_iff.1 heq
    · cases hfirst
      exact .inl hb
    · exact .inr ⟨before, b, after, hsplit, hb⟩
  · rintro (ha | ⟨before, b, after, rfl, hb⟩)
    · exact ⟨[], a, as, rfl, ha⟩
    · exact ⟨a :: before, b, after, rfl, hb⟩

theorem two_le_count_iff {α : Type} [DecidableEq α] {a : α} {as : List α} :
    2 ≤ as.count a ↔ ∃ before after, as = before ++ a :: after ∧ a ∈ before := by
  constructor
  · intro h
    obtain ⟨front, rest, rfl, hfront, hrest⟩ :=
      List.cons_sublist_iff.1 (List.replicate_sublist_iff.2 h)
    obtain ⟨between, after, rfl⟩ := List.append_of_mem (List.singleton_sublist.1 hrest)
    exact ⟨front ++ between, after, (List.append_assoc _ _ _).symm, List.mem_append_left _ hfront⟩
  · rintro ⟨before, after, rfl, hbefore⟩
    have hpos := List.count_pos_iff.2 hbefore
    rw [List.count_append, List.count_cons_self]
    omega

namespace Draft

theorem addAll_eq_error {draft : Draft} {statements : List Statement} {error : AssemblyError} :
    draft.addAll statements = .error error ↔
      ∃ before statement after, statements = before ++ statement :: after ∧
        ∃ next, draft.addAll before = .ok next ∧ next.add statement = .error error := by
  induction statements generalizing draft with
  | nil => simp [addAll]
  | cons statement statements ih =>
    rw [exists_split_cons]
    simp only [addAll]
    cases hadd : draft.add statement with
    | error cause => simp [hadd]
    | ok between => simp [hadd, ih]

end Draft

section

variable {statements before : List Statement} {statement : Statement} {error : AssemblyError}

theorem refused_label_iff {name : String} :
    Refused before (.label name) error ↔
      .label name ∈ before ∧ error = .duplicateLabel name := by
  constructor
  · rintro ⟨hbefore⟩
    exact ⟨hbefore, rfl⟩
  · rintro ⟨hbefore, rfl⟩
    exact .duplicate hbefore

theorem refused_instruction_iff {i : Instruction Term} :
    Refused before (.instruction i) error ↔
      i.storesImmediate = true ∧
        error = .immediateDestination i.op (before.flatMap Statement.terms).length := by
  rw [Instruction.storesImmediate_iff]
  constructor
  · intro h
    cases h with
    | immediate himmediate => exact ⟨himmediate, rfl⟩
  · rintro ⟨himmediate, rfl⟩
    exact .immediate himmediate

theorem add_eq_error (hwritable : statement.Writable) :
    (Draft.empty.extendAll before).add statement = .error error ↔
      Refused before statement error := by
  cases statement with
  | label name =>
    rw [refused_label_iff, ← not_not (a := .label name ∈ before), ← Draft.address?_empty_extendAll,
      Draft.add, Draft.define]
    cases (Draft.empty.extendAll before).address? name <;> simp [eq_comm]
  | instruction i =>
    rw [refused_instruction_iff, Draft.add, Draft.issue, lacksDestination_eq_false hwritable.1,
      Draft.offset_empty_extendAll]
    cases i.storesImmediate <;> simp [eq_comm]
  | data terms =>
    constructor
    · rintro ⟨⟩
    · rintro ⟨⟩

theorem admits_iff_not_refused (hwritable : statement.Writable) :
    (Draft.empty.extendAll before).Admits statement ↔
      ∀ error, ¬ Refused before statement error := by
  simp only [← add_eq_error hwritable]
  cases hadd : (Draft.empty.extendAll before).add statement with
  | error cause =>
    constructor
    · intro hadmits
      rw [Draft.add_eq_ok.2 ⟨hadmits, rfl⟩] at hadd
      cases hadd
    · intro h
      exact absurd rfl (h cause)
  | ok next => exact iff_of_true (Draft.add_eq_ok.1 hadd).1 nofun

theorem addAll_eq_ok_iff_sound {next : Draft}
    (hwritable : ∀ statement ∈ statements, statement.Writable) :
    Draft.empty.addAll statements = .ok next ↔
      Sound statements ∧ next = Draft.empty.extendAll statements := by
  rw [Draft.addAll_eq_ok]
  refine and_congr_left fun _ => forall₃_congr fun before statement after => ?_
  refine forall_congr' fun hsplit => ?_
  have hmem : statement ∈ statements := by
    rw [hsplit]
    exact List.mem_append_right _ List.mem_cons_self
  exact admits_iff_not_refused (hwritable statement hmem)

end

namespace Draft

theorem resolveTerm_eq_error {draft : Draft} {term : Term} {error : AssemblyError} :
    draft.resolveTerm term = .error error ↔
      ∃ name, term = .reference name ∧ draft.address? name = none ∧
        error = .unknownLabel name := by
  cases term with
  | literal value => simp [resolveTerm]
  | reference name =>
    rw [resolveTerm]
    cases haddress : draft.address? name with
    | none => simp [haddress, eq_comm]
    | some address => simp [haddress]

theorem resolveAll_eq_error {draft : Draft} {terms : List Term} {error : AssemblyError} :
    draft.resolveAll terms = .error error ↔
      ∃ front term rest, terms = front ++ term :: rest ∧ (∀ known ∈ front, draft.Knows known) ∧
        draft.resolveTerm term = .error error := by
  induction terms with
  | nil => simp [resolveAll]
  | cons term terms ih =>
    rw [exists_split_cons]
    cases hfirst : draft.resolveTerm term with
    | error cause =>
      have hunknown : ¬ draft.Knows term := by
        intro hknows
        rw [resolveTerm_eq_ok.2 ⟨hknows, rfl⟩] at hfirst
        cases hfirst
      simp [resolveAll, hfirst, hunknown]
    | ok word =>
      have hknows : draft.Knows term := (resolveTerm_eq_ok.1 hfirst).1
      have hrest : draft.resolveAll (term :: terms) = .error error ↔
          draft.resolveAll terms = .error error := by
        rw [resolveAll, hfirst]
        cases draft.resolveAll terms <;> simp
      rw [hrest, ih]
      simp [hknows]

end Draft

section

variable {statements : List Statement} {error : AssemblyError}

theorem addAll_empty_eq_error (hwritable : ∀ statement ∈ statements, statement.Writable) :
    Draft.empty.addAll statements = .error error ↔
      ∃ before statement after, statements = before ++ statement :: after ∧ Sound before ∧
        Refused before statement error := by
  rw [Draft.addAll_eq_error]
  refine exists₃_congr fun before statement after => and_congr_right fun hsplit => ?_
  subst hsplit
  rw [List.forall_mem_append, List.forall_mem_cons] at hwritable
  simp only [addAll_eq_ok_iff_sound hwritable.1, ← add_eq_error hwritable.2.1]
  simp

theorem resolve_extendAll_eq_error :
    (Draft.empty.extendAll statements).resolve = .error error ↔
      ∃ front name rest, statements.flatMap Statement.terms = front ++ .reference name :: rest ∧
        (∀ other, .reference other ∈ front → .label other ∈ statements) ∧
        .label name ∉ statements ∧ error = .unknownLabel name := by
  have hterms : (Draft.empty.extendAll statements).terms.toList =
      statements.flatMap Statement.terms :=
    Draft.toList_extendAll Draft.empty statements
  simp only [Draft.resolve, hterms, Draft.resolveAll_eq_error, Draft.knows_empty_extendAll,
    Draft.resolveTerm_eq_error, Draft.address?_empty_extendAll]
  constructor
  · rintro ⟨front, _, rest, hsplit, hfront, name, rfl, hname, rfl⟩
    exact ⟨front, name, rest, hsplit, hfront, hname, rfl⟩
  · rintro ⟨front, name, rest, hsplit, hfront, hname, rfl⟩
    exact ⟨front, _, rest, hsplit, hfront, name, rfl, hname, rfl⟩

theorem assembleStatements_eq_error (hwritable : ∀ statement ∈ statements, statement.Writable) :
    assembleStatements statements = .error error ↔ Reported statements error := by
  rw [assembleStatements]
  cases hadd : Draft.empty.addAll statements with
  | error cause =>
    rw [Except.error.injEq]
    constructor
    · rintro rfl
      obtain ⟨before, statement, after, hsplit, hbefore, hrefused⟩ :=
        (addAll_empty_eq_error hwritable).1 hadd
      exact .refused hsplit hbefore hrefused
    · rintro (⟨hsplit, hbefore, hrefused⟩ | ⟨hsound, -, -, -⟩)
      · rw [(addAll_empty_eq_error hwritable).2 ⟨_, _, _, hsplit, hbefore, hrefused⟩] at hadd
        exact (Except.error.inj hadd).symm
      · rw [(addAll_eq_ok_iff_sound hwritable).2 ⟨hsound, rfl⟩] at hadd
        cases hadd
  | ok draft =>
    obtain ⟨hsound, rfl⟩ := (addAll_eq_ok_iff_sound hwritable).1 hadd
    refine resolve_extendAll_eq_error.trans ?_
    constructor
    · rintro ⟨front, name, rest, hsplit, hfront, hname, rfl⟩
      exact .unknown hsound hsplit hfront hname
    · rintro (⟨hsplit, -, hrefused⟩ | ⟨-, hsplit, hfront, hname⟩)
      · exact absurd hrefused (hsound _ _ _ hsplit _)
      · exact ⟨_, _, _, hsplit, hfront, hname, rfl⟩

theorem not_consistent_iff :
    ¬ Consistent statements ↔
      (∃ name, 2 ≤ statements.count (.label name)) ∨
        (∃ i, .instruction i ∈ statements ∧ i.HasImmediateDestination) ∨
        ∃ name, .label name ∉ statements ∧ ∃ statement ∈ statements, statement.Uses name := by
  constructor
  · intro h
    by_contra hfaultless
    rw [not_or, not_or] at hfaultless
    obtain ⟨hunique, hstorable, hdefined⟩ := hfaultless
    refine h ⟨?_, ?_, ?_⟩
    · intro before name after hsplit hbefore
      exact hunique ⟨name, two_le_count_iff.2 ⟨before, after, hsplit, hbefore⟩⟩
    · intro statement hstatement name huses
      by_contra hname
      exact hdefined ⟨name, hname, statement, hstatement, huses⟩
    · intro i hi
      rw [← Bool.not_eq_true, Instruction.storesImmediate_iff]
      exact fun himmediate => hstorable ⟨i, hi, himmediate⟩
  · rintro (⟨name, htwice⟩ | ⟨i, hi, himmediate⟩ | ⟨name, hname, statement, hstatement, huses⟩) h
    · obtain ⟨before, after, hsplit, hbefore⟩ := two_le_count_iff.1 htwice
      exact h.unique before name after hsplit hbefore
    · rw [← Instruction.storesImmediate_iff, h.storable i hi] at himmediate
      cases himmediate
    · exact hname (h.defined statement hstatement name huses)

end

/-- A text whose statements can be read is refused exactly if a label is defined twice, an
instruction has an immediate destination or a name that is used is not defined. Reported is the
first statement with one of the first two faults, and only where there is none, the first name that
is not defined. -/
theorem assemble_rejects {text : String} {statements : List Statement}
    (hparse : parse (expandTabs 0 text.toList) = .ok statements) :
    ((∃ error, assemble text = .error error) ↔
      (∃ name, 2 ≤ statements.count (.label name)) ∨
        (∃ i, .instruction i ∈ statements ∧ i.HasImmediateDestination) ∨
        ∃ name, .label name ∉ statements ∧ ∃ statement ∈ statements, statement.Uses name) ∧
    (∀ error, assemble text = .error error ↔ Reported statements error) ∧
    (∀ name, (AssemblyError.duplicateLabel name).message = "Duplicate label " ++ name) ∧
    (∀ op offset, (AssemblyError.immediateDestination op offset).message =
      "Immediate operand used as destination of " ++ op.mnemonic ++ " @ " ++ toString offset) ∧
    ∀ name, (AssemblyError.unknownLabel name).message = "Unknown label " ++ name := by
  have hwritable := writable_of_parse hparse
  have hassemble : assemble text = assembleStatements statements := by
    rw [assemble, hparse]
  refine ⟨?_, ?_, fun name => rfl, fun op offset => rfl, fun name => rfl⟩
  · rw [← not_consistent_iff, hassemble]
    constructor
    · rintro ⟨error, herror⟩ hconsistent
      have hwords := (assembleStatements_eq_ok hwritable).2
        ⟨hconsistent, _, hconsistent.locates, rfl⟩
      rw [herror] at hwords
      cases hwords
    · intro h
      cases hresult : assembleStatements statements with
      | error error => exact ⟨error, rfl⟩
      | ok words => exact absurd ((assembleStatements_eq_ok hwritable).1 hresult).1 h
  · intro error
    rw [hassemble]
    exact assembleStatements_eq_error hwritable

def faulty : List Statement :=
  [.instruction ⟨.output, [⟨.position, .reference "x"⟩]⟩,
    .instruction ⟨.input, [⟨.immediate, .literal 5⟩]⟩, .label "a", .label "a"]

def unresolvable : List Statement :=
  [.data [.reference "x", .literal 7, .reference "y"], .label "x",
    .instruction ⟨.output, [⟨.immediate, .reference "z"⟩]⟩]

theorem assemble_rejects_faulty :
    parse (expandTabs 0 "out x in #5 a: a:".toList) = .ok faulty ∧
    assemble "out x in #5 a: a:" = .error (.immediateDestination .input 2) ∧
    Reported faulty (.immediateDestination .input 2) ∧
    parse (expandTabs 0 "DW x 7 y x: out #z".toList) = .ok unresolvable ∧
    assemble "DW x 7 y x: out #z" = .error (.unknownLabel "y") ∧
    Reported unresolvable (.unknownLabel "y") := by
  have hfaulty : parse (expandTabs 0 "out x in #5 a: a:".toList) = .ok faulty := by
    decide +kernel
  have hinput : assemble "out x in #5 a: a:" = .error (.immediateDestination .input 2) := by
    decide +kernel
  have hundefined : parse (expandTabs 0 "DW x 7 y x: out #z".toList) = .ok unresolvable := by
    decide +kernel
  have hname : assemble "DW x 7 y x: out #z" = .error (.unknownLabel "y") := by
    decide +kernel
  obtain ⟨-, hreported, -⟩ := assemble_rejects hfaulty
  obtain ⟨-, hreported', -⟩ := assemble_rejects hundefined
  exact ⟨hfaulty, hinput, (hreported _).1 hinput, hundefined, hname, (hreported' _).1 hname⟩

end Assembly

end TapeMachine
