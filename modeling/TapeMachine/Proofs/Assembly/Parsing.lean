import TapeMachine.Assembly.Draft
import TapeMachine.Proofs.Assembly.Scanning

namespace TapeMachine.Assembly

def Term.token : Term → Token
  | literal value => .number value
  | reference label => .name label

def operandTokens : Operand Term → List Token
  | ⟨.position, value⟩ => [value.token]
  | ⟨.immediate, value⟩ => [.hash, value.token]
  | ⟨.relative, value⟩ => [.atSign, value.token]

namespace Statement

def tokens : Statement → List Token
  | label name => [.name name, .colon]
  | instruction ⟨op, operands⟩ => .mnemonic op :: operands.flatMap operandTokens
  | data terms => .data :: terms.map Term.token

/-- The statement can be written: an instruction has as many operands as its opcode takes, none of
them a label counted from the base, and a list of data is not empty. -/
def Writable : Statement → Prop
  | label _ => True
  | instruction ⟨op, operands⟩ =>
    operands.length = op.arity ∧
      ∀ operand ∈ operands, operand.mode = .relative → ∃ n, operand.value = .literal n
  | data terms => terms ≠ []

end Statement

inductive Restarts : List Token → Prop
  | nil : Restarts []
  | label {name tokens} : Restarts (.name name :: .colon :: tokens)
  | mnemonic {op tokens} : Restarts (.mnemonic op :: tokens)
  | data {tokens} : Restarts (.data :: tokens)

theorem Statement.restarts (statement : Statement) (more : List Token) :
    Restarts (statement.tokens ++ more) := by
  cases statement with
  | label name => exact .label
  | instruction i => exact .mnemonic
  | data terms => exact .data

theorem restarts_flatMap (statements : List Statement) :
    Restarts (statements.flatMap Statement.tokens) := by
  cases statements with
  | nil => exact .nil
  | cons statement statements => exact statement.restarts _

section

variable {lexemes : List Lexeme} {more : List Token}

theorem exists_of_map_token {token : Token} (h : lexemes.map Lexeme.token = token :: more) :
    ∃ text rest, lexemes = ⟨token, text⟩ :: rest ∧ rest.map Lexeme.token = more := by
  obtain ⟨⟨_, text⟩, rest, rfl, rfl, hrest⟩ := List.map_eq_cons_iff.1 h
  exact ⟨text, rest, rfl, hrest⟩

theorem operand?_tokens {operand : Operand Term}
    (hrelative : operand.mode = .relative → ∃ n, operand.value = .literal n)
    (h : lexemes.map Lexeme.token = operandTokens operand ++ more) :
    ∃ rest, operand? lexemes = some (operand, rest) ∧ rest.map Lexeme.token = more := by
  obtain ⟨mode, value⟩ := operand
  cases mode with
  | position =>
    obtain ⟨text, rest, rfl, hrest⟩ := exists_of_map_token h
    cases value <;> exact ⟨rest, rfl, hrest⟩
  | immediate =>
    obtain ⟨text, rest, rfl, hvalue⟩ := exists_of_map_token h
    obtain ⟨text', rest', rfl, hrest⟩ := exists_of_map_token hvalue
    cases value <;> exact ⟨rest', rfl, hrest⟩
  | relative =>
    obtain ⟨n, hn⟩ := hrelative rfl
    cases hn
    obtain ⟨text, rest, rfl, hvalue⟩ := exists_of_map_token h
    obtain ⟨text', rest', rfl, hrest⟩ := exists_of_map_token hvalue
    exact ⟨rest', rfl, hrest⟩

theorem operands?_tokens {operands : List (Operand Term)}
    (hrelative : ∀ operand ∈ operands, operand.mode = .relative →
      ∃ n, operand.value = .literal n)
    (h : lexemes.map Lexeme.token = operands.flatMap operandTokens ++ more) :
    ∃ rest, operands? operands.length lexemes = some (operands, rest) ∧
      rest.map Lexeme.token = more := by
  induction operands generalizing lexemes with
  | nil => exact ⟨lexemes, rfl, h⟩
  | cons operand operands ih =>
    rw [List.forall_mem_cons] at hrelative
    rw [List.flatMap_cons, List.append_assoc] at h
    obtain ⟨rest, hfirst, hrest⟩ := operand?_tokens hrelative.1 h
    obtain ⟨rest', hothers, hrest'⟩ := ih hrelative.2 hrest
    refine ⟨rest', ?_, hrest'⟩
    simp only [List.length_cons, operands?, hfirst, hothers]

theorem terms_of_restarts (hmore : Restarts more) (h : lexemes.map Lexeme.token = more) :
    terms lexemes = ([], lexemes) := by
  cases hmore with
  | nil =>
    obtain rfl := List.map_eq_nil_iff.1 h
    rfl
  | label =>
    obtain ⟨text, rest, rfl, hcolon⟩ := exists_of_map_token h
    obtain ⟨text', rest', rfl, -⟩ := exists_of_map_token hcolon
    rfl
  | mnemonic | data =>
    obtain ⟨text, rest, rfl, -⟩ := exists_of_map_token h
    rfl

theorem terms_literal (n : Int) (text : List Char) (lexemes : List Lexeme) :
    terms (⟨.number n, text⟩ :: lexemes) =
      (.literal n :: (terms lexemes).1, (terms lexemes).2) :=
  rfl

theorem terms_reference (name : String) (text : List Char)
    (h : ∀ lexeme ∈ lexemes.head?, lexeme.token ≠ .colon) :
    terms (⟨.name name, text⟩ :: lexemes) =
      (.reference name :: (terms lexemes).1, (terms lexemes).2) := by
  cases lexemes with
  | nil => rfl
  | cons lexeme lexemes =>
    obtain ⟨token, text'⟩ := lexeme
    cases token with
    | colon => exact absurd rfl (h _ rfl)
    | _ => rfl

theorem not_colon_of_terms {ts : List Term} (hmore : Restarts more)
    (h : lexemes.map Lexeme.token = ts.map Term.token ++ more) :
    ∀ lexeme ∈ lexemes.head?, lexeme.token ≠ .colon := by
  rintro lexeme hlexeme hcolon
  obtain ⟨rest, rfl⟩ := List.head?_eq_some_iff.1 hlexeme
  rw [List.map_cons, hcolon] at h
  cases ts with
  | nil =>
    rw [List.map_nil, List.nil_append] at h
    rw [← h] at hmore
    cases hmore
  | cons term ts => cases term <;> cases h

theorem terms_tokens {ts : List Term} (hmore : Restarts more)
    (h : lexemes.map Lexeme.token = ts.map Term.token ++ more) :
    ∃ rest, terms lexemes = (ts, rest) ∧ rest.map Lexeme.token = more := by
  induction ts generalizing lexemes with
  | nil => exact ⟨lexemes, terms_of_restarts hmore h, h⟩
  | cons term ts ih =>
    obtain ⟨text, rest, rfl, hrest⟩ := exists_of_map_token h
    obtain ⟨rest', hterms, hmore'⟩ := ih hrest
    refine ⟨rest', ?_, hmore'⟩
    cases term with
    | literal n =>
      change terms (⟨.number n, text⟩ :: rest) = _
      rw [terms_literal, hterms]
    | reference name =>
      change terms (⟨.name name, text⟩ :: rest) = _
      rw [terms_reference name text (not_colon_of_terms hmore hrest), hterms]

theorem statement?_tokens {statement : Statement} (hwritable : statement.Writable)
    (hmore : Restarts more) (h : lexemes.map Lexeme.token = statement.tokens ++ more) :
    ∃ rest, statement? lexemes = some (statement, rest) ∧ rest.map Lexeme.token = more := by
  cases statement with
  | label name =>
    obtain ⟨text, rest, rfl, hcolon⟩ := exists_of_map_token h
    obtain ⟨text', rest', rfl, hrest⟩ := exists_of_map_token hcolon
    exact ⟨rest', rfl, hrest⟩
  | instruction i =>
    obtain ⟨op, operands⟩ := i
    obtain ⟨hlength, hrelative⟩ := hwritable
    obtain ⟨text, rest, rfl, hoperands⟩ := exists_of_map_token h
    obtain ⟨rest', hread, hrest⟩ := operands?_tokens hrelative hoperands
    refine ⟨rest', ?_, hrest⟩
    simp only [statement?, ← hlength, hread]
  | data ts =>
    obtain ⟨text, rest, rfl, hts⟩ := exists_of_map_token h
    obtain ⟨rest', hread, hrest⟩ := terms_tokens hmore hts
    refine ⟨rest', ?_, hrest⟩
    cases ts with
    | nil => exact absurd rfl hwritable
    | cons term ts => simp only [statement?, hread]

theorem ofLexemes_tokens {statements : List Statement}
    (hwritable : ∀ statement ∈ statements, statement.Writable)
    (h : lexemes.map Lexeme.token = statements.flatMap Statement.tokens) :
    Statement.ofLexemes lexemes = .ok statements := by
  induction statements generalizing lexemes with
  | nil =>
    obtain rfl := List.map_eq_nil_iff.1 h
    simp only [Statement.ofLexemes]
  | cons statement statements ih =>
    rw [List.forall_mem_cons] at hwritable
    obtain ⟨rest, hread, hrest⟩ :=
      statement?_tokens hwritable.1 (restarts_flatMap statements) h
    have hothers := ih hwritable.2 hrest
    cases lexemes with
    | nil => cases hread
    | cons lexeme lexemes =>
      rw [Statement.ofLexemes]
      split
      · next hnone =>
        rw [hread] at hnone
        cases hnone
      · next hsome =>
        rw [hread] at hsome
        cases hsome
        rw [hothers]

theorem parse_tokens {text : List Char} {statements : List Statement}
    (hwritable : ∀ statement ∈ statements, statement.Writable)
    (h : tokens false text = statements.flatMap Statement.tokens) :
    parse text = .ok statements := by
  rw [parse, Statement.ofChars, ofLexemes_tokens hwritable h]

end

theorem relative_of_operand? {lexemes rest : List Lexeme} {operand : Operand Term}
    (h : operand? lexemes = some (operand, rest)) (hrelative : operand.mode = .relative) :
    ∃ n, operand.value = .literal n := by
  simp only [operand?] at h
  split at h <;> cases h
  all_goals first | exact ⟨_, rfl⟩ | cases hrelative

theorem writable_of_operands? {n : Nat} {lexemes rest : List Lexeme}
    {operands : List (Operand Term)} (h : operands? n lexemes = some (operands, rest)) :
    operands.length = n ∧
      ∀ operand ∈ operands, operand.mode = .relative → ∃ n, operand.value = .literal n := by
  induction n generalizing lexemes operands with
  | zero =>
    cases h
    exact ⟨rfl, List.forall_mem_nil _⟩
  | succ n ih =>
    simp only [operands?] at h
    split at h
    · cases h
    · next hfirst =>
      split at h
      · cases h
      · next hrest =>
        cases h
        obtain ⟨hlength, hrelative⟩ := ih hrest
        exact ⟨congrArg Nat.succ hlength,
          List.forall_mem_cons.2 ⟨relative_of_operand? hfirst, hrelative⟩⟩

theorem writable_of_statement? {lexemes rest : List Lexeme} {statement : Statement}
    (h : statement? lexemes = some (statement, rest)) : statement.Writable := by
  simp only [statement?] at h
  split at h
  · cases h
    trivial
  · split at h
    · cases h
    · next hoperands =>
      cases h
      exact writable_of_operands? hoperands
  · split at h
    · cases h
    · next hne _ =>
      cases h
      exact hne
  · cases h

theorem writable_of_ofLexemes {lexemes : List Lexeme} {statements : List Statement}
    (h : Statement.ofLexemes lexemes = .ok statements) :
    ∀ statement ∈ statements, statement.Writable := by
  fun_induction Statement.ofLexemes lexemes generalizing statements with
  | case1 =>
    cases h
    exact List.forall_mem_nil _
  | case2 => cases h
  | case3 => cases h
  | case4 lexeme rest statement rest' hread _ others hothers ih =>
    cases h
    exact List.forall_mem_cons.2 ⟨writable_of_statement? hread, ih hothers⟩

theorem writable_of_parse {text : List Char} {statements : List Statement}
    (h : parse text = .ok statements) : ∀ statement ∈ statements, statement.Writable := by
  rw [parse] at h
  split at h
  · next hread =>
    cases h
    exact writable_of_ofLexemes hread
  · cases h

theorem tokens_of_operand? {lexemes rest : List Lexeme} {operand : Operand Term}
    (h : operand? lexemes = some (operand, rest)) :
    lexemes.map Lexeme.token = operandTokens operand ++ rest.map Lexeme.token := by
  simp only [operand?] at h
  split at h <;> cases h <;> rfl

theorem tokens_of_operands? {n : Nat} {lexemes rest : List Lexeme}
    {operands : List (Operand Term)} (h : operands? n lexemes = some (operands, rest)) :
    lexemes.map Lexeme.token = operands.flatMap operandTokens ++ rest.map Lexeme.token := by
  induction n generalizing lexemes operands with
  | zero =>
    cases h
    rfl
  | succ n ih =>
    simp only [operands?] at h
    split at h
    · cases h
    · next hfirst =>
      split at h
      · cases h
      · next hrest =>
        cases h
        rw [tokens_of_operand? hfirst, ih hrest, List.flatMap_cons, List.append_assoc]

theorem tokens_of_terms (lexemes : List Lexeme) :
    lexemes.map Lexeme.token =
      (terms lexemes).1.map Term.token ++ (terms lexemes).2.map Lexeme.token := by
  fun_induction terms lexemes with
  | case1 n text rest ts rest' hterms ih =>
    rw [hterms] at ih
    exact congrArg (Token.number n :: ·) ih
  | case2 => rfl
  | case3 name text rest _ ts rest' hterms ih =>
    rw [hterms] at ih
    exact congrArg (Token.name name :: ·) ih
  | case4 => rfl

theorem tokens_of_statement? {lexemes rest : List Lexeme} {statement : Statement}
    (h : statement? lexemes = some (statement, rest)) :
    lexemes.map Lexeme.token = statement.tokens ++ rest.map Lexeme.token := by
  simp only [statement?] at h
  split at h
  · cases h
    rfl
  · next op text lexemes =>
    split at h
    · cases h
    · next hoperands =>
      cases h
      exact congrArg (Token.mnemonic op :: ·) (tokens_of_operands? hoperands)
  · next text lexemes =>
    split at h
    · cases h
    · next hterms =>
      cases h
      have hall := tokens_of_terms lexemes
      rw [hterms] at hall
      exact congrArg (Token.data :: ·) hall
  · cases h

theorem tokens_of_ofLexemes {lexemes : List Lexeme} {statements : List Statement}
    (h : Statement.ofLexemes lexemes = .ok statements) :
    lexemes.map Lexeme.token = statements.flatMap Statement.tokens := by
  fun_induction Statement.ofLexemes lexemes generalizing statements with
  | case1 =>
    cases h
    rfl
  | case2 => cases h
  | case3 => cases h
  | case4 lexeme rest statement rest' hread _ others hothers ih =>
    cases h
    rw [tokens_of_statement? hread, ih hothers, List.flatMap_cons]

theorem tokens_of_parse {text : List Char} {statements : List Statement}
    (h : parse text = .ok statements) :
    tokens false text = statements.flatMap Statement.tokens := by
  rw [parse] at h
  split at h
  · next hread =>
    cases h
    exact tokens_of_ofLexemes hread
  · cases h

end TapeMachine.Assembly
