import TapeMachine.Assembly.Token

namespace TapeMachine.Assembly

inductive Term : Type
  | literal (value : Int)
  | reference (label : String)
  deriving DecidableEq

inductive Statement : Type
  | label (name : String)
  | instruction (instruction : Instruction Term)
  | data (terms : List Term)
  deriving DecidableEq

def operand? : List Lexeme → Option (Operand Term × List Lexeme)
  | ⟨.hash, _⟩ :: ⟨.number n, _⟩ :: rest => some (⟨.immediate, .literal n⟩, rest)
  | ⟨.hash, _⟩ :: ⟨.name s, _⟩ :: rest => some (⟨.immediate, .reference s⟩, rest)
  | ⟨.atSign, _⟩ :: ⟨.number n, _⟩ :: rest => some (⟨.relative, .literal n⟩, rest)
  | ⟨.number n, _⟩ :: rest => some (⟨.position, .literal n⟩, rest)
  | ⟨.name s, _⟩ :: rest => some (⟨.position, .reference s⟩, rest)
  | _ => none

def operands? : Nat → List Lexeme → Option (List (Operand Term) × List Lexeme)
  | 0, lexemes => some ([], lexemes)
  | n + 1, lexemes =>
    match operand? lexemes with
    | none => none
    | some (operand, lexemes) =>
      match operands? n lexemes with
      | none => none
      | some (operands, lexemes) => some (operand :: operands, lexemes)

/-- As many terms as there are; a name with a colon behind it is not one of them. -/
def terms : List Lexeme → List Term × List Lexeme
  | ⟨.number n, _⟩ :: rest =>
    match terms rest with
    | (ts, rest) => (.literal n :: ts, rest)
  | ⟨.name s, text⟩ :: ⟨.colon, text'⟩ :: rest =>
    ([], ⟨.name s, text⟩ :: ⟨.colon, text'⟩ :: rest)
  | ⟨.name s, _⟩ :: rest =>
    match terms rest with
    | (ts, rest) => (.reference s :: ts, rest)
  | lexemes => ([], lexemes)

def statement? : List Lexeme → Option (Statement × List Lexeme)
  | ⟨.name s, _⟩ :: ⟨.colon, _⟩ :: rest => some (.label s, rest)
  | ⟨.mnemonic op, _⟩ :: rest =>
    match operands? op.arity rest with
    | none => none
    | some (operands, rest) => some (.instruction ⟨op, operands⟩, rest)
  | ⟨.data, _⟩ :: rest =>
    match terms rest with
    | ([], _) => none
    | (ts, rest) => some (.data ts, rest)
  | _ => none

theorem length_operand? {lexemes rest : List Lexeme} {operand : Operand Term}
    (h : operand? lexemes = some (operand, rest)) : rest.length < lexemes.length := by
  simp only [operand?] at h
  split at h <;> cases h <;> simp only [List.length_cons] <;> omega

theorem length_operands? {n : Nat} {lexemes rest : List Lexeme} {operands : List (Operand Term)}
    (h : operands? n lexemes = some (operands, rest)) : rest.length ≤ lexemes.length := by
  induction n generalizing lexemes operands with
  | zero =>
    simp only [operands?, Option.some.injEq, Prod.mk.injEq] at h
    simp [h.2]
  | succ n ih =>
    simp only [operands?] at h
    split at h
    · cases h
    · next hfirst =>
      split at h
      · cases h
      · next hrest =>
        simp only [Option.some.injEq, Prod.mk.injEq] at h
        obtain ⟨-, rfl⟩ := h
        have h1 := length_operand? hfirst
        have h2 := ih hrest
        omega

theorem length_terms (lexemes : List Lexeme) : (terms lexemes).2.length ≤ lexemes.length := by
  fun_induction terms lexemes with
  | case1 _ _ _ _ _ hrest ih => rw [hrest] at ih; exact Nat.le_succ_of_le ih
  | case2 => exact Nat.le_refl _
  | case3 _ _ _ _ _ _ hrest ih => rw [hrest] at ih; exact Nat.le_succ_of_le ih
  | case4 => exact Nat.le_refl _

theorem length_statement? {lexemes rest : List Lexeme} {statement : Statement}
    (h : statement? lexemes = some (statement, rest)) : rest.length < lexemes.length := by
  simp only [statement?] at h
  split at h
  · simp only [Option.some.injEq, Prod.mk.injEq] at h
    simp only [← h.2, List.length_cons]
    omega
  · split at h
    · cases h
    · next hoperands =>
      simp only [Option.some.injEq, Prod.mk.injEq] at h
      have := length_operands? hoperands
      simp only [← h.2, List.length_cons]
      omega
  · next lexemes =>
    split at h
    · cases h
    · next hterms =>
      simp only [Option.some.injEq, Prod.mk.injEq] at h
      have hle := length_terms lexemes
      simp only [hterms, h.2] at hle
      simp only [List.length_cons]
      omega
  · cases h

/-- Reads statements to the end. The error is the rest of the text from the first statement on that
cannot be read. -/
def Statement.ofLexemes (lexemes : List Lexeme) : Except (List Char) (List Statement) :=
  match lexemes with
  | [] => .ok []
  | lexeme :: rest =>
    match h : statement? (lexeme :: rest) with
    | none => .error lexeme.text
    | some (statement, rest') =>
      have := length_statement? h
      match Statement.ofLexemes rest' with
      | .error text => .error text
      | .ok statements => .ok (statement :: statements)
termination_by lexemes.length
decreasing_by exact this

def Statement.ofChars (text : List Char) : Except (List Char) (List Statement) :=
  Statement.ofLexemes (scan false text)

def Term.text : Term → String
  | .literal value => toString value
  | .reference label => label

def operandText (operand : Operand Term) : String :=
  operand.mode.sigil ++ operand.value.text

def Statement.text : Statement → String
  | .label name => name ++ ":"
  | .instruction ⟨op, operands⟩ => " ".intercalate (op.mnemonic :: operands.map operandText)
  | .data terms => " ".intercalate ("DW" :: terms.map Term.text)

end TapeMachine.Assembly
