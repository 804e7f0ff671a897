import TapeMachine.Proofs.Assembly.Layout
import TapeMachine.Proofs.Assembly.Rendering
import TapeMachine.Proofs.ProgramText.Reading

namespace TapeMachine.Assembly

open Text

inductive Reserved : String → Prop
  | data : Reserved "DW"
  | mnemonic (op : Opcode) : Reserved op.mnemonic

def Mentions (statements : List Statement) (name : String) : Prop :=
  .label name ∈ statements ∨ ∃ statement ∈ statements, statement.Uses name

/-- An integer with the word directly behind it: the name characters that touch it are this word. -/
def Touches (lexeme : Lexeme) (word : String) : Prop :=
  ∃ n piece rest, lexeme = ⟨.number n, piece ++ rest⟩ ∧ Decimal.Numeral n piece ∧
    rest.takeWhile isNameChar = word.toList

def Abuts (text : List Char) (word : String) : Prop :=
  ∃ lexeme ∈ scan false text, Touches lexeme word

section

variable {name : String}

theorem name_mem_operandTokens {operand : Operand Term} :
    .name name ∈ operandTokens operand ↔ operand.value = .reference name := by
  obtain ⟨mode, value⟩ := operand
  cases mode <;> cases value <;> simp [operandTokens, Term.token, eq_comm]

theorem name_mem_map_token {terms : List Term} :
    .name name ∈ terms.map Term.token ↔ .reference name ∈ terms := by
  induction terms with
  | nil => simp
  | cons term terms ih => cases term <;> simp [Term.token, ih]

theorem Statement.name_mem_tokens {statement : Statement} :
    .name name ∈ statement.tokens ↔ statement = .label name ∨ statement.Uses name := by
  cases statement with
  | label key => simp [tokens, Uses, eq_comm]
  | instruction i => simp [tokens, Uses, name_mem_operandTokens]
  | data terms => simp [tokens, Uses, name_mem_map_token]

theorem name_mem_flatMap_tokens {statements : List Statement} :
    .name name ∈ statements.flatMap Statement.tokens ↔ Mentions statements name := by
  simp only [List.mem_flatMap, Statement.name_mem_tokens, and_or_left, exists_or, Mentions]
  simp

end

theorem Statement.unknown_not_mem_tokens (statement : Statement) :
    .unknown ∉ statement.tokens := by
  have hterm (term : Term) : term.token ≠ .unknown := by
    cases term <;> rintro ⟨⟩
  have hoperand (operand : Operand Term) : .unknown ∉ operandTokens operand := by
    obtain ⟨mode, value⟩ := operand
    cases mode <;> simp [operandTokens, (hterm value).symm]
  cases statement with
  | label key => simp [tokens]
  | instruction i => simp [tokens, hoperand]
  | data terms => simp [tokens, hterm]

namespace Token

theorem ofWord_eq_name {free : Bool} {word name : String} (h : ofWord free word = .name name) :
    word = name := by
  simp only [ofWord] at h
  split at h
  · split at h
    · cases h
    · split at h <;> cases h
      rfl
  · cases h
    rfl

theorem ofWord_ne_number (free : Bool) (word : String) (n : Int) :
    ofWord free word ≠ number n := by
  simp only [ofWord]
  split
  · split
    · rintro ⟨⟩
    · split <;> rintro ⟨⟩
  · rintro ⟨⟩

theorem read_cases (glued : Bool) (c : Char) (text : List Char) :
    isNameStart c = true ∧
      read glued c text = (ofWord (!glued && (text.dropWhile isNameChar).head? != some '$')
        (.ofList (c :: text.takeWhile isNameChar)), text.dropWhile isNameChar) ∨
    isNameStart c = false ∧
      ((∃ n rest, Decimal.integer? (c :: text) = some (n, rest) ∧
        read glued c text = (number n, rest)) ∨
      (read glued c text).1.endsInNameChar = false) := by
  simp only [read]
  split_ifs with hhash hat hcolon hname
  · subst hhash
    exact .inr ⟨rfl, .inr rfl⟩
  · subst hat
    exact .inr ⟨rfl, .inr rfl⟩
  · subst hcolon
    exact .inr ⟨rfl, .inr rfl⟩
  · exact .inl ⟨hname, rfl⟩
  · refine .inr ⟨Bool.eq_false_iff.2 hname, ?_⟩
    cases hinteger : Decimal.integer? (c :: text) with
    | none => exact .inr rfl
    | some result => exact .inl ⟨_, _, rfl, rfl⟩

end Token

theorem not_touches {token : Token} {text : List Char} {word : String}
    (h : ∀ n, token ≠ .number n) : ¬ Touches ⟨token, text⟩ word := by
  rintro ⟨n, piece, rest, heq, -⟩
  exact h n (congrArg Lexeme.token heq)

theorem unknown_mem_tokens_dollar (glued : Bool) (rest : List Char) :
    .unknown ∈ tokens glued ('$' :: rest) := by
  have hdollar : tokens glued ('$' :: rest) = .unknown :: tokens false rest :=
    tokens_mark rfl (by decide) (fun _ _ => rfl) rfl glued rest
  rw [hdollar]
  exact List.mem_cons_self

theorem isNameChar_of_isNameStart {c : Char} (h : isNameStart c = true) : isNameChar c = true := by
  simp only [isNameStart, Bool.or_eq_true] at h
  simp only [isNameChar, Char.isAlphanum, Bool.or_eq_true]
  exact h.imp_left .inl

namespace Reserved

variable {word : String} (h : Reserved word)

include h

theorem exists_cons : ∃ c text, word.toList = c :: text ∧ isNameStart c = true := by
  cases h with
  | data => exact ⟨_, _, rfl, rfl⟩
  | mnemonic op => cases op <;> exact ⟨_, _, rfl, rfl⟩

theorem ofWord_ne_name : Token.ofWord true word ≠ .name word := by
  cases h with
  | data => decide
  | mnemonic op =>
    rw [ofWord_mnemonic]
    rintro ⟨⟩

theorem exists_head {text : List Char} (htext : text.takeWhile isNameChar = word.toList) :
    ∃ c others, text = c :: others ∧ isNameStart c = true := by
  obtain ⟨d, more, hword, hd⟩ := h.exists_cons
  rw [hword] at htext
  cases text with
  | nil => cases htext
  | cons c others =>
    rw [List.takeWhile_cons] at htext
    split at htext <;> cases htext
    exact ⟨d, others, rfl, hd⟩

theorem takeWhile_ne {c : Char} (hc : isNameStart c = false) (text : List Char) :
    (c :: text).takeWhile isNameChar ≠ word.toList := by
  intro htext
  obtain ⟨_, _, ⟨⟩, hname⟩ := h.exists_head htext
  rw [hc] at hname
  cases hname

theorem takeWhile_dropWhile_ne (text : List Char) :
    (text.dropWhile isNameChar).takeWhile isNameChar ≠ word.toList := by
  intro htext
  obtain ⟨c, others, heq, hname⟩ := h.exists_head htext
  have hchar := not_of_mem_head?_dropWhile isNameChar text c (by rw [heq]; rfl)
  rw [isNameChar_of_isNameStart hname] at hchar
  cases hchar

theorem touches_number {c : Char} {text rest : List Char} {n : Int}
    (hinteger : Decimal.integer? (c :: text) = some (n, rest)) :
    Touches ⟨.number n, c :: text⟩ word ↔ rest.takeWhile isNameChar = word.toList := by
  constructor
  · rintro ⟨m, piece, behind, heq, hpiece, hrest⟩
    obtain ⟨d, others, rfl, hd⟩ := h.exists_head hrest
    have hdigit : ∀ e ∈ (d :: others).head?, e.isDigit = false := by
      rintro _ ⟨⟩
      by_contra hdigit
      rw [isNameStart_of_isDigit (eq_true_of_ne_false hdigit)] at hd
      cases hd
    simp only [Lexeme.mk.injEq, Token.number.injEq] at heq
    obtain ⟨rfl, htext⟩ := heq
    rw [htext, hpiece.integer? hdigit] at hinteger
    cases hinteger
    exact hrest
  · intro hrest
    obtain ⟨piece, hpiece, htext⟩ := Decimal.exists_numeral_of_integer? hinteger
    exact ⟨n, piece, rest, by rw [htext], hpiece, hrest⟩

theorem name_eq_ofWord {glued : Bool} {c : Char} {text : List Char} (hc : isNameStart c = true)
    (hdollar : (text.dropWhile isNameChar).head? ≠ some '$') :
    .name word = Token.ofWord (!glued && (text.dropWhile isNameChar).head? != some '$')
        (.ofList (c :: text.takeWhile isNameChar)) ↔
      glued = true ∧ (c :: text).takeWhile isNameChar = word.toList := by
  have hrun : (c :: text).takeWhile isNameChar = c :: text.takeWhile isNameChar :=
    List.takeWhile_cons_of_pos (isNameChar_of_isNameStart hc)
  rw [hrun, bne_iff_ne.2 hdollar, Bool.and_true]
  constructor
  · intro heq
    obtain rfl := Token.ofWord_eq_name heq.symm
    cases glued with
    | false => exact absurd heq.symm h.ofWord_ne_name
    | true => exact ⟨rfl, (String.toList_ofList).symm⟩
  · rintro ⟨rfl, hword⟩
    rw [hword, String.ofList_toList]
    rfl

/-- A reserved word among the names of a text: at its start, if a name character stands in front of
it, or behind an integer. -/
theorem name_mem_scan (glued : Bool) (text : List Char)
    (hknown : .unknown ∉ (scan glued text).map Lexeme.token) :
    .name word ∈ (scan glued text).map Lexeme.token ↔
      (glued = true ∧ text.takeWhile isNameChar = word.toList) ∨
        ∃ lexeme ∈ scan glued text, Touches lexeme word := by
  fun_induction scan glued text with
  | case1 glued =>
    have hstart : [].takeWhile isNameChar ≠ word.toList := by
      intro htext
      obtain ⟨_, _, ⟨⟩, -⟩ := h.exists_head htext
    simp only [List.map_nil, List.not_mem_nil, hstart, and_false, false_and, exists_false, or_false]
  | case2 glued c rest hlayout ih =>
    have hc : isNameStart c = false := by
      by_contra hname
      rw [isLayout_of_isNameStart (eq_true_of_ne_false hname)] at hlayout
      cases hlayout
    rw [ih hknown]
    simp only [h.takeWhile_ne hc, Bool.false_eq_true, false_and, and_false]
  | case3 glued c rest hlayout rest' hcomment _ ih =>
    have hslash : c = '/' := by
      by_contra hslash
      rw [comment?_of_ne hslash] at hcomment
      cases hcomment
    have hc : isNameStart c = false := by
      rw [hslash]
      rfl
    rw [ih hknown]
    simp only [h.takeWhile_ne hc, Bool.false_eq_true, false_and, and_false]
  | case4 glued c rest hlayout hcomment ih =>
    rw [List.map_cons, List.mem_cons, not_or] at hknown
    rw [List.map_cons, List.mem_cons, List.exists_mem_cons_iff, ih hknown.2]
    obtain ⟨hc, hread⟩ | ⟨hc, ⟨n, rest', hinteger, hread⟩ | hmark⟩ :=
      Token.read_cases glued c rest
    · -- A dollar sign frees a reserved word as well, but it is no token itself.
      have hdollar : (rest.dropWhile isNameChar).head? ≠ some '$' := by
        intro hhead
        obtain ⟨more, hmore⟩ := List.head?_eq_some_iff.1 hhead
        apply hknown.2
        rw [hread, hmore]
        exact unknown_mem_tokens_dollar _ more
      simp only [hread, h.name_eq_ofWord hc hdollar, h.takeWhile_dropWhile_ne,
        not_touches (Token.ofWord_ne_number _ _), and_false, false_or]
    · simp only [hread, Token.endsInNameChar, h.touches_number hinteger, h.takeWhile_ne hc,
        reduceCtorEq, and_false, false_or, true_and]
    · have hname : .name word ≠ (Token.read glued c rest).1 := by
        intro heq
        rw [← heq] at hmark
        cases hmark
      have hnumber : ∀ n, (Token.read glued c rest).1 ≠ .number n := by
        intro n heq
        rw [heq] at hmark
        cases hmark
      simp only [hmark, hname, not_touches hnumber, h.takeWhile_ne hc, Bool.false_eq_true,
        false_and, and_false, false_or]

theorem mentions_iff {text : List Char} {statements : List Statement}
    (hparse : parse text = .ok statements) : Mentions statements word ↔ Abuts text word := by
  have htokens : (scan false text).map Lexeme.token = statements.flatMap Statement.tokens :=
    tokens_of_parse hparse
  have hknown : .unknown ∉ (scan false text).map Lexeme.token := by
    rw [htokens, List.mem_flatMap]
    rintro ⟨statement, -, hunknown⟩
    exact statement.unknown_not_mem_tokens hunknown
  rw [← name_mem_flatMap_tokens, ← htokens, h.name_mem_scan false text hknown]
  simp [Abuts]

end Reserved

/-- No label of a text that is assembled is a reserved word exactly if there is none directly behind
an integer; and there is no other way for it to be one. -/
theorem reserved_label_iff {text : String} {words : List Int} (h : assemble text = .ok words) :
    ∃ statements, parse (expandTabs 0 text.toList) = .ok statements ∧
      ((∀ name, Mentions statements name → ¬ Reserved name) ↔
        ∀ word, Reserved word → ¬ Abuts (expandTabs 0 text.toList) word) ∧
      ∀ word, Reserved word →
        (Mentions statements word ↔ Abuts (expandTabs 0 text.toList) word) := by
  obtain ⟨statements, hparse, -⟩ := (assemble_eq_ok_iff text words).1 h
  refine ⟨statements, hparse, ?_, fun word hword => hword.mentions_iff hparse⟩
  constructor
  · intro hfree word hword habuts
    exact hfree word ((hword.mentions_iff hparse).2 habuts) hword
  · intro happart name hmentions hname
    exact happart name hname ((hname.mentions_iff hparse).1 hmentions)

theorem reserved_label_operand :
    assemble "out 3arb: hlt" = .ok [4, 3, 99] ∧
      Abuts (expandTabs 0 "out 3arb: hlt".toList) "arb" := by
  have hassemble : assemble "out 3arb: hlt" = .ok [4, 3, 99] := by decide +kernel
  have hparse : parse (expandTabs 0 "out 3arb: hlt".toList) =
      .ok [.instruction ⟨.output, [⟨.position, .literal 3⟩]⟩, .label "arb",
        .instruction ⟨.halt, []⟩] := by
    decide +kernel
  obtain ⟨statements, hparse', -, hiff⟩ := reserved_label_iff hassemble
  rw [hparse] at hparse'
  cases hparse'
  exact ⟨hassemble, (hiff _ (.mnemonic .adjustBase)).1 (.inl (by decide))⟩

theorem reserved_label_accepted :
    ¬ ∀ text words, assemble text = .ok words → ∀ statements,
      parse (expandTabs 0 text.toList) = .ok statements →
        ∀ name, Mentions statements name → ¬ Reserved name := by
  intro h
  have hassemble : assemble "DW 0add 0add:" = .ok [0, 3, 0] := by decide +kernel
  have hparse : parse (expandTabs 0 "DW 0add 0add:".toList) =
      .ok [.data [.literal 0, .reference "add", .literal 0], .label "add"] := by
    decide +kernel
  exact h _ _ hassemble _ hparse "add" (.inl (by decide)) (.mnemonic .add)

end TapeMachine.Assembly
