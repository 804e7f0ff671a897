import TapeMachine.Proofs.Assembly.Printing

namespace TapeMachine

namespace Decimal

def padded (zeros n : Nat) : List Char := List.replicate zeros '0' ++ Nat.toDigits 10 n

/-- How an integer may be written: with zeros in front of its digits, and with a sign. -/
inductive Numeral : Int → List Char → Prop
  | plain (zeros n : Nat) : Numeral n (padded zeros n)
  | plus (zeros n : Nat) : Numeral n ('+' :: padded zeros n)
  | minus (zeros n : Nat) : Numeral (-n) ('-' :: padded zeros n)

theorem isDigit_of_mem_padded {zeros n : Nat} {c : Char} (h : c ∈ padded zeros n) :
    c.isDigit = true := by
  obtain h | h := List.mem_append.1 h
  · rw [List.eq_of_mem_replicate h]
    rfl
  · exact isDigit_of_mem_toDigits h

theorem padded_ne_nil (zeros n : Nat) : padded zeros n ≠ [] :=
  List.append_ne_nil_of_right_ne_nil _ Nat.toDigits_ne_nil

theorem ofDigitChars_padded (zeros n : Nat) : Nat.ofDigitChars 10 (padded zeros n) 0 = n := by
  rw [padded, Nat.ofDigitChars_append, Nat.ofDigitChars_replicate_zero, Nat.mul_zero,
    Nat.ofDigitChars_ten_toDigits]

theorem natural?_padded (zeros n : Nat) {rest : List Char}
    (hrest : ∀ c ∈ rest.head?, c.isDigit = false) :
    natural? (padded zeros n ++ rest) = some (n, rest) := by
  rw [natural?_digits (padded_ne_nil zeros n) (fun _ => isDigit_of_mem_padded) hrest,
    ofDigitChars_padded]

theorem Numeral.integer? {n : Int} {text rest : List Char} (h : Numeral n text)
    (hrest : ∀ c ∈ rest.head?, c.isDigit = false) :
    integer? (text ++ rest) = some (n, rest) := by
  cases h with
  | plain zeros n =>
    rw [integer?_digits (padded_ne_nil zeros n) (fun _ => isDigit_of_mem_padded) hrest,
      ofDigitChars_padded]
  | plus zeros n | minus zeros n =>
    rw [List.cons_append, Decimal.integer?, natural?_padded zeros n hrest]
    rfl

end Decimal

namespace Assembly

open Text

theorem isNumberStart_of_mem {n : Int} {text : List Char} {c : Char}
    (h : Decimal.Numeral n text) (hc : c ∈ text) : isNumberStart c = true := by
  have hdigit : ∀ {zeros n : Nat}, c ∈ Decimal.padded zeros n → isNumberStart c = true := by
    intro zeros n hc
    rw [isNumberStart, Decimal.isDigit_of_mem_padded hc]
    rfl
  cases h with
  | plain zeros n => exact hdigit hc
  | plus zeros n | minus zeros n =>
    obtain rfl | hc := List.mem_cons.1 hc
    · rfl
    · exact hdigit hc

structure IsName (word : String) : Prop where
  identifier : ∃ c text, word.toList = c :: text ∧ isNameStart c = true ∧
    text.all isNameChar = true
  ne_mnemonic : ∀ op : Opcode, word ≠ op.mnemonic
  ne_data : word ≠ "DW"

theorem IsName.ofWord {word : String} (h : IsName word) : Token.ofWord true word = .name word := by
  have hop : Opcode.ofMnemonic? word = none := by
    rw [Opcode.ofMnemonic?, List.find?_eq_none]
    intro op _
    rw [beq_iff_eq]
    exact (h.ne_mnemonic op).symm
  simp only [Token.ofWord, if_true, hop, if_neg h.ne_data]

theorem IsName.spells {word : String} (h : IsName word) : Spells word.toList [.name word] := by
  obtain ⟨c, text, hword, hc, htext⟩ := h.identifier
  rw [← h.ofWord]
  exact spells_word hword hc htext

inductive Token.Written : Token → List Char → Prop
  | number {n : Int} {text : List Char} : Decimal.Numeral n text → Written (.number n) text
  | name {word : String} : IsName word → Written (.name word) word.toList
  | mnemonic (op : Opcode) : Written (.mnemonic op) op.mnemonic.toList
  | data : Written .data "DW".toList
  | hash : Written .hash ['#']
  | atSign : Written .atSign ['@']
  | colon : Written .colon [':']

namespace Token

variable {token : Token} {text : List Char}

theorem Written.spells (h : token.Written text) (hword : token.endsInNameChar = true) :
    Spells text [token] := by
  cases h with
  | number h => exact spells_number (fun _ => isNumberStart_of_mem h) fun _ => h.integer?
  | name h => exact h.spells
  | mnemonic op => exact spells_mnemonic op
  | data => exact spells_data
  | hash | atSign | colon => cases hword

theorem Written.tokens (h : token.Written text) (hmark : token.endsInNameChar = false)
    (glued : Bool) (rest : List Char) :
    tokens glued (text ++ rest) = token :: tokens false rest := by
  cases h with
  | hash => exact tokens_hash glued rest
  | atSign => exact tokens_atSign glued rest
  | colon => exact tokens_colon glued rest
  | number _ | name _ | mnemonic _ | data => cases hmark

theorem Written.stops (h : token.Written text) (hmark : token.endsInNameChar = false)
    (rest : List Char) : Stops (text ++ rest) := by
  cases h with
  | hash | atSign | colon => exact stops_cons rfl (by decide) rest
  | number _ | name _ | mnemonic _ | data => cases hmark

theorem not_mem_tab_of_name {c : Char} (hc : isNameStart c = true)
    (h : text.all isNameChar = true) : '\t' ∉ c :: text := by
  intro htab
  obtain rfl | htab := List.mem_cons.1 htab
  · cases hc
  · cases List.all_eq_true.1 h _ htab

theorem Written.not_mem_tab (h : token.Written text) : '\t' ∉ text := by
  cases h with
  | number h =>
    intro htab
    cases isNumberStart_of_mem h htab
  | name h =>
    obtain ⟨c, text, hword, hc, htext⟩ := h.identifier
    rw [hword]
    exact not_mem_tab_of_name hc htext
  | mnemonic op => cases op <;> decide
  | data | hash | atSign | colon => decide

end Token

/-- The text is the tokens, written one behind the other with blanks in between, which only two
words need. `glued` tells whether there is a word directly in front of the text. -/
inductive Renders : (glued : Bool) → List Token → List Char → Prop
  | nil {glued : Bool} {blank : List Char} : Blank blank → Renders glued [] blank
  | cons {glued : Bool} {token : Token} {tokens : List Token} {blank piece rest : List Char} :
      Blank blank → (glued = true → token.endsInNameChar = true → blank ≠ []) →
      token.Written piece → Renders token.endsInNameChar tokens rest →
      Renders glued (token :: tokens) (blank ++ (piece ++ rest))

theorem Blank.stops_append {blank : List Char} (h : Blank blank) {rest : List Char}
    (hrest : blank = [] → Stops rest) : Stops (blank ++ rest) := by
  cases blank with
  | nil => exact hrest rfl
  | cons c blank => exact h.stops (List.cons_ne_nil _ _) rest

namespace Renders

variable {glued : Bool} {result : List Token} {text : List Char}

theorem stops (h : Renders true result text) : Stops text := by
  cases h with
  | nil hblank =>
    rw [← List.append_nil text]
    exact hblank.stops_append fun _ => by rintro _ ⟨⟩
  | @cons _ token _ _ _ _ hblank hapart hpiece _ =>
    refine hblank.stops_append ?_
    intro hnil
    cases hword : token.endsInNameChar with
    | false => exact hpiece.stops hword _
    | true => exact absurd hnil (hapart rfl hword)

theorem tokens_eq (h : Renders glued result text) {glued' : Bool}
    (hglued : glued' = true → glued = true) : tokens glued' text = result := by
  induction h generalizing glued' with
  | @nil _ blank hblank =>
    rw [← List.append_nil blank, tokens_blank hblank, tokens_nil]
  | @cons _ token _ blank piece rest hblank hapart hpiece hrest ih =>
    rw [tokens_blank hblank]
    cases hword : token.endsInNameChar with
    | false =>
      rw [hpiece.tokens hword, ih (by rintro ⟨⟩)]
    | true =>
      -- There is a blank between two words, so nothing touches this one in front.
      have hfree : (glued' && blank.isEmpty) = false := by
        rw [Bool.and_eq_false_iff]
        cases hglued' : glued' with
        | false => exact .inl rfl
        | true => exact .inr (List.isEmpty_eq_false_iff.2 (hapart (hglued hglued') hword))
      rw [hword] at hrest
      obtain ⟨glued'', htokens⟩ := hpiece.spells hword rest hrest.stops
      rw [hfree, htokens, ih fun _ => hword]
      rfl

end Renders

theorem expandTabs_append (column : Nat) (front : List Char) :
    ∃ column', ∀ text, expandTabs column (front ++ text) =
      expandTabs column front ++ expandTabs column' text := by
  induction front generalizing column with
  | nil => exact ⟨column, fun _ => rfl⟩
  | cons c front ih =>
    by_cases htab : c = '\t'
    · obtain ⟨column', h⟩ := ih 0
      refine ⟨column', fun text => ?_⟩
      rw [List.cons_append, expandTabs, expandTabs, if_pos htab, if_pos htab, h,
        List.append_assoc]
    · obtain ⟨column', h⟩ := ih (if c = '\n' || c = '\r' then 0 else column + 1)
      refine ⟨column', fun text => ?_⟩
      rw [List.cons_append, expandTabs, expandTabs, if_neg htab, if_neg htab, h,
        List.cons_append]

theorem mem_expandTabs {c : Char} {text : List Char} {column : Nat}
    (h : c ∈ expandTabs column text) : c = ' ' ∨ c ∈ text := by
  induction text generalizing column with
  | nil => exact .inr h
  | cons d text ih =>
    rw [expandTabs] at h
    split at h
    · obtain h | h := List.mem_append.1 h
      · exact .inl (List.eq_of_mem_replicate h)
      · exact (ih h).imp_right (List.mem_cons_of_mem d)
    · obtain rfl | h := List.mem_cons.1 h
      · exact .inr List.mem_cons_self
      · exact (ih h).imp_right (List.mem_cons_of_mem d)

theorem Blank.expandTabs {blank : List Char} (h : Blank blank) (column : Nat) :
    Blank (expandTabs column blank) := by
  induction h generalizing column with
  | nil => exact .nil
  | @layout c text hc _ ih =>
    rw [Text.expandTabs]
    split
    · exact (blank_replicate _).append (ih 0)
    · exact .layout hc (ih _)
  | @comment body text hbody _ ih =>
    obtain ⟨column', h⟩ := expandTabs_append (column + 1 + 1) body
    have hcomment : Text.expandTabs column ('/' :: '/' :: (body ++ '\n' :: text)) =
        '/' :: '/' ::
          (Text.expandTabs (column + 1 + 1) body ++ '\n' :: Text.expandTabs 0 text) := by
      change '/' :: '/' :: Text.expandTabs (column + 1 + 1) (body ++ '\n' :: text) = _
      rw [h]
      rfl
    rw [hcomment]
    refine .comment ?_ (ih 0)
    intro hmem
    obtain hspace | hmem := mem_expandTabs hmem
    · cases hspace
    · exact hbody hmem

theorem expandTabs_ne_nil {text : List Char} (h : text ≠ []) (column : Nat) :
    expandTabs column text ≠ [] := by
  cases text with
  | nil => exact absurd rfl h
  | cons c text =>
    rw [expandTabs]
    split
    · refine List.append_ne_nil_of_left_ne_nil ?_ _
      rw [Ne, List.replicate_eq_nil_iff]
      omega
    · exact List.cons_ne_nil _ _

theorem Renders.expandTabs {glued : Bool} {result : List Token} {text : List Char}
    (h : Renders glued result text) (column : Nat) :
    Renders glued result (expandTabs column text) := by
  induction h generalizing column with
  | nil hblank => exact .nil (hblank.expandTabs column)
  | @cons _ token _ blank piece rest hblank hapart hpiece _ ih =>
    obtain ⟨column', hfront⟩ := expandTabs_append column blank
    obtain ⟨column'', hback⟩ := expandTabs_append column' piece
    rw [hfront, hback, expandTabs_of_not_mem hpiece.not_mem_tab]
    refine .cons (hblank.expandTabs column) ?_ hpiece (ih column'')
    intro hglued hword
    exact expandTabs_ne_nil (hapart hglued hword) column

/-- However a list of statements is written, it is what the parser reads. -/
theorem parse_rendered {statements : List Statement} {text : String}
    (hwritable : ∀ statement ∈ statements, statement.Writable)
    (h : Renders false (statements.flatMap Statement.tokens) text.toList) :
    parse (expandTabs 0 text.toList) = .ok statements :=
  parse_tokens hwritable ((h.expandTabs 0).tokens_eq id)

def lookalikes : List Statement :=
  [.label "input", .data [.literal (-7), .reference "DWx"], .label "DWx",
    .instruction ⟨.output, [⟨.immediate, .reference "input"⟩]⟩]

theorem parse_rendered_lookalikes :
    (∀ statement ∈ lookalikes, statement.Writable) ∧
    Renders false (lookalikes.flatMap Statement.tokens)
      "input//a\tlabel\n:DW\t-007 DWx\r\nDWx: out#input".toList ∧
    parse (expandTabs 0 "input//a\tlabel\n:DW\t-007 DWx\r\nDWx: out#input".toList) =
      .ok lookalikes := by
  have hinput : IsName "input" :=
    ⟨⟨'i', ['n', 'p', 'u', 't'], rfl, rfl, rfl⟩, by intro op; cases op <;> decide, by decide⟩
  have hdata : IsName "DWx" :=
    ⟨⟨'D', ['W', 'x'], rfl, rfl, rfl⟩, by intro op; cases op <;> decide, by decide⟩
  have hspace : ∀ {c : Char}, isLayout c = true → Blank [c] := fun hc => .layout hc .nil
  have htext : "input//a\tlabel\n:DW\t-007 DWx\r\nDWx: out#input".toList =
      [] ++ ("input".toList ++ (('/' :: '/' :: ("a\tlabel".toList ++ '\n' :: [])) ++ ([':'] ++
      ([] ++ ("DW".toList ++ (['\t'] ++ (('-' :: Decimal.padded 2 7) ++
      ([' '] ++ ("DWx".toList ++ (['\r', '\n'] ++ ("DWx".toList ++ ([] ++ ([':'] ++
      ([' '] ++ (Opcode.output.mnemonic.toList ++ ([] ++ (['#'] ++ ([] ++ ("input".toList ++
      []))))))))))))))))))) := by
    decide
  have hrendered : Renders false (lookalikes.flatMap Statement.tokens)
      "input//a\tlabel\n:DW\t-007 DWx\r\nDWx: out#input".toList := by
    rw [htext]
    exact .cons .nil nofun (.name hinput) <| .cons (.comment (by decide) .nil) nofun .colon <|
      .cons .nil nofun .data <| .cons (hspace rfl) nofun (.number (.minus 2 7)) <|
      .cons (hspace rfl) nofun (.name hdata) <|
      .cons (.layout rfl (hspace rfl)) nofun (.name hdata) <| .cons .nil nofun .colon <|
      .cons (hspace rfl) nofun (.mnemonic .output) <| .cons .nil nofun .hash <|
      .cons .nil nofun (.name hinput) <| .nil .nil
  have hwritable : ∀ statement ∈ lookalikes, statement.Writable := by
    simp [lookalikes, Statement.Writable, Opcode.arity]
  exact ⟨hwritable, hrendered, parse_rendered hwritable hrendered⟩

end Assembly

end TapeMachine
