import Mathlib.Data.List.Basic
import TapeMachine.Assembly.Token

/-!
What the scanner makes of a text, told piece by piece. Blanks and comments between two pieces are
skipped, and a piece is read as its tokens whatever comes behind it, as long as that could not be
part of a word: `Spells` says so and is closed under joining pieces with something blank in between.
-/

namespace TapeMachine.Assembly

open Text

def tokens (glued : Bool) (text : List Char) : List Token := (scan glued text).map Lexeme.token

@[simp] theorem tokens_nil (glued : Bool) : tokens glued [] = [] := by
  simp only [tokens, scan, List.map_nil]

theorem tokens_layout {c : Char} (h : isLayout c = true) (glued : Bool) (text : List Char) :
    tokens glued (c :: text) = tokens false text := by
  simp only [tokens, scan, h, if_true]

theorem tokens_comment? {c : Char} {text rest : List Char} (hlayout : isLayout c = false)
    (h : comment? (c :: text) = some rest) (glued : Bool) :
    tokens glued (c :: text) = tokens false rest := by
  rw [tokens, scan, hlayout, if_neg Bool.false_ne_true]
  split
  · next heq =>
    rw [h] at heq
    cases heq
    rfl
  · next heq =>
    rw [h] at heq
    cases heq

theorem tokens_cons {c : Char} {text : List Char} (hlayout : isLayout c = false)
    (h : comment? (c :: text) = none) (glued : Bool) :
    tokens glued (c :: text) =
      (Token.read glued c text).1 ::
        tokens (Token.read glued c text).1.endsInNameChar (Token.read glued c text).2 := by
  rw [tokens, scan, hlayout, if_neg Bool.false_ne_true]
  split
  · next heq =>
    rw [h] at heq
    cases heq
  · rfl

theorem dropWhile_body {body : List Char} (h : '\n' ∉ body) {rest : List Char}
    (hrest : rest.head? = none ∨ rest.head? = some '\n') :
    (body ++ rest).dropWhile (· != '\n') = rest := by
  apply Decimal.dropWhile_append_of_head?
  · intro c hc
    rw [bne_iff_ne]
    rintro rfl
    exact h hc
  · intro c hc
    obtain hrest | hrest := hrest <;> rw [hrest] at hc <;> cases hc
    rfl

theorem tokens_comment {body rest : List Char} (h : '\n' ∉ body)
    (hrest : rest.head? = none ∨ rest.head? = some '\n') (glued : Bool) :
    tokens glued ('/' :: '/' :: (body ++ rest)) = tokens false rest := by
  have hcomment : comment? ('/' :: '/' :: (body ++ rest)) = some rest :=
    congrArg some (dropWhile_body h hrest)
  exact tokens_comment? rfl hcomment glued

/-- A text without tokens, in which every comment is closed. -/
inductive Blank : List Char → Prop
  | nil : Blank []
  | layout {c text} : isLayout c = true → Blank text → Blank (c :: text)
  | comment {body text} : '\n' ∉ body → Blank text → Blank ('/' :: '/' :: (body ++ '\n' :: text))

theorem Blank.append {a b : List Char} (ha : Blank a) (hb : Blank b) : Blank (a ++ b) := by
  induction ha with
  | nil => exact hb
  | layout hc _ ih => exact .layout hc ih
  | comment hbody _ ih =>
    simp only [List.cons_append, List.append_assoc]
    exact .comment hbody ih

theorem blank_replicate (n : Nat) : Blank (List.replicate n ' ') := by
  induction n with
  | zero => exact .nil
  | succ n ih => exact .layout rfl ih

theorem tokens_blank {blank : List Char} (h : Blank blank) (glued : Bool) (rest : List Char) :
    tokens glued (blank ++ rest) = tokens (glued && blank.isEmpty) rest := by
  induction h generalizing glued with
  | nil => rw [List.isEmpty_nil, Bool.and_true, List.nil_append]
  | layout hc _ ih =>
    rw [List.cons_append, tokens_layout hc, ih, List.isEmpty_cons, Bool.and_false, Bool.false_and]
  | comment hbody _ ih =>
    simp only [List.cons_append, List.append_assoc]
    rw [tokens_comment hbody (.inr rfl), tokens_layout rfl, ih, List.isEmpty_cons, Bool.and_false,
      Bool.false_and]

/-- A text that ends the word in front of it and leaves it a reserved word if it is one. -/
def Stops (rest : List Char) : Prop :=
  ∀ c ∈ rest.head?, isNameChar c = false ∧ c ≠ '$'

/-- The piece of text is read as the tokens wherever no name character touches it in front. -/
def Spells (text : List Char) (result : List Token) : Prop :=
  ∀ rest, Stops rest → ∃ glued, tokens false (text ++ rest) = result ++ tokens glued rest

theorem stops_cons {c : Char} (h : isNameChar c = false) (h' : c ≠ '$') (rest : List Char) :
    Stops (c :: rest) := by
  rintro _ ⟨⟩
  exact ⟨h, h'⟩

theorem isNameChar_of_isLayout {c : Char} (h : isLayout c = true) : isNameChar c = false := by
  simp only [isLayout, Bool.or_eq_true, beq_iff_eq] at h
  rcases h with ((rfl | rfl) | rfl) | rfl <;> rfl

theorem Blank.stops {blank : List Char} (h : Blank blank) (hne : blank ≠ []) (rest : List Char) :
    Stops (blank ++ rest) := by
  cases h with
  | nil => exact absurd rfl hne
  | layout hc _ =>
    refine stops_cons (isNameChar_of_isLayout hc) ?_ _
    rintro rfl
    cases hc
  | comment _ _ => exact stops_cons rfl (by decide) _

theorem Spells.append {a b blank : List Char} {s t : List Token} (ha : Spells a s)
    (hb : Spells b t) (h : Blank blank) (hne : blank ≠ []) :
    Spells (a ++ (blank ++ b)) (s ++ t) := by
  intro rest hrest
  obtain ⟨glued, hs⟩ := ha (blank ++ (b ++ rest)) (h.stops hne _)
  obtain ⟨glued', ht⟩ := hb rest hrest
  refine ⟨glued', ?_⟩
  have hempty : (glued && blank.isEmpty) = false := by
    cases blank with
    | nil => exact absurd rfl hne
    | cons c blank => exact Bool.and_false glued
  rw [List.append_assoc, List.append_assoc, hs, tokens_blank h, hempty, ht, List.append_assoc]

theorem comment?_of_ne {c : Char} (h : c ≠ '/') (text : List Char) :
    comment? (c :: text) = none := by
  unfold comment?
  split
  · next heq =>
    cases heq
    exact absurd rfl h
  · rfl

theorem spells_read {c : Char} {text : List Char} {token : Token} (hlayout : isLayout c = false)
    (hslash : c ≠ '/')
    (h : ∀ rest, Stops rest → Token.read false c (text ++ rest) = (token, rest)) :
    Spells (c :: text) [token] := by
  intro rest hrest
  refine ⟨token.endsInNameChar, ?_⟩
  rw [List.cons_append, tokens_cons hlayout (comment?_of_ne hslash _), h rest hrest]
  rfl

theorem tokens_mark {c : Char} {token : Token} (hlayout : isLayout c = false) (hslash : c ≠ '/')
    (hread : ∀ glued rest, Token.read glued c rest = (token, rest))
    (htoken : token.endsInNameChar = false) (glued : Bool) (rest : List Char) :
    tokens glued (c :: rest) = token :: tokens false rest := by
  rw [tokens_cons hlayout (comment?_of_ne hslash _), hread, htoken]

theorem Spells.mark {c : Char} {token : Token} {text : List Char} {result : List Token}
    (hmark : ∀ rest, tokens false (c :: rest) = token :: tokens false rest)
    (h : Spells text result) : Spells (c :: text) (token :: result) := by
  intro rest hrest
  obtain ⟨glued, htokens⟩ := h rest hrest
  refine ⟨glued, ?_⟩
  rw [List.cons_append, hmark, htokens, List.cons_append]

theorem tokens_hash (glued : Bool) (rest : List Char) :
    tokens glued ('#' :: rest) = .hash :: tokens false rest :=
  tokens_mark rfl (by decide) (fun _ _ => rfl) rfl glued rest

theorem tokens_atSign (glued : Bool) (rest : List Char) :
    tokens glued ('@' :: rest) = .atSign :: tokens false rest :=
  tokens_mark rfl (by decide) (fun _ _ => rfl) rfl glued rest

theorem tokens_colon (glued : Bool) (rest : List Char) :
    tokens glued (':' :: rest) = .colon :: tokens false rest :=
  tokens_mark rfl (by decide) (fun _ _ => rfl) rfl glued rest

theorem Spells.hash {text : List Char} {result : List Token} (h : Spells text result) :
    Spells ('#' :: text) (.hash :: result) :=
  h.mark (tokens_hash false)

theorem Spells.atSign {text : List Char} {result : List Token} (h : Spells text result) :
    Spells ('@' :: text) (.atSign :: result) :=
  h.mark (tokens_atSign false)

theorem ne_of_class {p : Char → Bool} {c d : Char} (h : p c = true) (hd : p d = false) :
    c ≠ d := by
  rintro rfl
  rw [h] at hd
  cases hd

theorem isLayout_of_isNameStart {c : Char} (h : isNameStart c = true) : isLayout c = false := by
  simp only [isLayout, Bool.or_eq_false_iff, beq_eq_false_iff_ne]
  exact ⟨⟨⟨ne_of_class h rfl, ne_of_class h rfl⟩, ne_of_class h rfl⟩, ne_of_class h rfl⟩

theorem takeWhile_name {text rest : List Char} (h : ∀ c ∈ text, isNameChar c = true)
    (hrest : Stops rest) : (text ++ rest).takeWhile isNameChar = text :=
  Decimal.takeWhile_append_of_head? h fun c hc => (hrest c hc).1

theorem dropWhile_name {text rest : List Char} (h : ∀ c ∈ text, isNameChar c = true)
    (hrest : Stops rest) : (text ++ rest).dropWhile isNameChar = rest :=
  Decimal.dropWhile_append_of_head? h fun c hc => (hrest c hc).1

theorem read_word {c : Char} {text rest : List Char} (hc : isNameStart c = true)
    (h : ∀ c ∈ text, isNameChar c = true) (hrest : Stops rest) :
    Token.read false c (text ++ rest) = (Token.ofWord true (.ofList (c :: text)), rest) := by
  have hfree : rest.head? ≠ some '$' := fun heq => (hrest '$' heq).2 rfl
  simp only [Token.read, ne_of_class hc (d := '#') rfl, ne_of_class hc (d := '@') rfl,
    ne_of_class hc (d := ':') rfl, hc, if_true, if_false, takeWhile_name h hrest,
    dropWhile_name h hrest, Bool.not_false, Bool.true_and, bne_iff_ne.2 hfree]

theorem spells_word {word : String} {c : Char} {text : List Char} (hword : word.toList = c :: text)
    (hc : isNameStart c = true) (h : text.all isNameChar = true) :
    Spells word.toList [Token.ofWord true word] := by
  have hread : ∀ rest, Stops rest →
      Token.read false c (text ++ rest) = (Token.ofWord true word, rest) := by
    intro rest hrest
    rw [read_word hc (List.all_eq_true.1 h) hrest, ← hword, String.ofList_toList]
  rw [hword]
  exact spells_read (isLayout_of_isNameStart hc) (ne_of_class hc rfl) hread

theorem ofWord_mnemonic (op : Opcode) : Token.ofWord true op.mnemonic = .mnemonic op := by
  cases op <;> rfl

theorem spells_mnemonic (op : Opcode) : Spells op.mnemonic.toList [.mnemonic op] := by
  rw [← ofWord_mnemonic]
  cases op <;> exact spells_word rfl rfl rfl

theorem spells_data : Spells "DW".toList [.data] :=
  spells_word rfl rfl rfl

theorem isNameStart_of_isDigit {c : Char} (h : c.isDigit = true) : isNameStart c = false := by
  have hc : 48 ≤ c.toNat ∧ c.toNat ≤ 57 := Char.isDigit_iff_toNat.1 h
  have hupper : c.isUpper = false := decide_eq_false fun hle =>
    absurd (Nat.le_trans (UInt32.le_iff_toNat_le.1 hle.1) hc.2) (by decide)
  have hlower : c.isLower = false := Bool.and_eq_false_iff.2 <| .inl <| decide_eq_false fun hle =>
    absurd (Nat.le_trans (UInt32.le_iff_toNat_le.1 hle) hc.2) (by decide)
  have hne : (c == '_') = false := beq_eq_false_iff_ne.2 (ne_of_class h rfl)
  change (c.isUpper || c.isLower || c == '_') = false
  rw [hupper, hlower, hne]
  rfl

theorem isDigit_of_stops {rest : List Char} (h : Stops rest) :
    ∀ c ∈ rest.head?, c.isDigit = false := by
  intro c hc
  have hname := (h c hc).1
  simp only [isNameChar, Char.isAlphanum, Bool.or_eq_false_iff] at hname
  exact hname.1.2

def isNumberStart (c : Char) : Bool := c.isDigit || c == '+' || c == '-'

theorem isNameStart_of_isNumberStart {c : Char} (h : isNumberStart c = true) :
    isNameStart c = false := by
  simp only [isNumberStart, Bool.or_eq_true, beq_iff_eq] at h
  obtain (h | rfl) | rfl := h
  · exact isNameStart_of_isDigit h
  · rfl
  · rfl

theorem isLayout_of_isNumberStart {c : Char} (h : isNumberStart c = true) : isLayout c = false := by
  simp only [isLayout, Bool.or_eq_false_iff, beq_eq_false_iff_ne]
  exact ⟨⟨⟨ne_of_class h rfl, ne_of_class h rfl⟩, ne_of_class h rfl⟩, ne_of_class h rfl⟩

theorem read_number {c : Char} {text rest : List Char} {n : Int} (hc : isNumberStart c = true)
    (h : Decimal.integer? (c :: text) = some (n, rest)) :
    Token.read false c text = (.number n, rest) := by
  simp only [Token.read, ne_of_class hc (d := '#') rfl, ne_of_class hc (d := '@') rfl,
    ne_of_class hc (d := ':') rfl, isNameStart_of_isNumberStart hc, Bool.false_eq_true, if_false, h]

theorem spells_number {text : List Char} {n : Int} (hstart : ∀ c ∈ text, isNumberStart c = true)
    (h : ∀ rest : List Char, (∀ d ∈ rest.head?, d.isDigit = false) →
      Decimal.integer? (text ++ rest) = some (n, rest)) : Spells text [.number n] := by
  cases text with
  | nil =>
    have hnone := h [] (by rintro d ⟨⟩)
    cases hnone
  | cons c text =>
    have hc := hstart c List.mem_cons_self
    exact spells_read (isLayout_of_isNumberStart hc) (ne_of_class hc rfl) fun rest hrest =>
      read_number hc (h rest (isDigit_of_stops hrest))

theorem mem_toString {n : Int} {c : Char} (h : c ∈ (toString n).toList) :
    isNumberStart c = true := by
  rw [Decimal.toList_toString] at h
  have hdigit : ∀ {m : Nat}, c ∈ Nat.toDigits 10 m → isNumberStart c = true := by
    intro m hm
    rw [isNumberStart, Decimal.isDigit_of_mem_toDigits hm]
    rfl
  cases n with
  | ofNat n => exact hdigit h
  | negSucc n =>
    obtain rfl | h := List.mem_cons.1 h
    · rfl
    · exact hdigit h

theorem spells_toString (n : Int) : Spells (toString n).toList [.number n] :=
  spells_number (fun _ => mem_toString) fun _ hrest => Decimal.integer?_toString n hrest

end TapeMachine.Assembly
