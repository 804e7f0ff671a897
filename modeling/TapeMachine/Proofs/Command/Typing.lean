import TapeMachine.Command.Interactive
import TapeMachine.Proofs.ProgramText.Writing

namespace TapeMachine

namespace Text.Numeral

theorem digits?_eq {text : List Char} (h : ∀ c ∈ text, c.isDigit = true) (value : Nat) :
    digits? value text = some (Nat.ofDigitChars 10 text value) := by
  induction text generalizing value with
  | nil => rfl
  | cons c text ih =>
    rw [List.forall_mem_cons] at h
    rw [digits?]
    · simp only [digit?_of_isDigit h.1, ih h.2]
      rfl
    · rintro _ _ rfl
      cases h.1

theorem natural?_eq {text : List Char} (hne : text ≠ []) (h : ∀ c ∈ text, c.isDigit = true) :
    natural? text = some (Nat.ofDigitChars 10 text 0) := by
  cases text with
  | nil => exact absurd rfl hne
  | cons c text =>
    rw [List.forall_mem_cons] at h
    simp only [natural?, digit?_of_isDigit h.1, digits?_eq h.2]
    rw [Nat.ofDigitChars_cons, Nat.mul_zero, Nat.zero_add]
    rfl

theorem natural?_padded (zeros n : Nat) : natural? (Decimal.padded zeros n) = some n := by
  rw [natural?_eq (Decimal.padded_ne_nil zeros n) fun _ => Decimal.isDigit_of_mem_padded,
    Decimal.ofDigitChars_padded]

theorem signed?_of_numeral {n : Int} {text : List Char} (h : Decimal.Numeral n text) :
    signed? text = some n := by
  cases h with
  | plain zeros n =>
    have hdigit : ∀ c ∈ Decimal.padded zeros n, c.isDigit = true :=
      fun _ => Decimal.isDigit_of_mem_padded
    have hnat := natural?_padded zeros n
    cases htext : Decimal.padded zeros n with
    | nil => exact absurd htext (Decimal.padded_ne_nil zeros n)
    | cons c text =>
      rw [htext] at hdigit hnat
      have hc := hdigit c List.mem_cons_self
      rw [signed?, hnat]
      · rfl
      · rintro _ ⟨⟩
        cases hc
      · rintro _ ⟨⟩
        cases hc
  | plus zeros n | minus zeros n =>
    rw [signed?, natural?_padded]
    rfl

theorem isPadding_of_isNumberStart {c : Char} (h : Assembly.isNumberStart c = true) :
    isPadding c = false := by
  simp only [Assembly.isNumberStart, Bool.or_eq_true, beq_iff_eq] at h
  obtain (h | rfl) | rfl := h
  · have hdigits : ∀ n < 58, 48 ≤ n → isPadding (Char.ofNat n) = false := by decide
    have hc : 48 ≤ c.toNat ∧ c.toNat ≤ 57 := Char.isDigit_iff_toNat.1 h
    rw [← Char.ofNat_toNat c]
    exact hdigits c.toNat (Nat.lt_succ_of_le hc.2) hc.1
  · rfl
  · rfl

theorem trim_of_not_blank {blank : Char → Bool} {text : List Char}
    (h : ∀ c ∈ text, blank c = false) : trim blank text = text := by
  have hdrop : ∀ text : List Char, (∀ c ∈ text, blank c = false) → text.dropWhile blank = text := by
    intro text h
    cases text with
    | nil => rfl
    | cons c text => rw [List.dropWhile_cons, h c List.mem_cons_self, if_neg Bool.false_ne_true]
  rw [trim, hdrop text h, hdrop text.reverse, List.reverse_reverse]
  intro c hc
  exact h c (List.mem_reverse.1 hc)

theorem read?_of_numeral {n : Int} {text : String} (h : Decimal.Numeral n text.toList) :
    read? text = some n := by
  rw [read?, trim_of_not_blank, signed?_of_numeral h]
  intro c hc
  exact isPadding_of_isNumberStart (Assembly.isNumberStart_of_mem h hc)

end Text.Numeral

namespace Command

def Answer.value? : Answer → Option Int
  | .value n => some n
  | .again _ => none

def Answer.note : Answer → String
  | .value _ => ""
  | .again note => note

def typed (lines : List String) : List Int :=
  lines.filterMap fun line => (Answer.ofLine line).value?

theorem typed_append (lines lines' : List String) :
    typed (lines ++ lines') = typed lines ++ typed lines' :=
  List.filterMap_append

theorem typed_cons_value {line : String} {value : Int} (h : Answer.ofLine line = .value value)
    (lines : List String) : typed (line :: lines) = value :: typed lines := by
  rw [typed, List.filterMap_cons, h]
  rfl

theorem typed_cons_again {line note : String} (h : Answer.ofLine line = .again note)
    (lines : List String) : typed (line :: lines) = typed lines := by
  rw [typed, List.filterMap_cons, h]
  rfl

theorem Answer.ofLine_of_numeral {n : Int} {line : String} (h : Decimal.Numeral n line.toList) :
    Answer.ofLine line = .value n := by
  have hne : line ≠ "" := by
    rintro rfl
    obtain ⟨c, rest, hcons, -⟩ := h.exists_cons
    cases hcons
  simp only [ofLine, if_neg hne, Text.Numeral.read?_of_numeral h]

end Command

end TapeMachine
