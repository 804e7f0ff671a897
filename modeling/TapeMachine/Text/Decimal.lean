namespace TapeMachine.Decimal

def natural? (text : List Char) : Option (Nat × List Char) :=
  match text.takeWhile Char.isDigit with
  | [] => none
  | digits => some (Nat.ofDigitChars 10 digits 0, text.dropWhile Char.isDigit)

def integer? : List Char → Option (Int × List Char)
  | '+' :: text => (natural? text).map fun (n, rest) => ((n : Int), rest)
  | '-' :: text => (natural? text).map fun (n, rest) => (-(n : Int), rest)
  | text => (natural? text).map fun (n, rest) => ((n : Int), rest)

theorem length_dropWhile_le {α : Type} (p : α → Bool) (l : List α) :
    (l.dropWhile p).length ≤ l.length :=
  (List.dropWhile_sublist p).length_le

theorem length_natural? {text rest : List Char} {n : Nat} (h : natural? text = some (n, rest)) :
    rest.length < text.length := by
  simp only [natural?] at h
  split at h
  · cases h
  · next hne =>
    simp only [Option.some.injEq, Prod.mk.injEq] at h
    have hsum :=
      congrArg List.length (List.takeWhile_append_dropWhile (p := Char.isDigit) (l := text))
    have hpos := List.length_pos_iff.2 hne
    simp only [List.length_append] at hsum
    rw [← h.2]
    omega

theorem length_integer? {text rest : List Char} {n : Int} (h : integer? text = some (n, rest)) :
    rest.length < text.length := by
  simp only [integer?] at h
  split at h
  all_goals
    simp only [Option.map_eq_some_iff, Prod.mk.injEq, Prod.exists] at h
    obtain ⟨m, rest, h, -, rfl⟩ := h
    have hlt := length_natural? h
  · exact Nat.lt_succ_of_lt hlt
  · exact Nat.lt_succ_of_lt hlt
  · exact hlt

section

variable {α : Type} {p : α → Bool} {front rest : List α} (h : ∀ a ∈ front, p a = true)
  (hrest : ∀ a ∈ rest.head?, p a = false)

include h hrest

theorem takeWhile_append_of_head? : (front ++ rest).takeWhile p = front := by
  rw [List.takeWhile_append_of_pos h]
  cases rest with
  | nil => exact List.append_nil front
  | cons a rest => rw [List.takeWhile_cons, hrest a rfl, if_neg Bool.false_ne_true, List.append_nil]

theorem dropWhile_append_of_head? : (front ++ rest).dropWhile p = rest := by
  rw [List.dropWhile_append_of_pos h]
  cases rest with
  | nil => rfl
  | cons a rest => rw [List.dropWhile_cons, hrest a rfl, if_neg Bool.false_ne_true]

end

theorem natural?_digits {digits rest : List Char} (hne : digits ≠ [])
    (h : ∀ c ∈ digits, c.isDigit = true) (hrest : ∀ c ∈ rest.head?, c.isDigit = false) :
    natural? (digits ++ rest) = some (Nat.ofDigitChars 10 digits 0, rest) := by
  simp only [natural?, takeWhile_append_of_head? h hrest, dropWhile_append_of_head? h hrest]

theorem integer?_unsigned {c : Char} (hplus : c ≠ '+') (hminus : c ≠ '-') (text : List Char) :
    integer? (c :: text) = (natural? (c :: text)).map fun (n, rest) => ((n : Int), rest) := by
  rw [integer?]
  · rintro _ ⟨⟩
    exact hplus rfl
  · rintro _ ⟨⟩
    exact hminus rfl

theorem integer?_digits {digits rest : List Char} (hne : digits ≠ [])
    (h : ∀ c ∈ digits, c.isDigit = true) (hrest : ∀ c ∈ rest.head?, c.isDigit = false) :
    integer? (digits ++ rest) = some ((Nat.ofDigitChars 10 digits 0 : Int), rest) := by
  have hnat := natural?_digits hne h hrest
  cases digits with
  | nil => exact absurd rfl hne
  | cons c digits =>
    have hc := h c List.mem_cons_self
    have hplus : c ≠ '+' := by
      rintro rfl
      cases hc
    have hminus : c ≠ '-' := by
      rintro rfl
      cases hc
    rw [List.cons_append] at hnat ⊢
    rw [integer?_unsigned hplus hminus, hnat, Option.map_some]

theorem isDigit_of_mem_toDigits {n : Nat} {c : Char} (h : c ∈ Nat.toDigits 10 n) :
    c.isDigit = true :=
  Nat.isDigit_of_mem_toDigits (by decide) (by decide) h

theorem natural?_toDigits (n : Nat) {rest : List Char}
    (hrest : ∀ c ∈ rest.head?, c.isDigit = false) :
    natural? (Nat.toDigits 10 n ++ rest) = some (n, rest) := by
  rw [natural?_digits Nat.toDigits_ne_nil (fun _ => isDigit_of_mem_toDigits) hrest,
    Nat.ofDigitChars_ten_toDigits]

theorem integer?_toDigits (n : Nat) {rest : List Char}
    (hrest : ∀ c ∈ rest.head?, c.isDigit = false) :
    integer? (Nat.toDigits 10 n ++ rest) = some ((n : Int), rest) := by
  rw [integer?_digits Nat.toDigits_ne_nil (fun _ => isDigit_of_mem_toDigits) hrest,
    Nat.ofDigitChars_ten_toDigits]

def plain : Int → List Char
  | .ofNat n => Nat.toDigits 10 n
  | .negSucc n => '-' :: Nat.toDigits 10 (n + 1)

theorem toList_toString (n : Int) : (toString n).toList = plain n := by
  cases n with
  | ofNat n => exact Nat.toList_repr
  | negSucc n =>
    change ("-" ++ (n + 1).repr).toList = _
    rw [String.toList_append, Nat.toList_repr]
    rfl

theorem integer?_plain (n : Int) {rest : List Char} (hrest : ∀ c ∈ rest.head?, c.isDigit = false) :
    integer? (plain n ++ rest) = some (n, rest) := by
  cases n with
  | ofNat n => exact integer?_toDigits n hrest
  | negSucc n =>
    rw [plain, List.cons_append, integer?, natural?_toDigits (n + 1) hrest]
    rfl

theorem integer?_toString (n : Int) {rest : List Char}
    (hrest : ∀ c ∈ rest.head?, c.isDigit = false) :
    integer? ((toString n).toList ++ rest) = some (n, rest) := by
  rw [toList_toString, integer?_plain n hrest]

end TapeMachine.Decimal
