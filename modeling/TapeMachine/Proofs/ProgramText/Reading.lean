import Mathlib.Data.List.DropRight
import Mathlib.Data.List.Induction
import TapeMachine.Proofs.ProgramText.Writing

namespace TapeMachine

theorem not_of_mem_head?_dropWhile (p : Char → Bool) (text : List Char) :
    ∀ c ∈ (text.dropWhile p).head?, p c = false := by
  intro c hc
  have hnot := List.head?_dropWhile_not p text
  rw [Option.mem_def.1 hc] at hnot
  exact hnot

theorem dropWhile_of_head? {p : Char → Bool} {text : List Char}
    (h : ∀ c ∈ text.head?, p c = false) : text.dropWhile p = text := by
  cases text with
  | nil => rfl
  | cons c text => rw [List.dropWhile_cons, h c rfl, if_neg Bool.false_ne_true]

namespace Decimal

theorem exists_toDigits {c : Char} (h : c.isDigit = true) :
    ∃ d < 10, Nat.toDigits 10 d = [c] := by
  have hc : 48 ≤ c.toNat ∧ c.toNat ≤ 57 := Char.isDigit_iff_toNat.1 h
  have hlt : c.toNat - 48 < 10 := by omega
  have hchar : Nat.digitChar (c.toNat - 48) = c := by
    rw [← Char.toNat_inj, Nat.toNat_digitChar_of_lt_ten hlt, Nat.add_sub_cancel' hc.1]
  exact ⟨c.toNat - 48, hlt, by rw [Nat.toDigits_of_lt_base hlt, hchar]⟩

theorem exists_padded {digits : List Char} (hne : digits ≠ [])
    (h : ∀ c ∈ digits, c.isDigit = true) : ∃ zeros n, digits = padded zeros n := by
  induction digits using List.reverseRecOn with
  | nil => exact absurd rfl hne
  | append_singleton digits c ih =>
    obtain ⟨hdigits, hc⟩ := List.forall_mem_append.1 h
    obtain ⟨d, hd, hlast⟩ := exists_toDigits (hc c List.mem_cons_self)
    by_cases hnil : digits = []
    · exact ⟨0, d, by rw [hnil, padded, hlast, List.replicate_zero]⟩
    · obtain ⟨zeros, n, rfl⟩ := ih hnil hdigits
      rw [← hlast]
      cases n with
      | zero =>
        refine ⟨zeros + 1, d, ?_⟩
        rw [padded, padded, List.replicate_succ', Nat.toDigits_zero]
      | succ n =>
        refine ⟨zeros, 10 * (n + 1) + d, ?_⟩
        rw [padded, padded, List.append_assoc,
          Nat.toDigits_append_toDigits (by decide) (Nat.succ_pos n) hd]

theorem numeral_iff {n : Int} {text : List Char} :
    Numeral n text ↔ ∃ digits, digits ≠ [] ∧ (∀ c ∈ digits, c.isDigit = true) ∧
      (text = digits ∧ n = Nat.ofDigitChars 10 digits 0 ∨
        text = '+' :: digits ∧ n = Nat.ofDigitChars 10 digits 0 ∨
        text = '-' :: digits ∧ n = -(Nat.ofDigitChars 10 digits 0 : Int)) := by
  have hdigits (zeros n : Nat) : ∀ c ∈ padded zeros n, c.isDigit = true :=
    fun _ => isDigit_of_mem_padded
  constructor
  · intro h
    cases h with
    | plain zeros n =>
      exact ⟨_, padded_ne_nil zeros n, hdigits zeros n, .inl ⟨rfl, by rw [ofDigitChars_padded]⟩⟩
    | plus zeros n =>
      exact ⟨_, padded_ne_nil zeros n, hdigits zeros n,
        .inr (.inl ⟨rfl, by rw [ofDigitChars_padded]⟩)⟩
    | minus zeros n =>
      exact ⟨_, padded_ne_nil zeros n, hdigits zeros n,
        .inr (.inr ⟨rfl, by rw [ofDigitChars_padded]⟩)⟩
  · rintro ⟨digits, hne, hall, hcases⟩
    obtain ⟨zeros, m, rfl⟩ := exists_padded hne hall
    rw [ofDigitChars_padded] at hcases
    obtain ⟨rfl, rfl⟩ | ⟨rfl, rfl⟩ | ⟨rfl, rfl⟩ := hcases
    · exact .plain zeros m
    · exact .plus zeros m
    · exact .minus zeros m

theorem exists_digits_of_natural? {text rest : List Char} {n : Nat}
    (h : natural? text = some (n, rest)) :
    ∃ digits, digits ≠ [] ∧ (∀ c ∈ digits, c.isDigit = true) ∧ text = digits ++ rest ∧
      n = Nat.ofDigitChars 10 digits 0 := by
  rw [natural?] at h
  split at h
  · cases h
  · next hne =>
    cases h
    exact ⟨_, hne, fun _ => List.mem_takeWhile_imp, List.takeWhile_append_dropWhile.symm, rfl⟩

theorem exists_numeral_of_integer? {text rest : List Char} {n : Int}
    (h : integer? text = some (n, rest)) : ∃ piece, Numeral n piece ∧ text = piece ++ rest := by
  rw [integer?.eq_def] at h
  split at h
  all_goals
    simp only [Option.map_eq_some_iff, Prod.mk.injEq, Prod.exists] at h
    obtain ⟨m, rest, hm, rfl, rfl⟩ := h
    obtain ⟨digits, hne, hall, rfl, rfl⟩ := exists_digits_of_natural? hm
  · exact ⟨_, numeral_iff.2 ⟨digits, hne, hall, .inr (.inl ⟨rfl, rfl⟩)⟩, rfl⟩
  · exact ⟨_, numeral_iff.2 ⟨digits, hne, hall, .inr (.inr ⟨rfl, rfl⟩)⟩, rfl⟩
  · exact ⟨_, numeral_iff.2 ⟨digits, hne, hall, .inl ⟨rfl, rfl⟩⟩, rfl⟩

theorem Numeral.integer?_append {n : Int} {piece : List Char} (h : Numeral n piece)
    (rest : List Char) :
    ∃ m, Decimal.integer? (piece ++ rest) = some (m, rest.dropWhile Char.isDigit) := by
  obtain ⟨digits, hne, hall, hcases⟩ := numeral_iff.1 h
  have hne' : digits ++ rest.takeWhile Char.isDigit ≠ [] :=
    List.append_ne_nil_of_left_ne_nil hne _
  have hall' : ∀ c ∈ digits ++ rest.takeWhile Char.isDigit, c.isDigit = true :=
    List.forall_mem_append.2 ⟨hall, fun _ => List.mem_takeWhile_imp⟩
  have hsplit : digits ++ rest =
      digits ++ rest.takeWhile Char.isDigit ++ rest.dropWhile Char.isDigit := by
    rw [List.append_assoc, List.takeWhile_append_dropWhile]
  have hrest := not_of_mem_head?_dropWhile Char.isDigit rest
  obtain ⟨rfl, -⟩ | ⟨rfl, -⟩ | ⟨rfl, -⟩ := hcases
  · exact ⟨_, by rw [hsplit, integer?_digits hne' hall' hrest]⟩
  all_goals
    rw [List.cons_append, hsplit, Decimal.integer?, natural?_digits hne' hall' hrest]
    exact ⟨_, rfl⟩

end Decimal

namespace ProgramText

open Text

inductive Joined : List Int → List Char → Prop
  | nil : Joined [] []
  | cons {n : Int} {ns : List Int} {before behind piece rest : List Char} :
      Gap before → Gap behind → Decimal.Numeral n piece → Joined ns rest →
      Joined (n :: ns) (before ++ ',' :: (behind ++ (piece ++ rest)))

inductive Enumerated : List Int → List Char → Prop
  | cons {n : Int} {ns : List Int} {gap piece rest : List Char} :
      Gap gap → Decimal.Numeral n piece → Joined ns rest →
      Enumerated (n :: ns) (gap ++ (piece ++ rest))

def Taken (front : List Char) : Prop := front = [] ∨ ∃ ns, Enumerated ns front

/-- A text goes wrong between `seen` and `rest`: what has been seen is the longest beginning that
can be taken, and the blanks behind it. -/
def Amiss (seen rest : List Char) : Prop :=
  ∃ front gap, seen = front ++ gap ∧ Taken front ∧
    (∀ front' rest', seen ++ rest = front' ++ rest' → Taken front' →
      front'.length ≤ front.length) ∧
    Gap gap ∧ ∀ c ∈ rest.head?, isLayout c = false

theorem Joined.continued {ns : List Int} {front gap : List Char} (h : Joined ns front)
    (hgap : Gap gap) : Continued ns (front ++ gap) := by
  induction h with
  | nil => exact .nil hgap
  | cons hbefore hbehind hpiece _ ih =>
    simp only [List.append_assoc, List.cons_append]
    exact .cons hbefore hbehind hpiece ih

theorem Enumerated.written {ns : List Int} {front gap : List Char} (h : Enumerated ns front)
    (hgap : Gap gap) : Written ns (front ++ gap) := by
  obtain ⟨hfirst, hpiece, hrest⟩ := h
  simp only [List.append_assoc]
  exact .cons hfirst hpiece (hrest.continued hgap)

theorem Written.ne_nil {ns : List Int} {text : List Char} (h : Written ns text) : ns ≠ [] := by
  cases h with
  | cons _ _ _ => exact List.cons_ne_nil _ _

theorem exists_gap (text : List Char) : ∃ gap, Gap gap ∧ text = gap ++ skip text :=
  ⟨text.takeWhile isLayout, fun _ => List.mem_takeWhile_imp,
    List.takeWhile_append_dropWhile.symm⟩

theorem Amiss.unique {seen seen' rest rest' : List Char} (h : Amiss seen rest)
    (h' : Amiss seen' rest') (htext : seen ++ rest = seen' ++ rest') : seen = seen' := by
  obtain ⟨front, gap, rfl, htaken, hlongest, hgap, hrest⟩ := h
  obtain ⟨front', gap', rfl, htaken', hlongest', hgap', hrest'⟩ := h'
  have hle : front.length ≤ front'.length :=
    hlongest' front (gap ++ rest) (by rw [← htext, List.append_assoc]) htaken
  have hge : front'.length ≤ front.length :=
    hlongest front' (gap' ++ rest') (by rw [htext, List.append_assoc]) htaken'
  have hbehind : gap ++ rest = gap' ++ rest' := by
    rw [List.append_assoc, List.append_assoc] at htext
    exact (List.append_inj htext (Nat.le_antisymm hle hge)).2
  have hsame : rest = rest' :=
    calc rest = skip (gap ++ rest) := by rw [skip_gap hgap, skip, dropWhile_of_head? hrest]
      _ = skip (gap' ++ rest') := by rw [hbehind]
      _ = rest' := by rw [skip_gap hgap', skip, dropWhile_of_head? hrest']
  rw [hsame] at htext
  exact List.append_cancel_right htext

/-! ### What the reader takes -/

theorem exists_joint_of_next? {text rest : List Char} {n : Int}
    (h : next? text = some (n, rest)) :
    ∃ before behind piece, Gap before ∧ Gap behind ∧ Decimal.Numeral n piece ∧
      text = before ++ ',' :: (behind ++ (piece ++ rest)) := by
  rw [next?] at h
  split at h
  · next tail htail =>
    obtain ⟨before, hbefore, htext⟩ := exists_gap text
    obtain ⟨behind, hbehind, hrest⟩ := exists_gap tail
    obtain ⟨piece, hpiece, hskip⟩ := Decimal.exists_numeral_of_integer? h
    exact ⟨before, behind, piece, hbefore, hbehind, hpiece,
      by rw [← hskip, ← hrest, ← htail, ← htext]⟩
  · cases h

theorem joined_tail (text : List Char) :
    ∃ front, Joined (tail text).1 front ∧ text = front ++ (tail text).2 := by
  induction text using tail.induct with
  | case1 text h =>
    rw [tail_eq, h]
    exact ⟨[], .nil, rfl⟩
  | case2 text n rest h _ _ _ _ ih =>
    obtain ⟨front, hfront, hrest⟩ := ih
    obtain ⟨before, behind, piece, hbefore, hbehind, hpiece, htext⟩ := exists_joint_of_next? h
    rw [tail_eq, h]
    refine ⟨_, .cons hbefore hbehind hpiece hfront, ?_⟩
    simp only [List.append_assoc, List.cons_append, ← hrest]
    exact htext

theorem length_tail_le (text : List Char) : (tail text).2.length ≤ text.length := by
  obtain ⟨front, -, htext⟩ := joined_tail text
  have hlength := congrArg List.length htext
  rw [List.length_append] at hlength
  omega

/-- However far one may read on by integers with commas in front of them, the reader comes at least
as far. -/
theorem length_tail_joined {ns : List Int} {front : List Char} (h : Joined ns front)
    (rest : List Char) :
    (tail ((front ++ rest).dropWhile Char.isDigit)).2.length ≤ rest.length := by
  induction h with
  | nil =>
    exact Nat.le_trans (length_tail_le _) (Decimal.length_dropWhile_le Char.isDigit rest)
  | @cons n ns before behind piece others hbefore hbehind hpiece _ ih =>
    have hstay (text : List Char) :
        (before ++ ',' :: text).dropWhile Char.isDigit = before ++ ',' :: text :=
      dropWhile_of_head? (hbefore.not_digit (by rintro _ ⟨⟩; rfl))
    obtain ⟨m, hm⟩ := hpiece.integer?_append (others ++ rest)
    simp only [List.append_assoc, List.cons_append]
    rw [hstay, tail_eq, next?_joint hbefore hbehind hpiece, hm]
    exact ih

theorem Enumerated.length_tail_le {ns : List Int} {front : List Char} (h : Enumerated ns front)
    (rest : List Char) :
    ∃ n behind, Decimal.integer? (skip (front ++ rest)) = some (n, behind) ∧
      (tail behind).2.length ≤ rest.length := by
  obtain ⟨hgap, hpiece, hjoined⟩ := h
  obtain ⟨n, hn⟩ := hpiece.integer?_append (_ ++ rest)
  refine ⟨n, _, ?_, length_tail_joined hjoined rest⟩
  rw [List.append_assoc, List.append_assoc, skip_gap hgap, skip_numeral hpiece, hn]

theorem exists_enumerated {text behind : List Char} {n : Int}
    (h : Decimal.integer? (skip text) = some (n, behind)) :
    ∃ front, Enumerated (n :: (tail behind).1) front ∧ text = front ++ (tail behind).2 := by
  obtain ⟨gap, hgap, htext⟩ := exists_gap text
  obtain ⟨piece, hpiece, hskip⟩ := Decimal.exists_numeral_of_integer? h
  obtain ⟨others, hothers, hbehind⟩ := joined_tail behind
  refine ⟨_, .cons hgap hpiece hothers, ?_⟩
  rw [List.append_assoc, List.append_assoc, ← hbehind, ← hskip, ← htext]

theorem readChars_cases (text : List Char) :
    (∃ ns, readChars text = .ok ns ∧ Written ns text) ∨
      ∃ seen rest, text = seen ++ rest ∧ readChars text = .error ⟨position text rest⟩ ∧
        Amiss seen rest := by
  have hplace := not_of_mem_head?_dropWhile isLayout
  rw [readChars]
  cases hfirst : Decimal.integer? (skip text) with
  | none =>
    obtain ⟨gap, hgap, htext⟩ := exists_gap text
    refine .inr ⟨gap, skip text, htext, rfl, [], gap, rfl, .inl rfl, ?_, hgap, hplace text⟩
    rintro front' rest' htext' (rfl | ⟨_, htaken⟩)
    · exact Nat.le_refl 0
    · obtain ⟨m, behind, hm, -⟩ := htaken.length_tail_le rest'
      rw [← htext', ← htext, hfirst] at hm
      cases hm
  | some first =>
    obtain ⟨n, behind⟩ := first
    obtain ⟨front, hfront, htext⟩ := exists_enumerated hfirst
    obtain ⟨gap, hgap, hrest⟩ := exists_gap (tail behind).2
    -- Whatever can be taken from the text, the reader comes at least as far.
    have hlongest : ∀ front' rest', text = front' ++ rest' → Taken front' →
        front'.length ≤ front.length := by
      rintro front' rest' htext' (rfl | ⟨_, htaken⟩)
      · exact Nat.zero_le _
      · obtain ⟨m, behind', hm, hlength⟩ := htaken.length_tail_le rest'
        rw [← htext', hfirst] at hm
        cases hm
        have hwhole := congrArg List.length (htext'.symm.trans htext)
        simp only [List.length_append] at hwhole
        omega
    dsimp only
    split
    · next hend =>
      rw [List.isEmpty_iff.1 hend, List.append_nil] at hrest
      rw [htext, hrest]
      exact .inl ⟨_, rfl, hfront.written hgap⟩
    · have hwhole : text = front ++ gap ++ skip (tail behind).2 := by
        rw [List.append_assoc, ← hrest, ← htext]
      exact .inr ⟨_, _, hwhole, rfl, front, gap, rfl, .inr ⟨_, hfront⟩, hwhole ▸ hlongest, hgap,
        hplace _⟩

/-! ### Texts with tabs -/

theorem replicate_split {blank c : Char} {count : Nat} {text front back : List Char}
    (h : List.replicate count blank ++ text = front ++ c :: back) (hc : c ≠ blank) :
    ∃ rest, front = List.replicate count blank ++ rest ∧ text = rest ++ c :: back := by
  induction count generalizing front with
  | zero => exact ⟨front, rfl, h⟩
  | succ count ih =>
    rw [List.replicate_succ, List.cons_append] at h
    cases front with
    | nil => exact absurd (List.cons.inj h).1.symm hc
    | cons d front =>
      obtain ⟨rfl, hbehind⟩ := List.cons.inj h
      obtain ⟨rest, rfl, htext⟩ := ih hbehind
      exact ⟨rest, rfl, htext⟩

theorem expandTabs_split {column : Nat} {text front back : List Char} {c : Char}
    (h : expandTabs column text = front ++ c :: back) (hc : c ≠ ' ') :
    ∃ front' back' column', text = front' ++ c :: back' ∧ expandTabs column front' = front ∧
      expandTabs column' back' = back := by
  induction text generalizing column front with
  | nil => cases front <;> cases h
  | cons d text ih =>
    rw [expandTabs] at h
    split at h
    · next htab =>
      obtain ⟨rest, rfl, hrest⟩ := replicate_split h hc
      obtain ⟨front', back', column', rfl, rfl, hback⟩ := ih hrest
      exact ⟨d :: front', back', column', rfl, by rw [expandTabs, if_pos htab], hback⟩
    · next htab =>
      cases front with
      | nil =>
        obtain ⟨rfl, hback⟩ := List.cons.inj h
        exact ⟨[], text, _, rfl, rfl, hback⟩
      | cons e front =>
        obtain ⟨rfl, hrest⟩ := List.cons.inj h
        obtain ⟨front', back', column', rfl, rfl, hback⟩ := ih hrest
        exact ⟨d :: front', back', column', rfl, by rw [expandTabs, if_neg htab], hback⟩

theorem expandTabs_split_solid {column : Nat} {text piece rest : List Char}
    (h : expandTabs column text = piece ++ rest) (hpiece : ' ' ∉ piece) :
    ∃ text' column', text = piece ++ text' ∧ expandTabs column' text' = rest := by
  induction piece generalizing column text with
  | nil => exact ⟨text, column, rfl, h⟩
  | cons c piece ih =>
    rw [List.mem_cons, not_or] at hpiece
    have hfirst : expandTabs column text = [] ++ c :: (piece ++ rest) := h
    obtain ⟨front, back, column₁, rfl, hfront, hback⟩ := expandTabs_split hfirst (Ne.symm hpiece.1)
    obtain rfl : front = [] := by
      by_contra hne
      exact Assembly.expandTabs_ne_nil hne column hfront
    obtain ⟨text', column', rfl, hrest⟩ := ih hback hpiece.2
    exact ⟨text', column', rfl, hrest⟩

theorem expandTabs_split_numeral {column : Nat} {text gap piece rest : List Char} {n : Int}
    (h : expandTabs column text = gap ++ (piece ++ rest)) (hpiece : Decimal.Numeral n piece) :
    ∃ gap' text' column', text = gap' ++ (piece ++ text') ∧ expandTabs column gap' = gap ∧
      expandTabs column' text' = rest := by
  have hsolid : ' ' ∉ piece := by
    intro hspace
    cases Assembly.isNumberStart_of_mem hpiece hspace
  obtain ⟨c, piece, rfl, -⟩ := hpiece.exists_cons
  rw [List.mem_cons, not_or] at hsolid
  obtain ⟨gap', back, column₁, rfl, hgap, hback⟩ := expandTabs_split h (Ne.symm hsolid.1)
  obtain ⟨text', column', rfl, hrest⟩ := expandTabs_split_solid hback hsolid.2
  exact ⟨gap', text', column', rfl, hgap, hrest⟩

theorem Gap.of_expandTabs {column : Nat} {text : List Char}
    (h : Gap (Text.expandTabs column text)) : Gap text := by
  induction text generalizing column with
  | nil => exact Gap.nil
  | cons c text ih =>
    rw [Text.expandTabs] at h
    refine List.forall_mem_cons.2 ?_
    split at h
    · next htab => exact ⟨htab ▸ rfl, ih (List.forall_mem_append.1 h).2⟩
    · exact ⟨(List.forall_mem_cons.1 h).1, ih (List.forall_mem_cons.1 h).2⟩

theorem Continued.of_expandTabs {ns : List Int} {column : Nat} {text : List Char}
    (h : Continued ns (Text.expandTabs column text)) : Continued ns text := by
  generalize htext : Text.expandTabs column text = expanded at h
  induction h generalizing column text with
  | nil hgap =>
    subst htext
    exact .nil hgap.of_expandTabs
  | cons hbefore hbehind hpiece _ ih =>
    obtain ⟨before, text₁, column₁, rfl, rfl, h₁⟩ := expandTabs_split htext (by decide)
    obtain ⟨behind, text₂, column₂, rfl, rfl, h₂⟩ := expandTabs_split_numeral h₁ hpiece
    exact .cons hbefore.of_expandTabs hbehind.of_expandTabs hpiece (ih h₂)

theorem written_expandTabs_iff {ns : List Int} {column : Nat} {text : List Char} :
    Written ns (expandTabs column text) ↔ Written ns text := by
  constructor
  · intro h
    generalize htext : expandTabs column text = expanded at h
    obtain ⟨hgap, hpiece, hrest⟩ := h
    obtain ⟨gap, text', column', rfl, rfl, rfl⟩ := expandTabs_split_numeral htext hpiece
    exact .cons hgap.of_expandTabs hpiece hrest.of_expandTabs
  · exact fun h => h.expandTabs column

/-! ### Texts as they are given -/

theorem position_append (seen rest : List Char) :
    position (seen ++ rest) rest =
      ⟨seen.count '\n' + 1, (seen.rtakeWhile (· != '\n')).length + 1⟩ := by
  rw [position, lineBefore, before_append]
  rfl

theorem read_cases (text : String) :
    (∃ program, read text = .ok program ∧ Written program text.toList) ∨
      ∃ seen rest, expandTabs 0 text.toList = seen ++ rest ∧ Amiss seen rest ∧
        read text =
          .error ⟨seen.count '\n' + 1, (seen.rtakeWhile (· != '\n')).length + 1⟩ := by
  obtain ⟨program, hread, hwritten⟩ | ⟨seen, rest, htext, hread, hamiss⟩ :=
    readChars_cases (expandTabs 0 text.toList)
  · exact .inl ⟨program, hread, written_expandTabs_iff.1 hwritten⟩
  · rw [htext, position_append, ← htext] at hread
    exact .inr ⟨seen, rest, htext, hamiss, hread⟩

theorem read_eq_ok_iff {text : String} {program : List Int} :
    read text = .ok program ↔ Written program text.toList := by
  refine ⟨?_, read_written⟩
  intro h
  obtain ⟨program', hread, hwritten⟩ | ⟨seen, rest, -, -, hread⟩ := read_cases text
  · cases hread.symm.trans h
    exact hwritten
  · cases hread.symm.trans h

theorem read_eq_error_iff {text : String} {error : SyntaxError} :
    read text = .error error ↔
      (∀ program, ¬ Written program text.toList) ∧
        ∃ seen rest, expandTabs 0 text.toList = seen ++ rest ∧ Amiss seen rest ∧
          error = ⟨seen.count '\n' + 1, (seen.rtakeWhile (· != '\n')).length + 1⟩ := by
  constructor
  · intro h
    constructor
    · intro program hwritten
      cases h.symm.trans (read_written hwritten)
    · obtain ⟨program, hread, -⟩ | ⟨seen, rest, htext, hamiss, hread⟩ := read_cases text
      · cases hread.symm.trans h
      · cases hread.symm.trans h
        exact ⟨seen, rest, htext, hamiss, rfl⟩
  · rintro ⟨hnone, seen, rest, htext, hamiss, rfl⟩
    obtain ⟨program, -, hwritten⟩ | ⟨seen', rest', htext', hamiss', hread⟩ := read_cases text
    · exact absurd hwritten (hnone program)
    · obtain rfl := hamiss'.unique hamiss (htext'.symm.trans htext)
      exact hread

/-- A text is read as the integers that it is a way to write. Any other text is refused where it
goes wrong, with tabs replaced by blanks: the line is the number of line feeds seen so far and the
column that of characters seen in the line, both counted from one. -/
theorem read_exact (text : String) :
    (∀ program, read text = .ok program ↔ Written program text.toList) ∧
    ∀ error, read text = .error error ↔
      (∀ program, ¬ Written program text.toList) ∧
        ∃ seen rest, expandTabs 0 text.toList = seen ++ rest ∧ Amiss seen rest ∧
          error = ⟨seen.count '\n' + 1, (seen.rtakeWhile (· != '\n')).length + 1⟩ :=
  ⟨fun _ => read_eq_ok_iff, fun _ => read_eq_error_iff⟩

-- The tab leads to the ninth column, and a comma is missing two columns behind it.
example : read "1 ,\n\t2 3" = .error ⟨2, 11⟩ := by decide +kernel

/-- A program is read back from the text that is written for it, and whatever text a program was
read from, what is then written for it is read as the same program and written the same way
again. -/
theorem write_canonical :
    (∀ program : List Int, program ≠ [] → read (write program) = .ok program) ∧
    ∀ text program, read text = .ok program →
      read (write program) = read text ∧
        (read (write program)).map write = .ok (write program) := by
  have hback : ∀ program : List Int, program ≠ [] → read (write program) = .ok program := by
    intro program hne
    have hread : read (write program ++ "") = .ok program := read_write hne Gap.nil
    rwa [String.append_empty] at hread
  refine ⟨hback, ?_⟩
  intro text program hread
  have hagain := hback program (read_eq_ok_iff.1 hread).ne_nil
  rw [hread, hagain]
  exact ⟨rfl, rfl⟩

theorem write_canonical_signed :
    read (write [-7, 0, 18446744073709551616]) = .ok [-7, 0, 18446744073709551616] ∧
    read "+007 ,\t-0\n" = .ok [7, 0] ∧ write [7, 0] = "7,0" ∧
    read (write [7, 0]) = read "+007 ,\t-0\n" ∧
    (read (write [7, 0])).map write = .ok (write [7, 0]) := by
  have hread : read "+007 ,\t-0\n" = .ok [7, 0] := by decide +kernel
  have hwrite : write [7, 0] = "7,0" := by decide
  exact ⟨write_canonical.1 _ (List.cons_ne_nil _ _), hread, hwrite, write_canonical.2 _ _ hread⟩

end ProgramText

end TapeMachine
