import TapeMachine.ProgramText
import TapeMachine.Proofs.Assembly.Rendering

namespace TapeMachine

namespace Decimal

theorem Numeral.exists_cons {n : Int} {text : List Char} (h : Numeral n text) :
    ∃ c rest, text = c :: rest ∧ Assembly.isNumberStart c = true := by
  cases text with
  | nil =>
    have hnone : Decimal.integer? [] = some (n, []) := h.integer? nofun
    cases hnone
  | cons c rest => exact ⟨c, rest, rfl, Assembly.isNumberStart_of_mem h List.mem_cons_self⟩

theorem numeral_plain (n : Int) : Numeral n (plain n) := by
  cases n with
  | ofNat n => exact .plain 0 n
  | negSucc n => exact .minus 0 (n + 1)

theorem numeral_toString (n : Int) : Numeral n (toString n).toList := by
  rw [toList_toString]
  exact numeral_plain n

end Decimal

namespace ProgramText

open Text

def Gap (text : List Char) : Prop := ∀ c ∈ text, isLayout c = true

inductive Continued : List Int → List Char → Prop
  | nil {gap : List Char} : Gap gap → Continued [] gap
  | cons {n : Int} {ns : List Int} {before behind piece rest : List Char} :
      Gap before → Gap behind → Decimal.Numeral n piece → Continued ns rest →
      Continued (n :: ns) (before ++ ',' :: (behind ++ (piece ++ rest)))

inductive Written : List Int → List Char → Prop
  | cons {n : Int} {ns : List Int} {gap piece rest : List Char} :
      Gap gap → Decimal.Numeral n piece → Continued ns rest →
      Written (n :: ns) (gap ++ (piece ++ rest))

theorem skip_gap {gap : List Char} (h : Gap gap) (rest : List Char) :
    skip (gap ++ rest) = skip rest :=
  List.dropWhile_append_of_pos h

theorem skip_of_gap {gap : List Char} (h : Gap gap) : skip gap = [] := by
  have hskip := skip_gap h []
  rwa [List.append_nil] at hskip

theorem skip_numeral {n : Int} {piece : List Char} (h : Decimal.Numeral n piece)
    (rest : List Char) : skip (piece ++ rest) = piece ++ rest := by
  obtain ⟨c, piece, rfl, hc⟩ := h.exists_cons
  rw [List.cons_append, skip, List.dropWhile_cons, Assembly.isLayout_of_isNumberStart hc,
    if_neg Bool.false_ne_true]

theorem isDigit_of_isLayout {c : Char} (h : isLayout c = true) : c.isDigit = false := by
  simp only [isLayout, Bool.or_eq_true, beq_iff_eq] at h
  rcases h with ((rfl | rfl) | rfl) | rfl <;> rfl

theorem Gap.not_digit {gap rest : List Char} (h : Gap gap)
    (hrest : ∀ c ∈ rest.head?, c.isDigit = false) :
    ∀ c ∈ (gap ++ rest).head?, c.isDigit = false := by
  cases gap with
  | nil => exact hrest
  | cons d gap =>
    rintro _ ⟨⟩
    exact isDigit_of_isLayout (h d List.mem_cons_self)

theorem Continued.not_digit {ns : List Int} {text : List Char} (h : Continued ns text) :
    ∀ c ∈ text.head?, c.isDigit = false := by
  cases h with
  | nil h =>
    have hgap : ∀ c ∈ (text ++ []).head?, c.isDigit = false := h.not_digit nofun
    rwa [List.append_nil] at hgap
  | cons h _ _ _ =>
    apply h.not_digit
    rintro _ ⟨⟩
    rfl

theorem tail_eq {text : List Char} :
    tail text =
      match next? text with
      | none => ([], text)
      | some (n, rest) => (n :: (tail rest).1, (tail rest).2) := by
  rw [tail]
  split
  · next h => simp only [h]
  · next h => simp only [h]

theorem next?_joint {n : Int} {before behind piece : List Char} (hbefore : Gap before)
    (hbehind : Gap behind) (hpiece : Decimal.Numeral n piece) (rest : List Char) :
    next? (before ++ ',' :: (behind ++ (piece ++ rest))) = Decimal.integer? (piece ++ rest) := by
  have hcomma : skip (before ++ ',' :: (behind ++ (piece ++ rest))) =
      ',' :: (behind ++ (piece ++ rest)) :=
    skip_gap hbefore _
  rw [next?, hcomma]
  change Decimal.integer? (skip (behind ++ (piece ++ rest))) = _
  rw [skip_gap hbehind, skip_numeral hpiece]

theorem tail_continued {ns : List Int} {text : List Char} (h : Continued ns text) :
    ∃ gap, Gap gap ∧ tail text = (ns, gap) := by
  induction h with
  | @nil gap h =>
    refine ⟨gap, h, ?_⟩
    rw [tail_eq, next?, skip_of_gap h]
  | @cons n ns before behind piece rest hbefore hbehind hpiece hrest ih =>
    obtain ⟨gap, hgap, htail⟩ := ih
    have hnext : next? (before ++ ',' :: (behind ++ (piece ++ rest))) = some (n, rest) := by
      rw [next?_joint hbefore hbehind hpiece, hpiece.integer? hrest.not_digit]
    refine ⟨gap, hgap, ?_⟩
    rw [tail_eq, hnext]
    simp only [htail]

theorem readChars_written {ns : List Int} {text : List Char} (h : Written ns text) :
    readChars text = .ok ns := by
  obtain ⟨hgap, hpiece, hrest⟩ := h
  obtain ⟨gap, hend, htail⟩ := tail_continued hrest
  rw [readChars, skip_gap hgap, skip_numeral hpiece, hpiece.integer? hrest.not_digit]
  simp only [htail, skip_of_gap hend, List.isEmpty_nil, if_true]

theorem Gap.expandTabs {gap : List Char} (h : Gap gap) (column : Nat) :
    Gap (expandTabs column gap) := by
  intro c hc
  obtain rfl | hc := Assembly.mem_expandTabs hc
  · rfl
  · exact h c hc

theorem expandTabs_numeral {n : Int} {piece : List Char} (h : Decimal.Numeral n piece)
    (column : Nat) : expandTabs column piece = piece := by
  refine Assembly.expandTabs_of_not_mem ?_ column
  intro htab
  cases Assembly.isNumberStart_of_mem h htab

theorem Continued.expandTabs {ns : List Int} {text : List Char} (h : Continued ns text)
    (column : Nat) : Continued ns (expandTabs column text) := by
  -- What a tab becomes depends on its column, so each piece starts at a column of its own.
  induction h generalizing column with
  | nil hgap => exact .nil (hgap.expandTabs column)
  | @cons n ns before behind piece rest hbefore hbehind hpiece _ ih =>
    obtain ⟨column₁, h₁⟩ := Assembly.expandTabs_append column before
    obtain ⟨column₂, h₂⟩ := Assembly.expandTabs_append (column₁ + 1) behind
    obtain ⟨column₃, h₃⟩ := Assembly.expandTabs_append column₂ piece
    have hcomma : ∀ rest, Text.expandTabs column₁ (',' :: rest) =
        ',' :: Text.expandTabs (column₁ + 1) rest :=
      fun _ => rfl
    rw [h₁, hcomma, h₂, h₃, expandTabs_numeral hpiece]
    exact .cons (hbefore.expandTabs column) (hbehind.expandTabs _) hpiece (ih column₃)

theorem Written.expandTabs {ns : List Int} {text : List Char} (h : Written ns text)
    (column : Nat) : Written ns (expandTabs column text) := by
  obtain @⟨_, _, gap, piece, rest, hgap, hpiece, hrest⟩ := h
  obtain ⟨column₁, h₁⟩ := Assembly.expandTabs_append column gap
  obtain ⟨column₂, h₂⟩ := Assembly.expandTabs_append column₁ piece
  rw [h₁, h₂, expandTabs_numeral hpiece]
  exact .cons (hgap.expandTabs column) hpiece (hrest.expandTabs column₂)

theorem read_written {ns : List Int} {text : String} (h : Written ns text.toList) :
    read text = .ok ns :=
  readChars_written (h.expandTabs 0)

theorem Gap.nil : Gap [] := nofun

theorem Gap.singleton {c : Char} (h : isLayout c = true) : Gap [c] := by
  intro d hd
  rwa [List.mem_singleton.1 hd]

theorem continued_write (n : Int) (ns : List Int) {gap : List Char} (hgap : Gap gap) :
    ∃ rest, Continued ns rest ∧
      (write (n :: ns)).toList ++ gap = (toString n).toList ++ rest := by
  induction ns generalizing n with
  | nil =>
    refine ⟨gap, .nil hgap, ?_⟩
    rw [write, List.map_singleton, String.intercalate_singleton]
  | cons m ns ih =>
    obtain ⟨rest, hrest, hwrite⟩ := ih m
    refine ⟨',' :: ((toString m).toList ++ rest),
      .cons Gap.nil Gap.nil (Decimal.numeral_toString m) hrest, ?_⟩
    rw [write, List.map_cons, List.map_cons, String.intercalate_cons_cons, ← List.map_cons,
      ← write, ← hwrite]
    simp only [String.toList_append, List.append_assoc]
    rfl

theorem written_write {program : List Int} (h : program ≠ []) {gap : List Char}
    (hgap : Gap gap) : Written program ((write program).toList ++ gap) := by
  cases program with
  | nil => exact absurd rfl h
  | cons n ns =>
    obtain ⟨rest, hrest, hwrite⟩ := continued_write n ns hgap
    rw [hwrite]
    exact .cons Gap.nil (Decimal.numeral_toString n) hrest

theorem read_write {program : List Int} (h : program ≠ []) {gap : String}
    (hgap : Gap gap.toList) : read (write program ++ gap) = .ok program := by
  refine read_written ?_
  rw [String.toList_append]
  exact written_write h hgap

end ProgramText

end TapeMachine
