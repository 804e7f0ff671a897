import Mathlib.Data.List.DropRight
import TapeMachine.Proofs.Assembly.Recognition

namespace TapeMachine.Assembly

def splitComment : List Char → List Char × List Char
  | [] => ([], [])
  | '/' :: '/' :: note => ([], note)
  | c :: text => (c :: (splitComment text).1, (splitComment text).2)

def code (line : String) : String :=
  .ofList ((splitComment line.toList).1.rdropWhile (· == ' '))

def noted? (line : String) : Option Nat :=
  match (splitComment line.toList).2 with
  | ' ' :: note =>
    match Decimal.natural? note with
    | some (n, []) => some n
    | _ => none
  | _ => none

theorem splitComment_append {text : List Char} (h : '/' ∉ text) (note : List Char) :
    splitComment (text ++ '/' :: '/' :: note) = (text, note) := by
  induction text with
  | nil => rfl
  | cons c text ih =>
    rw [List.mem_cons, not_or] at h
    rw [List.cons_append, splitComment, ih h.2]
    rintro _ rfl
    exact absurd rfl h.1

theorem rdropWhile_blanks {text : List Char} {c : Char} (hlast : text.getLast? = some c)
    (hc : c ≠ ' ') (n : Nat) :
    (text ++ List.replicate n ' ').rdropWhile (· == ' ') = text := by
  induction n with
  | zero =>
    rw [List.replicate_zero, List.append_nil, List.rdropWhile_eq_self_iff]
    intro hne
    rw [List.getLast?_eq_some_getLast hne] at hlast
    rw [Option.some.inj hlast, beq_iff_eq]
    exact hc
  | succ n ih =>
    rw [List.replicate_succ', ← List.append_assoc, List.rdropWhile_concat_pos _ _ _ rfl, ih]

section

variable {entry : Entry}

theorem splitComment_entry (h : entry.statement.Closed) :
    splitComment entry.text.toList =
      (entry.statement.text.toList ++ List.replicate (32 - entry.statement.text.length) ' ',
        ' ' :: Nat.toDigits 10 entry.address) := by
  rw [toList_entryText, Decimal.toList_toString, ← List.append_assoc]
  apply splitComment_append
  intro hslash
  obtain hslash | hslash := List.mem_append.1 hslash
  · obtain hblank | hcode := h.isCodeChar_of_mem hslash
    · cases hblank
    · cases hcode
  · cases List.eq_of_mem_replicate hslash

theorem code_entry (h : entry.statement.Closed) : code entry.text = entry.statement.text := by
  obtain ⟨c, hlast, hc⟩ := h.getLast?
  have hblank : c ≠ ' ' := by
    rintro rfl
    cases hc
  rw [code, splitComment_entry h, rdropWhile_blanks hlast hblank, String.ofList_toList]

theorem noted?_entry (h : entry.statement.Closed) : noted? entry.text = some entry.address := by
  have hdigits : Decimal.natural? (Nat.toDigits 10 entry.address ++ []) =
      some (entry.address, []) :=
    Decimal.natural?_toDigits _ (by rintro c ⟨⟩)
  rw [List.append_nil] at hdigits
  simp only [noted?, splitComment_entry h, hdigits]

end

def Entry.words (entry : Entry) : List Int := entry.statement.words fun _ => 0

theorem Statement.Closed.literal_of_mem {statement : Statement} (h : statement.Closed) :
    ∀ term ∈ statement.terms, ∃ n, term = .literal n := by
  cases statement with
  | label name => cases h
  | instruction i =>
    refine List.forall_mem_cons.2 ⟨⟨_, rfl⟩, List.forall_mem_map.2 ?_⟩
    exact h
  | data terms => exact h

theorem Statement.Closed.terms_eq {statement : Statement} (h : statement.Closed)
    (address : String → Nat) : statement.terms = (statement.words address).map .literal := by
  rw [words_eq, List.map_map]
  refine ((List.map_congr_left ?_).trans (List.map_id _)).symm
  intro term hterm
  obtain ⟨n, rfl⟩ := h.literal_of_mem term hterm
  rfl

theorem Listed.words_ne_nil {entry : Entry} (h : Listed entry.statement) : entry.words ≠ [] := by
  obtain ⟨address, statement⟩ := entry
  cases statement with
  | label name => cases h.closed
  | instruction i => exact List.cons_ne_nil _ _
  | data terms =>
    rw [Entry.words, Statement.words, Ne, List.map_eq_nil_iff]
    exact h.writable

theorem assemble_entry {entry : Entry} (h : Listed entry.statement) :
    assemble entry.text = .ok entry.words := by
  have hterms : [entry].flatMap (fun entry => entry.statement.terms) =
      entry.words.map .literal := by
    rw [List.flatMap_singleton]
    exact h.closed.terms_eq _
  have hentries := assemble_entries (List.forall_mem_singleton.2 h) hterms
  rwa [List.map_singleton, String.intercalate_singleton] at hentries

theorem words_entries (address : Nat) (words : List Int) :
    (entries address words).flatMap Entry.words = words := by
  apply map_literal_inj
  rw [List.map_flatMap, ← terms_entries address words]
  exact List.flatMap_congr fun entry hentry =>
    ((listed_entries address words entry hentry).closed.terms_eq _).symm

theorem address_of_entries (address : Nat) (words : List Int) :
    ∀ before entry after, entries address words = before ++ entry :: after →
      entry.address = address + (before.flatMap Entry.words).length := by
  fun_induction entries address words with
  | case1 address =>
    intro before entry after h
    cases before <;> cases h
  | case2 address word rest _ ih =>
    refine forall_split_cons.2 ⟨rfl, ?_⟩
    intro before entry after h
    rw [ih before entry after h, List.flatMap_cons, List.length_append, ← Nat.add_assoc]
    rfl
  | case3 address word rest i hi ih =>
    refine forall_split_cons.2 ⟨rfl, ?_⟩
    intro before entry after h
    have hwidth : (Entry.words ⟨address, .instruction (literalInstruction i)⟩).length =
        1 + i.op.arity := by
      rw [Entry.words, words_literal, Instruction.words, List.length_cons, i.length_values,
        (shows_of_instruction? hi).arity, Nat.add_comm]
    rw [ih before entry after h, List.flatMap_cons, List.length_append, hwidth]
    simp only [Nat.add_assoc]

def lineStart (words : List Int) (k : Nat) : Nat :=
  (((entries 0 words).take k).flatMap Entry.words).length

theorem lineStart_length (words : List Int) :
    lineStart words (entries 0 words).length = words.length := by
  rw [lineStart, List.take_length, words_entries]

section

variable {words : List Int} {k : Nat} (hk : k < (entries 0 words).length)

include hk

theorem entries_split :
    entries 0 words =
      (entries 0 words).take k ++ (entries 0 words)[k] :: (entries 0 words).drop (k + 1) := by
  rw [← List.drop_eq_getElem_cons hk, List.take_append_drop]

theorem address_eq_lineStart : (entries 0 words)[k].address = lineStart words k := by
  rw [address_of_entries 0 words _ _ _ (entries_split hk), Nat.zero_add, lineStart]

theorem lineStart_succ :
    lineStart words (k + 1) = lineStart words k + (entries 0 words)[k].words.length := by
  rw [lineStart, List.take_succ_eq_append_getElem hk, List.flatMap_append, List.length_append,
    List.flatMap_singleton, lineStart]

theorem extract_lineStart :
    words.extract (lineStart words k) (lineStart words (k + 1)) = (entries 0 words)[k].words := by
  have hwords : words = ((entries 0 words).take k).flatMap Entry.words ++
      ((entries 0 words)[k].words ++ ((entries 0 words).drop (k + 1)).flatMap Entry.words) := by
    rw [← List.flatMap_cons, ← List.flatMap_append, ← entries_split hk, words_entries]
  have hdrop := (congrArg (List.drop (lineStart words k)) hwords).trans (List.drop_left' rfl)
  rw [lineStart_succ hk, List.extract_eq_take_drop, Nat.add_sub_cancel_left, hdrop, List.take_left]

end

/-- The lines of a listing tile the program. There is a bound in front of every line and one behind
the last line; the first bound is 0 and the last one the length of the program. Every line notes the
bound in front of it and is assembled to the words up to the next bound, of which there is at least
one. -/
theorem listing_tiles (words : List Int) :
    (disassemble words = [] ↔ words = []) ∧
    ∃ bound : Nat → Nat, bound 0 = 0 ∧ bound (disassemble words).length = words.length ∧
      ∀ (k : Nat) (line : String), (disassemble words)[k]? = some line →
        noted? line = some (bound k) ∧
        ∃ slice, assemble line = .ok slice ∧ slice ≠ [] ∧
          bound (k + 1) = bound k + slice.length ∧
          slice = words.extract (bound k) (bound (k + 1)) := by
  constructor
  · rw [disassemble_eq, List.map_eq_nil_iff]
    constructor
    · intro h
      rw [← words_entries 0 words, h, List.flatMap_nil]
    · rintro rfl
      rw [entries]
  · refine ⟨lineStart words, rfl, ?_, ?_⟩
    · rw [disassemble_eq, List.length_map, lineStart_length]
    · intro k text htext
      rw [disassemble_eq, List.getElem?_map, Option.map_eq_some_iff] at htext
      obtain ⟨entry, hentry, rfl⟩ := htext
      have hlisted := listed_entries 0 words entry (List.mem_of_getElem? hentry)
      obtain ⟨hk, rfl⟩ := List.getElem?_eq_some_iff.1 hentry
      constructor
      · rw [noted?_entry hlisted.closed, address_eq_lineStart hk]
      · exact ⟨_, assemble_entry hlisted, hlisted.words_ne_nil, lineStart_succ hk,
          (extract_lineStart hk).symm⟩

end TapeMachine.Assembly
