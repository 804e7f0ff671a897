import TapeMachine.Proofs.Assembly.Layout

namespace TapeMachine

section

variable {α : Type} {p : α → Bool} {a : α} (h : p a = false) (front back : List α)

include h

theorem takeWhile_append_cons : (front ++ a :: back).takeWhile p = front.takeWhile p := by
  induction front with
  | nil => exact List.takeWhile_cons_of_neg (by simp [h])
  | cons b front ih => rw [List.cons_append, List.takeWhile_cons, List.takeWhile_cons, ih]

theorem dropWhile_append_cons :
    (front ++ a :: back).dropWhile p = front.dropWhile p ++ a :: back := by
  induction front with
  | nil => exact List.dropWhile_cons_of_neg (by simp [h])
  | cons b front ih =>
    rw [List.cons_append, List.dropWhile_cons, List.dropWhile_cons, ih]
    split <;> rfl

end

namespace Decimal

theorem natural?_newline (text other : List Char) :
    natural? (text ++ '\n' :: other) =
      (natural? text).map fun (n, rest) => (n, rest ++ '\n' :: other) := by
  have hnewline : Char.isDigit '\n' = false := rfl
  rw [natural?, natural?, takeWhile_append_cons hnewline, dropWhile_append_cons hnewline]
  cases text.takeWhile Char.isDigit <;> rfl

theorem integer?_newline (text other : List Char) :
    integer? (text ++ '\n' :: other) =
      (integer? text).map fun (n, rest) => (n, rest ++ '\n' :: other) := by
  cases text with
  | nil => rfl
  | cons c text =>
    by_cases hplus : c = '+'
    · subst hplus
      simp only [List.cons_append, integer?, natural?_newline, Option.map_map]
      rfl
    by_cases hminus : c = '-'
    · subst hminus
      simp only [List.cons_append, integer?, natural?_newline, Option.map_map]
      rfl
    · rw [List.cons_append, integer?_unsigned hplus hminus, integer?_unsigned hplus hminus,
        ← List.cons_append, natural?_newline, Option.map_map, Option.map_map]
      rfl

end Decimal

namespace Assembly

open Text

theorem comment?_newline (text other : List Char) :
    comment? (text ++ '\n' :: other) = (comment? text).map (· ++ '\n' :: other) := by
  match text with
  | [] => rfl
  | [c] =>
    by_cases hc : c = '/'
    · subst hc
      rfl
    · rw [List.cons_append, comment?_of_ne hc, comment?_of_ne hc, Option.map_none]
  | c :: d :: text =>
    by_cases hc : c = '/'
    · by_cases hd : d = '/'
      · subst hc hd
        exact congrArg some (dropWhile_append_cons (p := (· != '\n')) rfl text other)
      · subst hc
        simp [comment?, hd]
    · rw [List.cons_append, comment?_of_ne hc, comment?_of_ne hc, Option.map_none]

theorem read_newline (glued : Bool) (c : Char) (text other : List Char) :
    Token.read glued c (text ++ '\n' :: other) =
      ((Token.read glued c text).1, (Token.read glued c text).2 ++ '\n' :: other) := by
  have hnewline : isNameChar '\n' = false := rfl
  have hdollar (rest : List Char) :
      ((rest ++ '\n' :: other).head? != some '$') = (rest.head? != some '$') := by
    cases rest <;> rfl
  have hinteger : Decimal.integer? (c :: (text ++ '\n' :: other)) = _ :=
    Decimal.integer?_newline (c :: text) other
  simp only [Token.read, takeWhile_append_cons hnewline, dropWhile_append_cons hnewline, hdollar,
    hinteger]
  split_ifs
  · rfl
  · rfl
  · rfl
  · rfl
  · cases Decimal.integer? (c :: text) <;> rfl

theorem tokens_newline (glued : Bool) (text other : List Char) :
    tokens glued (text ++ '\n' :: other) = tokens glued text ++ tokens false other := by
  fun_induction scan glued text with
  | case1 glued => rw [tokens_nil, List.nil_append, List.nil_append, tokens_layout rfl]
  | case2 glued c rest hlayout ih =>
    rw [List.cons_append, tokens_layout hlayout, tokens_layout hlayout, ih]
  | case3 glued c rest hlayout rest' hcomment _ ih =>
    have hlayout : isLayout c = false := Bool.eq_false_iff.2 hlayout
    have hjoined : comment? (c :: (rest ++ '\n' :: other)) = some (rest' ++ '\n' :: other) := by
      rw [← List.cons_append, comment?_newline, hcomment, Option.map_some]
    rw [List.cons_append, tokens_comment? hlayout hjoined, tokens_comment? hlayout hcomment, ih]
  | case4 glued c rest hlayout hcomment ih =>
    have hlayout : isLayout c = false := Bool.eq_false_iff.2 hlayout
    have hjoined : comment? (c :: (rest ++ '\n' :: other)) = none := by
      rw [← List.cons_append, comment?_newline, hcomment, Option.map_none]
    rw [List.cons_append, tokens_cons hlayout hjoined, tokens_cons hlayout hcomment, read_newline,
      ih, List.cons_append]

theorem expandTabs_newline (column : Nat) (text other : List Char) :
    expandTabs column (text ++ '\n' :: other) =
      expandTabs column text ++ '\n' :: expandTabs 0 other := by
  induction text generalizing column with
  | nil => rfl
  | cons c text ih =>
    rw [List.cons_append, expandTabs, expandTabs]
    split
    · rw [ih, List.append_assoc]
    · rw [ih, List.cons_append]

theorem parse_joined {upper lower : List Char} {ss ts : List Statement}
    (hupper : parse (expandTabs 0 upper) = .ok ss) (hlower : parse (expandTabs 0 lower) = .ok ts) :
    parse (expandTabs 0 (upper ++ '\n' :: lower)) = .ok (ss ++ ts) := by
  apply parse_tokens
  · exact List.forall_mem_append.2 ⟨writable_of_parse hupper, writable_of_parse hlower⟩
  -- No statement of the lower text is taken for more of the upper one's data: both lists of
  -- statements are read back from their tokens, wherever these stand.
  · rw [expandTabs_newline, tokens_newline, tokens_of_parse hupper, tokens_of_parse hlower,
      List.flatMap_append]

/-- What a word that was written as the term becomes further back in the program. -/
def Term.moved (offset : Nat) : Term → Int → Int
  | literal _, word => word
  | reference _, word => word + offset

theorem split_append {α : Type} {front back before after : List α} {a : α}
    (h : front ++ back = before ++ a :: after) :
    (∃ between, front = before ++ a :: between) ∨
      ∃ between, before = front ++ between ∧ back = between ++ a :: after := by
  obtain ⟨between, hbefore, hback⟩ | ⟨between, hfront, hafter⟩ := List.append_eq_append_iff.1 h
  · exact .inr ⟨between, hbefore, hback⟩
  · cases between with
    | nil =>
      rw [List.append_nil] at hfront
      exact .inr ⟨[], by rw [List.append_nil, hfront], hafter.symm⟩
    | cons b between =>
      cases hafter
      exact .inl ⟨between, hfront⟩

section

variable {ss ts : List Statement} {address : String → Nat}

theorem Consistent.append (hs : Consistent ss) (ht : Consistent ts)
    (hapart : ∀ name, .label name ∈ ss → .label name ∉ ts) : Consistent (ss ++ ts) where
  unique := by
    intro before name after hsplit hbefore
    obtain ⟨between, hss⟩ | ⟨between, rfl, hts⟩ := split_append hsplit
    · exact hs.unique before name between hss hbefore
    · obtain hupper | hlower := List.mem_append.1 hbefore
      · refine hapart name hupper ?_
        rw [hts]
        exact List.mem_append_right _ List.mem_cons_self
      · exact ht.unique between name after hts hlower
  defined := by
    intro statement hstatement name huses
    obtain hstatement | hstatement := List.mem_append.1 hstatement
    · exact List.mem_append_left _ (hs.defined statement hstatement name huses)
    · exact List.mem_append_right _ (ht.defined statement hstatement name huses)
  storable := by
    intro i hi
    obtain hi | hi := List.mem_append.1 hi
    · exact hs.storable i hi
    · exact ht.storable i hi

theorem Locates.upper (h : Locates (ss ++ ts) address) : Locates ss address := by
  intro before name after hsplit
  apply h before name (after ++ ts)
  rw [hsplit, List.append_assoc, List.cons_append]

theorem Locates.lower (h : Locates (ss ++ ts) address) {before after : List Statement}
    {name : String} (hsplit : ts = before ++ .label name :: after) :
    address name =
      (ss.flatMap Statement.terms).length + (before.flatMap Statement.terms).length := by
  rw [h (ss ++ before) name after (by rw [hsplit, List.append_assoc]), length_flatMap_words,
    List.flatMap_append, List.length_append]

theorem Consistent.words_moved (hts : Consistent ts) {alone : String → Nat}
    (h : Locates (ss ++ ts) address) (halone : Locates ts alone) :
    ts.flatMap (Statement.words address) =
      List.zipWith (Term.moved (ss.flatMap Statement.terms).length)
        (ts.flatMap Statement.terms) (ts.flatMap (Statement.words alone)) := by
  rw [flatMap_words, flatMap_words, List.zipWith_map_right, List.zipWith_self]
  apply List.map_congr_left
  intro term hterm
  cases term with
  | literal value => rfl
  | reference name =>
    obtain ⟨before, after, hsplit⟩ := hts.exists_split hterm
    rw [Term.moved, Term.word, Term.word, h.lower hsplit, halone before name after hsplit,
      length_flatMap_words, Nat.add_comm, Int.natCast_add]

theorem assembleStatements_append {ws vs : List Int}
    (hss : ∀ statement ∈ ss, statement.Writable) (hts : ∀ statement ∈ ts, statement.Writable)
    (hapart : ∀ name, .label name ∈ ss → .label name ∉ ts)
    (hws : assembleStatements ss = .ok ws) (hvs : assembleStatements ts = .ok vs) :
    vs.length = (ts.flatMap Statement.terms).length ∧
      assembleStatements (ss ++ ts) =
        .ok (ws ++ List.zipWith (Term.moved ws.length) (ts.flatMap Statement.terms) vs) := by
  obtain ⟨hs, above, habove, rfl⟩ := (assembleStatements_eq_ok hss).1 hws
  obtain ⟨ht, alone, halone, rfl⟩ := (assembleStatements_eq_ok hts).1 hvs
  have hjoined := hs.append ht hapart
  have hlocates := hjoined.locates
  refine ⟨length_flatMap_words alone ts, ?_⟩
  rw [assembleStatements_eq_ok (List.forall_mem_append.2 ⟨hss, hts⟩)]
  refine ⟨hjoined, _, hlocates, ?_⟩
  rw [List.flatMap_append, hs.words_eq hlocates.upper habove, ht.words_moved hlocates halone,
    length_flatMap_words]

end

/-- Two texts without a common label, one above the other, are assembled to the words of the upper
one and then those of the lower one, in which each word that was written as a label has grown by
the number of words above. -/
theorem assemble_joined {upper lower : String} {ss ts : List Statement} {ws vs : List Int}
    (hupper : parse (expandTabs 0 upper.toList) = .ok ss)
    (hlower : parse (expandTabs 0 lower.toList) = .ok ts)
    (hapart : ∀ name, .label name ∈ ss → .label name ∉ ts)
    (hws : assemble upper = .ok ws) (hvs : assemble lower = .ok vs) :
    vs.length = (ts.flatMap Statement.terms).length ∧
      assemble (upper ++ "\n" ++ lower) =
        .ok (ws ++ List.zipWith (Term.moved ws.length) (ts.flatMap Statement.terms) vs) := by
  have hjoined : parse (expandTabs 0 (upper ++ "\n" ++ lower).toList) = .ok (ss ++ ts) := by
    rw [String.toList_append, String.toList_append, List.append_assoc]
    exact parse_joined hupper hlower
  rw [assemble, hupper] at hws
  rw [assemble, hlower] at hvs
  rw [assemble, hjoined]
  exact assembleStatements_append (writable_of_parse hupper) (writable_of_parse hlower) hapart
    hws hvs

theorem assemble_joined_comment :
    assemble "x: DW 5 x // y" = .ok [5, 0] ∧
    assemble "y:jt #1 #y DW y" = .ok [1105, 1, 0, 0] ∧
    assemble ("x: DW 5 x // y" ++ "\n" ++ "y:jt #1 #y DW y") = .ok [5, 0, 1105, 1, 2, 2] := by
  have hws : assemble "x: DW 5 x // y" = .ok [5, 0] := by decide +kernel
  have hvs : assemble "y:jt #1 #y DW y" = .ok [1105, 1, 0, 0] := by decide +kernel
  have hupper : parse (expandTabs 0 "x: DW 5 x // y".toList) =
      .ok [.label "x", .data [.literal 5, .reference "x"]] := by
    decide +kernel
  have hlower : parse (expandTabs 0 "y:jt #1 #y DW y".toList) =
      .ok [.label "y", .instruction ⟨.jumpTrue, [⟨.immediate, .literal 1⟩,
        ⟨.immediate, .reference "y"⟩]⟩, .data [.reference "y"]] := by
    decide +kernel
  refine ⟨hws, hvs, (assemble_joined hupper hlower ?_ hws hvs).2⟩
  simp

end Assembly

end TapeMachine
