import TapeMachine.Proofs.Assembly.Reassembly

/-!
The two passes apart. A draft admits a statement or refuses it, and what it becomes by the
statements that it admits does not depend on that: the first pass succeeds exactly if each statement
is admitted by what the ones before it have made of the draft, and the second one exactly if each
name that is left has an address.
-/

namespace TapeMachine.Assembly

theorem forall_split_cons {α : Type} {p : List α → α → Prop} {a : α} {as : List α} :
    (∀ before b after, a :: as = before ++ b :: after → p before b) ↔
      p [] a ∧ ∀ before b after, as = before ++ b :: after → p (a :: before) b := by
  constructor
  · intro h
    refine ⟨h [] a as rfl, ?_⟩
    intro before b after heq
    exact h (a :: before) b after (congrArg (a :: ·) heq)
  · rintro ⟨hfirst, hrest⟩ before b after heq
    obtain ⟨rfl, hb⟩ | ⟨before, rfl, hsplit⟩ := List.cons_eq_append_iff.1 heq
    · cases hb
      exact hfirst
    · exact hrest before b after hsplit

namespace Draft

def Admits (draft : Draft) : Statement → Prop
  | .label name => draft.address? name = none
  | .instruction i => i.lacksDestination = false ∧ i.storesImmediate = false
  | .data _ => True

def extend (draft : Draft) : Statement → Draft
  | .label name => { draft with labels := draft.labels ++ [(name, draft.offset)] }
  | .instruction i => draft.append (instructionTerms i)
  | .data terms => draft.append terms

def extendAll (draft : Draft) (statements : List Statement) : Draft :=
  statements.foldl extend draft

theorem add_eq_ok {draft next : Draft} {statement : Statement} :
    draft.add statement = .ok next ↔ draft.Admits statement ∧ next = draft.extend statement := by
  cases statement with
  | label name =>
    rw [add, define, Admits]
    cases draft.address? name <;> simp [extend, eq_comm]
  | instruction i =>
    rw [add, issue, Admits]
    cases i.lacksDestination <;> cases i.storesImmediate <;> simp [extend, eq_comm]
  | data terms => simp [add, Admits, extend, eq_comm]

theorem addAll_eq_ok {draft next : Draft} {statements : List Statement} :
    draft.addAll statements = .ok next ↔
      (∀ before statement after, statements = before ++ statement :: after →
        (draft.extendAll before).Admits statement) ∧
      next = draft.extendAll statements := by
  induction statements generalizing draft with
  | nil => simp [addAll, extendAll, eq_comm]
  | cons statement statements ih =>
    rw [forall_split_cons, addAll]
    cases hadd : draft.add statement with
    | error error =>
      have hrefused : ¬ draft.Admits statement := by
        intro hadmits
        rw [add_eq_ok.2 ⟨hadmits, rfl⟩] at hadd
        cases hadd
      constructor
      · intro h
        cases h
      · rintro ⟨⟨hadmits, -⟩, -⟩
        exact absurd hadmits hrefused
    | ok between =>
      obtain ⟨hadmits, rfl⟩ := add_eq_ok.1 hadd
      rw [ih]
      exact and_congr_left fun _ => (and_iff_right hadmits).symm

theorem toList_extend (draft : Draft) (statement : Statement) :
    (draft.extend statement).terms.toList = draft.terms.toList ++ statement.terms := by
  cases statement with
  | label name => exact (List.append_nil _).symm
  | instruction i => exact Array.toList_appendList
  | data terms => exact Array.toList_appendList

theorem toList_extendAll (draft : Draft) (statements : List Statement) :
    (draft.extendAll statements).terms.toList =
      draft.terms.toList ++ statements.flatMap Statement.terms := by
  induction statements generalizing draft with
  | nil => exact (List.append_nil _).symm
  | cons statement statements ih =>
    change ((draft.extend statement).extendAll statements).terms.toList = _
    rw [ih, toList_extend, List.append_assoc, List.flatMap_cons]

theorem extendAll_append (draft : Draft) (before after : List Statement) :
    draft.extendAll (before ++ after) = (draft.extendAll before).extendAll after :=
  List.foldl_append

theorem address?_extend_label (draft : Draft) (name key : String) :
    (draft.extend (.label name)).address? key =
      (draft.address? key).or (if key = name then some draft.offset else none) := by
  simp only [extend, address?, List.lookup_append, List.lookup_cons, List.lookup_nil]
  by_cases h : key = name
  · simp [h]
  · simp [h, beq_eq_false_iff_ne.2 h]

theorem address?_extendAll_some {draft : Draft} {name : String} {address : Nat}
    (h : draft.address? name = some address) (statements : List Statement) :
    (draft.extendAll statements).address? name = some address := by
  induction statements generalizing draft with
  | nil => exact h
  | cons statement statements ih =>
    apply ih
    cases statement with
    | label key => rw [address?_extend_label, h, Option.some_or]
    | instruction i => exact h
    | data terms => exact h

theorem address?_extendAll_none {draft : Draft} {name : String} {statements : List Statement} :
    (draft.extendAll statements).address? name = none ↔
      draft.address? name = none ∧ .label name ∉ statements := by
  induction statements generalizing draft with
  | nil => simp [extendAll]
  | cons statement statements ih =>
    have hextend : (draft.extend statement).address? name = none ↔
        draft.address? name = none ∧ .label name ≠ statement := by
      cases statement with
      | label key => simp [address?_extend_label]
      | instruction i => exact (and_iff_left (by simp)).symm
      | data terms => exact (and_iff_left (by simp)).symm
    have htail : (draft.extendAll (statement :: statements)).address? name = none ↔
        (draft.extend statement).address? name = none ∧ .label name ∉ statements :=
      ih
    rw [htail, hextend, List.mem_cons, not_or, and_assoc]

theorem address?_empty (name : String) : empty.address? name = none :=
  rfl

theorem address?_empty_extendAll {name : String} {statements : List Statement} :
    (empty.extendAll statements).address? name = none ↔ .label name ∉ statements := by
  rw [address?_extendAll_none, and_iff_right (address?_empty name)]

theorem offset_empty_extendAll (statements : List Statement) :
    (empty.extendAll statements).offset = (statements.flatMap Statement.terms).length := by
  rw [offset, ← Array.length_toList, toList_extendAll]
  rfl

theorem address?_extendAll_label {before after : List Statement} {name : String}
    (h : .label name ∉ before) :
    (empty.extendAll (before ++ .label name :: after)).address? name =
      some (before.flatMap Statement.terms).length := by
  have hdefined : ((empty.extendAll before).extend (.label name)).address? name =
      some (before.flatMap Statement.terms).length := by
    rw [address?_extend_label, address?_empty_extendAll.2 h, Option.none_or, if_pos rfl,
      offset_empty_extendAll]
  -- A label defined again behind it does not come before it in the table.
  rw [extendAll_append]
  exact address?_extendAll_some hdefined after

end Draft

def Term.word (address : String → Nat) : Term → Int
  | literal value => value
  | reference label => address label

namespace Draft

def addressOf (draft : Draft) (name : String) : Nat := (draft.address? name).getD 0

def Knows (draft : Draft) : Term → Prop
  | .literal _ => True
  | .reference name => draft.address? name ≠ none

theorem knows_empty_extendAll {statements : List Statement} {front : List Term} :
    (∀ term ∈ front, (empty.extendAll statements).Knows term) ↔
      ∀ name, .reference name ∈ front → .label name ∈ statements := by
  constructor
  · intro h name hname
    by_contra hundefined
    exact h _ hname (address?_empty_extendAll.2 hundefined)
  · intro h term hterm
    cases term with
    | literal value => trivial
    | reference name =>
      intro hundefined
      exact address?_empty_extendAll.1 hundefined (h name hterm)

theorem resolveTerm_eq_ok {draft : Draft} {term : Term} {word : Int} :
    draft.resolveTerm term = .ok word ↔
      draft.Knows term ∧ word = term.word draft.addressOf := by
  cases term with
  | literal value => simp [resolveTerm, Knows, Term.word, eq_comm]
  | reference name =>
    rw [resolveTerm, Knows, Term.word, addressOf]
    cases draft.address? name with
    | none => simp
    | some address => simp [eq_comm]

theorem resolveAll_eq_ok {draft : Draft} {terms : List Term} {words : List Int} :
    draft.resolveAll terms = .ok words ↔
      (∀ term ∈ terms, draft.Knows term) ∧ words = terms.map (Term.word draft.addressOf) := by
  induction terms generalizing words with
  | nil => simp [resolveAll, eq_comm]
  | cons term terms ih =>
    rw [List.forall_mem_cons, List.map_cons, resolveAll]
    cases hfirst : draft.resolveTerm term with
    | error error =>
      have hunknown : ¬ draft.Knows term := by
        intro hknows
        rw [resolveTerm_eq_ok.2 ⟨hknows, rfl⟩] at hfirst
        cases hfirst
      simp [hunknown]
    | ok word =>
      obtain ⟨hknows, rfl⟩ := resolveTerm_eq_ok.1 hfirst
      cases hrest : draft.resolveAll terms with
      | error error =>
        have hunknown : ¬ ∀ term ∈ terms, draft.Knows term := by
          intro hall
          rw [ih.2 ⟨hall, rfl⟩] at hrest
          cases hrest
        simp [hunknown]
      | ok others =>
        obtain ⟨hall, rfl⟩ := ih.1 hrest
        simp only [Except.ok.injEq, hknows, true_and, eq_comm]
        exact (and_iff_right hall).symm

end Draft

end TapeMachine.Assembly
