import Mathlib.Data.List.Induction
import TapeMachine.Proofs.Assembly.Rejection
import TapeMachine.Proofs.Computation

namespace TapeMachine.Assembly

abbrev Draft.Action : Type → Type := EStateM AssemblyError Draft

namespace Draft

def push (term : Term) : Action Unit :=
  modify fun draft => { draft with terms := draft.terms.push term }

def lay : List Term → Action Unit
  | [] => return ()
  | term :: terms => do
    push term
    lay terms

def note (name : String) : Action Unit := do
  match (← get).address? name with
  | some _ => throw (.duplicateLabel name)
  | none => modify fun draft => { draft with labels := draft.labels ++ [(name, draft.offset)] }

def write (i : Instruction Term) : Action Unit := do
  if i.lacksDestination then throw .missingDestination
  else if i.storesImmediate then throw (.immediateDestination i.op (← get).offset)
  else
    push (.literal (Instruction.encode i.op i.modes))
    lay i.values

def compose : Statement → Action Unit
  | .label name => note name
  | .instruction i => write i
  | .data terms => lay terms

end Draft

inductive Call : Type
  | add (statement : Statement)
  | resolve
  deriving DecidableEq

def Call.perform : Call → Draft.Action (Option (List Int))
  | add statement => do
    Draft.compose statement
    return none
  | resolve => do
    let words ← MonadExcept.ofExcept (← get).resolve
    return some words

namespace Draft

def serve (draft : Draft) (calls : List Call) : Draft :=
  calls.foldl (fun draft call => remaining (call.perform draft)) draft

/-! ### One call -/

theorem push_eq (term : Term) (draft : Draft) : push term draft = .ok () (draft.append [term]) := by
  have hpush : draft.append [term] = { draft with terms := draft.terms.push term } := by
    simp [append]
  rw [hpush]
  rfl

theorem lay_eq (terms : List Term) (draft : Draft) :
    lay terms draft = .ok () (draft.append terms) := by
  induction terms generalizing draft with
  | nil => rw [append_nil]; rfl
  | cons term terms ih =>
    rw [lay, bind_eq, push_eq]
    exact (ih _).trans (by rw [append_append]; rfl)

theorem write_legal {i : Instruction Term} (hlacks : i.lacksDestination = false)
    (hstores : i.storesImmediate = false) (draft : Draft) :
    write i draft = .ok () (draft.append (instructionTerms i)) := by
  simp only [write, hlacks, hstores, Bool.false_eq_true, if_false, bind_eq, push_eq, lay_eq,
    append_append]
  rfl

theorem compose_eq (statement : Statement) (draft : Draft) :
    compose statement draft =
      match draft.add statement with
      | .ok next => .ok () next
      | .error error => .error error draft := by
  cases statement with
  | label name =>
    simp only [compose, note, bind_eq, get_eq, add, define]
    cases draft.address? name <;> rfl
  | instruction i =>
    rw [compose, add, issue]
    cases hlacks : i.lacksDestination with
    | true => simp only [write, hlacks]; rfl
    | false =>
      cases hstores : i.storesImmediate with
      | true => simp only [write, hlacks, hstores]; rfl
      | false => exact write_legal hlacks hstores draft
  | data terms => exact lay_eq terms draft

theorem perform_add (statement : Statement) (draft : Draft) :
    (Call.add statement).perform draft =
      match draft.add statement with
      | .ok next => .ok none next
      | .error error => .error error draft := by
  rw [Call.perform, bind_eq, compose_eq]
  cases draft.add statement <;> rfl

theorem perform_resolve (draft : Draft) :
    Call.resolve.perform draft =
      match draft.resolve with
      | .ok words => .ok (some words) draft
      | .error error => .error error draft := by
  simp only [Call.perform, bind_eq, get_eq, ofExcept_eq]
  cases draft.resolve <;> rfl

theorem eq_of_refused {call : Call} {draft left : Draft} {error : AssemblyError}
    (h : call.perform draft = .error error left) : left = draft := by
  cases call with
  | add statement =>
    rw [perform_add] at h
    cases hadd : draft.add statement with
    | ok next =>
      rw [hadd] at h
      cases h
    | error cause =>
      rw [hadd] at h
      cases h
      rfl
  | resolve =>
    rw [perform_resolve] at h
    cases hresolve : draft.resolve with
    | ok words =>
      rw [hresolve] at h
      cases h
    | error cause =>
      rw [hresolve] at h
      cases h
      rfl

theorem perform_resolve_eq_ok {draft left : Draft} {words : List Int} :
    Call.resolve.perform draft = .ok (some words) left ↔
      draft.resolve = .ok words ∧ left = draft := by
  rw [perform_resolve]
  cases draft.resolve <;> simp [eq_comm]

theorem remaining_perform (call : Call) (draft : Draft) :
    remaining (call.perform draft) = draft ∨
      ∃ statement, call = .add statement ∧ draft.Admits statement ∧
        remaining (call.perform draft) = draft.extend statement := by
  cases call with
  | add statement =>
    rw [perform_add]
    cases hadd : draft.add statement with
    | ok next =>
      obtain ⟨hadmits, rfl⟩ := add_eq_ok.1 hadd
      exact .inr ⟨statement, rfl, hadmits, rfl⟩
    | error error => exact .inl rfl
  | resolve =>
    rw [perform_resolve]
    cases draft.resolve <;> exact .inl rfl

/-! ### Growth -/

structure Grows (draft later : Draft) : Prop where
  terms : draft.terms.toList <+: later.terms.toList
  labels : draft.labels <+: later.labels

section

variable {draft between later : Draft}

theorem Grows.refl (draft : Draft) : draft.Grows draft where
  terms := List.prefix_refl _
  labels := List.prefix_refl _

theorem Grows.trans (h : draft.Grows between) (h' : between.Grows later) : draft.Grows later where
  terms := h.terms.trans h'.terms
  labels := h.labels.trans h'.labels

theorem grows_extend (draft : Draft) (statement : Statement) :
    draft.Grows (draft.extend statement) where
  terms := by
    rw [toList_extend]
    exact List.prefix_append _ _
  labels := by
    cases statement with
    | label name => exact List.prefix_append _ _
    | instruction i => exact List.prefix_refl _
    | data terms => exact List.prefix_refl _

theorem Grows.address? (h : draft.Grows later) {name : String} {address : Nat}
    (haddress : draft.address? name = some address) : later.address? name = some address := by
  obtain ⟨labels, hlabels⟩ := h.labels
  rw [Draft.address?, ← hlabels, List.lookup_append]
  rw [Draft.address?] at haddress
  rw [haddress, Option.some_or]

theorem Grows.offset_le (h : draft.Grows later) : draft.offset ≤ later.offset :=
  h.terms.length_le

theorem Grows.knows (h : draft.Grows later) {term : Term} (hknows : draft.Knows term) :
    later.Knows term ∧ term.word later.addressOf = term.word draft.addressOf := by
  cases term with
  | literal value => exact ⟨trivial, rfl⟩
  | reference name =>
    obtain ⟨address, haddress⟩ := Option.ne_none_iff_exists'.1 hknows
    have hlater := h.address? haddress
    refine ⟨Option.ne_none_iff_exists'.2 ⟨address, hlater⟩, ?_⟩
    rw [Term.word, Term.word, addressOf, addressOf, haddress, hlater]

theorem Grows.resolve (h : draft.Grows later) {words : List Int}
    (hwords : draft.resolve = .ok words) :
    (∃ name, later.resolve = .error (.unknownLabel name) ∧
      .reference name ∈ later.terms.toList.drop draft.offset) ∨
    ∃ others, later.resolve = .ok others ∧ words <+: others := by
  obtain ⟨hknown, rfl⟩ := resolveAll_eq_ok.1 hwords
  obtain ⟨since, hsince⟩ := h.terms
  cases hlater : later.resolve with
  | ok others =>
    obtain ⟨-, rfl⟩ := resolveAll_eq_ok.1 hlater
    refine .inr ⟨_, rfl, ?_⟩
    have hsame : draft.terms.toList.map (Term.word draft.addressOf) =
        draft.terms.toList.map (Term.word later.addressOf) :=
      List.map_congr_left fun term hterm => (h.knows (hknown term hterm)).2.symm
    rw [hsame, ← hsince, List.map_append]
    exact List.prefix_append _ _
  | error error =>
    obtain ⟨front, term, rest, hsplit, -, hterm⟩ := resolveAll_eq_error.1 hlater
    obtain ⟨name, rfl, hunknown, rfl⟩ := resolveTerm_eq_error.1 hterm
    refine .inl ⟨name, rfl, ?_⟩
    have hmem : .reference name ∈ draft.terms.toList ++ since := by
      rw [hsince, hsplit]
      exact List.mem_append_right _ List.mem_cons_self
    obtain hold | hnew := List.mem_append.1 hmem
    · exact absurd hunknown (h.knows (hknown _ hold)).1
    · have hdrop : later.terms.toList.drop draft.offset = since := by
        rw [← hsince]
        exact List.drop_left
      rw [hdrop]
      exact hnew

end

/-! ### Calls one after the other -/

theorem serve_append (draft : Draft) (before after : List Call) :
    draft.serve (before ++ after) = (draft.serve before).serve after :=
  List.foldl_append

theorem grows_perform (call : Call) (draft : Draft) :
    draft.Grows (remaining (call.perform draft)) := by
  obtain hsame | ⟨statement, -, -, hextend⟩ := remaining_perform call draft
  · rw [hsame]
    exact .refl draft
  · rw [hextend]
    exact grows_extend draft statement

theorem grows_serve (draft : Draft) (calls : List Call) : draft.Grows (draft.serve calls) := by
  induction calls generalizing draft with
  | nil => exact .refl draft
  | cons call calls ih => exact (grows_perform call draft).trans (ih _)

def ofCalls (calls : List Call) : Draft := empty.serve calls

theorem ofCalls_concat (calls : List Call) (call : Call) :
    ofCalls (calls ++ [call]) = remaining (call.perform (ofCalls calls)) :=
  serve_append empty calls [call]

theorem grows_ofCalls (calls more : List Call) :
    (ofCalls calls).Grows (ofCalls (calls ++ more)) := by
  rw [ofCalls, ofCalls, serve_append]
  exact grows_serve _ more

theorem exists_definition {calls : List Call} {name : String} {address : Nat}
    (h : (ofCalls calls).address? name = some address) :
    ∃ before after, calls = before ++ .add (.label name) :: after ∧
      (ofCalls before).address? name = none ∧ address = (ofCalls before).offset := by
  induction calls using List.reverseRecOn with
  | nil => cases h
  | append_singleton calls call ih =>
    -- No label moves, so the last call defined it only if it was not defined before.
    cases hbefore : (ofCalls calls).address? name with
    | some earlier =>
      rw [(grows_ofCalls calls [call]).address? hbefore] at h
      obtain ⟨before, after, rfl, hnone, haddress⟩ := ih (hbefore.trans h)
      exact ⟨before, after ++ [call], by simp, hnone, haddress⟩
    | none =>
      rw [ofCalls_concat] at h
      obtain hsame | ⟨statement, rfl, -, hextend⟩ := remaining_perform call (ofCalls calls)
      · rw [hsame, hbefore] at h
        cases h
      · rw [hextend] at h
        cases statement with
        | label key =>
          rw [address?_extend_label, hbefore, Option.none_or] at h
          split at h
          · next hname =>
            subst hname
            exact ⟨calls, [], rfl, hbefore, (Option.some.inj h).symm⟩
          · cases h
        | instruction i => exact absurd (hbefore.symm.trans h) nofun
        | data terms => exact absurd (hbefore.symm.trans h) nofun

/-- A call that is refused leaves the draft as it was, and one that is not adds its statement as a
whole. Terms are only ever laid out at the end. A label keeps its address, which is how many terms
had been laid out when it was defined. Once a draft has been resolved, it is later resolved to the
same words and maybe more, unless a name that was laid out since is unknown. -/
theorem history_kept (calls : List Call) :
    (∀ statement, (Call.add statement).perform (ofCalls calls) =
      match (ofCalls calls).add statement with
      | .ok next => .ok none next
      | .error error => .error error (ofCalls calls)) ∧
    (∀ (call : Call) error left, call.perform (ofCalls calls) = .error error left →
      left = ofCalls calls) ∧
    (∀ more, (ofCalls calls).terms.toList <+: (ofCalls (calls ++ more)).terms.toList) ∧
    (∀ name address, (ofCalls calls).address? name = some address →
      address ≤ (ofCalls calls).offset ∧
      (∃ before after, calls = before ++ .add (.label name) :: after ∧
        (ofCalls before).address? name = none ∧ address = (ofCalls before).offset) ∧
      ∀ more, (ofCalls (calls ++ more)).address? name = some address) ∧
    ∀ words left, Call.resolve.perform (ofCalls calls) = .ok (some words) left → ∀ more,
      (∃ name, Call.resolve.perform (ofCalls (calls ++ more)) =
          .error (.unknownLabel name) (ofCalls (calls ++ more)) ∧
        .reference name ∈ (ofCalls (calls ++ more)).terms.toList.drop (ofCalls calls).offset) ∨
      ∃ others, Call.resolve.perform (ofCalls (calls ++ more)) =
        .ok (some others) (ofCalls (calls ++ more)) ∧ words <+: others := by
  refine ⟨fun statement => perform_add statement _, ?_, ?_, ?_, ?_⟩
  · intro call error left hrefused
    exact eq_of_refused hrefused
  · intro more
    exact (grows_ofCalls calls more).terms
  · intro name address haddress
    obtain ⟨before, after, rfl, hnone, rfl⟩ := exists_definition haddress
    exact ⟨(grows_ofCalls before _).offset_le, ⟨before, after, rfl, hnone, rfl⟩,
      fun more => (grows_ofCalls _ more).address? haddress⟩
  · intro words left hresolve more
    obtain ⟨hwords, -⟩ := perform_resolve_eq_ok.1 hresolve
    rw [perform_resolve]
    obtain ⟨name, hlater, hname⟩ | ⟨others, hlater, hmore⟩ :=
      (grows_ofCalls calls more).resolve hwords
    · rw [hlater]
      exact .inl ⟨name, rfl, hname⟩
    · rw [hlater]
      exact .inr ⟨others, rfl, hmore⟩

def stumbling : List Call :=
  [.add (.label "a"), .add (.data [.reference "b"]), .resolve, .add (.label "a"),
    .add (.instruction ⟨.input, [⟨.immediate, .literal 5⟩]⟩), .add (.label "b")]

theorem history_kept_stumbling :
    (Call.add (.label "a")).perform (ofCalls stumbling) =
      .error (.duplicateLabel "a") ⟨#[.reference "b"], [("a", 0), ("b", 1)]⟩ ∧
    ⟨#[.reference "b"], [("a", 0), ("b", 1)]⟩ = ofCalls stumbling ∧
    (ofCalls stumbling).address? "b" = some 1 ∧
    (ofCalls (stumbling ++ [.add (.data [.reference "c"])])).address? "b" = some 1 ∧
    Call.resolve.perform (ofCalls stumbling) = .ok (some [1]) (ofCalls stumbling) ∧
    ((∃ name, Call.resolve.perform (ofCalls (stumbling ++ [.add (.data [.reference "c"])])) =
        .error (.unknownLabel name) (ofCalls (stumbling ++ [.add (.data [.reference "c"])])) ∧
      .reference name ∈ (ofCalls (stumbling ++ [.add (.data [.reference "c"])])).terms.toList.drop
        (ofCalls stumbling).offset) ∨
      ∃ others, Call.resolve.perform (ofCalls (stumbling ++ [.add (.data [.reference "c"])])) =
        .ok (some others) (ofCalls (stumbling ++ [.add (.data [.reference "c"])])) ∧
        [1] <+: others) := by
  have hrefused : (Call.add (.label "a")).perform (ofCalls stumbling) =
      .error (.duplicateLabel "a") ⟨#[.reference "b"], [("a", 0), ("b", 1)]⟩ := by
    decide +kernel
  have haddress : (ofCalls stumbling).address? "b" = some 1 := by decide +kernel
  have hresolve : Call.resolve.perform (ofCalls stumbling) =
      .ok (some [1]) (ofCalls stumbling) := by
    decide +kernel
  obtain ⟨-, hunchanged, -, hlabels, hresolved⟩ := history_kept stumbling
  exact ⟨hrefused, hunchanged _ _ _ hrefused, haddress, (hlabels _ _ haddress).2.2 _, hresolve,
    hresolved _ _ hresolve _⟩

end Draft

end TapeMachine.Assembly
