import TapeMachine.Ring.Search

namespace TapeMachine

variable {α β : Type}

theorem map_fst_picks (l : List α) : (picks l).map Prod.fst = l := by
  induction l with
  | nil => rfl
  | cons a l ih =>
    rw [picks, List.map_cons, List.map_map]
    exact congrArg (a :: ·) ih

theorem picks_map (f : α → β) (l : List α) :
    picks (l.map f) = (picks l).map fun (a, rest) => (f a, rest.map f) := by
  induction l with
  | nil => rfl
  | cons a l ih =>
    rw [List.map_cons, picks, picks, ih, List.map_cons, List.map_map, List.map_map]
    rfl

theorem mem_picks {l rest : List α} {a : α} :
    (a, rest) ∈ picks l ↔ ∃ before after, l = before ++ a :: after ∧ rest = before ++ after := by
  induction l generalizing rest with
  | nil => simp [picks]
  | cons b l ih =>
    rw [picks, List.mem_cons]
    constructor
    · rintro (h | h)
      · cases h
        exact ⟨[], l, rfl, rfl⟩
      · obtain ⟨⟨c, others⟩, hmem, h⟩ := List.mem_map.1 h
        cases h
        obtain ⟨before, after, rfl, rfl⟩ := ih.1 hmem
        exact ⟨b :: before, after, rfl, rfl⟩
    · rintro ⟨before, after, hl, rfl⟩
      cases before with
      | nil =>
        cases hl
        exact .inl rfl
      | cons c before =>
        cases hl
        exact .inr (List.mem_map.2 ⟨(a, before ++ after), ih.2 ⟨before, after, rfl, rfl⟩, rfl⟩)

theorem perm_of_mem_picks {l rest : List α} {a : α} (h : (a, rest) ∈ picks l) :
    l.Perm (a :: rest) := by
  obtain ⟨before, after, rfl, rfl⟩ := mem_picks.1 h
  exact List.perm_middle

theorem orderingsOf_map (f : α → β) (length : Nat) (l : List α) :
    orderingsOf length (l.map f) = (orderingsOf length l).map (List.map f) := by
  induction length generalizing l with
  | zero => rfl
  | succ length ih =>
    simp only [orderingsOf, picks_map, List.flatMap_map, List.map_flatMap, List.map_map, ih]
    rfl

theorem orderings_map (f : α → β) (l : List α) :
    orderings (l.map f) = (orderings l).map (List.map f) := by
  rw [orderings, List.length_map, orderingsOf_map, orderings]

theorem mem_orderingsOf {length : Nat} {l p : List α} (h : l.length = length) :
    p ∈ orderingsOf length l ↔ p.Perm l := by
  induction length generalizing l p with
  | zero =>
    obtain rfl := List.length_eq_zero_iff.1 h
    rw [orderingsOf, List.mem_singleton, List.perm_nil]
  | succ length ih =>
    have hrest {a : α} {rest : List α} (hpick : (a, rest) ∈ picks l) : rest.length = length := by
      have hlength := (perm_of_mem_picks hpick).length_eq
      rw [h, List.length_cons] at hlength
      omega
    rw [orderingsOf, List.mem_flatMap]
    constructor
    · rintro ⟨⟨a, rest⟩, hpick, hp⟩
      obtain ⟨others, hothers, rfl⟩ := List.mem_map.1 hp
      exact (((ih (hrest hpick)).1 hothers).cons a).trans (perm_of_mem_picks hpick).symm
    · intro hp
      cases p with
      | nil =>
        rw [← hp.length_eq] at h
        cases h
      | cons a others =>
        obtain ⟨before, after, rfl⟩ := List.append_of_mem (hp.subset List.mem_cons_self)
        have hpick : (a, before ++ after) ∈ picks (before ++ a :: after) :=
          mem_picks.2 ⟨before, after, rfl, rfl⟩
        have hothers := (hp.trans List.perm_middle).cons_inv
        exact ⟨_, hpick, List.mem_map.2 ⟨others, (ih (hrest hpick)).2 hothers, rfl⟩⟩

theorem mem_orderings {l p : List α} : p ∈ orderings l ↔ p.Perm l :=
  mem_orderingsOf rfl

theorem orderingsOf_ascending {length : Nat} {l : List Nat} (h : l.Pairwise (· < ·)) :
    (orderingsOf length l).Pairwise (· < ·) := by
  induction length generalizing l with
  | zero => exact List.pairwise_singleton _ _
  | succ length ih =>
    rw [orderingsOf, List.pairwise_flatMap]
    constructor
    · rintro ⟨a, rest⟩ hpick
      obtain ⟨before, after, rfl, rfl⟩ := mem_picks.1 hpick
      have hrest : (before ++ after).Pairwise (· < ·) :=
        h.sublist (List.Sublist.append_left (List.sublist_cons_self a after) before)
      refine List.pairwise_map.2 ((ih hrest).imp ?_)
      intro p q hpq
      exact List.cons_lt_cons_iff.2 (.inr ⟨rfl, hpq⟩)
    · have hfirst : (picks l).Pairwise fun first second => first.1 < second.1 := by
        rw [← List.pairwise_map, map_fst_picks]
        exact h
      refine hfirst.imp ?_
      intro first second hlt p hp q hq
      obtain ⟨_, -, rfl⟩ := List.mem_map.1 hp
      obtain ⟨_, -, rfl⟩ := List.mem_map.1 hq
      exact List.cons_lt_cons_iff.2 (.inl hlt)

def arranged (l : List Int) (positions : List Nat) : List Int :=
  positions.map (l.getD · 0)

theorem arranged_range (l : List Int) : arranged l (List.range l.length) = l := by
  refine List.ext_getElem ?_ ?_
  · rw [arranged, List.length_map, List.length_range]
  · intro i _ h
    simp only [arranged, List.getElem_map, List.getElem_range, List.getD_eq_getElem?_getD,
      List.getElem?_eq_getElem h, Option.getD_some]

theorem orderings_eq_arranged (l : List Int) :
    orderings l = (orderings (List.range l.length)).map (arranged l) :=
  calc
    orderings l = orderings (arranged l (List.range l.length)) := by rw [arranged_range]
    _ = (orderings (List.range l.length)).map (arranged l) := orderings_map _ _

theorem arranged_perm {l : List Int} {positions : List Nat}
    (h : positions.Perm (List.range l.length)) : (arranged l positions).Perm l := by
  have harranged : (arranged l positions).Perm (arranged l (List.range l.length)) := h.map _
  rwa [arranged_range] at harranged

theorem mem_left_of_lt {before after : List (List Nat)} {p q : List Nat}
    (h : (before ++ p :: after).Pairwise (· < ·)) (hq : q ∈ before ++ p :: after) (hlt : q < p) :
    q ∈ before := by
  obtain hq | hq := List.mem_append.1 hq
  · exact hq
  · have hafter := (List.pairwise_cons.1 (List.pairwise_append.1 h).2.1).1
    obtain rfl | hq := List.mem_cons.1 hq
    · exact absurd hlt (List.lt_irrefl q)
    · exact absurd hlt (List.lt_asymm (hafter q hq))

theorem exists_positions {l p : List Int} {before after : List (List Int)}
    (h : orderings l = before ++ p :: after) :
    ∃ positions, positions.Perm (List.range l.length) ∧ p = arranged l positions ∧
      ∀ earlier, earlier.Perm (List.range l.length) → earlier < positions →
        arranged l earlier ∈ before := by
  rw [orderings_eq_arranged] at h
  obtain ⟨front, back, hsplit, rfl, hback⟩ := List.map_eq_append_iff.1 h
  obtain ⟨positions, rest, rfl, rfl, rfl⟩ := List.map_eq_cons_iff.1 hback
  have hascending : (orderings (List.range l.length)).Pairwise (· < ·) :=
    orderingsOf_ascending List.pairwise_lt_range
  have hmem : positions ∈ orderings (List.range l.length) := by
    rw [hsplit]
    exact List.mem_append_right _ List.mem_cons_self
  refine ⟨positions, mem_orderings.1 hmem, rfl, ?_⟩
  intro earlier hearlier hlt
  have hearlier := mem_orderings.2 hearlier
  rw [hsplit] at hascending hearlier
  exact List.mem_map_of_mem (mem_left_of_lt hascending hearlier hlt)

end TapeMachine
