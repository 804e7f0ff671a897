import Mathlib.Data.List.Basic
import TapeMachine.Proofs.Ring.Ordering
import TapeMachine.Proofs.Ring.Round

namespace TapeMachine.Ring

variable {topology : Topology} {program phases : List Int} {seed : Int}

/-! ### Runs that return -/

theorem pipeline_fuel_mono {fuel n : Nat} {signal : Option Int} {ring next : Ring} (hle : fuel ≤ n)
    (h : pipeline fuel seed ring = .ok signal next) : pipeline n seed ring = .ok signal next := by
  rw [pipeline] at h ⊢
  cases hround : round fuel (some seed) ring with
  | error error left =>
    rw [hround] at h
    cases h
  | ok given left =>
    rw [hround] at h
    rw [round_fuel_mono hle hround]
    exact h

theorem produce_fuel_mono {fuel n : Nat} {signal : Option Int} (hle : fuel ≤ n)
    (h : produce topology fuel program phases seed = .ok signal) :
    produce topology n program phases seed = .ok signal := by
  rw [produce] at h ⊢
  cases hstart : ofPhases program phases with
  | error error =>
    rw [hstart] at h
    cases h
  | ok ring =>
    simp only [hstart] at h ⊢
    cases topology with
    | linear =>
      cases hrun : pipeline fuel seed ring with
      | error error next =>
        simp only [hrun] at h
        cases h
      | ok signal next =>
        simp only [hrun] at h
        rw [← h, pipeline_fuel_mono hle hrun]
    | circular =>
      cases hrun : feedback fuel seed ring with
      | error error next =>
        simp only [hrun] at h
        cases h
      | ok result next =>
        simp only [hrun] at h
        rw [← h, feedback, circulate_fuel_mono hle hle hrun]

def Produces (topology : Topology) (program phases : List Int) (seed : Int)
    (signal : Option Int) : Prop :=
  ∃ fuel, produce topology fuel program phases seed = .ok signal

theorem Produces.unique {signal signal' : Option Int}
    (h : Produces topology program phases seed signal)
    (h' : Produces topology program phases seed signal') : signal = signal' := by
  obtain ⟨n, hn⟩ := h
  obtain ⟨m, hm⟩ := h'
  have hn' := produce_fuel_mono (Nat.le_max_left n m) hn
  have hm' := produce_fuel_mono (Nat.le_max_right n m) hm
  exact Except.ok.inj (hn'.symm.trans hm')

def signalOf (topology : Topology) (fuel : Nat) (program : List Int) (seed : Int)
    (phases : List Int) : Option Int :=
  (produce topology fuel program phases seed).toOption.join

theorem exists_common_fuel {candidates : List (List Int)}
    (h : ∀ phases ∈ candidates, ∃ signal, Produces topology program phases seed signal) :
    ∃ enough, ∀ phases ∈ candidates, ∃ signal,
      produce topology enough program phases seed = .ok signal := by
  induction candidates with
  | nil => exact ⟨0, List.forall_mem_nil _⟩
  | cons phases candidates ih =>
    rw [List.forall_mem_cons] at h
    obtain ⟨signal, n, hn⟩ := h.1
    obtain ⟨m, hm⟩ := ih h.2
    refine ⟨max n m, List.forall_mem_cons.2 ⟨⟨signal, ?_⟩, ?_⟩⟩
    · exact produce_fuel_mono (Nat.le_max_left n m) hn
    · intro other hother
      obtain ⟨signal, hsignal⟩ := hm other hother
      exact ⟨signal, produce_fuel_mono (Nat.le_max_right n m) hsignal⟩

theorem produce_eq_signalOf {enough fuel : Nat} (hle : enough ≤ fuel)
    (h : ∃ signal, produce topology enough program phases seed = .ok signal) :
    produce topology fuel program phases seed =
      .ok (signalOf topology enough program seed phases) := by
  obtain ⟨signal, h⟩ := h
  rw [produce_fuel_mono hle h, signalOf, h]
  rfl

/-! ### What the search keeps -/

/-- What the search keeps of some candidates: the first one with the greatest signal. -/
inductive Keeps (signal : List Int → Option Int) : List (List Int) → Option Setting → Prop
  | none {candidates : List (List Int)} :
      (∀ phases ∈ candidates, signal phases = none) → Keeps signal candidates none
  | some {before after : List (List Int)} {phases : List Int} {value : Int} :
      signal phases = some value →
      (∀ other ∈ before, ∀ lesser, signal other = some lesser → lesser < value) →
      (∀ other ∈ after, ∀ lesser, signal other = some lesser → lesser ≤ value) →
      Keeps signal (before ++ phases :: after) (some ⟨value, phases⟩)

section

variable {signal : List Int → Option Int} {candidates : List (List Int)} {best : Option Setting}

theorem keeps_concat (h : Keeps signal candidates best) (phases : List Int) :
    Keeps signal (candidates ++ [phases]) (Setting.improve best (signal phases) phases) := by
  cases hphases : signal phases with
  | none =>
    have hsilent : ∀ other ∈ [phases], signal other = none := List.forall_mem_singleton.2 hphases
    cases h with
    | none hall => exact .none (List.forall_mem_append.2 ⟨hall, hsilent⟩)
    | some hkept hbefore hafter =>
      rw [List.append_assoc, List.cons_append]
      refine .some hkept hbefore (List.forall_mem_append.2 ⟨hafter, ?_⟩)
      intro other hother lesser hlesser
      rw [hsilent other hother] at hlesser
      cases hlesser
  | some value =>
    cases h with
    | none hall =>
      refine .some hphases ?_ (List.forall_mem_nil _)
      intro other hother lesser hlesser
      rw [hall other hother] at hlesser
      cases hlesser
    | @some before after kept greatest hkept hbefore hafter =>
      -- Only a greater signal replaces the one kept, so the first of several equal ones stays.
      rw [Setting.improve]
      split
      · next hless =>
        refine .some hphases (List.forall_mem_append.2 ⟨?_, List.forall_mem_cons.2 ⟨?_, ?_⟩⟩)
          (List.forall_mem_nil _)
        · intro other hother lesser hlesser
          exact Int.lt_trans (hbefore other hother lesser hlesser) hless
        · intro lesser hlesser
          obtain rfl := Option.some.inj (hkept.symm.trans hlesser)
          exact hless
        · intro other hother lesser hlesser
          exact Int.lt_of_le_of_lt (hafter other hother lesser hlesser) hless
      · next hnotless =>
        rw [List.append_assoc, List.cons_append]
        refine .some hkept hbefore (List.forall_mem_append.2 ⟨hafter, ?_⟩)
        refine List.forall_mem_singleton.2 ?_
        intro lesser hlesser
        obtain rfl := Option.some.inj (hphases.symm.trans hlesser)
        exact Int.not_lt.1 hnotless

theorem keeps_foldl (h : Keeps signal candidates best) (more : List (List Int)) :
    Keeps signal (candidates ++ more)
      (more.foldl (fun best phases => Setting.improve best (signal phases) phases) best) := by
  induction more generalizing candidates best with
  | nil =>
    rw [List.append_nil]
    exact h
  | cons phases more ih =>
    rw [← List.singleton_append, ← List.append_assoc]
    exact ih (keeps_concat h phases)

theorem foldlM_consider {produced : List Int → Except RingError (Option Int)}
    (h : ∀ phases ∈ candidates, produced phases = .ok (signal phases)) :
    candidates.foldlM (consider produced) best =
      .ok (candidates.foldl (fun best phases => Setting.improve best (signal phases) phases)
        best) := by
  induction candidates generalizing best with
  | nil => rfl
  | cons phases candidates ih =>
    rw [List.forall_mem_cons] at h
    rw [List.foldlM_cons, consider, h.1]
    exact ih h.2

end

/-! ### What the search ends with -/

def Finds (topology : Topology) (program phases : List Int) (seed : Int)
    (best : Option Setting) : Prop :=
  ∃ enough, ∀ fuel, enough ≤ fuel → bestSetting topology fuel program phases seed = .ok best

/-- The setting is the best one that the orderings of the phases give: its signal is the greatest
one, and its phases are the first ordering that produces it, where orderings come in the
lexicographic order of positions. There is none exactly if no ordering produces a signal. -/
structure IsBest (topology : Topology) (program phases : List Int) (seed : Int)
    (best : Option Setting) : Prop where
  none_iff : best = none ↔
    ∀ ordering, ordering.Perm phases → Produces topology program ordering seed none
  greatest : ∀ setting ∈ best, ∀ ordering signal, ordering.Perm phases →
    Produces topology program ordering seed (some signal) → signal ≤ setting.signal
  first : ∀ setting ∈ best, ∃ positions, positions.Perm (List.range phases.length) ∧
    setting.phases = arranged phases positions ∧
    Produces topology program setting.phases seed (some setting.signal) ∧
    ∀ earlier, earlier.Perm (List.range phases.length) → earlier < positions →
      ¬ Produces topology program (arranged phases earlier) seed (some setting.signal)

theorem isBest_of_keeps {signal : List Int → Option Int} {best : Option Setting}
    (h : Keeps signal (orderings phases) best)
    (hsignal : ∀ ordering, ordering.Perm phases →
      Produces topology program ordering seed (signal ordering)) :
    IsBest topology program phases seed best := by
  have heq {ordering : List Int} {result : Option Int} (hordering : ordering.Perm phases)
      (hresult : Produces topology program ordering seed result) : signal ordering = result :=
    (hsignal ordering hordering).unique hresult
  generalize hcandidates : orderings phases = candidates at h
  cases h with
  | none hall =>
    refine ⟨iff_of_true rfl ?_, nofun, nofun⟩
    intro ordering hordering
    have hnone := hall ordering (hcandidates ▸ mem_orderings.2 hordering)
    exact hnone ▸ hsignal ordering hordering
  | @some before after kept value hkept hbefore hafter =>
    have hkeptperm : kept.Perm phases := by
      rw [← mem_orderings, hcandidates]
      exact List.mem_append_right _ List.mem_cons_self
    refine ⟨iff_of_false nofun ?_, ?_, ?_⟩
    · intro hnone
      have hsilent := heq hkeptperm (hnone kept hkeptperm)
      rw [hkept] at hsilent
      cases hsilent
    · rintro _ ⟨⟩ ordering result hordering hresult
      have hresult := heq hordering hresult
      have hmem := mem_orderings.2 hordering
      rw [hcandidates] at hmem
      obtain hmem | hmem := List.mem_append.1 hmem
      · exact Int.le_of_lt (hbefore ordering hmem result hresult)
      · obtain rfl | hmem := List.mem_cons.1 hmem
        · exact Int.le_of_eq (Option.some.inj (hresult.symm.trans hkept))
        · exact hafter ordering hmem result hresult
    · rintro _ ⟨⟩
      obtain ⟨positions, hpositions, hphases, hearlier⟩ := exists_positions hcandidates
      refine ⟨positions, hpositions, hphases, hkept ▸ hsignal kept hkeptperm, ?_⟩
      intro earlier hperm hlt hproduces
      have hsame := heq (arranged_perm hperm) hproduces
      -- Orderings by earlier positions are searched before, and the signals found before are less.
      exact Int.lt_irrefl value (hbefore _ (hearlier earlier hperm hlt) value hsame)

theorem exists_isBest
    (h : ∀ ordering, ordering.Perm phases →
      ∃ signal, Produces topology program ordering seed signal) :
    ∃ best, Finds topology program phases seed best ∧
      IsBest topology program phases seed best := by
  obtain ⟨enough, henough⟩ := exists_common_fuel fun ordering hordering =>
    h ordering (mem_orderings.1 hordering)
  have hkeeps : Keeps (signalOf topology enough program seed) ([] ++ orderings phases) _ :=
    keeps_foldl (.none (List.forall_mem_nil _)) (orderings phases)
  refine ⟨_, ⟨enough, ?_⟩, isBest_of_keeps hkeeps ?_⟩
  · intro fuel hle
    rw [bestSetting, foldOrderings_eq]
    exact foldlM_consider fun ordering hordering =>
      produce_eq_signalOf hle (henough ordering hordering)
  · intro ordering hordering
    exact ⟨enough, produce_eq_signalOf (Nat.le_refl _)
      (henough ordering (mem_orderings.2 hordering))⟩

theorem IsBest.signal_le {phases' : List Int} {best best' : Option Setting}
    (h : IsBest topology program phases seed best)
    (h' : IsBest topology program phases' seed best') (hperm : phases'.Perm phases)
    {setting' : Setting} (hbest' : setting' ∈ best') :
    ∃ setting ∈ best, setting'.signal ≤ setting.signal := by
  obtain ⟨positions, hpositions, hphases, hproduces, -⟩ := h'.first setting' hbest'
  have hordering : setting'.phases.Perm phases :=
    hphases ▸ (arranged_perm hpositions).trans hperm
  cases best with
  | none => cases (h.none_iff.1 rfl _ hordering).unique hproduces
  | some setting => exact ⟨setting, rfl, h.greatest setting rfl _ _ hordering hproduces⟩

theorem IsBest.signal_eq {phases' : List Int} {best best' : Option Setting}
    (h : IsBest topology program phases seed best)
    (h' : IsBest topology program phases' seed best') (hperm : phases'.Perm phases) :
    best'.map Setting.signal = best.map Setting.signal := by
  cases best' with
  | none =>
    cases best with
    | none => rfl
    | some setting =>
      obtain ⟨_, hnone, -⟩ := h'.signal_le h hperm.symm rfl
      cases hnone
  | some setting' =>
    obtain ⟨setting, rfl, hle⟩ := h.signal_le h' hperm rfl
    obtain ⟨_, ⟨⟩, hge⟩ := h'.signal_le h hperm.symm rfl
    exact congrArg some (Int.le_antisymm hle hge)

/-- Where the run with every ordering of the phases returns, the search ends with the best setting
that these runs give, and with the same signal for the phases in any other order. -/
theorem search_exact
    (h : ∀ ordering, ordering.Perm phases →
      ∃ signal, Produces topology program ordering seed signal) :
    ∃ best, Finds topology program phases seed best ∧
      IsBest topology program phases seed best ∧
      ∀ phases', phases'.Perm phases → ∃ best', Finds topology program phases' seed best' ∧
        best'.map Setting.signal = best.map Setting.signal := by
  obtain ⟨best, hfinds, hbest⟩ := exists_isBest h
  refine ⟨best, hfinds, hbest, ?_⟩
  intro phases' hperm
  obtain ⟨best', hfinds', hbest'⟩ :=
    exists_isBest fun ordering hordering => h ordering (hordering.trans hperm)
  exact ⟨best', hfinds', hbest.signal_eq hbest' hperm⟩

-- Emits twice the signal and the phase.
def doubling : List Int := [3, 15, 3, 16, 102, 2, 16, 16, 1, 15, 16, 16, 4, 16, 99]

theorem search_exact_repeated :
    (∀ ordering, ordering.Perm [-3, -1, -1] →
      Produces .circular doubling ordering 0 (some (ordering.foldl (2 * · + ·) 0))) ∧
    Finds .circular doubling [-3, -1, -1] 0 (some ⟨-9, [-1, -1, -3]⟩) ∧
    ∃ best, Finds .circular doubling [-1, -3, -1] 0 best ∧ best.map Setting.signal = some (-9) := by
  have hproduce : ∀ ordering ∈ orderings [-3, -1, -1],
      produce .circular 7 doubling ordering 0 = .ok (some (ordering.foldl (2 * · + ·) 0)) := by
    decide +kernel
  have hgreatest : ∀ ordering ∈ orderings [-3, -1, -1], ordering.foldl (2 * · + ·) (0 : Int) ≤ -9 ∧
      (ordering.foldl (2 * · + ·) 0 = -9 → ordering = [-1, -1, -3]) := by
    decide +kernel
  have hreturns : ∀ ordering, ordering.Perm [-3, -1, -1] →
      Produces .circular doubling ordering 0 (some (ordering.foldl (2 * · + ·) 0)) :=
    fun ordering hordering => ⟨7, hproduce ordering (mem_orderings.2 hordering)⟩
  obtain ⟨best, hfinds, hbest, hreordered⟩ :=
    search_exact fun ordering hordering => ⟨_, hreturns ordering hordering⟩
  have hproduces : Produces .circular doubling [-1, -1, -3] 0 (some (-9)) :=
    hreturns _ (by decide)
  cases best with
  | none => cases (hbest.none_iff.1 rfl [-1, -1, -3] (by decide)).unique hproduces
  | some setting =>
    obtain ⟨value, kept⟩ := setting
    have hle : -9 ≤ value := hbest.greatest _ rfl _ _ (by decide) hproduces
    obtain ⟨positions, hpositions, hphases, hkept, -⟩ := hbest.first _ rfl
    obtain rfl : kept = arranged [-3, -1, -1] positions := hphases
    have hperm := arranged_perm hpositions
    have hvalue := Option.some.inj (hkept.unique (hreturns _ hperm))
    obtain ⟨hge, hsame⟩ := hgreatest _ (mem_orderings.2 hperm)
    rw [← hvalue] at hge hsame
    obtain rfl := Int.le_antisymm hge hle
    rw [hsame rfl] at hfinds
    exact ⟨hreturns, hfinds, hreordered _ (by decide)⟩

end TapeMachine.Ring
