import TapeMachine.Proofs.Command.Conversation

namespace TapeMachine.Command

open Machine

/-- The run from here completes no more than `limit` instructions altogether, and it is interrupted
where that many have been completed and the machine could go on. -/
structure KeepsTo (limit : Nat) (start : Machine) : Prop where
  within : ∀ n ≤ limit, ∀ next, advance n start = .ok () next → next.steps ≤ limit
  stops : ∀ n ≤ limit, ∀ next, advance n start = .ok () next → next.status = .running →
    next.steps = limit → Machine.run (.limit limit) start = .error (.limitReached limit) next

theorem run_limit_eq {limit : Nat} {start next : Machine} :
    Machine.run (.limit limit) start = .error (.limitReached limit) next ↔
      advance limit start = .ok () next ∧ next.status = .running :=
  run_eq_exceeded (a := .limit limit)

theorem steps_le_of_rests {limit n : Nat} {start next : Machine}
    (h : ∀ next, Machine.run (.limit limit) start ≠ .error (.limitReached limit) next)
    (hadvance : advance n start = .ok () next) : next.steps ≤ start.steps + limit := by
  obtain hle | hle := Nat.le_total n limit
  · exact Nat.le_trans (steps_le_of_advance hadvance) (Nat.add_le_add_left hle _)
  · obtain ⟨d, rfl⟩ := Nat.exists_eq_add_of_le hle
    rw [advance_add] at hadvance
    cases hbetween : advance limit start with
    | error fault between =>
      rw [hbetween] at hadvance
      cases hadvance
    | ok _ between =>
      rw [hbetween] at hadvance
      have hrests : between.status ≠ .running := fun hrunning =>
        h between (run_limit_eq.2 ⟨hbetween, hrunning⟩)
      simp only [advance_of_rests hrests] at hadvance
      cases hadvance
      exact steps_le_of_advance hbetween

theorem keepsTo_iff {limit : Nat} {start : Machine} :
    KeepsTo limit start ↔
      start.steps = 0 ∨ start.steps ≤ limit ∧
        ∀ next, Machine.run (.limit ↑(limit - start.steps)) start ≠
          .error (.limitReached ↑(limit - start.steps)) next := by
  constructor
  · intro h
    by_cases hzero : start.steps = 0
    · exact .inl hzero
    refine .inr ⟨h.within 0 (Nat.zero_le limit) start rfl, ?_⟩
    intro next hnext
    obtain ⟨hadvance, hrunning⟩ := run_limit_eq.1 hnext
    have hsteps := steps_of_advance_running hadvance hrunning
    have hle := h.within 0 (Nat.zero_le limit) start rfl
    -- The run should be interrupted here, but its own limit leaves it as many steps more as there
    -- were at its start.
    have hstops := h.stops _ (Nat.sub_le _ _) next hadvance hrunning (by omega)
    have hmore := steps_of_advance_running (run_limit_eq.1 hstops).1 hrunning
    omega
  · rintro (hzero | ⟨hle, hrests⟩)
    · constructor
      · intro n hn next hadvance
        have hsteps := steps_le_of_advance hadvance
        omega
      · intro n hn next hadvance hrunning hlimit
        have hsteps := steps_of_advance_running hadvance hrunning
        obtain rfl : n = limit := by omega
        exact run_limit_eq.2 ⟨hadvance, hrunning⟩
    · constructor
      · intro n hn next hadvance
        have hsteps := steps_le_of_rests hrests hadvance
        omega
      · intro n hn next hadvance hrunning hlimit
        have hsteps := steps_of_advance_running hadvance hrunning
        obtain rfl : n = limit - start.steps := by omega
        exact absurd (run_limit_eq.2 ⟨hadvance, hrunning⟩) (hrests next)

theorem KeepsTo.lt {limit n : Nat} {start next : Machine} (h : KeepsTo limit start)
    (hends : ∀ last, Machine.run (.limit limit) start ≠ .error (.limitReached limit) last)
    (hn : n ≤ limit) (hadvance : advance n start = .ok () next)
    (hrunning : next.status = .running) : next.steps < limit :=
  Nat.lt_of_le_of_ne (h.within n hn next hadvance) fun hlimit =>
    hends next (h.stops n hn next hadvance hrunning hlimit)

/-- The machines from which the runs of a conversation start, where the values are typed one after
the other. -/
def starts (a : Allowance) (machine : Machine) : (values : List Int) → List Machine
  | [] => [machine]
  | value :: values =>
    match resume a machine with
    | (_, .ended _) => [machine]
    | (_, .asking next) => machine :: starts a (next.feed value) values

def Pause.ending : Pause → Ending
  | .ended ending => ending
  | .asking _ => .abandoned

def closing (a : Allowance) (machine : Machine) (values : List Int) : Ending :=
  (resume a ((starts a machine values).getLastD machine)).2.ending

section

variable {a : Allowance} {machine next : Machine} {shown values : List Int} {value : Int}

theorem exists_starts (a : Allowance) (machine : Machine) (values : List Int) :
    ∃ rest, starts a machine values = machine :: rest := by
  cases values with
  | nil => exact ⟨[], rfl⟩
  | cons value values =>
    rw [starts]
    split
    · exact ⟨_, rfl⟩
    · exact ⟨_, rfl⟩

theorem closing_of_ended {ending : Ending} (h : resume a machine = (shown, .ended ending))
    (values : List Int) : closing a machine values = ending := by
  have hstarts : starts a machine values = [machine] := by
    cases values with
    | nil => rfl
    | cons value values => rw [starts, h]
  rw [closing, hstarts]
  change (resume a machine).2.ending = ending
  rw [h]
  rfl

theorem closing_nil (h : resume a machine = (shown, .asking next)) :
    closing a machine [] = .abandoned := by
  change (resume a machine).2.ending = _
  rw [h]
  rfl

theorem starts_cons (h : resume a machine = (shown, .asking next)) :
    starts a machine (value :: values) = machine :: starts a (next.feed value) values := by
  rw [starts, h]

theorem closing_cons (h : resume a machine = (shown, .asking next)) :
    closing a machine (value :: values) = closing a (next.feed value) values := by
  obtain ⟨rest, hrest⟩ := exists_starts a (next.feed value) values
  rw [closing, closing, starts_cons h, hrest]
  rfl

end

theorem ending_converse (a : Allowance) (machine : Machine) (lines : List String) :
    (converse a machine lines).ending =
      match typed lines with
      | [] => .abandoned
      | value :: values => closing a (machine.feed value) values := by
  induction lines generalizing machine with
  | nil => rfl
  | cons line lines ih =>
    cases hanswer : Answer.ofLine line with
    | again note =>
      rw [typed_cons_again hanswer, ← ih]
      simp only [converse, hanswer, Transcript.after]
    | value value =>
      rw [typed_cons_value hanswer]
      cases hresume : resume a (machine.feed value) with
      | mk shown pause =>
        cases pause with
        | ended ending =>
          simp only [converse, hanswer, hresume, closing_of_ended hresume]
        | asking next =>
          simp only [converse, hanswer, hresume, Transcript.after, ih]
          cases typed lines with
          | nil => exact (closing_nil hresume).symm
          | cons value' values => exact (closing_cons hresume).symm

theorem ending_interact (a : Allowance) (machine : Machine) (lines : List String) :
    (interact a machine lines).ending = closing a machine (typed lines) := by
  cases hresume : resume a machine with
  | mk shown pause =>
    cases pause with
    | ended ending => simp only [interact, hresume, closing_of_ended hresume]
    | asking next =>
      simp only [interact, hresume, Transcript.after, ending_converse]
      cases typed lines with
      | nil => exact (closing_nil hresume).symm
      | cons value values => exact (closing_cons hresume).symm

theorem resume_eq_asking {a : Allowance} {machine next : Machine} {shown : List Int}
    (h : resume a machine = (shown, .asking next)) :
    ∃ rested, Machine.run a machine = .ok () rested ∧ rested.status = .awaitingInput ∧
      next = rested.takeOutputs.2 := by
  cases hrun : Machine.run a machine with
  | error interruption rested =>
    rw [resume_of_error hrun] at h
    cases h
  | ok _ rested =>
    cases hstatus : rested.status with
    | running => exact absurd hstatus (run_eq_ok.1 hrun).2
    | terminated =>
      rw [resume_of_terminated hrun hstatus] at h
      cases h
    | awaitingInput =>
      rw [resume_of_awaiting hrun hstatus] at h
      cases h
      exact ⟨rested, rfl, hstatus, rfl⟩

theorem steps_of_resume {a : Allowance} {machine next : Machine} {shown : List Int}
    (h : resume a machine = (shown, .asking next)) :
    next.status = .awaitingInput ∧ next.steps ≤ machine.steps + a.steps := by
  obtain ⟨rested, hrun, hawaiting, rfl⟩ := resume_eq_asking h
  have hle := steps_le_of_advance (run_eq_ok.1 hrun).1
  exact ⟨hawaiting, hle⟩

theorem steps_starts {a : Allowance} {machine start : Machine} {values : List Int} {i : Nat}
    (hrunning : machine.status = .running) (h : (starts a machine values)[i]? = some start) :
    start.status = .running ∧ start.steps ≤ machine.steps + i * a.steps := by
  induction i generalizing machine values with
  | zero =>
    obtain ⟨rest, hrest⟩ := exists_starts a machine values
    rw [hrest] at h
    cases h
    exact ⟨hrunning, Nat.le_add_right _ _⟩
  | succ i ih =>
    cases values with
    | nil => cases h
    | cons value values =>
      cases hresume : resume a machine with
      | mk shown pause =>
        cases pause with
        | ended ending =>
          rw [starts, hresume] at h
          cases h
        | asking next =>
          obtain ⟨hawaiting, hsteps⟩ := steps_of_resume hresume
          rw [starts_cons hresume, List.getElem?_cons_succ] at h
          obtain ⟨hstart, hle⟩ := ih (if_pos hawaiting) h
          have hfed : (next.feed value).steps = next.steps := rfl
          rw [Nat.succ_mul]
          exact ⟨hstart, by omega⟩

theorem resume_of_exceeded {limit : Nat} {program fed emitted more : List Int} {machine : Machine}
    (h : machine.Replays program fed emitted) (houtputs : machine.outputs = .empty)
    (hawake : machine.status ≠ .awaitingInput) (hkeeps : KeepsTo limit machine)
    (hbatch : execute program (fed ++ more) (.limit limit) [] = .error (.limitReached limit)) :
    resume (.limit limit) machine = ([], .ended (.interrupted (.limitReached limit))) ∨
    ∃ shown next, resume (.limit limit) machine = (shown, .asking next) ∧
      Asking program fed (emitted ++ shown) next ∧ next.steps < limit := by
  -- No execution with less fuel than the limit comes to anything.
  have hlate (k : Nat) (hle : k ≤ limit) (result : Except Interruption (List Int))
      (hends : result ≠ .error .outOfFuel) (hother : result ≠ .error (.limitReached limit)) :
      execute program (fed ++ more) (.fuel k) [] ≠ result := by
    rintro rfl
    have hsame := execute_eq_of_le (a := .fuel k) (b := .limit limit) hle hends
    exact hother (hsame.symm.trans hbatch)
  cases hrun : Machine.run (.limit limit) machine with
  | error interruption last =>
    obtain ⟨fault, rfl, hadvance⟩ | ⟨rfl, -, -⟩ := run_error_cases hrun
    · obtain ⟨k, before, hbefore, hrunning, -, hstep⟩ := advance_error hadvance
      have hlt := hkeeps.lt (by rw [hrun]; nofun)
        (Nat.le_of_lt (lt_of_advance_error hadvance hbefore)) hbefore hrunning
      obtain ⟨values, -, hreplays⟩ := h.advance hbefore
      have hfaults := faults_stock ((faults_iff hrunning).2 ⟨last, hstep⟩) more
      -- The execution would fault here as well, before it has used up the limit.
      exact absurd ((hreplays.stock more).execute_of_faults hrunning hfaults)
        (hlate _ hlt _ nofun nofun)
    · exact .inl (resume_of_error hrun)
  | ok _ next =>
    obtain ⟨hadvance, hrests⟩ := run_eq_ok.1 hrun
    cases hstatus : next.status with
    | running => exact absurd hstatus hrests
    | terminated =>
      obtain ⟨values, -, hnext⟩ := h.advance hadvance
      have hle := hkeeps.within limit (Nat.le_refl limit) next hadvance
      -- The execution would end here, and its limit is enough for that.
      exact absurd ((hnext.stock more).execute_of_terminated hstatus) (hlate _ hle _ nofun nofun)
    | awaitingInput =>
      obtain ⟨k, before, hk, hbefore, hrunning, hstep⟩ := exists_of_awaiting hadvance hawake hstatus
      have hlt := hkeeps.lt (by rw [hrun]; nofun) (Nat.le_of_lt hk) hbefore hrunning
      rw [← steps_of_wait hrunning hstep hstatus] at hlt
      have hresume := resume_of_awaiting hrun hstatus
      obtain ⟨shown, last, hlast, hasking⟩ | ⟨shown, ending, hended, -⟩ :=
        resume_cases (.limit limit) h houtputs hawake
      · rw [hresume] at hlast
        cases hlast
        exact .inr ⟨_, _, hresume, hasking, hlt⟩
      · rw [hresume] at hended
        cases hended

theorem closing_of_exceeded {limit : Nat} {program fed emitted values : List Int}
    {machine : Machine} (h : machine.Replays program fed emitted)
    (houtputs : machine.outputs = .empty) (hawake : machine.status ≠ .awaitingInput)
    (hkeeps : ∀ start ∈ starts (.limit limit) machine values, KeepsTo limit start)
    (hbatch : execute program (fed ++ values) (.limit limit) [] = .error (.limitReached limit)) :
    closing (.limit limit) machine values = .interrupted (.limitReached limit) := by
  induction values generalizing machine fed emitted with
  | nil =>
    obtain hended | ⟨shown, next, -, hnext, hlt⟩ :=
      resume_of_exceeded h houtputs hawake (hkeeps machine List.mem_cons_self) hbatch
    · exact closing_of_ended hended []
    · -- The execution would miss a value here, before it has used up the limit.
      have hwaits := hnext.replays.execute_of_starved hnext.awaiting hnext.starved
      have hsame : execute program fed (.limit limit) [] =
          execute program fed (.fuel (next.steps + 1)) [] :=
        execute_eq_of_le hlt (by rw [hwaits]; nofun)
      rw [List.append_nil] at hbatch
      rw [hbatch, hwaits] at hsame
      cases hsame
  | cons value values ih =>
    obtain ⟨rest, hrest⟩ := exists_starts (.limit limit) machine (value :: values)
    have hfirst : KeepsTo limit machine := by
      apply hkeeps
      rw [hrest]
      exact List.mem_cons_self
    obtain hended | ⟨shown, next, hresume, hnext, -⟩ :=
      resume_of_exceeded h houtputs hawake hfirst hbatch
    · exact closing_of_ended hended _
    · obtain ⟨hreplays, hempty, hfed⟩ := hnext.feed value
      rw [closing_cons hresume]
      refine ih hreplays hempty hfed ?_ ?_
      · intro start hstart
        apply hkeeps
        rw [starts_cons hresume]
        exact List.mem_cons_of_mem _ hstart
      · rwa [List.append_assoc]

theorem Ending.exit_eq_four {ending : Ending} :
    ending.exit = 4 ↔ ∃ limit, ending = .interrupted (.limitReached limit) := by
  cases ending with
  | finished | abandoned => simp [exit]
  | interrupted interruption => cases interruption <;> simp [exit]

theorem exit_resume {limit : Nat} {start : Machine} :
    (resume (.limit limit) start).2.ending.exit = 4 ↔
      ∃ next, Machine.run (.limit limit) start = .error (.limitReached limit) next := by
  cases hrun : Machine.run (.limit limit) start with
  | error interruption next =>
    rw [resume_of_error hrun]
    obtain ⟨fault, rfl, -⟩ | ⟨rfl, -, -⟩ := run_error_cases hrun
    · simp [Pause.ending, Ending.exit]
    · exact iff_of_true rfl ⟨next, rfl⟩
  | ok _ next =>
    refine iff_of_false ?_ (by simp)
    cases hstatus : next.status with
    | running => exact absurd hstatus (run_eq_ok.1 hrun).2
    | terminated =>
      rw [resume_of_terminated hrun hstatus]
      simp [Pause.ending, Ending.exit]
    | awaitingInput =>
      rw [resume_of_awaiting hrun hstatus]
      simp [Pause.ending, Ending.exit]

theorem limit_of_execute {limit reached : Int} {program inputs : List Int}
    (h : execute program inputs (.limit limit) [] = .error (.limitReached reached)) :
    reached = limit := by
  change results (.limit limit) (load program inputs) = _ at h
  cases hrun : Machine.run (.limit limit) (load program inputs) with
  | error interruption next =>
    simp only [results, hrun, Except.error.injEq] at h
    subst h
    obtain ⟨fault, heq, -⟩ | ⟨heq, -, -⟩ := run_error_cases hrun
    · cases heq
    · cases heq
      rfl
  | ok _ next =>
    simp only [results, hrun] at h
    split at h <;> cases h

theorem exit_batch {limit : Int} {program inputs : List Int} :
    (batch (.limit limit) program inputs).ending.exit = 4 ↔
      execute program inputs (.limit limit) [] = .error (.limitReached limit) := by
  cases hexecute : execute program inputs (.limit limit) [] with
  | ok outputs =>
    simp [batch, hexecute, Ending.exit]
  | error interruption =>
    rw [ending_batch hexecute]
    simp only [Ending.exit_eq_four, Ending.interrupted.injEq, Except.error.injEq]
    constructor
    · rintro ⟨reached, rfl⟩
      rw [limit_of_execute hexecute]
    · intro heq
      exact ⟨limit, heq⟩

theorem exit_batch_of_interact {program inputs : List Int} {limit : Nat} {lines : List String}
    (h : (interact (.limit limit) (load program inputs) lines).ending.exit = 4) :
    (batch (.limit limit) program (inputs ++ typed lines)).ending.exit = 4 := by
  obtain ⟨course, ⟨rest, hlines⟩, -, -, htells⟩ :=
    exists_course (.limit limit) program inputs lines
  obtain ⟨reached, hending⟩ := Ending.exit_eq_four.1 h
  rw [hending] at htells
  have hlimit : Interruption.limitReached reached = .limitReached limit := htells.1
  have hexecute := htells.2 (typed rest)
  rw [List.append_assoc, ← typed_append, hlines, hlimit] at hexecute
  exact exit_batch.2 hexecute

/-- A limit bounds each run of a conversation and not the conversation. With `i` values typed, up to
`i + 1` times as many instructions have been completed, and the limit is reached when the last run
reaches it. The conversation keeps to the limit as a whole exactly if each run that starts with
instructions completed ends before it has used up what is left, and then it reaches the limit where
the execution with all values given beforehand reaches it. -/
theorem limit_per_run (program inputs : List Int) (limit : Nat) (lines : List String) :
    (∀ i start,
      (starts (.limit limit) (load program inputs) (typed lines))[i]? = some start →
      start.status = .running ∧ start.steps ≤ i * limit ∧
        ∀ n ≤ limit, ∀ next, advance n start = .ok () next → next.steps ≤ (i + 1) * limit) ∧
    (∃ last,
      (starts (.limit limit) (load program inputs) (typed lines)).getLast? = some last ∧
      ((interact (.limit limit) (load program inputs) lines).ending.exit = 4 ↔
        ∃ next, Machine.run (.limit limit) last = .error (.limitReached limit) next)) ∧
    ((∀ start ∈ starts (.limit limit) (load program inputs) (typed lines), KeepsTo limit start) ↔
      ∀ start ∈ starts (.limit limit) (load program inputs) (typed lines),
        start.steps = 0 ∨ start.steps ≤ limit ∧
          ∀ next, Machine.run (.limit ↑(limit - start.steps)) start ≠
            .error (.limitReached ↑(limit - start.steps)) next) ∧
    ((∀ start ∈ starts (.limit limit) (load program inputs) (typed lines), KeepsTo limit start) →
      ((interact (.limit limit) (load program inputs) lines).ending.exit = 4 ↔
        (batch (.limit limit) program (inputs ++ typed lines)).ending.exit = 4)) := by
  refine ⟨?_, ?_, ?_, ?_⟩
  · intro i start hstart
    obtain ⟨hrunning, hle⟩ := steps_starts rfl hstart
    have hle : start.steps ≤ i * limit := by
      simpa [load, Allowance.steps] using hle
    refine ⟨hrunning, hle, ?_⟩
    intro n hn next hadvance
    have hsteps := steps_le_of_advance hadvance
    rw [Nat.succ_mul]
    omega
  · obtain ⟨rest, hrest⟩ := exists_starts (.limit limit) (load program inputs) (typed lines)
    refine ⟨rest.getLastD (load program inputs), ?_, ?_⟩
    · rw [hrest, List.getLast?_cons, List.getLastD_eq_getLast?]
    · rw [ending_interact, closing, exit_resume, hrest, List.getLastD_cons]
  · exact forall₂_congr fun start _ => keepsTo_iff
  · intro hkeeps
    refine ⟨exit_batch_of_interact, ?_⟩
    intro hexit
    rw [ending_interact, Ending.exit_eq_four]
    have hrunning : (load program inputs).status = .running := rfl
    exact ⟨limit, closing_of_exceeded (Replays.load program inputs) rfl (by simp [hrunning])
      hkeeps (exit_batch.1 hexit)⟩

theorem limit_per_run_loop :
    (starts (.limit 2) (load [3, 5, 3, 5, 99, 0] []) (typed ["1", "2"]))[2]? =
        some ⟨.ofList [3, 5, 3, 5, 99, 1], 2, 0, .running, 1, .ofList [2], .empty⟩ ∧
      (∀ n ≤ 2, ∀ next,
        advance n ⟨.ofList [3, 5, 3, 5, 99, 1], 2, 0, .running, 1, .ofList [2], .empty⟩ =
          .ok () next → next.steps ≤ 3 * 2) ∧
      (∀ start ∈ starts (.limit 5) (load [3, 5, 1105, 1, 2, 0] []) (typed ["7"]),
        KeepsTo 5 start) ∧
      (batch (.limit 5) [3, 5, 1105, 1, 2, 0] ([] ++ typed ["7"])).ending.exit = 4 ∧
      (interact (.limit 5) (load [3, 5, 1105, 1, 2, 0] []) ["7"]).ending.exit = 4 := by
  have hstart : (starts (.limit 2) (load [3, 5, 3, 5, 99, 0] []) (typed ["1", "2"]))[2]? =
      some ⟨.ofList [3, 5, 3, 5, 99, 1], 2, 0, .running, 1, .ofList [2], .empty⟩ := by
    decide +kernel
  have hzero : ∀ start ∈ starts (.limit 5) (load [3, 5, 1105, 1, 2, 0] []) (typed ["7"]),
      start.steps = 0 := by
    decide +kernel
  have hbatch :
      (batch (.limit 5) [3, 5, 1105, 1, 2, 0] ([] ++ typed ["7"])).ending.exit = 4 := by
    decide +kernel
  obtain ⟨hbound, -⟩ := limit_per_run [3, 5, 3, 5, 99, 0] [] 2 ["1", "2"]
  obtain ⟨-, -, hkeeps, hexit⟩ := limit_per_run [3, 5, 1105, 1, 2, 0] [] 5 ["7"]
  have hall := hkeeps.2 fun start hmem => .inl (hzero start hmem)
  exact ⟨hstart, (hbound 2 _ hstart).2.2, hall, hbatch, (hexit hall).2 hbatch⟩

theorem limit_not_shared :
    (starts (.limit 2) (load [3, 5, 3, 5, 99, 0] []) (typed ["1", "2"]))[2]? =
      some ⟨.ofList [3, 5, 3, 5, 99, 1], 2, 0, .running, 1, .ofList [2], .empty⟩ ∧
    advance 2 ⟨.ofList [3, 5, 3, 5, 99, 1], 2, 0, .running, 1, .ofList [2], .empty⟩ =
      .ok () ⟨.ofList [3, 5, 3, 5, 99, 2], 4, 0, .terminated, 3, .empty, .empty⟩ ∧
    (interact (.limit 2) (load [3, 5, 3, 5, 99, 0] []) ["1", "2"]).ending.exit = 0 ∧
    (batch (.limit 2) [3, 5, 3, 5, 99, 0] ([] ++ typed ["1", "2"])).ending.exit = 4 := by
  decide +kernel

end TapeMachine.Command
