import TapeMachine.Command.Run
import TapeMachine.Proofs.Command.Typing
import TapeMachine.Proofs.Machine.Outcome

namespace TapeMachine.Command

open Machine

/-- One line for each value. -/
def printed (values : List Int) : List Char :=
  values.flatMap fun value => Decimal.plain value ++ ['\n']

structure Exchange : Type where
  line : String
  values : List Int

def Exchange.text (exchange : Exchange) : List Char :=
  "input: ".toList ++ (exchange.line.toList ++
    '\n' :: ((Answer.ofLine exchange.line).note.toList ++ printed exchange.values))

structure Course : Type where
  opening : List Int
  exchanges : List Exchange

namespace Course

def lines (course : Course) : List String := course.exchanges.map Exchange.line

def shown (course : Course) : List Int := course.opening ++ course.exchanges.flatMap Exchange.values

def text (course : Course) : List Char :=
  printed course.opening ++ course.exchanges.flatMap Exchange.text

end Course

theorem toList_showValues (values : List Int) : (showValues values).toList = printed values := by
  induction values with
  | nil => rfl
  | cons value values ih =>
    rw [showValues, printLines] at ih ⊢
    rw [List.map_cons, List.map_cons, String.join_cons, String.toList_append, ih,
      String.toList_append, Decimal.toList_toString]
    rfl

theorem Exchange.toList_text (line : String) (values : List Int) :
    (promptText ++ line ++ "\n" ++ (Answer.ofLine line).note ++ showValues values).toList =
      Exchange.text ⟨line, values⟩ := by
  simp only [String.toList_append, toList_showValues, List.append_assoc]
  rfl

/-- What the ending of a conversation tells about the program if all that was fed was there from
the start, and more behind it. -/
def Ending.Tells (a : Allowance) (program fed shown : List Int) : Ending → Prop
  | .finished => ∀ more, Executes program (fed ++ more) (.ok shown)
  | .abandoned => ∃ pointer, Executes program fed (.error (.inputMissing pointer))
  | .interrupted (.fault fault) =>
    ∀ more, Executes program (fed ++ more) (.error (.fault fault))
  | .interrupted interruption =>
    interruption = a.exceeded ∧
      ∀ more, execute program (fed ++ more) a [] = .error interruption

/-- The machine at a prompt: it has shown its outputs and waits. -/
structure Asking (program fed emitted : List Int) (machine : Machine) : Prop where
  replays : machine.Replays program fed emitted
  outputs : machine.outputs = .empty
  awaiting : machine.status = .awaitingInput
  starved : machine.Starved

section

variable {a : Allowance} {program fed emitted : List Int} {machine : Machine}

theorem tells_exceeded (h : ∀ more, execute program (fed ++ more) a [] = .error a.exceeded)
    (shown : List Int) : (Ending.interrupted a.exceeded).Tells a program fed shown := by
  cases a with
  | limit _ | fuel _ => exact ⟨rfl, h⟩

theorem tells_of_error {interruption : Interruption} {next : Machine}
    (h : machine.Replays program fed emitted)
    (hrun : Machine.run a machine = .error interruption next)
    (shown : List Int) : (Ending.interrupted interruption).Tells a program fed shown := by
  obtain ⟨fault, rfl, hadvance⟩ | ⟨rfl, hadvance, hrunning⟩ := run_error_cases hrun
  · intro more
    obtain ⟨k, last, hlast, hrunning, -, hstep⟩ := advance_error hadvance
    obtain ⟨values, -, hreplays⟩ := h.advance hlast
    have hfaults := (faults_iff hrunning).2 ⟨next, hstep⟩
    exact ⟨_, (hreplays.stock more).execute_of_faults hrunning (faults_stock hfaults more), nofun⟩
  · refine tells_exceeded ?_ shown
    intro more
    obtain ⟨values, -, hreplays⟩ := h.advance hadvance
    have hle : a.steps ≤ next.steps := by
      rw [steps_of_advance_running hadvance hrunning]
      exact Nat.le_add_left _ _
    exact (hreplays.stock more).execute_of_running hrunning hle

section

variable {next : Machine}

theorem resume_of_error {interruption : Interruption}
    (h : Machine.run a machine = .error interruption next) :
    resume a machine = ([], .ended (.interrupted interruption)) := by
  rw [resume, h]

theorem resume_of_terminated (h : Machine.run a machine = .ok () next)
    (hstatus : next.status = .terminated) :
    resume a machine = (next.outputs.toList, .ended .finished) := by
  simp only [resume, h, takeOutputs, hstatus, if_true]

theorem resume_of_awaiting (h : Machine.run a machine = .ok () next)
    (hstatus : next.status = .awaitingInput) :
    resume a machine = (next.outputs.toList, .asking next.takeOutputs.2) := by
  simp only [resume, h, takeOutputs, hstatus, reduceCtorEq, if_false]

end

theorem resume_cases (a : Allowance) (h : machine.Replays program fed emitted)
    (houtputs : machine.outputs = .empty) (hawake : machine.status ≠ .awaitingInput) :
    (∃ values next, resume a machine = (values, .asking next) ∧
      Asking program fed (emitted ++ values) next) ∨
    (∃ values ending, resume a machine = (values, .ended ending) ∧ ending ≠ .abandoned ∧
      ending.Tells a program fed (emitted ++ values)) := by
  cases hrun : Machine.run a machine with
  | error interruption next =>
    exact .inr ⟨[], _, resume_of_error hrun, nofun, tells_of_error h hrun _⟩
  | ok _ next =>
    obtain ⟨hadvance, hrests⟩ := run_eq_ok.1 hrun
    obtain ⟨values, hvalues, hnext⟩ := h.advance hadvance
    have hvalues : next.outputs.toList = values := by
      rw [hvalues, houtputs]
      rfl
    rw [← hvalues] at hnext
    cases hstatus : next.status with
    | running => exact absurd hstatus hrests
    | terminated =>
      refine .inr ⟨_, _, resume_of_terminated hrun hstatus, nofun, ?_⟩
      intro more
      exact ⟨_, (hnext.stock more).execute_of_terminated hstatus, nofun⟩
    | awaitingInput =>
      have hstarved := starved_of_advance hadvance hawake hstatus
      exact .inl ⟨_, _, resume_of_awaiting hrun hstatus, hnext.takeOutputs, rfl, hstatus,
        hstarved.inputs, hstarved.pending, hstarved.held⟩

end

/-- The transcript shows the exchanges, each of which answers the next one of the lines, and its
ending tells what the program comes to. -/
structure Follows (a : Allowance) (program fed emitted : List Int) (lines : List String)
    (transcript : Transcript) (exchanges : List Exchange) : Prop where
  answered : exchanges.map Exchange.line <+: lines
  exhausted : transcript.ending = .abandoned → exchanges.map Exchange.line = lines
  output : transcript.output.toList = exchanges.flatMap Exchange.text ++
    if transcript.ending = .abandoned then "input: ".toList else []
  tells : transcript.ending.Tells a program (fed ++ typed (exchanges.map Exchange.line))
    (emitted ++ exchanges.flatMap Exchange.values)

namespace Follows

variable {a : Allowance} {program fed emitted values : List Int} {line : String}
  {lines : List String} {transcript : Transcript}

theorem cons {rest : Transcript} {exchanges : List Exchange}
    (h : Follows a program (fed ++ typed [line]) (emitted ++ values) lines rest exchanges)
    (hending : transcript.ending = rest.ending)
    (houtput : transcript.output = promptText ++ line ++ "\n" ++ (Answer.ofLine line).note ++
      showValues values ++ rest.output) :
    Follows a program fed emitted (line :: lines) transcript (⟨line, values⟩ :: exchanges) where
  answered := by
    rw [List.map_cons, List.cons_prefix_cons]
    exact ⟨rfl, h.answered⟩
  exhausted := by
    intro habandoned
    rw [hending] at habandoned
    rw [List.map_cons, h.exhausted habandoned]
  output := by
    rw [houtput, String.toList_append, Exchange.toList_text, h.output, hending, List.flatMap_cons,
      List.append_assoc]
  tells := by
    have htells := h.tells
    rw [List.append_assoc, List.append_assoc, ← typed_append] at htells
    rw [hending]
    exact htells

theorem last (hending : transcript.ending ≠ .abandoned)
    (houtput : transcript.output = promptText ++ line ++ "\n" ++ (Answer.ofLine line).note ++
      showValues values)
    (htells : transcript.ending.Tells a program (fed ++ typed [line]) (emitted ++ values)) :
    Follows a program fed emitted (line :: lines) transcript [⟨line, values⟩] where
  answered := List.prefix_append [line] lines
  exhausted habandoned := absurd habandoned hending
  output := by
    rw [houtput, if_neg hending, Exchange.toList_text, List.flatMap_singleton, List.append_nil]
  tells := by
    rw [List.flatMap_singleton]
    exact htells

end Follows

theorem Asking.feed {program fed emitted : List Int} {machine : Machine}
    (h : Asking program fed emitted machine) (value : Int) :
    (machine.feed value).Replays program (fed ++ [value]) emitted ∧
      (machine.feed value).outputs = .empty ∧ (machine.feed value).status ≠ .awaitingInput := by
  refine ⟨h.replays.feedAll [value], h.outputs, ?_⟩
  simp [Machine.feed, h.awaiting]

theorem follows_converse (a : Allowance) {program fed emitted : List Int} {machine : Machine}
    (h : Asking program fed emitted machine) (lines : List String) :
    ∃ exchanges, Follows a program fed emitted lines (converse a machine lines) exchanges := by
  -- A line that is a value moves it from the lines to what was fed; the rest of the conversation is
  -- told from the prompt at which the run behind that line comes to wait.
  induction lines generalizing machine fed emitted with
  | nil =>
    have hmissing := h.replays.execute_of_starved h.awaiting h.starved
    rw [← List.append_nil fed] at hmissing
    exact ⟨[], List.prefix_refl _, fun _ => rfl, rfl, machine.pointer, _, hmissing, nofun⟩
  | cons line lines ih =>
    cases hanswer : Answer.ofLine line with
    | again note =>
      have htyped : fed ++ typed [line] = fed := by
        rw [typed_cons_again hanswer]
        exact List.append_nil fed
      obtain ⟨exchanges, hfollows⟩ := ih h
      rw [← htyped, ← List.append_nil emitted] at hfollows
      refine ⟨⟨line, []⟩ :: exchanges, hfollows.cons ?_ ?_⟩
      · simp only [converse, hanswer, Transcript.after]
      · simp only [converse, hanswer, Transcript.after, Answer.note, showValues, printLines,
          List.map_nil, String.join_nil, String.append_empty]
    | value value =>
      have htyped : fed ++ typed [line] = fed ++ [value] := by
        rw [typed_cons_value hanswer]
        rfl
      obtain ⟨hreplays, houtputs, hawake⟩ := h.feed value
      rw [← htyped] at hreplays
      obtain ⟨values, next, hresume, hnext⟩ | ⟨values, ending, hresume, hending, htells⟩ :=
        resume_cases a hreplays houtputs hawake
      · obtain ⟨exchanges, hfollows⟩ := ih hnext
        refine ⟨⟨line, values⟩ :: exchanges, hfollows.cons ?_ ?_⟩
        · simp only [converse, hanswer, hresume, Transcript.after]
        · simp only [converse, hanswer, hresume, Transcript.after, Answer.note,
            String.append_empty]
      · refine ⟨[⟨line, values⟩], .last ?_ ?_ ?_⟩
        · simpa only [converse, hanswer, hresume] using hending
        · simp only [converse, hanswer, hresume, Answer.note, String.append_empty]
        · simpa only [converse, hanswer, hresume] using htells

theorem exists_course (a : Allowance) (program inputs : List Int) (lines : List String) :
    ∃ course : Course, course.lines <+: lines ∧
      ((interact a (load program inputs) lines).ending = .abandoned → course.lines = lines) ∧
      (interact a (load program inputs) lines).output.toList = course.text ++
        (if (interact a (load program inputs) lines).ending = .abandoned then "input: ".toList
          else []) ∧
      (interact a (load program inputs) lines).ending.Tells a program
        (inputs ++ typed course.lines) course.shown := by
  obtain ⟨values, next, hresume, hnext⟩ | ⟨values, ending, hresume, hending, htells⟩ :=
    resume_cases a (Replays.load program inputs) rfl nofun
  · obtain ⟨exchanges, hfollows⟩ := follows_converse a hnext lines
    refine ⟨⟨values, exchanges⟩, hfollows.answered, ?_⟩
    simp only [interact, hresume, Transcript.after]
    refine ⟨hfollows.exhausted, ?_, hfollows.tells⟩
    rw [String.toList_append, toList_showValues, hfollows.output, ← List.append_assoc]
    rfl
  · refine ⟨⟨values, []⟩, List.nil_prefix, ?_⟩
    simp only [interact, hresume, if_neg hending]
    refine ⟨fun habandoned => absurd habandoned hending, ?_, ?_⟩
    · rw [toList_showValues, List.append_nil]
      exact (List.append_nil _).symm
    · rw [← List.append_nil inputs, ← List.nil_append values] at htells
      simpa [Course.lines, Course.shown, typed] using htells

theorem Ending.Tells.cases {fuel : Nat} {program fed shown more : List Int} {ending : Ending}
    {result : Except Interruption (List Int)} (h : ending.Tells (.fuel fuel) program fed shown)
    (hmore : ending = .abandoned → more = [])
    (hresult : execute program (fed ++ more) (.fuel fuel) [] = result)
    (hends : result ≠ .error .outOfFuel) :
    (ending = .finished ∧ result = .ok shown) ∨
    (ending = .abandoned ∧ ∃ pointer, result = .error (.inputMissing pointer)) ∨
    ∃ fault, ending = .interrupted (.fault fault) ∧ result = .error (.fault fault) := by
  have hexecutes : Executes program (fed ++ more) result := ⟨fuel, hresult, hends⟩
  cases ending with
  | finished => exact .inl ⟨rfl, hexecutes.unique (h more)⟩
  | abandoned =>
    obtain ⟨pointer, hmissing⟩ := h
    rw [hmore rfl, List.append_nil] at hexecutes
    exact .inr (.inl ⟨rfl, pointer, hexecutes.unique hmissing⟩)
  | interrupted interruption =>
    cases interruption with
    | fault fault => exact .inr (.inr ⟨fault, rfl, hexecutes.unique (h more)⟩)
    | limitReached _ | inputMissing _ => cases h.1
    | outOfFuel => exact absurd (hresult.symm.trans (h.2 more)) hends

theorem conversation_cases {fuel : Nat} {program inputs : List Int} {lines : List String}
    {result : Except Interruption (List Int)}
    (hresult : execute program (inputs ++ typed lines) (.fuel fuel) [] = result)
    (hends : result ≠ .error .outOfFuel) :
    ∃ course : Course, course.lines <+: lines ∧
      ((interact (.fuel fuel) (load program inputs) lines).ending = .finished ∧
          (interact (.fuel fuel) (load program inputs) lines).output.toList = course.text ∧
          result = .ok course.shown ∨
        (interact (.fuel fuel) (load program inputs) lines).ending = .abandoned ∧
          (interact (.fuel fuel) (load program inputs) lines).output.toList =
            course.text ++ "input: ".toList ∧
          course.lines = lines ∧ (∃ pointer, result = .error (.inputMissing pointer)) ∨
        ∃ fault, result = .error (.fault fault) ∧
          (interact (.fuel fuel) (load program inputs) lines).ending =
            .interrupted (.fault fault)) := by
  obtain ⟨course, ⟨rest, hlines⟩, hexhausted, houtput, htells⟩ :=
    exists_course (.fuel fuel) program inputs lines
  have hmore : (interact (.fuel fuel) (load program inputs) lines).ending = .abandoned →
      typed rest = [] := by
    intro habandoned
    have hall : course.lines ++ rest = course.lines := hlines.trans (hexhausted habandoned).symm
    rw [List.append_right_eq_self] at hall
    rw [hall]
    rfl
  rw [← hlines, typed_append, ← List.append_assoc] at hresult
  refine ⟨course, ⟨rest, hlines⟩, ?_⟩
  obtain ⟨hending, hshown⟩ | ⟨hending, hmissing⟩ | ⟨fault, hending, hfault⟩ :=
    htells.cases hmore hresult hends
  · rw [hending, if_neg nofun, List.append_nil] at houtput
    exact .inl ⟨hending, houtput, hshown⟩
  · rw [hending, if_pos rfl] at houtput
    exact .inr (.inl ⟨hending, houtput, hexhausted hending, hmissing⟩)
  · exact .inr (.inr ⟨fault, hfault, hending⟩)

section

variable {fuel : Nat} {program inputs : List Int} {lines : List String}

theorem finished_of_execute {outputs : List Int}
    (h : execute program (inputs ++ typed lines) (.fuel fuel) [] = .ok outputs) :
    (interact (.fuel fuel) (load program inputs) lines).ending = .finished ∧
      ∃ course : Course, course.lines <+: lines ∧ course.shown = outputs ∧
        (interact (.fuel fuel) (load program inputs) lines).output.toList = course.text := by
  obtain ⟨course, hlines, ⟨hending, houtput, hshown⟩ | ⟨-, -, -, pointer, hmissing⟩ |
    ⟨fault, hfault, -⟩⟩ := conversation_cases h nofun
  · exact ⟨hending, course, hlines, (Except.ok.inj hshown).symm, houtput⟩
  · cases hmissing
  · cases hfault

theorem interrupted_of_execute {fault : Fault}
    (h : execute program (inputs ++ typed lines) (.fuel fuel) [] = .error (.fault fault)) :
    (interact (.fuel fuel) (load program inputs) lines).ending =
      .interrupted (.fault fault) := by
  obtain ⟨course, -, ⟨-, -, hshown⟩ | ⟨-, -, -, pointer, hmissing⟩ | ⟨cause, hfault, hending⟩⟩ :=
    conversation_cases h nofun
  · cases hshown
  · cases hmissing
  · cases hfault
    exact hending

theorem abandoned_of_execute {pointer : Int}
    (h : execute program (inputs ++ typed lines) (.fuel fuel) [] =
      .error (.inputMissing pointer)) :
    (interact (.fuel fuel) (load program inputs) lines).ending = .abandoned ∧
      ∃ course : Course, course.lines = lines ∧
        (interact (.fuel fuel) (load program inputs) lines).output.toList =
          course.text ++ "input: ".toList := by
  obtain ⟨course, -, ⟨-, -, hshown⟩ | ⟨hending, houtput, hlines, -⟩ | ⟨cause, hfault, -⟩⟩ :=
    conversation_cases h nofun
  · cases hshown
  · exact ⟨hending, course, hlines, houtput⟩
  · cases hfault

end

theorem executes_of_finished {a : Allowance} {program inputs : List Int} {lines : List String}
    (h : (interact a (load program inputs) lines).ending = .finished) :
    ∃ course : Course, course.lines <+: lines ∧
      (interact a (load program inputs) lines).output.toList = course.text ∧
      Executes program (inputs ++ typed course.lines) (.ok course.shown) := by
  obtain ⟨course, hlines, -, houtput, htells⟩ := exists_course a program inputs lines
  rw [h] at houtput htells
  rw [if_neg nofun, List.append_nil] at houtput
  have hall := htells []
  rw [List.append_nil] at hall
  exact ⟨course, hlines, houtput, hall⟩

theorem Ending.exit_eq_zero {ending : Ending} : ending.exit = 0 ↔ ending = .finished := by
  cases ending with
  | finished | abandoned => simp [exit]
  | interrupted interruption => cases interruption <;> simp [exit]

theorem ending_batch {a : Allowance} {program inputs : List Int} {interruption : Interruption}
    (h : execute program inputs a [] = .error interruption) :
    (batch a program inputs).ending = .interrupted interruption := by
  simp only [batch, h]

theorem batch_of_ok {a : Allowance} {program inputs outputs : List Int}
    (h : execute program inputs a [] = .ok outputs) :
    (batch a program inputs).ending = .finished ∧
      (batch a program inputs).output.toList = printed outputs := by
  simp only [batch, h, toList_showValues, and_self]

/-- With the values typed at prompts a program comes to what it comes to with the same values given
beforehand, and a numeral typed at a prompt is its value. The conversation shows the outputs of an
execution that ends, each on a line of its own, and answers no more lines than it needs; it stops on
the fault of an execution that faults; where an execution waits for another value, it has answered
all lines and prompts for one more. What a conversation showed that has come to its end are the
outputs of the program on the values it was given. -/
theorem interactive_agrees (program inputs : List Int) (lines : List String) :
    (∀ (line : String) value, Decimal.Numeral value line.toList →
      Answer.ofLine line = .value value) ∧
    (∀ fuel outputs, execute program (inputs ++ typed lines) (.fuel fuel) [] = .ok outputs →
      (batch (.fuel fuel) program (inputs ++ typed lines)).ending.exit = 0 ∧
      (batch (.fuel fuel) program (inputs ++ typed lines)).output.toList = printed outputs ∧
      (interact (.fuel fuel) (load program inputs) lines).ending.exit = 0 ∧
      ∃ course : Course, course.lines <+: lines ∧ course.shown = outputs ∧
        (interact (.fuel fuel) (load program inputs) lines).output.toList = course.text) ∧
    (∀ fuel fault,
      execute program (inputs ++ typed lines) (.fuel fuel) [] = .error (.fault fault) →
      (interact (.fuel fuel) (load program inputs) lines).ending = .interrupted (.fault fault) ∧
      (interact (.fuel fuel) (load program inputs) lines).ending.exit = 100 ∧
      (batch (.fuel fuel) program (inputs ++ typed lines)).ending.exit = 100) ∧
    (∀ fuel pointer,
      execute program (inputs ++ typed lines) (.fuel fuel) [] = .error (.inputMissing pointer) →
      (interact (.fuel fuel) (load program inputs) lines).ending = .abandoned ∧
      (interact (.fuel fuel) (load program inputs) lines).ending.exit = 3 ∧
      (batch (.fuel fuel) program (inputs ++ typed lines)).ending.exit = 2 ∧
      ∃ course : Course, course.lines = lines ∧
        (interact (.fuel fuel) (load program inputs) lines).output.toList =
          course.text ++ "input: ".toList) ∧
    ∀ a, (interact a (load program inputs) lines).ending.exit = 0 →
      ∃ course : Course, course.lines <+: lines ∧
        (interact a (load program inputs) lines).output.toList = course.text ∧
        ∃ n, ∀ fuel, n ≤ fuel →
          execute program (inputs ++ typed course.lines) (.fuel fuel) [] = .ok course.shown := by
  refine ⟨?_, ?_, ?_, ?_, ?_⟩
  · intro line value hnumeral
    exact Answer.ofLine_of_numeral hnumeral
  · intro fuel outputs h
    obtain ⟨hbatch, hprinted⟩ := batch_of_ok h
    obtain ⟨hending, hcourse⟩ := finished_of_execute h
    exact ⟨Ending.exit_eq_zero.2 hbatch, hprinted, Ending.exit_eq_zero.2 hending, hcourse⟩
  · intro fuel fault h
    have hending := interrupted_of_execute h
    rw [ending_batch h, hending]
    exact ⟨rfl, rfl, rfl⟩
  · intro fuel pointer h
    obtain ⟨hending, hcourse⟩ := abandoned_of_execute h
    rw [ending_batch h, hending]
    exact ⟨rfl, rfl, rfl, hcourse⟩
  · intro a hexit
    obtain ⟨course, hlines, houtput, hexecutes⟩ :=
      executes_of_finished (Ending.exit_eq_zero.1 hexit)
    exact ⟨course, hlines, houtput, hexecutes.eventually⟩

def echoTwice : List Int := [104, 7, 3, 20, 4, 20, 3, 21, 4, 21, 99]

theorem interactive_agrees_echoes :
    (Decimal.Numeral (-3) "-3".toList ∧ Answer.ofLine "-3" = .value (-3)) ∧
    (execute echoTwice ([] ++ typed ["5", "zz", "-3", "9"]) (.fuel 9) [] = .ok [7, 5, -3] ∧
      (batch (.fuel 9) echoTwice ([] ++ typed ["5", "zz", "-3", "9"])).ending.exit = 0 ∧
      (batch (.fuel 9) echoTwice ([] ++ typed ["5", "zz", "-3", "9"])).output.toList =
        printed [7, 5, -3] ∧
      printed [7, 5, -3] = "7\n5\n-3\n".toList ∧
      (interact (.fuel 9) (load echoTwice []) ["5", "zz", "-3", "9"]).ending.exit = 0 ∧
      (∃ course : Course, course.lines <+: ["5", "zz", "-3", "9"] ∧ course.shown = [7, 5, -3] ∧
        (interact (.fuel 9) (load echoTwice []) ["5", "zz", "-3", "9"]).output.toList =
          course.text) ∧
      (interact (.fuel 9) (load echoTwice []) ["5", "zz", "-3", "9"]).output =
        "7\ninput: 5\n5\ninput: zz\nError: 'zz' is not a valid integer.\ninput: -3\n-3\n") ∧
    (execute [3, 5, 3, 4, 0, 0] ([1] ++ typed ["98"]) (.fuel 9) [] =
        .error (.fault (.unknownOpcode 98 (some 4))) ∧
      (interact (.fuel 9) (load [3, 5, 3, 4, 0, 0] [1]) ["98"]).ending =
        .interrupted (.fault (.unknownOpcode 98 (some 4))) ∧
      (interact (.fuel 9) (load [3, 5, 3, 4, 0, 0] [1]) ["98"]).ending.exit = 100 ∧
      (batch (.fuel 9) [3, 5, 3, 4, 0, 0] ([1] ++ typed ["98"])).ending.exit = 100) ∧
    (execute echoTwice ([] ++ typed ["5"]) (.fuel 9) [] = .error (.inputMissing 6) ∧
      (interact (.fuel 9) (load echoTwice []) ["5"]).ending = .abandoned ∧
      (interact (.fuel 9) (load echoTwice []) ["5"]).ending.exit = 3 ∧
      (batch (.fuel 9) echoTwice ([] ++ typed ["5"])).ending.exit = 2 ∧
      (∃ course : Course, course.lines = ["5"] ∧
        (interact (.fuel 9) (load echoTwice []) ["5"]).output.toList =
          course.text ++ "input: ".toList) ∧
      (interact (.fuel 9) (load echoTwice []) ["5"]).output = "7\ninput: 5\n5\ninput: ") ∧
    (∃ course : Course, course.lines <+: ["5", "-3", "9"] ∧
      (interact (.limit 3) (load echoTwice []) ["5", "-3", "9"]).output.toList = course.text ∧
      ∃ n, ∀ fuel, n ≤ fuel →
        execute echoTwice ([] ++ typed course.lines) (.fuel fuel) [] = .ok course.shown) ∧
    (interact (.limit 3) (load echoTwice []) ["5", "-3", "9"]).output =
      "7\ninput: 5\n5\ninput: -3\n-3\n" := by
  have hnumeral : Decimal.Numeral (-3) "-3".toList := .minus 0 3
  have hends : execute echoTwice ([] ++ typed ["5", "zz", "-3", "9"]) (.fuel 9) [] =
      .ok [7, 5, -3] := by
    decide +kernel
  have hfaults : execute [3, 5, 3, 4, 0, 0] ([1] ++ typed ["98"]) (.fuel 9) [] =
      .error (.fault (.unknownOpcode 98 (some 4))) := by
    decide +kernel
  have hwaits : execute echoTwice ([] ++ typed ["5"]) (.fuel 9) [] =
      .error (.inputMissing 6) := by
    decide +kernel
  have hexit : (interact (.limit 3) (load echoTwice []) ["5", "-3", "9"]).ending.exit = 0 := by
    decide +kernel
  obtain ⟨hvalue, hfinished, -⟩ := interactive_agrees echoTwice [] ["5", "zz", "-3", "9"]
  obtain ⟨hbatch, hprinted, hzero, hcourse⟩ := hfinished 9 _ hends
  obtain ⟨-, -, hfaulty, -⟩ := interactive_agrees [3, 5, 3, 4, 0, 0] [1] ["98"]
  obtain ⟨-, -, -, hwaiting, -⟩ := interactive_agrees echoTwice [] ["5"]
  obtain ⟨habandoned, hthree, htwo, hasked⟩ := hwaiting 9 _ hwaits
  obtain ⟨-, -, -, -, hconverse⟩ := interactive_agrees echoTwice [] ["5", "-3", "9"]
  exact ⟨⟨hnumeral, hvalue _ _ hnumeral⟩,
    ⟨hends, hbatch, hprinted, by decide +kernel, hzero, hcourse, by decide +kernel⟩,
    ⟨hfaults, hfaulty 9 _ hfaults⟩,
    ⟨hwaits, habandoned, hthree, htwo, hasked, by decide +kernel⟩,
    hconverse (.limit 3) hexit, by decide +kernel⟩

end TapeMachine.Command
