import TapeMachine.Proofs.Machine.Session
import TapeMachine.Proofs.Machine.Settling
import TapeMachine.Proofs.Machine.View

namespace TapeMachine

theorem cases_of_seen {ε α : Type} {a b : EStateM.Result ε Machine α} (h : seen a = seen b) :
    (∃ x m n, a = .ok x m ∧ b = .ok x n ∧ m.view = n.view) ∨
    (∃ fault m n, a = .error fault m ∧ b = .error fault n ∧ m.view = n.view) := by
  cases a with
  | ok x m =>
    cases b with
    | ok y n =>
      simp only [seen, EStateM.Result.ok.injEq] at h
      obtain ⟨rfl, hview⟩ := h
      exact .inl ⟨x, m, n, rfl, rfl, hview⟩
    | error fault n => cases h
  | error fault m =>
    cases b with
    | ok y n => cases h
    | error fault' n =>
      simp only [seen, EStateM.Result.error.injEq] at h
      obtain ⟨rfl, hview⟩ := h
      exact .inr ⟨fault, m, n, rfl, rfl, hview⟩

theorem Tape.get_ofList_zeros (program : List Int) (n : Nat) :
    (ofList (program ++ List.replicate n 0)).get = (ofList program).get := by
  have hextend : ofList (program ++ List.replicate n 0) =
      (ofList program).extend (program.length + n) := by
    apply ext_cells
    rw [cells_extend_eq, size_ofList, Nat.add_sub_cancel_left]
    simp [ofList]
  rw [hextend, get_extend_eq]

namespace Machine

def retape (machine : Machine) (tape : Tape) : Machine := { machine with tape := tape }

theorem view_eq_iff {a b : Machine} :
    a.view = b.view ↔ ∃ tape, b = a.retape tape ∧ tape.get = a.tape.get := by
  constructor
  · intro h
    refine ⟨b.tape, ?_, (congrArg View.memory h).symm⟩
    obtain ⟨tape, pointer, base, status, steps, inputs, outputs⟩ := b
    simp only [view, View.mk.injEq] at h
    obtain ⟨-, rfl, rfl, rfl, rfl, rfl, rfl⟩ := h
    rfl
  · rintro ⟨tape, rfl, htape⟩
    simp only [view, memory, retape, htape]

theorem seen_read (address : Int) (machine : Machine) :
    seen (onTape (Tape.read address) machine) =
      ending (look machine.view.memory address) machine.view := by
  rw [onTape, Tape.read_eq_look]
  change _ = ending (look machine.tape.get address) machine.view
  rw [← view_grow machine (Tape.reach address)]
  cases look machine.tape.get address <;> rfl

theorem seen_store (address value : Int) (machine : Machine) :
    seen (store address value machine) =
      if address < 0 then .error (.negativeAddress address) machine.view
      else .ok () { machine.view with
        memory := Function.update machine.view.memory address value } := by
  rw [store_eq]
  by_cases h : address < 0
  · simp only [h, if_true, seen]
  · have hnonneg := Int.not_lt.1 h
    have hheld : address.toNat < (machine.grow (Tape.reach address)).tape.size := by
      simp only [grow, Tape.size_extend, Tape.reach_of_nonneg hnonneg]
      omega
    have hmemory := memory_put hnonneg hheld value
    rw [memory_grow] at hmemory
    simp only [h, if_false, seen, view, ← hmemory]
    rfl

section

variable {a b : Machine} (h : a.view = b.view)

include h

theorem view_feed (value : Int) : (a.feed value).view = (b.feed value).view := by
  obtain ⟨tape, rfl, htape⟩ := view_eq_iff.1 h
  exact view_eq_iff.2 ⟨tape, rfl, htape⟩

theorem view_feedAll (values : List Int) : (a.feedAll values).view = (b.feedAll values).view := by
  induction values generalizing a b with
  | nil => exact h
  | cons value values ih => exact ih (view_feed h value)

theorem takeOutput_of_view :
    a.takeOutput.1 = b.takeOutput.1 ∧ a.takeOutput.2.view = b.takeOutput.2.view := by
  obtain ⟨tape, rfl, htape⟩ := view_eq_iff.1 h
  have hretape : (a.retape tape).takeOutput = (a.takeOutput.1, a.takeOutput.2.retape tape) := by
    simp only [takeOutput, retape]
    split <;> rfl
  have htape' : tape.get = a.takeOutput.2.tape.get := by
    rw [htape, takeOutput]
    split <;> rfl
  rw [hretape]
  exact ⟨rfl, view_eq_iff.2 ⟨tape, rfl, htape'⟩⟩

theorem seen_advance (n : Nat) : seen (advance n a) = seen (advance n b) := by
  induction n generalizing a b with
  | zero => exact congrArg (EStateM.Result.ok ()) h
  | succ n ih =>
    have hstatus : a.status = b.status := congrArg View.status h
    by_cases hrunning : a.status = .running
    · have hstep : seen (step a) = seen (step b) := by rw [seen_step, seen_step, h]
      rw [advance_succ hrunning, advance_succ (hstatus ▸ hrunning)]
      obtain ⟨_, m, n, hm, hn, hview⟩ | ⟨fault, m, n, hm, hn, hview⟩ := cases_of_seen hstep
      · simp only [hm, hn]
        exact ih hview
      · simp only [hm, hn, seen, hview]
    · rw [advance_of_rests hrunning, advance_of_rests (hstatus ▸ hrunning)]
      exact congrArg (EStateM.Result.ok ()) h

theorem seen_run (allowance : Allowance) : seen (run allowance a) = seen (run allowance b) := by
  obtain ⟨_, m, n, hm, hn, hview⟩ | ⟨fault, m, n, hm, hn, hview⟩ :=
    cases_of_seen (seen_advance h allowance.steps)
  · have hstatus : m.status = n.status := congrArg View.status hview
    simp only [run, hm, hn, hstatus]
    split <;> simp only [seen, hview]
  · simp only [run, hm, hn, seen, hview]

theorem seen_patch (patches : List (Int × Int)) :
    seen (patch patches a) = seen (patch patches b) := by
  induction patches generalizing a b with
  | nil => exact congrArg (EStateM.Result.ok ()) h
  | cons head patches ih =>
    obtain ⟨address, value⟩ := head
    have hstore : seen (store address value a) = seen (store address value b) := by
      rw [seen_store, seen_store, h]
    simp only [patch, bind_eq]
    obtain ⟨_, m, n, hm, hn, hview⟩ | ⟨fault, m, n, hm, hn, hview⟩ := cases_of_seen hstore
    · simp only [hm, hn]
      exact ih hview
    · simp only [hm, hn, seen, hview]

end

theorem view_load_zeros (program inputs : List Int) (n : Nat) :
    (load (program ++ List.replicate n 0) inputs).view = (load program inputs).view := by
  apply view_eq_iff.2
  exact ⟨.ofList program, rfl, (Tape.get_ofList_zeros program n).symm⟩

end Machine

theorem Reply.ofResult_of_seen {ε α : Type} {a b : EStateM.Result ε Machine α}
    (h : seen a = seen b) (returned : α → Status → Reply) (cause : ε → Interruption) :
    ofResult returned cause a = ofResult returned cause b ∧
      (remaining a).view = (remaining b).view := by
  obtain ⟨x, m, n, rfl, rfl, hview⟩ | ⟨fault, m, n, rfl, rfl, hview⟩ := cases_of_seen h
  · exact ⟨congrArg (returned x) (congrArg View.status hview), hview⟩
  · exact ⟨rfl, hview⟩

theorem Operation.indistinguishable (operation : Operation) {a b : Machine} (h : a.view = b.view) :
    operation.reply a = operation.reply b ∧
      (operation.apply a).view = (operation.apply b).view := by
  cases operation with
  | step =>
    have hseen : seen a.step = seen b.step := by rw [Machine.seen_step, Machine.seen_step, h]
    exact Reply.ofResult_of_seen hseen _ _
  | run allowance => exact Reply.ofResult_of_seen (Machine.seen_run h allowance) _ _
  | feed value => exact ⟨rfl, Machine.view_feed h value⟩
  | feedAll values => exact ⟨rfl, Machine.view_feedAll h values⟩
  | takeOutput =>
    obtain ⟨hvalue, hview⟩ := Machine.takeOutput_of_view h
    exact ⟨congrArg Reply.output hvalue, hview⟩
  | read address =>
    have hseen : seen (Machine.onTape (Tape.read address) a) =
        seen (Machine.onTape (Tape.read address) b) := by
      rw [Machine.seen_read, Machine.seen_read, h]
    exact Reply.ofResult_of_seen hseen (fun value _ => .value value) .fault
  | write address value =>
    have hseen : seen (Machine.store address value a) = seen (Machine.store address value b) := by
      rw [Machine.seen_store, Machine.seen_store, h]
    exact Reply.ofResult_of_seen hseen (fun _ _ => .done) .fault
  | takeOutputs | setPointer _ | setBase _ =>
    obtain ⟨tape, rfl, htape⟩ := Machine.view_eq_iff.1 h
    exact ⟨rfl, Machine.view_eq_iff.2 ⟨tape, rfl, htape⟩⟩

namespace Session

/-- No host can tell the machines apart. -/
def Indistinguishable (a b : Machine) : Prop :=
  ∀ operations, replies operations a = replies operations b ∧
    (serve operations a).view = (serve operations b).view

theorem indistinguishable_of_view {a b : Machine} (h : a.view = b.view) :
    Indistinguishable a b := by
  intro operations
  induction operations generalizing a b with
  | nil => exact ⟨rfl, h⟩
  | cons operation operations ih =>
    obtain ⟨hreply, hview⟩ := operation.indistinguishable h
    obtain ⟨hreplies, hserve⟩ := ih hview
    simp only [replies, serve, hreply, hreplies, true_and]
    exact hserve

/-- Machines that differ only in how much of their tape is held cannot be told apart, nor can
machines loaded with a program and with the same program followed by zeros. -/
theorem size_unobservable :
    (∀ a b : Machine, a.view = b.view → Indistinguishable a b) ∧
    ∀ program inputs patches n,
      match Machine.loadPatched program inputs patches,
        Machine.loadPatched (program ++ List.replicate n 0) inputs patches with
      | .ok a, .ok b => a.view = b.view ∧ Indistinguishable a b
      | .error fault, .error fault' => fault = fault'
      | _, _ => False := by
  constructor
  · intro a b h
    exact indistinguishable_of_view h
  · intro program inputs patches n
    have hload := (Machine.view_load_zeros program inputs n).symm
    simp only [Machine.loadPatched]
    obtain ⟨_, a, b, ha, hb, hview⟩ | ⟨fault, a, b, ha, hb, -⟩ :=
      cases_of_seen (Machine.seen_patch hload patches)
    · simp only [ha, hb]
      exact ⟨hview, indistinguishable_of_view hview⟩
    · simp only [ha, hb]

theorem size_unobservable_growing :
    (Machine.load [4, 9, 3, 6] []).view = (Machine.load [4, 9, 3, 6, 0] []).view ∧
    replies [.run (.limit 9), .takeOutput, .feed 99, .step, .read 6, .write (-1) 5, .step,
        .setPointer (-3), .step] (Machine.load [4, 9, 3, 6] []) =
      [.status .awaitingInput, .output (some 0), .done, .status .running, .value 99,
        .interrupted (.fault (.negativeAddress (-1))),
        .interrupted (.fault (.unknownOpcode 0 (some 4))), .done,
        .interrupted (.fault (.negativeAddress (-3)))] ∧
    replies [.run (.limit 9), .takeOutput, .feed 99, .step, .read 6, .write (-1) 5, .step,
        .setPointer (-3), .step] (Machine.load [4, 9, 3, 6] []) =
      replies [.run (.limit 9), .takeOutput, .feed 99, .step, .read 6, .write (-1) 5, .step,
        .setPointer (-3), .step] (Machine.load [4, 9, 3, 6, 0] []) :=
  have hview := (Machine.view_load_zeros [4, 9, 3, 6] [] 1).symm
  ⟨hview, rfl, (size_unobservable.1 _ _ hview _).1⟩

end Session

end TapeMachine
