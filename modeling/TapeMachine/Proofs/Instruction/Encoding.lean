import Mathlib.Data.List.TakeDrop
import TapeMachine.Proofs.Instruction.Decoding

namespace TapeMachine

theorem takeD_of_length_le {α : Type} {as : List α} {n : Nat} (h : as.length ≤ n) (a : α) :
    as.takeD n a = as ++ List.replicate (n - as.length) a := by
  induction as generalizing n with
  | nil => exact List.takeD_nil n a
  | cons b as ih =>
    cases n with
    | zero => cases h
    | succ n =>
      rw [List.takeD, List.headD_cons, List.tail_cons, ih (Nat.le_of_succ_le_succ h),
        List.length_cons, Nat.succ_sub_succ, List.cons_append]

namespace Mode

/-- The modes differ at most in how many positions stand at their end. -/
def SameButPositions (modes modes' : List Mode) : Prop :=
  ∃ front m n, modes = front ++ List.replicate m .position ∧
    modes' = front ++ List.replicate n .position

theorem SameButPositions.symm {modes modes' : List Mode} (h : SameButPositions modes modes') :
    SameButPositions modes' modes := by
  obtain ⟨front, m, n, hmodes, hmodes'⟩ := h
  exact ⟨front, n, m, hmodes', hmodes⟩

theorem toDigits_positions (n : Nat) : toDigits (List.replicate n .position) = 0 := by
  induction n with
  | zero => rfl
  | succ n ih =>
    rw [List.replicate_succ, toDigits, ih]
    rfl

theorem toDigits_append_positions (modes : List Mode) (n : Nat) :
    toDigits (modes ++ List.replicate n .position) = toDigits modes := by
  induction modes with
  | nil => exact toDigits_positions n
  | cons mode modes ih => rw [List.cons_append, toDigits, ih, toDigits]

theorem toDigits_emod (modes : List Mode) (count : Nat) :
    toDigits modes % 10 ^ count = toDigits (modes.takeD count .position) := by
  induction count generalizing modes with
  | zero => exact Int.emod_one _
  | succ count ih =>
    rw [pow_succ', emod_mul_of_nonneg (by decide), List.takeD, toDigits, ← ih]
    cases modes with
    | nil => rfl
    | cons mode modes =>
      rw [toDigits_cons_emod, toDigits_cons_ediv]
      rfl

theorem sameButPositions_of_le {modes modes' : List Mode} (hle : modes.length ≤ modes'.length)
    (h : ∀ count, modes.takeD count .position = modes'.takeD count .position) :
    SameButPositions modes modes' := by
  have hmodes' := h modes'.length
  rw [takeD_of_length_le hle, takeD_of_length_le (Nat.le_refl _), Nat.sub_self] at hmodes'
  refine ⟨modes, 0, modes'.length - modes.length, (List.append_nil modes).symm, ?_⟩
  rw [hmodes']
  exact (List.append_nil modes').symm

theorem sameButPositions_of_takeD {modes modes' : List Mode}
    (h : ∀ count, modes.takeD count .position = modes'.takeD count .position) :
    SameButPositions modes modes' := by
  obtain hle | hle := Nat.le_total modes.length modes'.length
  · exact sameButPositions_of_le hle h
  · exact (sameButPositions_of_le hle fun count => (h count).symm).symm

end Mode

namespace Instruction

variable {op op' : Opcode} {modes modes' : List Mode}

theorem modes_encode (op : Opcode) (modes : List Mode) (count : Nat) :
    Mode.ofWord (encode op modes) count = .ok (modes.takeD count .position) := by
  have hlength := List.takeD_length count modes Mode.position
  have hdigits : Mode.toDigits modes % 10 ^ (modes.takeD count .position).length =
      Mode.toDigits (modes.takeD count .position) := by
    rw [hlength, Mode.toDigits_emod]
  have hplaces := (Mode.emod_eq_toDigits_iff _ _).1 hdigits
  rw [hlength] at hplaces
  rw [Mode.ofWord_eq_ok, modeDigit_eq, encode_div]
  exact hplaces

theorem encode_eq_encode_iff :
    encode op modes = encode op' modes' ↔ op = op' ∧ Mode.SameButPositions modes modes' := by
  constructor
  · intro h
    refine ⟨?_, Mode.sameButPositions_of_takeD ?_⟩
    · have hop := opcode_encode op modes none
      rw [h, opcode_encode] at hop
      exact (Except.ok.inj hop).symm
    · intro count
      have hmodes := modes_encode op modes count
      rw [h, modes_encode] at hmodes
      exact (Except.ok.inj hmodes).symm
  · rintro ⟨rfl, front, m, n, rfl, rfl⟩
    rw [encode, encode, Mode.toDigits_append_positions, Mode.toDigits_append_positions]

/-- Of an encoded instruction the opcode is read back, and as many modes as one asks for, with
positions for those that are missing; decoding asks for those that the opcode takes. Two encodings
are equal exactly if the opcodes are and the modes are but for positions at the end. -/
theorem encode_undone (op : Opcode) (modes : List Mode) (location : Option Int) :
    Opcode.ofWord (encode op modes) location = .ok op ∧
    (∀ count, Mode.ofWord (encode op modes) count = .ok (modes.takeD count .position)) ∧
    decode (encode op modes) location = .ok (op, modes.takeD op.arity .position) ∧
    ∀ op' modes', encode op modes = encode op' modes' ↔
      op = op' ∧ Mode.SameButPositions modes modes' :=
  ⟨opcode_encode op modes location, modes_encode op modes,
    decode_eq_ok.2 ⟨opcode_encode op modes location, modes_encode op modes op.arity⟩,
    fun _ _ => encode_eq_encode_iff⟩

example : decode (encode .output [.immediate, .relative, .relative]) none =
      .ok (.output, [.immediate]) ∧
    decode (encode .add [.relative]) none = .ok (.add, [.relative, .position, .position]) ∧
    encode .add [.relative] = encode .add [.relative, .position, .position] := by
  decide

end Instruction

end TapeMachine
