import Mathlib.Tactic.Ring
import TapeMachine.Instruction.Word

namespace TapeMachine

section

variable {x y z : Int}

theorem ediv_mul_of_nonneg (h : 0 ≤ y) : x / (y * z) = x / y / z := by
  rw [Int.ediv_ediv, if_neg fun hneg => Int.not_lt.2 h hneg.1, Int.sub_zero]

theorem emod_mul_of_nonneg (h : 0 ≤ y) : x % (y * z) = x % y + y * (x / y % z) := by
  rw [Int.emod_def, Int.emod_def x y, Int.emod_def (x / y) z, ediv_mul_of_nonneg h]
  ring

end

namespace Mode

theorem ofDigit?_eq_none {n : Int} : ofDigit? n = none ↔ n < 0 ∨ 2 < n := by
  simp only [ofDigit?, all, List.find?_eq_none, List.forall_mem_cons, beq_iff_eq, digit,
    List.not_mem_nil, false_implies, implies_true, and_true]
  omega

theorem digit_le_two (mode : Mode) : mode.digit ≤ 2 := by
  cases mode <;> decide

def place (number : Int) (i : Nat) : Int := number / 10 ^ i % 10

theorem place_zero (number : Int) : place number 0 = number % 10 := by
  rw [place, pow_zero, Int.ediv_one]

theorem place_succ (number : Int) (i : Nat) : place number (i + 1) = place (number / 10) i := by
  rw [place, place, pow_succ', ediv_mul_of_nonneg (by decide)]

theorem places_succ (number : Int) (count : Nat) :
    (List.range (count + 1)).map (place number) =
      number % 10 :: (List.range count).map (place (number / 10)) := by
  rw [List.range_succ_eq_map, List.map_cons, List.map_map, place_zero]
  exact congrArg _ (List.map_congr_left fun i _ => place_succ number i)

theorem emod_eq_toDigits_iff (modes : List Mode) (number : Int) :
    number % 10 ^ modes.length = toDigits modes ↔
      modes.map digit = (List.range modes.length).map (place number) := by
  induction modes generalizing number with
  | nil =>
    rw [List.length_nil, pow_zero, Int.emod_one]
    exact iff_of_true rfl rfl
  | cons mode modes ih =>
    have hnonneg := mode.digit_nonneg
    have hlt := mode.digit_lt
    rw [List.length_cons, places_succ, List.map_cons, List.cons.injEq, ← ih, toDigits, pow_succ',
      emod_mul_of_nonneg (by decide)]
    omega

/-- Of `count` digits, the one at `i` is the first that is no mode. -/
structure FirstUnknown (digits : Nat → Int) (count i : Nat) : Prop where
  lt : i < count
  unknown : 2 < digits i
  known : ∀ j < i, digits j ≤ 2

theorem firstUnknown_zero {digits : Nat → Int} {count : Nat} :
    FirstUnknown digits (count + 1) 0 ↔ 2 < digits 0 :=
  ⟨fun h => h.unknown, fun h => ⟨Nat.succ_pos count, h, nofun⟩⟩

theorem firstUnknown_succ {digits : Nat → Int} {count i : Nat} :
    FirstUnknown digits (count + 1) (i + 1) ↔
      digits 0 ≤ 2 ∧ FirstUnknown (fun j => digits (j + 1)) count i := by
  constructor
  · rintro ⟨hlt, hunknown, hknown⟩
    refine ⟨hknown 0 (Nat.succ_pos i), Nat.lt_of_succ_lt_succ hlt, hunknown, ?_⟩
    intro j hj
    exact hknown (j + 1) (Nat.succ_lt_succ hj)
  · rintro ⟨hlowest, hlt, hunknown, hknown⟩
    refine ⟨Nat.succ_lt_succ hlt, hunknown, ?_⟩
    intro j hj
    cases j with
    | zero => exact hlowest
    | succ j => exact hknown j (Nat.lt_of_succ_lt_succ hj)

section

variable {word number : Int} {count index : Nat}

theorem ofDigits_succ_eq_ok {modes : List Mode} :
    ofDigits word (count + 1) index number = .ok modes ↔
      ∃ mode rest, modes = mode :: rest ∧ mode.digit = number % 10 ∧
        ofDigits word count (index + 1) (number / 10) = .ok rest := by
  rw [ofDigits]
  cases hfirst : ofDigit? (number % 10) with
  | none =>
    have hnone (mode : Mode) : mode.digit ≠ number % 10 := by
      intro hmode
      rw [ofDigit?_eq_some.2 hmode] at hfirst
      cases hfirst
    simp [hnone]
  | some mode =>
    have hmode {other : Mode} : other.digit = number % 10 ↔ mode = other := by
      rw [← ofDigit?_eq_some, hfirst, Option.some.injEq]
    cases ofDigits word count (index + 1) (number / 10) with
    | error fault => simp
    | ok rest => simp [hmode, eq_comm]

theorem ofDigits_succ_eq_error {fault : Fault} :
    ofDigits word (count + 1) index number = .error fault ↔
      2 < number % 10 ∧ fault = .unknownMode (number % 10) index word ∨
        number % 10 ≤ 2 ∧ ofDigits word count (index + 1) (number / 10) = .error fault := by
  rw [ofDigits]
  cases hfirst : ofDigit? (number % 10) with
  | none =>
    have hunknown : 2 < number % 10 := by
      have := ofDigit?_eq_none.1 hfirst
      omega
    simp [hunknown, Int.not_le.2 hunknown, eq_comm]
  | some mode =>
    have hknown : number % 10 ≤ 2 := ofDigit?_eq_some.1 hfirst ▸ mode.digit_le_two
    cases ofDigits word count (index + 1) (number / 10) with
    | error cause => simp [hknown, Int.not_lt.2 hknown]
    | ok rest => simp [Int.not_lt.2 hknown]

theorem ofDigits_eq_ok {modes : List Mode} :
    ofDigits word count index number = .ok modes ↔
      modes.map digit = (List.range count).map (place number) := by
  induction count generalizing index number modes with
  | zero =>
    rw [ofDigits, List.range_zero, List.map_nil, List.map_eq_nil_iff, Except.ok.injEq, eq_comm]
  | succ count ih => simp only [ofDigits_succ_eq_ok, places_succ, List.map_eq_cons_iff, ih]

theorem ofDigits_eq_error {fault : Fault} :
    ofDigits word count index number = .error fault ↔
      ∃ i, FirstUnknown (place number) count i ∧
        fault = .unknownMode (place number i) (index + i) word := by
  induction count generalizing index number with
  | zero =>
    constructor
    · intro h
      cases h
    · rintro ⟨i, h, -⟩
      cases h.lt
  | succ count ih =>
    rw [ofDigits_succ_eq_error, ih, ← place_zero, ← funext (place_succ number)]
    constructor
    · rintro (⟨hunknown, rfl⟩ | ⟨hlowest, i, hi, rfl⟩)
      · exact ⟨0, firstUnknown_zero.2 hunknown, rfl⟩
      · exact ⟨i + 1, firstUnknown_succ.2 ⟨hlowest, hi⟩, by rw [Nat.add_assoc, Nat.add_comm 1 i]⟩
    · rintro ⟨i, hi, rfl⟩
      cases i with
      | zero => exact .inl ⟨firstUnknown_zero.1 hi, rfl⟩
      | succ i =>
        obtain ⟨hlowest, hrest⟩ := firstUnknown_succ.1 hi
        exact .inr ⟨hlowest, i, hrest, by rw [Nat.add_assoc, Nat.add_comm 1 i]⟩

end

end Mode

def modeDigit (word : Int) (i : Nat) : Int := word / (100 * 10 ^ i) % 10

theorem modeDigit_eq (word : Int) : modeDigit word = Mode.place (word / 100) := by
  funext i
  rw [modeDigit, Mode.place, ediv_mul_of_nonneg (by decide)]

section

variable {word : Int} {location : Option Int} {op : Opcode} {modes : List Mode} {fault : Fault}

theorem Mode.ofWord_eq_ok {count : Nat} :
    ofWord word count = .ok modes ↔
      modes.map digit = (List.range count).map (modeDigit word) := by
  rw [ofWord, modeDigit_eq, ofDigits_eq_ok]

theorem Mode.ofWord_eq_error {count : Nat} :
    ofWord word count = .error fault ↔
      ∃ i, FirstUnknown (modeDigit word) count i ∧
        fault = .unknownMode (modeDigit word i) i word := by
  simp only [ofWord, modeDigit_eq, ofDigits_eq_error, Nat.zero_add]

theorem Opcode.ofWord_eq_ok :
    ofWord word location = .ok op ↔ 0 ≤ word ∧ word % 100 = op.number := by
  rw [ofWord, eq_comm (b := op.number), ← ofNumber?_eq_some]
  split
  · next hneg => simp [Int.not_le.2 hneg]
  · next hneg => cases ofNumber? (word % 100) <;> simp [Int.not_lt.1 hneg]

def Opcode.Unnamed (word : Int) : Prop := word < 0 ∨ ∀ op : Opcode, word % 100 ≠ op.number

theorem Opcode.ofWord_eq_error :
    ofWord word location = .error fault ↔
      Unnamed word ∧ fault = .unknownOpcode word location := by
  rw [ofWord]
  split
  · next hneg => simp [Unnamed, hneg, eq_comm]
  · next hneg =>
    cases hop : ofNumber? (word % 100) with
    | none =>
      have hunnamed : Unnamed word := by
        refine .inr fun op hnumber => ?_
        rw [ofNumber?_eq_some.2 hnumber.symm] at hop
        cases hop
      simp [hunnamed, eq_comm]
    | some op =>
      have hnamed : ¬ Unnamed word := by
        rintro (h | h)
        · exact hneg h
        · exact h op (ofNumber?_eq_some.1 hop).symm
      simp [hnamed]

namespace Instruction

theorem decode_eq_ok :
    decode word location = .ok (op, modes) ↔
      Opcode.ofWord word location = .ok op ∧ Mode.ofWord word op.arity = .ok modes := by
  rw [decode]
  cases Opcode.ofWord word location with
  | error cause => simp
  | ok named =>
    simp only [Except.ok.injEq]
    cases hmodes : Mode.ofWord word named.arity with
    | error cause =>
      constructor
      · intro h
        cases h
      · rintro ⟨rfl, h⟩
        rw [hmodes] at h
        cases h
    | ok read =>
      rw [Except.ok.injEq, Prod.mk.injEq]
      refine and_congr_right ?_
      rintro rfl
      rw [hmodes, Except.ok.injEq]

theorem decode_eq_error :
    decode word location = .error fault ↔
      Opcode.ofWord word location = .error fault ∨
        ∃ op, Opcode.ofWord word location = .ok op ∧ Mode.ofWord word op.arity = .error fault := by
  rw [decode]
  cases Opcode.ofWord word location with
  | error cause => simp
  | ok named => cases hmodes : Mode.ofWord word named.arity <;> simp [hmodes]

theorem emod_eq_encode_iff (h : modes.length = op.arity) :
    word % (100 * 10 ^ op.arity) = encode op modes ↔
      word % 100 = op.number ∧
        modes.map Mode.digit = (List.range op.arity).map (modeDigit word) := by
  have hnonneg := op.number_nonneg
  have hlt := op.number_lt
  rw [modeDigit_eq, ← h, ← Mode.emod_eq_toDigits_iff, emod_mul_of_nonneg (by decide), encode]
  omega

theorem decode_eq_ok_iff :
    decode word location = .ok (op, modes) ↔
      0 ≤ word ∧ word % 100 = op.number ∧ modes.length = op.arity ∧
        word % (100 * 10 ^ op.arity) = encode op modes := by
  rw [decode_eq_ok, Opcode.ofWord_eq_ok, Mode.ofWord_eq_ok, and_assoc]
  refine and_congr_right fun _ => and_congr_right fun hnumber => ?_
  constructor
  · intro h
    have hlength : modes.length = op.arity := by
      simpa using congrArg List.length h
    exact ⟨hlength, (emod_eq_encode_iff hlength).2 ⟨hnumber, h⟩⟩
  · rintro ⟨hlength, h⟩
    exact ((emod_eq_encode_iff hlength).1 h).2

/-- A word is decoded exactly if it ends in the digits of an encoded instruction and is not
negative; the digits above do not count. It is refused for its opcode, and only then for the mode of
a parameter, the first that has none. -/
theorem decode_exact (word : Int) (location : Option Int) :
    (∀ op modes, decode word location = .ok (op, modes) ↔
      0 ≤ word ∧ word % 100 = op.number ∧ modes.length = op.arity ∧
        word % (100 * 10 ^ op.arity) = encode op modes) ∧
    (∀ op modes, decode word location = .ok (op, modes) →
      (encode op modes = word ↔ word < 100 * 10 ^ op.arity) ∧
      ∀ other, 0 ≤ other → other % (100 * 10 ^ op.arity) = word % (100 * 10 ^ op.arity) →
        decode other location = .ok (op, modes)) ∧
    (∀ fault, decode word location = .error fault ↔
      Opcode.Unnamed word ∧ fault = .unknownOpcode word location ∨
        ∃ op : Opcode, 0 ≤ word ∧ word % 100 = op.number ∧
          ∃ i, Mode.FirstUnknown (modeDigit word) op.arity i ∧
            fault = .unknownMode (modeDigit word i) i word) ∧
    ∀ count,
      (∀ modes, Mode.ofWord word count = .ok modes ↔
        modes.map Mode.digit = (List.range count).map (modeDigit word)) ∧
      ∀ fault, Mode.ofWord word count = .error fault ↔
        ∃ i, Mode.FirstUnknown (modeDigit word) count i ∧
          fault = .unknownMode (modeDigit word i) i word := by
  refine ⟨fun op modes => decode_eq_ok_iff, ?_, ?_, ?_⟩
  · intro op modes h
    obtain ⟨hnonneg, hnumber, hlength, hdigits⟩ := decode_eq_ok_iff.1 h
    have hpos : (0 : Int) < 100 * 10 ^ op.arity := Int.mul_pos (by decide) (Int.pow_pos (by decide))
    constructor
    · rw [← hdigits]
      exact ⟨fun hword => hword ▸ Int.emod_lt_of_pos word hpos, Int.emod_eq_of_lt hnonneg⟩
    · intro other hother hsame
      have hlowest : other % 100 = word % 100 := by
        rw [← Int.emod_emod_of_dvd other (Dvd.intro _ rfl), hsame,
          Int.emod_emod_of_dvd word (Dvd.intro _ rfl)]
      exact decode_eq_ok_iff.2 ⟨hother, hlowest.trans hnumber, hlength, hsame.trans hdigits⟩
  · intro fault
    simp only [decode_eq_error, Opcode.ofWord_eq_error, Opcode.ofWord_eq_ok, Mode.ofWord_eq_error,
      and_assoc]
  · intro count
    exact ⟨fun modes => Mode.ofWord_eq_ok, fun fault => Mode.ofWord_eq_error⟩

example : Mode.ofWord (-98999) 3 = .ok [.position, .immediate, .position] ∧
    Mode.ofWord (-1) 3 = .error (.unknownMode 9 0 (-1)) := by
  decide

end Instruction

end

end TapeMachine
