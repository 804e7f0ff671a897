import TapeMachine.Fault

namespace TapeMachine

structure Tape : Type where
  cells : Array Int
  deriving DecidableEq

namespace Tape

def ofList (words : List Int) : Tape := ⟨words.toArray⟩

def toList (tape : Tape) : List Int := tape.cells.toList

def size (tape : Tape) : Nat := tape.cells.size

def get (tape : Tape) (address : Int) : Int :=
  if 0 ≤ address then tape.cells[address.toNat]?.getD 0 else 0

def extend (tape : Tape) (size : Nat) : Tape :=
  if size ≤ tape.cells.size then tape
  else ⟨tape.cells ++ Array.replicate (size - tape.cells.size) 0⟩

def set (tape : Tape) (index : Nat) (value : Int) : Tape :=
  ⟨tape.cells.setIfInBounds index value⟩

abbrev Access : Type → Type := EStateM Fault Tape

def touch (address : Int) : Access Unit := fun tape =>
  if address < 0 then .error (.negativeAddress address) tape
  else .ok () (tape.extend (address.toNat + 1))

def read (address : Int) : Access Int := do
  touch address
  return (← MonadState.get).cells[address.toNat]?.getD 0

def write (address value : Int) : Access Unit := do
  touch address
  modify fun tape => tape.set address.toNat value

def nonzero (tape : Tape) : List (Nat × Int) :=
  tape.toList.zipIdx.filterMap fun (value, address) =>
    if value = 0 then none else some (address, value)

@[simp] theorem size_ofList (words : List Int) : (ofList words).size = words.length := by
  simp [ofList, size]

@[simp] theorem size_extend (tape : Tape) (size : Nat) :
    (tape.extend size).size = max tape.size size := by
  simp only [extend, Tape.size]
  split
  · omega
  · simp only [Array.size_append, Array.size_replicate]
    omega

@[simp] theorem size_set (tape : Tape) (index : Nat) (value : Int) :
    (tape.set index value).size = tape.size := by
  simp [set, size]

theorem cells_extend (tape : Tape) (size index : Nat) :
    (tape.extend size).cells[index]?.getD 0 = tape.cells[index]?.getD 0 := by
  simp only [extend]
  split
  · rfl
  · simp only [Array.getElem?_append, Array.getElem?_replicate]
    split
    · rfl
    · next h =>
      rw [Array.getElem?_eq_none (by omega)]
      split <;> rfl

@[simp] theorem get_extend (tape : Tape) (size : Nat) (address : Int) :
    (tape.extend size).get address = tape.get address := by
  simp only [get, cells_extend]

theorem get_set {tape : Tape} {index : Nat} (h : index < tape.size) (value address : Int) :
    (tape.set index value).get address = if address = index then value else tape.get address := by
  simp only [size] at h
  simp only [get, set, Array.getElem?_setIfInBounds]
  by_cases hneg : 0 ≤ address
  · by_cases heq : address = index
    · subst heq
      simp [h]
    · have : index ≠ address.toNat := by omega
      simp [this, heq]
  · have : address ≠ (index : Int) := by omega
    simp [hneg, this]

theorem touch_of_nonneg {address : Int} (h : 0 ≤ address) (tape : Tape) :
    touch address tape = .ok () (tape.extend (address.toNat + 1)) :=
  if_neg (Int.not_lt.2 h)

theorem touch_of_neg {address : Int} (h : address < 0) (tape : Tape) :
    touch address tape = .error (.negativeAddress address) tape :=
  if_pos h

theorem read_eq (address : Int) (tape : Tape) :
    read address tape =
      match touch address tape with
      | .ok () tape => .ok (tape.cells[address.toNat]?.getD 0) tape
      | .error fault tape => .error fault tape := by
  change EStateM.bind _ _ _ = _
  rw [EStateM.bind]
  cases touch address tape <;> rfl

theorem write_eq (address value : Int) (tape : Tape) :
    write address value tape =
      match touch address tape with
      | .ok () tape => .ok () (tape.set address.toNat value)
      | .error fault tape => .error fault tape := by
  change EStateM.bind _ _ _ = _
  rw [EStateM.bind]
  cases touch address tape <;> rfl

theorem read_of_nonneg {address : Int} (h : 0 ≤ address) (tape : Tape) :
    read address tape = .ok (tape.get address) (tape.extend (address.toNat + 1)) := by
  simp only [read_eq, touch_of_nonneg h, cells_extend, get, h, if_true]

theorem read_of_neg {address : Int} (h : address < 0) (tape : Tape) :
    read address tape = .error (.negativeAddress address) tape := by
  simp only [read_eq, touch_of_neg h]

theorem write_of_nonneg {address : Int} (h : 0 ≤ address) (value : Int) (tape : Tape) :
    write address value tape =
      .ok () ((tape.extend (address.toNat + 1)).set address.toNat value) := by
  simp only [write_eq, touch_of_nonneg h]

theorem write_of_neg {address : Int} (h : address < 0) (value : Int) (tape : Tape) :
    write address value tape = .error (.negativeAddress address) tape := by
  simp only [write_eq, touch_of_neg h]

end Tape

end TapeMachine
