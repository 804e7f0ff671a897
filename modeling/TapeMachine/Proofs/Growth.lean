import TapeMachine.Proofs.Computation
import TapeMachine.Tape

/-!
How the part of a tape that is held grows. Touching cells appends zeros to it and changes no cell
of the endless tape, so a computation that only looks at cells is told by what it finds there and by
the farthest cell it touches.
-/

namespace TapeMachine

def look (memory : Int → Int) (address : Int) : Except Fault Int :=
  if address < 0 then .error (.negativeAddress address) else .ok (memory address)

namespace Tape

def reach (address : Int) : Nat := (address + 1).toNat

theorem reach_of_nonneg {address : Int} (h : 0 ≤ address) : reach address = address.toNat + 1 := by
  simp only [reach]
  omega

@[simp] theorem reach_of_neg {address : Int} (h : address < 0) : reach address = 0 := by
  simp only [reach]
  omega

@[simp] theorem extend_zero (tape : Tape) : tape.extend 0 = tape := by
  simp [extend]

theorem cells_extend_eq (tape : Tape) (size : Nat) :
    (tape.extend size).cells = tape.cells ++ Array.replicate (size - tape.size) 0 := by
  simp only [extend, Tape.size]
  split
  · next h => simp [Nat.sub_eq_zero_of_le h]
  · rfl

theorem ext_cells {a b : Tape} (h : a.cells = b.cells) : a = b := by
  cases a
  cases b
  exact congrArg Tape.mk h

theorem toList_extend (tape : Tape) (size : Nat) :
    (tape.extend size).toList = tape.toList ++ List.replicate (size - tape.size) 0 := by
  simp [toList, cells_extend_eq]

@[simp] theorem extend_extend (tape : Tape) (m n : Nat) :
    (tape.extend m).extend n = tape.extend (max m n) := by
  apply ext_cells
  simp only [cells_extend_eq, size_extend, Array.append_assoc, Array.replicate_append_replicate]
  congr 2
  omega

theorem extend_of_le {tape : Tape} {size : Nat} (h : size ≤ tape.size) : tape.extend size = tape :=
  if_pos h

@[simp] theorem get_extend_eq (tape : Tape) (size : Nat) : (tape.extend size).get = tape.get :=
  funext (get_extend tape size)

theorem read_eq_look (address : Int) (tape : Tape) :
    read address tape = ending (look tape.get address) (tape.extend (reach address)) := by
  by_cases h : address < 0
  · simp only [read_of_neg h, look, h, if_true, ending, reach_of_neg, extend_zero]
  · have hle := Int.not_lt.1 h
    simp only [read_of_nonneg hle, look, h, if_false, ending, reach_of_nonneg hle]

theorem write_eq_set (address value : Int) (tape : Tape) :
    write address value tape =
      if address < 0 then .error (.negativeAddress address) tape
      else .ok () ((tape.extend (reach address)).set address.toNat value) := by
  by_cases h : address < 0
  · rw [write_of_neg h, if_pos h]
  · have hle := Int.not_lt.1 h
    rw [write_of_nonneg hle, if_neg h, reach_of_nonneg hle]

end Tape

end TapeMachine
