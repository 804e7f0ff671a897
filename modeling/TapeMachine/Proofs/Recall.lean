import Mathlib.Data.List.Nodup
import TapeMachine.Proofs.Growth
import TapeMachine.Proofs.Machine.Size

namespace TapeMachine

namespace Tape

inductive Request : Type
  | read (address : Int)
  | write (address value : Int)
  | touch (address : Int)
  | list
  deriving DecidableEq

inductive Answer : Type
  | done
  | value (value : Int)
  | cells (values : List Int)
  deriving DecidableEq

namespace Request

def address? : Request → Option Int
  | read address | write address _ | touch address => some address
  | list => none

def written? (cell : Int) : Request → Option Int
  | write address value => if address = cell then some value else none
  | read _ | touch _ | list => none

def perform : Request → Access Answer
  | read address => Answer.value <$> Tape.read address
  | write address value => (fun _ => .done) <$> Tape.write address value
  | touch address => (fun _ => .done) <$> Tape.touch address
  | list => (fun tape => .cells tape.toList) <$> MonadState.get

def reach (request : Request) : Nat := (request.address?.map Tape.reach).getD 0

def answer (tape : Tape) : Request → Answer
  | read address => .value (tape.get address)
  | write _ _ | touch _ => .done
  | list => .cells tape.toList

def leave (tape : Tape) : Request → Tape
  | read address | touch address => tape.extend (Tape.reach address)
  | write address value => (tape.extend (Tape.reach address)).set address.toNat value
  | list => tape

end Request

def serve (tape : Tape) (requests : List Request) : Tape :=
  requests.foldl (fun tape request => remaining (request.perform tape)) tape

def lastWritten? (requests : List Request) (cell : Int) : Option Int :=
  (requests.filterMap (Request.written? cell)).getLast?

/-- What a host knows of a cell of a tape that was loaded with a program. -/
def recalled (program : List Int) (requests : List Request) (cell : Int) : Int :=
  (lastWritten? requests cell).getD (program.getD cell.toNat 0)

def farthest (program : List Int) (requests : List Request) : Nat :=
  (requests.map Request.reach).foldl max program.length

/-! ### Contents -/

theorem cells_getElem? {tape : Tape} {index : Nat} (h : index < tape.size) :
    tape.toList[index]? = some (tape.get index) := by
  have hindex : tape.cells[index]? = some tape.cells[index] := Array.getElem?_eq_getElem h
  rw [toList, Array.getElem?_toList, get, if_pos (Int.natCast_nonneg index), Int.toNat_natCast,
    hindex, Option.getD_some]

theorem toList_eq_map (tape : Tape) :
    tape.toList = (List.range tape.size).map fun index : Nat => tape.get index := by
  have hlength : tape.toList.length = tape.size := Array.length_toList
  apply List.ext_getElem?
  intro index
  by_cases h : index < tape.size
  · rw [cells_getElem? h, List.getElem?_map, List.getElem?_range h, Option.map_some]
  · rw [List.getElem?_eq_none (by omega), List.getElem?_eq_none (by simpa using h)]

theorem ext_get {a b : Tape} (hsize : a.size = b.size)
    (hget : ∀ cell, 0 ≤ cell → a.get cell = b.get cell) : a = b := by
  have hlist : a.toList = b.toList := by
    rw [toList_eq_map, toList_eq_map, hsize]
    exact List.map_congr_left fun index _ => hget index (Int.natCast_nonneg index)
  exact ext_cells (Array.toList_inj.1 hlist)

theorem get_ofList (program : List Int) {cell : Int} (h : 0 ≤ cell) :
    (ofList program).get cell = program.getD cell.toNat 0 := by
  rw [get, if_pos h, ofList, List.getElem?_toArray, List.getD_eq_getElem?_getD]

/-! ### One request -/

section

variable {request : Request} {address cell : Int} {tape : Tape}

theorem perform_of_neg (h : request.address? = some address) (hneg : address < 0) (tape : Tape) :
    request.perform tape = .error (.negativeAddress address) tape := by
  cases request with
  | read _ =>
    cases h
    rw [Request.perform, map_eq, read_of_neg hneg]
  | write _ value =>
    cases h
    rw [Request.perform, map_eq, write_of_neg hneg]
  | touch _ =>
    cases h
    rw [Request.perform, map_eq, touch_of_neg hneg]
  | list => cases h

theorem perform_of_nonneg (h : ∀ address, request.address? = some address → 0 ≤ address)
    (tape : Tape) : request.perform tape = .ok (request.answer tape) (request.leave tape) := by
  cases request with
  | read address =>
    have hnonneg := h address rfl
    rw [Request.perform, map_eq, read_of_nonneg hnonneg, ← reach_of_nonneg hnonneg]
    rfl
  | write address value =>
    have hnonneg := h address rfl
    rw [Request.perform, map_eq, write_of_nonneg hnonneg, ← reach_of_nonneg hnonneg]
    rfl
  | touch address =>
    have hnonneg := h address rfl
    rw [Request.perform, map_eq, touch_of_nonneg hnonneg, ← reach_of_nonneg hnonneg]
    rfl
  | list => rfl

theorem Request.refused_or_served (request : Request) :
    (∃ address, request.address? = some address ∧ address < 0) ∨
      ∀ address, request.address? = some address → 0 ≤ address := by
  cases request with
  | read address | write address _ | touch address =>
    obtain hneg | hnonneg := Int.lt_or_le address 0
    · exact .inl ⟨address, rfl, hneg⟩
    · refine .inr ?_
      rintro _ ⟨⟩
      exact hnonneg
  | list => exact .inr nofun

theorem size_perform (request : Request) (tape : Tape) :
    (remaining (request.perform tape)).size = max tape.size request.reach := by
  obtain ⟨address, haddress, hneg⟩ | hserved := request.refused_or_served
  · rw [perform_of_neg haddress hneg, Request.reach, haddress, Option.map_some, Option.getD_some,
      reach_of_neg hneg, Nat.max_zero]
    rfl
  · rw [perform_of_nonneg hserved]
    cases request with
    | read address | touch address => exact size_extend tape (reach address)
    | write address value => exact (size_set _ _ _).trans (size_extend tape (reach address))
    | list => exact (Nat.max_zero _).symm

theorem get_perform (request : Request) (tape : Tape) (h : 0 ≤ cell) :
    (remaining (request.perform tape)).get cell =
      (request.written? cell).getD (tape.get cell) := by
  obtain ⟨address, haddress, hneg⟩ | hserved := request.refused_or_served
  · rw [perform_of_neg haddress hneg]
    cases request with
    | write _ value =>
      cases haddress
      rw [Request.written?, if_neg (by omega)]
      rfl
    | read _ | touch _ | list => rfl
  · rw [perform_of_nonneg hserved]
    cases request with
    | read address | touch address => exact get_extend tape (reach address) cell
    | write address value =>
      have hnonneg := hserved address rfl
      have hheld : address.toNat < (tape.extend (reach address)).size := by
        rw [size_extend, reach_of_nonneg hnonneg]
        omega
      change ((tape.extend (reach address)).set address.toNat value).get cell = _
      rw [get_set hheld, Int.toNat_of_nonneg hnonneg, get_extend, Request.written?]
      by_cases hcell : address = cell
      · rw [if_pos hcell, if_pos hcell.symm, Option.getD_some]
      · rw [if_neg hcell, if_neg (Ne.symm hcell), Option.getD_none]
    | list => rfl

end

/-! ### Requests one after the other -/

theorem serve_cons (tape : Tape) (request : Request) (requests : List Request) :
    tape.serve (request :: requests) = (remaining (request.perform tape)).serve requests :=
  rfl

theorem serve_append (tape : Tape) (before after : List Request) :
    tape.serve (before ++ after) = (tape.serve before).serve after :=
  List.foldl_append

theorem size_serve (tape : Tape) (requests : List Request) :
    (tape.serve requests).size = (requests.map Request.reach).foldl max tape.size := by
  induction requests generalizing tape with
  | nil => rfl
  | cons request requests ih =>
    rw [serve_cons, ih, size_perform, List.map_cons, List.foldl_cons]

theorem size_le_serve (tape : Tape) (requests : List Request) :
    tape.size ≤ (tape.serve requests).size := by
  induction requests generalizing tape with
  | nil => exact Nat.le_refl _
  | cons request requests ih =>
    have hfirst : tape.size ≤ (remaining (request.perform tape)).size := by
      rw [size_perform]
      exact Nat.le_max_left _ _
    exact Nat.le_trans hfirst (ih _)

theorem lastWritten?_nil (cell : Int) : lastWritten? [] cell = none :=
  rfl

theorem lastWritten?_cons (request : Request) (requests : List Request) (cell : Int) :
    lastWritten? (request :: requests) cell =
      (lastWritten? requests cell).or (request.written? cell) := by
  rw [lastWritten?, List.filterMap_cons]
  cases request.written? cell with
  | none => exact (Option.or_none).symm
  | some value =>
    simp only [lastWritten?, List.getLast?_cons]
    cases (requests.filterMap (Request.written? cell)).getLast? <;> rfl

theorem get_serve (tape : Tape) (requests : List Request) {cell : Int} (h : 0 ≤ cell) :
    (tape.serve requests).get cell = (lastWritten? requests cell).getD (tape.get cell) := by
  induction requests generalizing tape with
  | nil => rfl
  | cons request requests ih =>
    rw [serve_cons, ih, get_perform request tape h, lastWritten?_cons]
    cases lastWritten? requests cell <;> rfl

/-! ### Writing in any order -/

def writes (pairs : List (Int × Int)) : List Request :=
  pairs.map fun (address, value) => .write address value

theorem write_comm {a b : Int} (h : a ≠ b) (v w : Int) (tape : Tape) :
    tape.serve [.write a v, .write b w] = tape.serve [.write b w, .write a v] := by
  apply ext_get
  · rw [size_serve, size_serve]
    simp only [List.map_cons, List.map_nil, List.foldl_cons, List.foldl_nil]
    omega
  · intro cell hcell
    rw [get_serve _ _ hcell, get_serve _ _ hcell]
    simp only [lastWritten?_cons, lastWritten?_nil, Option.none_or, Request.written?]
    by_cases ha : a = cell
    · have hb : b ≠ cell := fun hb => h (ha.trans hb.symm)
      rw [if_pos ha, if_neg hb, Option.none_or, Option.or_none]
    · rw [if_neg ha, Option.none_or, Option.or_none]

theorem serve_writes_perm {pairs pairs' : List (Int × Int)} (hperm : pairs.Perm pairs')
    (hdistinct : (pairs.map Prod.fst).Nodup) (tape : Tape) :
    tape.serve (writes pairs) = tape.serve (writes pairs') := by
  rw [serve, serve, writes, writes, List.foldl_map, List.foldl_map]
  apply hperm.foldl_eq'
  rintro ⟨a, v⟩ hfirst ⟨b, w⟩ hsecond tape
  by_cases hsame : a = b
  · have := List.inj_on_of_nodup_map hdistinct hfirst hsecond hsame
    cases this
    rfl
  · exact write_comm hsame v w tape

end Tape

namespace Machine

theorem patch_eq_serve {patches : List (Int × Int)} (h : ∀ patch ∈ patches, 0 ≤ patch.1)
    (machine : Machine) :
    patch patches machine =
      .ok () (machine.retape (machine.tape.serve (Tape.writes patches))) := by
  induction patches generalizing machine with
  | nil => rfl
  | cons head patches ih =>
    obtain ⟨address, value⟩ := head
    rw [List.forall_mem_cons] at h
    have hserved : ∀ cell,
        (Tape.Request.write address value).address? = some cell → 0 ≤ cell := by
      rintro _ ⟨⟩
      exact h.1
    have hwrite : remaining ((Tape.Request.write address value).perform machine.tape) =
        (Tape.Request.write address value).leave machine.tape := by
      rw [Tape.perform_of_nonneg hserved]
      rfl
    rw [patch, bind_eq, store_eq, if_neg (Int.not_lt.2 h.1), Tape.writes, List.map_cons,
      Tape.serve_cons, hwrite]
    exact ih h.2 _

end Machine

namespace Tape

section

variable (program : List Int) (requests : List Request)

def after : Tape := (ofList program).serve requests

theorem size_after : (after program requests).size = farthest program requests := by
  rw [after, size_serve, size_ofList, farthest]

theorem get_after {cell : Int} (h : 0 ≤ cell) :
    (after program requests).get cell = recalled program requests cell := by
  rw [after, get_serve _ _ h, get_ofList program h, recalled]

theorem toList_after :
    (after program requests).toList =
      (List.range (farthest program requests)).map fun index : Nat =>
        recalled program requests index := by
  rw [toList_eq_map, size_after]
  refine List.map_congr_left fun index _ => ?_
  exact get_after program requests (Int.natCast_nonneg index)

end

/-- Whatever was asked of a tape before, a read finds the value that was written to the cell last,
or the word of the program, or zero; a request for a negative address is refused and changes
nothing, and no other one is refused. What is held ends at the farthest cell that was asked for, or
with the program, and is all that is listed. Different cells may be written in any order, also by
the patches of a machine. -/
theorem requests_recalled (program : List Int) (requests : List Request) :
    (∀ address, 0 ≤ address → ∃ next, (Request.read address).perform (after program requests) =
      .ok (.value (recalled program requests address)) next) ∧
    (∀ (request : Request) (address : Int), request.address? = some address → address < 0 →
      request.perform (after program requests) =
        .error (.negativeAddress address) (after program requests)) ∧
    (∀ request : Request, (∀ address, request.address? = some address → 0 ≤ address) →
      ∃ answer next, request.perform (after program requests) = .ok answer next) ∧
    (after program requests).size = farthest program requests ∧
    (∀ more, (after program requests).size ≤ (after program (requests ++ more)).size) ∧
    Request.list.perform (after program requests) =
      .ok (.cells ((List.range (farthest program requests)).map fun index : Nat =>
        recalled program requests index)) (after program requests) ∧
    ∀ pairs pairs', pairs.Perm pairs' → (pairs.map Prod.fst).Nodup →
      (∀ pair ∈ pairs, 0 ≤ pair.1) →
      after program (requests ++ writes pairs) = after program (requests ++ writes pairs') ∧
      ∀ inputs, ∃ machine, Machine.loadPatched program inputs pairs = .ok machine ∧
        Machine.loadPatched program inputs pairs' = .ok machine ∧
        machine.tape = after program (writes pairs) := by
  refine ⟨?_, ?_, ?_, size_after program requests, ?_, ?_, ?_⟩
  · intro address hnonneg
    have hserved : ∀ cell, (Request.read address).address? = some cell → 0 ≤ cell := by
      rintro _ ⟨⟩
      exact hnonneg
    rw [← get_after program requests hnonneg]
    exact ⟨_, perform_of_nonneg hserved _⟩
  · intro request address haddress hneg
    exact perform_of_neg haddress hneg _
  · intro request hserved
    exact ⟨_, _, perform_of_nonneg hserved _⟩
  · intro more
    rw [after, after, serve_append]
    exact size_le_serve _ more
  · rw [← toList_after]
    rfl
  · intro pairs pairs' hperm hdistinct hnonneg
    constructor
    · rw [after, after, serve_append, serve_append]
      exact serve_writes_perm hperm hdistinct _
    · intro inputs
      have hnonneg' : ∀ pair ∈ pairs', 0 ≤ pair.1 := fun pair hpair =>
        hnonneg pair (hperm.mem_iff.2 hpair)
      have hpatch := Machine.patch_eq_serve hnonneg (Machine.load program inputs)
      have hpatch' := Machine.patch_eq_serve hnonneg' (Machine.load program inputs)
      rw [← serve_writes_perm hperm hdistinct] at hpatch'
      exact ⟨_, by rw [Machine.loadPatched, hpatch], by rw [Machine.loadPatched, hpatch'], rfl⟩

def busy : List Request :=
  [.read 5, .write 4 9, .touch (-2), .write 1 3, .write 4 7, .write (-1) 8]

theorem requests_recalled_busy :
    (after [5, 6] busy).toList = [5, 3, 0, 0, 7, 0] ∧
    (0 : Int) ≤ 4 ∧
    (∃ next, (Request.read 4).perform (after [5, 6] busy) = .ok (.value 7) next) ∧
    (Request.read (-3)).address? = some (-3) ∧ (-3 : Int) < 0 ∧
    (Request.read (-3)).perform (after [5, 6] busy) =
      .error (.negativeAddress (-3)) (after [5, 6] busy) ∧
    ([(3, 1), (0, 2)] : List (Int × Int)).Perm [(0, 2), (3, 1)] ∧
    (([(3, 1), (0, 2)] : List (Int × Int)).map Prod.fst).Nodup ∧
    after [5, 6] (busy ++ writes [(3, 1), (0, 2)]) =
      after [5, 6] (busy ++ writes [(0, 2), (3, 1)]) ∧
    ∃ machine, Machine.loadPatched [5, 6] [7] [(3, 1), (0, 2)] = .ok machine ∧
      Machine.loadPatched [5, 6] [7] [(0, 2), (3, 1)] = .ok machine ∧
      machine.tape = after [5, 6] (writes [(3, 1), (0, 2)]) := by
  have hlist : (after [5, 6] busy).toList = [5, 3, 0, 0, 7, 0] := by decide
  have hnonneg : (0 : Int) ≤ 4 := by decide
  have hneg : (-3 : Int) < 0 := by decide
  have hperm : ([(3, 1), (0, 2)] : List (Int × Int)).Perm [(0, 2), (3, 1)] := .swap _ _ _
  have hdistinct : (([(3, 1), (0, 2)] : List (Int × Int)).map Prod.fst).Nodup := by decide
  obtain ⟨hread, hrefused, -, -, -, -, horder⟩ := requests_recalled [5, 6] busy
  obtain ⟨hwritten, hpatched⟩ := horder _ _ hperm hdistinct (by decide)
  exact ⟨hlist, hnonneg, hread 4 hnonneg, rfl, hneg, hrefused (.read (-3)) (-3) rfl hneg, hperm,
    hdistinct, hwritten, hpatched [7]⟩

end Tape

end TapeMachine
