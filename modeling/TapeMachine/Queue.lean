namespace TapeMachine

structure Queue : Type where
  values : Array Int
  deriving DecidableEq

namespace Queue

def ofList (values : List Int) : Queue := ⟨values.toArray⟩

def toList (queue : Queue) : List Int := queue.values.toList

def empty : Queue := ⟨#[]⟩

def size (queue : Queue) : Nat := queue.values.size

def push (queue : Queue) (value : Int) : Queue := ⟨queue.values.push value⟩

def pop? (queue : Queue) : Option (Int × Queue) :=
  match queue.values[0]? with
  | none => none
  | some value => some (value, ⟨queue.values.extract 1⟩)

@[simp] theorem toList_ofList (values : List Int) : (ofList values).toList = values := rfl

@[simp] theorem ofList_toList (queue : Queue) : ofList queue.toList = queue := rfl

@[simp] theorem toList_empty : empty.toList = [] := rfl

@[simp] theorem toList_push (queue : Queue) (value : Int) :
    (queue.push value).toList = queue.toList ++ [value] :=
  Array.toList_push

theorem toList_inj {a b : Queue} : a.toList = b.toList ↔ a = b :=
  ⟨fun h => by rw [← ofList_toList a, h, ofList_toList], fun h => h ▸ rfl⟩

@[simp] theorem pop?_ofList_nil : (ofList []).pop? = none := rfl

@[simp] theorem pop?_ofList_cons (value : Int) (values : List Int) :
    (ofList (value :: values)).pop? = some (value, ofList values) := by
  simp [pop?, ofList]

theorem pop?_eq_some {queue rest : Queue} {value : Int} :
    queue.pop? = some (value, rest) ↔ queue.toList = value :: rest.toList := by
  rw [← ofList_toList queue, ← ofList_toList rest]
  cases queue.toList <;> simp [← toList_inj]

end Queue

end TapeMachine
