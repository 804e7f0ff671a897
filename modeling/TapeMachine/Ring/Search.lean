import TapeMachine.Ring

namespace TapeMachine

variable {α β ε : Type}

def picks : List α → List (α × List α)
  | [] => []
  | a :: l => (a, l) :: (picks l).map fun (b, rest) => (b, a :: rest)

def orderingsOf : (length : Nat) → List α → List (List α)
  | 0, _ => [[]]
  | length + 1, l => (picks l).flatMap fun (a, rest) => (orderingsOf length rest).map (a :: ·)

def orderings (l : List α) : List (List α) :=
  orderingsOf l.length l

def foldOrderingsOf (f : β → List α → Except ε β) :
    (length : Nat) → (chosen l : List α) → β → Except ε β
  | 0, chosen, _, b => f b chosen
  | length + 1, chosen, l, b =>
    (picks l).foldlM (fun b (a, rest) => foldOrderingsOf f length (chosen ++ [a]) rest b) b

def foldOrderings (f : β → List α → Except ε β) (b : β) (l : List α) : Except ε β :=
  foldOrderingsOf f l.length [] l b

theorem foldlM_flatMap {γ : Type} (f : β → γ → Except ε β) (g : α → List γ) (l : List α) (b : β) :
    (l.flatMap g).foldlM f b = l.foldlM (fun b a => (g a).foldlM f b) b := by
  induction l generalizing b with
  | nil => rfl
  | cons a l ih => simp only [List.flatMap_cons, List.foldlM_append, List.foldlM_cons, ih]

theorem foldOrderingsOf_eq (f : β → List α → Except ε β) (length : Nat) (chosen l : List α)
    (b : β) :
    foldOrderingsOf f length chosen l b =
      (orderingsOf length l).foldlM (fun b ordering => f b (chosen ++ ordering)) b := by
  induction length generalizing chosen l b with
  | zero =>
    simp only [foldOrderingsOf, orderingsOf, List.foldlM_cons, List.foldlM_nil, List.append_nil,
      bind_pure]
  | succ length ih =>
    simp only [foldOrderingsOf, orderingsOf, foldlM_flatMap, List.foldlM_map, ih,
      List.append_assoc, List.singleton_append]

theorem foldOrderings_eq (f : β → List α → Except ε β) (b : β) (l : List α) :
    foldOrderings f b l = (orderings l).foldlM f b :=
  foldOrderingsOf_eq f l.length [] l b

namespace Ring

structure Setting : Type where
  signal : Int
  phases : List Int
  deriving DecidableEq

def Setting.improve (best : Option Setting) (signal : Option Int) (phases : List Int) :
    Option Setting :=
  match best, signal with
  | best, none => best
  | none, some signal => some ⟨signal, phases⟩
  | some best, some signal => if best.signal < signal then some ⟨signal, phases⟩ else some best

def consider (produced : List Int → Except RingError (Option Int)) (best : Option Setting)
    (phases : List Int) : Except RingError (Option Setting) :=
  match produced phases with
  | .error error => .error error
  | .ok signal => .ok (Setting.improve best signal phases)

def bestSetting (topology : Topology) (fuel : Nat) (program phases : List Int) (seed : Int) :
    Except RingError (Option Setting) :=
  foldOrderings (consider (produce topology fuel program · seed)) none phases

end Ring

end TapeMachine
