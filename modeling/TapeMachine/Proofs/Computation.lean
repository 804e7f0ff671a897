namespace TapeMachine

-- What a computation on a fixed state comes to can be decided.
instance decidableEqResult {ε σ α : Type} [DecidableEq ε] [DecidableEq σ] [DecidableEq α] :
    DecidableEq (EStateM.Result ε σ α)
  | .ok a s, .ok b t => decidable_of_iff (a = b ∧ s = t) (by simp)
  | .error e s, .error f t => decidable_of_iff (e = f ∧ s = t) (by simp)
  | .ok _ _, .error _ _ => isFalse (by rintro ⟨⟩)
  | .error _ _, .ok _ _ => isFalse (by rintro ⟨⟩)

def ending {ε σ α : Type} (result : Except ε α) (state : σ) : EStateM.Result ε σ α :=
  match result with
  | .ok a => .ok a state
  | .error fault => .error fault state

def remaining {ε σ α : Type} : EStateM.Result ε σ α → σ
  | .ok _ state => state
  | .error _ state => state

section

variable {ε σ α β : Type}

theorem bind_eq (action : EStateM ε σ α) (next : α → EStateM ε σ β) (state : σ) :
    (action >>= next) state =
      match action state with
      | .ok a state => next a state
      | .error error state => .error error state := by
  change EStateM.bind _ _ _ = _
  rw [EStateM.bind]
  cases action state <;> rfl

theorem map_eq (f : α → β) (action : EStateM ε σ α) (state : σ) :
    (f <$> action) state =
      match action state with
      | .ok a state => .ok (f a) state
      | .error error state => .error error state := by
  change EStateM.map _ _ _ = _
  rw [EStateM.map]
  cases action state <;> rfl

theorem get_eq (state : σ) : (get : EStateM ε σ σ) state = .ok state state := rfl

theorem modify_eq (f : σ → σ) (state : σ) :
    (modify f : EStateM ε σ Unit) state = .ok () (f state) :=
  rfl

theorem ofExcept_eq (result : Except ε α) (state : σ) :
    (MonadExcept.ofExcept result : EStateM ε σ α) state = ending result state := by
  cases result <;> rfl

end

end TapeMachine
