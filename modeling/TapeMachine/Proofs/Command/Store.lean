import TapeMachine.Command.Store

namespace TapeMachine.Command.Store

variable {store store' : Store} {place here target : Place} {node : Node} {path : Path}
  {text : String}

theorem node?_put_self (h : place.names ≠ []) : (store.put place node).node? place = some node := by
  rw [node?, if_neg h, put, List.lookup_cons_self]

theorem node?_put_of_ne {other : Place} (h : other ≠ place) :
    (store.put place node).node? other = store.node? other := by
  rw [node?, node?, put, List.lookup_cons, beq_false_of_ne h]

theorem names_ne_nil (h : store.node? place ≠ some .directory) : place.names ≠ [] := by
  intro hnil
  rw [node?, if_pos hnil] at h
  exact h rfl

theorem walk_eq_ok {name name' : String} {names : List String} :
    store.walk here (name :: name' :: names) = .ok target ↔
      ∃ next, here.follow name = .ok next ∧ store.node? next = some .directory ∧
        store.walk next (name' :: names) = .ok target := by
  rw [walk]
  · cases here.follow name with
    | error fault => simp
    | ok next =>
      simp only [Except.ok.injEq, exists_eq_left']
      split <;> simp_all
  · nofun

theorem locate_eq_ok :
    store.locate path = .ok target ↔
      path.fault? = none ∧ store.walk path.start path.parts = .ok target := by
  rw [locate]
  cases path.fault? <;> simp

theorem fetch_eq_ok :
    store.fetch path = .ok text ↔
      ∃ place, store.locate path = .ok place ∧ store.node? place = some (.file text) := by
  rw [fetch]
  cases store.locate path with
  | error fault => simp
  | ok place =>
    simp only [Except.ok.injEq, exists_eq_left']
    split <;> simp_all

theorem deposit_eq_ok :
    deposit path text store = (.ok (), store') ↔
      ∃ place, store.locate path = .ok place ∧ store.node? place ≠ some .directory ∧
        store.put place (.file text) = store' := by
  change @Eq (Except FileFault Unit × Store) _ _ ↔ _
  rw [deposit]
  cases store.locate path with
  | error fault => simp
  | ok place =>
    simp only [Except.ok.injEq, exists_eq_left']
    split <;> simp_all

theorem walk_put (hplace : store.node? place ≠ some .directory) {names : List String}
    (h : store.walk here names = .ok target) :
    (store.put place node).walk here names = .ok target := by
  induction names generalizing here with
  | nil => exact h
  | cons name names ih =>
    cases names with
    | nil => exact h
    | cons name' names =>
      obtain ⟨next, hfollow, hnode, hwalk⟩ := walk_eq_ok.1 h
      have hne : next ≠ place := by
        rintro rfl
        exact hplace hnode
      rw [← node?_put_of_ne hne] at hnode
      exact walk_eq_ok.2 ⟨next, hfollow, hnode, ih hwalk⟩

theorem fetch_of_deposit (h : deposit path text store = (.ok (), store')) :
    store'.fetch path = .ok text := by
  obtain ⟨place, hlocate, hplace, rfl⟩ := deposit_eq_ok.1 h
  obtain ⟨hfault, hwalk⟩ := locate_eq_ok.1 hlocate
  have hfound : (store.put place (.file text)).locate path = .ok place :=
    locate_eq_ok.2 ⟨hfault, walk_put hplace hwalk⟩
  exact fetch_eq_ok.2 ⟨place, hfound, node?_put_self (names_ne_nil hplace)⟩

theorem write_of_no_way {error : FileError} {middle : Store}
    (h : makeWay ensureDirectory path.above store = (.error error, middle)) :
    write path text store = (.error error, middle) := by
  simp only [write, bind, StateT.bind, h]
  rfl

theorem write_of_way {middle : Store}
    (h : makeWay ensureDirectory path.above store = (.ok (), middle)) :
    write path text store =
      ((deposit path text middle).1.mapError (⟨·, path⟩), (deposit path text middle).2) := by
  simp only [write, bind, StateT.bind, h]
  rfl

theorem deposit_of_write (h : write path text store = (.ok (), store')) :
    ∃ middle, deposit path text middle = (.ok (), store') := by
  cases hway : makeWay ensureDirectory path.above store with
  | mk way middle =>
    cases way with
    | error error =>
      rw [write_of_no_way hway] at h
      cases h
    | ok _ =>
      rw [write_of_way hway] at h
      cases hdeposit : deposit path text middle with
      | mk result last =>
        rw [hdeposit] at h
        cases result with
        | error fault => cases h
        | ok _ =>
          cases h
          exact ⟨middle, hdeposit⟩

theorem read_of_write (h : write path text store = (.ok (), store')) :
    store'.read path = .ok text := by
  obtain ⟨middle, hdeposit⟩ := deposit_of_write h
  rw [read, fetch_of_deposit hdeposit]
  rfl

end TapeMachine.Command.Store
