import CoinWire.Error

/-!
# Access to a state

An access looks at a state, may change it, and answers or fails. What it changed before it
failed stays changed. Reads of a byte string and operations on a cached tree are both
accesses: the first move a cursor, the second fill in what was not parsed yet.
-/

namespace CoinWire

abbrev Access (σ α : Type) := EStateM CodecError σ α

namespace Access

variable {σ τ α : Type}

/-- The state an access leaves, whether it answered or failed. -/
def after (access : Access σ α) (state : σ) : σ :=
  match access state with
  | .ok _ state' => state'
  | .error _ state' => state'

/-- The answer of an access. -/
def answer (access : Access σ α) (state : σ) : Except CodecError α :=
  match access state with
  | .ok a _ => .ok a
  | .error e _ => .error e

theorem answer_eq_ok {access : Access σ α} {state state' : σ} {a : α}
    (h : access state = .ok a state') : access.answer state = .ok a := by
  rw [answer, h]

theorem answer_eq_error {access : Access σ α} {state state' : σ} {e : CodecError}
    (h : access state = .error e state') : access.answer state = .error e := by
  rw [answer, h]

theorem answer_eq_ok_iff {access : Access σ α} {state : σ} {a : α} :
    access.answer state = .ok a ↔ ∃ state', access state = .ok a state' := by
  constructor
  · intro h
    unfold answer at h
    cases haccess : access state with
    | error e state' => rw [haccess] at h; contradiction
    | ok b state' =>
      rw [haccess] at h
      injection h with hb
      exact ⟨state', by rw [hb]⟩
  · rintro ⟨state', h⟩
    exact answer_eq_ok h

/-- The same outcome, its state seen as part of another. -/
def mapState (wrap : σ → τ) : EStateM.Result CodecError σ α → EStateM.Result CodecError τ α
  | .ok a state => .ok a (wrap state)
  | .error e state => .error e (wrap state)

/-- Works on the part of a state that `get` shows and `set` puts back. -/
def focus (get : σ → τ) (set : τ → σ → σ) (access : Access τ α) : Access σ α := fun state ↦
  mapState (fun part ↦ set part state) (access (get state))

theorem mapState_eq_ok_iff {wrap : σ → τ} {outcome : EStateM.Result CodecError σ α} {a : α}
    {state' : τ} :
    mapState wrap outcome = .ok a state' ↔
      ∃ state, outcome = .ok a state ∧ wrap state = state' := by
  constructor
  · intro h
    cases outcome with
    | error e state => contradiction
    | ok b state =>
      injection h with hb hwrap
      exact ⟨state, by rw [hb], hwrap⟩
  · rintro ⟨state, rfl, rfl⟩
    rfl

theorem bind_apply {ε β : Type} (access : EStateM ε σ α) (next : α → EStateM ε σ β) (state : σ) :
    (access >>= next) state =
      match access state with
      | .ok a state' => next a state'
      | .error e state' => .error e state' := by
  change EStateM.bind access next state = _
  unfold EStateM.bind
  cases access state <;> rfl

theorem pure_apply {ε : Type} (a : α) (state : σ) :
    (pure a : EStateM ε σ α) state = .ok a state := rfl

theorem map_apply {ε β : Type} (f : α → β) (access : EStateM ε σ α) (state : σ) :
    (f <$> access) state =
      match access state with
      | .ok a state' => .ok (f a) state'
      | .error e state' => .error e state' := by
  change EStateM.map f access state = _
  unfold EStateM.map
  cases access state <;> rfl

theorem discard_apply {ε : Type} (access : EStateM ε σ α) (state : σ) :
    (discard access) state =
      match access state with
      | .ok _ state' => .ok () state'
      | .error e state' => .error e state' :=
  map_apply (fun _ ↦ ()) access state

theorem ofExcept_apply {ε : Type} (outcome : Except ε α) (state : σ) :
    (MonadExcept.ofExcept outcome : EStateM ε σ α) state =
      match outcome with
      | .ok a => .ok a state
      | .error e => .error e state := by
  cases outcome <;> rfl

theorem bind_eq_ok_iff {β : Type} {access : Access σ α} {next : α → Access σ β}
    {state state' : σ} {b : β} :
    (access >>= next) state = .ok b state' ↔
      ∃ a middle, access state = .ok a middle ∧ next a middle = .ok b state' := by
  rw [bind_apply]
  constructor
  · intro h
    cases hfirst : access state with
    | error e middle => rw [hfirst] at h; contradiction
    | ok a middle => exact ⟨a, middle, rfl, by rwa [hfirst] at h⟩
  · rintro ⟨a, middle, hfirst, h⟩
    rwa [hfirst]

theorem focus_eq_ok_iff {get : σ → τ} {set : τ → σ → σ} {access : Access τ α}
    {state state' : σ} {a : α} :
    focus get set access state = .ok a state' ↔
      ∃ part, access (get state) = .ok a part ∧ set part state = state' := by
  unfold focus
  constructor
  · intro h
    cases hpart : access (get state) with
    | error e part => rw [hpart] at h; contradiction
    | ok a part =>
      rw [hpart] at h
      injection h with ha hstate
      exact ⟨part, by rw [ha], hstate⟩
  · rintro ⟨part, hpart, rfl⟩
    rw [hpart]
    rfl

/-! ## What an access leaves -/

section

variable {β : Type}

theorem after_bind (access : Access σ α) (next : α → Access σ β) (state : σ) :
    (access >>= next).after state =
      match access state with
      | .ok a state' => (next a).after state'
      | .error _ state' => state' := by
  unfold after
  rw [bind_apply]
  cases access state <;> rfl

theorem after_map (f : α → β) (access : Access σ α) (state : σ) :
    (f <$> access).after state = access.after state := by
  unfold after
  rw [map_apply]
  cases access state <;> rfl

theorem after_answer (f : α → β) (access : Access σ α) (state : σ) :
    (do return f (← access) : Access σ β).after state = access.after state := by
  rw [after_bind]
  unfold after
  cases access state <;> rfl

theorem after_focus (get : σ → τ) (set : τ → σ → σ) (access : Access τ α) (state : σ) :
    (focus get set access).after state = set (access.after (get state)) state := by
  unfold after focus
  cases access (get state) <;> rfl

theorem after_mapState {access : Access σ α} {whole : Access τ α} {wrap : σ → τ} {state : σ}
    {state' : τ} (h : whole state' = mapState wrap (access state)) :
    whole.after state' = wrap (access.after state) := by
  unfold after
  rw [h]
  cases access state <;> rfl

theorem after_eq_ok {access : Access σ α} {state state' : σ} {a : α}
    (h : access state = .ok a state') : access.after state = state' := by
  rw [after, h]

theorem after_eq_error {access : Access σ α} {state state' : σ} {e : CodecError}
    (h : access state = .error e state') : access.after state = state' := by
  rw [after, h]

theorem eq_ok_after {access : Access σ α} {state : σ} {a : α}
    (h : access.answer state = .ok a) : access state = .ok a (access.after state) := by
  obtain ⟨state', hok⟩ := answer_eq_ok_iff.1 h
  rw [after_eq_ok hok, hok]

theorem eq_error_after {access : Access σ α} {state : σ} {e : CodecError}
    (h : access.answer state = .error e) : access state = .error e (access.after state) := by
  unfold answer at h
  cases haccess : access state with
  | ok a state' => rw [haccess] at h; contradiction
  | error e' state' =>
    rw [haccess] at h
    injection h with he
    rw [after_eq_error haccess, he]

theorem eq_error_of_map {access : Access σ α} {f : α → β} {state state' : σ} {e : CodecError}
    (h : (f <$> access) state = .error e state') : access state = .error e state' := by
  rw [map_apply] at h
  cases haccess : access state with
  | ok a middle => rw [haccess] at h; contradiction
  | error e' middle =>
    rw [haccess] at h
    injection h with he hstate
    rw [he, hstate]

theorem eq_error_of_answer {access : Access σ α} {f : α → β} {state state' : σ} {e : CodecError}
    (h : (do return f (← access) : Access σ β) state = .error e state') :
    access state = .error e state' := by
  rw [bind_pure_comp] at h
  exact eq_error_of_map h

theorem eq_error_of_discard {access : Access σ α} {state state' : σ} {e : CodecError}
    (h : (discard access) state = .error e state') : access state = .error e state' := by
  have hmap : ((fun _ ↦ ()) <$> access) state = .error e state' := h
  exact eq_error_of_map hmap

end

/-! ## Lists of states -/

/-- Runs an access on every state; `done` and `answers` are in reverse. -/
def eachOnto (access : Access σ α) (done : List σ) (answers : List α) :
    List σ → EStateM.Result CodecError (List σ) (List α)
  | [] => .ok answers.reverse done.reverse
  | state :: rest =>
    match access state with
    | .ok a state' => eachOnto access (state' :: done) (a :: answers) rest
    | .error e state' => .error e (done.reverse ++ state' :: rest)

/-- Runs an access on every state of a list, from the first to the last, and stops at the first
failure. -/
def each (access : Access σ α) : Access (List σ) (List α) := fun states ↦
  eachOnto access [] [] states

theorem eachOnto_eq (access : Access σ α) (done : List σ) (answers : List α) (states : List σ) :
    eachOnto access done answers states =
      match each access states with
      | .ok as states' => .ok (answers.reverse ++ as) (done.reverse ++ states')
      | .error e states' => .error e (done.reverse ++ states') := by
  induction states generalizing done answers with
  | nil => simp [each, eachOnto]
  | cons state rest ih =>
    simp only [each, eachOnto]
    cases access state with
    | ok a state' =>
      simp only [ih (state' :: done) (a :: answers), ih [state'] [a]]
      cases each access rest <;> simp
    | error e state' => simp

@[simp]
theorem each_nil (access : Access σ α) : each access [] = .ok [] [] := rfl

theorem each_cons (access : Access σ α) (state : σ) (rest : List σ) :
    each access (state :: rest) =
      match access state with
      | .ok a state' =>
        match each access rest with
        | .ok as rest' => .ok (a :: as) (state' :: rest')
        | .error e rest' => .error e (state' :: rest')
      | .error e state' => .error e (state' :: rest) := by
  rw [each, eachOnto]
  cases access state with
  | ok a state' =>
    simp only [eachOnto_eq]
    cases each access rest <;> simp
  | error e state' => simp

/-- Runs an access on one state of a list, if the index is in range. -/
def at? (index : Nat) (access : Access σ α) : Access (List σ) (Option α) := fun states ↦
  match states[index]? with
  | none => .ok none states
  | some state => mapState (fun state' ↦ states.set index state') ((some <$> access) state)

/-- As `at?`; an index out of range is an error. -/
def atIndex (index : Nat) (access : Access σ α) : Access (List σ) α := do
  match ← at? index access with
  | some a => pure a
  | none => throw (.indexOutOfBounds index (← get).length)

/-- Takes one state out of a list. -/
def detach (index : Nat) : Access (List σ) σ := fun states ↦
  match states[index]? with
  | none => .error (.indexOutOfBounds index states.length) states
  | some state => .ok state (states.eraseIdx index)

/-- Puts a state at the end of a list. -/
def append (state : σ) : Access (List σ) Unit :=
  modify (· ++ [state])

end Access

end CoinWire
